import Unxorer.Emulator.Provenance
import Unxorer.Plugin.Isolation

/-!
# What is displayed in the end

The strings of a run go into the set of its worker, and the sets of the workers into the one
that is displayed. Every element keeps its addresses on the way, so what is shown for a string
is where and when some worker's program had it in its memory.

## Main definitions

* `Emulating` — a worker's emulator has a text in memory that makes a found string
* `DisplayLaw` — what holds of the displayed strings

## Main results

* `displayLaw_of_trace` — the law holds after every interleaving
-/

set_option autoImplicit false

namespace Unxorer

/-- What is stored for a text in memory is printable and has no space at its ends. -/
theorem Shows.printable {U : Type} [Unicorn U] {u : U} {f : FoundString} (shows : Shows u f) :
    (∀ b ∈ f.data, Strings.IsPrintable b) ∧
      f.data.head? ≠ some 0x20 ∧ f.data.getLast? ≠ some 0x20 := by
  obtain ⟨text, holds, -, data⟩ := shows.text
  rw [data]
  have ends := @Strings.ends_trim (Strings.escapeControlChars text) 0x20
  refine ⟨fun b member => Strings.printable_stored holds.alphabet member, ?_, ?_⟩
  · intro space
    exact absurd (ends.1 space) (by decide)
  · intro space
    exact absurd (ends.2 space) (by decide)

/-- Every element has the hash of its string. -/
def Hashed (set : List FoundString) : Prop := ∀ t ∈ set, t.hash = Strings.hashString t.data

theorem FoundString.nodup_emplace {set : List FoundString} {s : FoundString} (hashed : Hashed set)
    (hash : s.hash = Strings.hashString s.data) (distinct : (set.map data).Nodup) :
    ((emplace set s).map data).Nodup := by
  rw [emplace_eq_insert hashed hash, FirstByKey.insert]
  by_cases known : s.data ∈ set.map data
  · rwa [if_pos known]
  · rw [if_neg known, List.map_append, List.map_singleton]
    exact List.nodup_append.mpr ⟨distinct, List.nodup_singleton _, fun d old d' new same =>
      known (List.mem_singleton.mp new ▸ same ▸ old)⟩

namespace Plugin

open Transition

/-! ### Sets of found strings -/

theorem mem_insertAll {set found : List FoundString} {f : FoundString}
    (member : f ∈ insertAll set found) : f ∈ set ∨ f ∈ found := by
  induction found generalizing set with
  | nil => exact .inl member
  | cons s found ih =>
    rcases ih member with first | later
    · rcases FoundString.mem_or_eq_of_mem_emplace first with old | rfl
      · exact .inl old
      · exact .inr List.mem_cons_self
    · exact .inr (List.mem_cons_of_mem s later)

theorem Hashed.insertAll {set found : List FoundString} (first : Hashed set)
    (second : Hashed found) : Hashed (insertAll set found) := by
  intro t member
  rcases mem_insertAll member with old | new
  · exact first t old
  · exact second t new

theorem nodup_insertAll {set found : List FoundString} (first : Hashed set) (second : Hashed found)
    (distinct : (set.map FoundString.data).Nodup) :
    ((insertAll set found).map FoundString.data).Nodup := by
  induction found generalizing set with
  | nil => exact distinct
  | cons s found ih =>
    have hash := second s List.mem_cons_self
    refine ih (fun t member => ?_) (fun t later => second t (List.mem_cons_of_mem s later))
      (FoundString.nodup_emplace first hash distinct)
    rcases FoundString.mem_or_eq_of_mem_emplace member with old | rfl
    · exact first t old
    · exact hash

/-- What the aggregation of some of the sets holds comes from one of them. -/
theorem foldl_insertAll {threads : ℕ} {results : Fin threads → List FoundString}
    (hashed : ∀ w, Hashed (results w)) (ws : List (Fin threads)) {set : List FoundString}
    (first : Hashed set) (distinct : (set.map FoundString.data).Nodup) :
    (∀ f ∈ ws.foldl (fun set w => insertAll set (results w)) set, f ∈ set ∨ ∃ w, f ∈ results w) ∧
      ((ws.foldl (fun set w => insertAll set (results w)) set).map FoundString.data).Nodup := by
  induction ws generalizing set with
  | nil => exact ⟨fun f member => .inl member, distinct⟩
  | cons w ws ih =>
    obtain ⟨members, nodup⟩ := ih (Hashed.insertAll first (hashed w))
      (nodup_insertAll first (hashed w) distinct)
    refine ⟨fun f member => ?_, nodup⟩
    rcases members f member with merged | other
    · rcases mem_insertAll merged with old | new
      · exact .inl old
      · exact .inr ⟨w, new⟩
    · exact .inr other

theorem mem_aggregate {threads : ℕ} {results : Fin threads → List FoundString}
    (hashed : ∀ w, Hashed (results w)) {f : FoundString} (member : f ∈ aggregate results) :
    ∃ w, f ∈ results w :=
  ((foldl_insertAll hashed _ (fun _ member => absurd member List.not_mem_nil) List.nodup_nil).1 f
    member).resolve_left List.not_mem_nil

theorem nodup_aggregate {threads : ℕ} {results : Fin threads → List FoundString}
    (hashed : ∀ w, Hashed (results w)) : ((aggregate results).map FoundString.data).Nodup :=
  (foldl_insertAll hashed _ (fun _ member => absurd member List.not_mem_nil) List.nodup_nil).2

/-! ### The way of a found string -/

variable {U : Type} [Unicorn U] {threads : ℕ}

/-- The found strings of the run a worker is in or has just been in. -/
def WorkerPhase.found : WorkerPhase U → List FoundString
  | .running _ r _ => r.emulator.stringList
  | .merging _ e => e.stringList
  | _ => []

/-- Some worker is in a run and has a text in memory that makes this found string. -/
def Emulating (s : State U threads) (f : FoundString) : Prop :=
  ∃ w index r seen, s.phase w = .running index r seen ∧ Shows r.emulator.engine f

/-- It was so before some step, or is so now. -/
def Witnessed (past : History U threads) (s : State U threads) (f : FoundString) : Prop :=
  ∃ t ∈ s :: past.map Prod.fst, Emulating t f

section Steps

variable {job : Job} {past : History U threads} {s t : State U threads} {f : FoundString}

theorem Witnessed.later {event : Event U threads} (witnessed : Witnessed past s f) :
    Witnessed ((s, event) :: past) t f := by
  obtain ⟨x, member, emulating⟩ := witnessed
  exact ⟨x, List.mem_cons_of_mem t member, emulating⟩

theorem Witnessed.hash (witnessed : Witnessed past s f) : f.hash = Strings.hashString f.data := by
  obtain ⟨t, -, w, index, r, seen, -, shows⟩ := witnessed
  exact shows.hash

variable [Host] {w : Fin threads} {event : WorkerEvent U}

/-- What a worker has found that it had not found before shows a text in its memory. -/
theorem WorkerStep.found_cases (step : WorkerStep job w event s t) (v : Fin threads)
    (member : f ∈ (t.phase v).found) :
    f ∈ (s.phase v).found ∨ Emulating s f ∨ Emulating t f := by
  by_cases same : v = w
  · subst same
    cases step with
    | emulate here sees step =>
      simp only [State.phase_go, Function.update_self, WorkerPhase.found] at member
      rcases step.strings.new f member with old | before | after
      · rw [here]
        exact .inl old
      · exact .inr (.inl ⟨v, _, _, _, here, before⟩)
      · exact .inr (.inr ⟨v, _, _, none, Function.update_self _ _ _, after⟩)
    | begin here found started =>
      simp only [State.phase_go, Function.update_self, WorkerPhase.found,
        startRun_stringList started] at member
      exact absurd member List.not_mem_nil
    | loadAtHead here | loadInHook here | finish here ended =>
      rw [here]
      refine .inl ?_
      simpa [WorkerPhase.found] using member
    | create | fail | stop | proceed | claim | overrun | merge | count =>
      simp [WorkerPhase.found] at member
  · rw [step.phase_of_ne same] at member
    exact .inl member

/-- A worker's set stays as it is, or what the worker has found goes into it. -/
theorem WorkerStep.partialResults_cases (step : WorkerStep job w event s t) (v : Fin threads) :
    t.partialResults v = s.partialResults v ∨
      t.partialResults v = insertAll (s.partialResults v) (s.phase v).found := by
  cases step with
  | merge here =>
    by_cases same : v = w
    · subst same
      refine .inr ?_
      rw [here]
      exact Function.update_self _ _ _
    · exact .inl (Function.update_of_ne same _ _)
  | _ => exact .inl rfl

/-- Everything in a set or on the way there is the work of some emulator, and no set has a
string twice. -/
structure Traceable (past : History U threads) (s : State U threads) : Prop where
  results : ∀ w, ∀ f ∈ s.partialResults w, Witnessed past s f
  underway : ∀ w, ∀ f ∈ (s.phase w).found, Witnessed past s f
  distinct : ∀ w, ((s.partialResults w).map FoundString.data).Nodup

omit [Host] in
theorem Traceable.initial (c : Counters) :
    Traceable [] (State.initial (U := U) c threads) where
  results _ _ member := absurd member List.not_mem_nil
  underway _ _ member := absurd member List.not_mem_nil
  distinct _ := List.nodup_nil

theorem Traceable.step {event : Event U threads} (traceable : Traceable past s)
    (step : Step job event s t) : Traceable ((s, event) :: past) t := by
  cases step with
  | main step =>
    have same : t.partialResults = s.partialResults ∧ t.phase = s.phase := by
      cases step <;> exact ⟨rfl, rfl⟩
    refine ⟨fun w f member => ?_, fun w f member => ?_, fun w => ?_⟩
    · rw [same.1] at member
      exact (traceable.results w f member).later
    · rw [same.2] at member
      exact (traceable.underway w f member).later
    · rw [same.1]
      exact traceable.distinct w
  | worker step =>
    refine ⟨fun v f member => ?_, fun v f member => ?_, fun v => ?_⟩
    · rcases step.partialResults_cases v with same | merged
      · rw [same] at member
        exact (traceable.results v f member).later
      · rw [merged] at member
        rcases mem_insertAll member with old | new
        · exact (traceable.results v f old).later
        · exact (traceable.underway v f new).later
    · rcases step.found_cases v member with old | before | after
      · exact (traceable.underway v f old).later
      · exact ⟨s, List.mem_cons_of_mem t List.mem_cons_self, before⟩
      · exact ⟨t, List.mem_cons_self, after⟩
    · rcases step.partialResults_cases v with same | merged
      · rw [same]
        exact traceable.distinct v
      · rw [merged]
        exact nodup_insertAll (fun f member => (traceable.results v f member).hash)
          (fun f member => (traceable.underway v f member).hash) (traceable.distinct v)

/-! ### The law -/

/-- What holds of the strings that are displayed: each was in the memory of some worker's
program, at the address and with RIP as displayed; it is printable and has no space at its ends;
and no string is displayed twice. -/
structure DisplayLaw (past : History U threads) (set : List FoundString) : Prop where
  witnessed : ∀ f ∈ set, ∃ t ∈ past.map Prod.fst, Emulating t f
  printable : ∀ f ∈ set, ∀ b ∈ f.data, Strings.IsPrintable b
  trimmed : ∀ f ∈ set, f.data ≠ [] ∧ f.data.head? ≠ some 0x20 ∧ f.data.getLast? ≠ some 0x20
  distinct : (set.map FoundString.data).Nodup

/-- What is displayed has been in the memory of some worker's program. -/
theorem emulating_of_displayed {c : Counters} {set : List FoundString}
    (trace : Trace (Step job) (State.initial c threads) past s) (done : s.main = .done set)
    (member : f ∈ set) : ∃ t ∈ past.map Prod.fst, Emulating t f := by
  have traceable : Traceable past s :=
    trace.invariant (.initial c) fun _ _ _ _ traceable step => traceable.step step
  obtain ⟨left, rfl⟩ := (invariant_of_trace trace).joined set done
  have hashed : ∀ w, Hashed (s.partialResults w) :=
    fun w f member => (traceable.results w f member).hash
  obtain ⟨w, inside⟩ := mem_aggregate hashed member
  obtain ⟨t, now | earlier, emulating⟩ := traceable.results w f inside
  · -- All workers have left, so none of them is in a run now.
    obtain ⟨v, index, r, seen, running, -⟩ := emulating
    rw [left v] at running
    cases running
  · exact ⟨t, ‹_›, emulating⟩

/-- The law holds of what is displayed after every interleaving. -/
theorem displayLaw_of_trace {c : Counters} {set : List FoundString}
    (trace : Trace (Step job) (State.initial c threads) past s) (done : s.main = .done set) :
    DisplayLaw past set := by
  have traceable : Traceable past s :=
    trace.invariant (.initial c) fun _ _ _ _ traceable step => traceable.step step
  have shows : ∀ f ∈ set, ∃ u : U, Shows u f := by
    intro f member
    obtain ⟨t, -, w, index, r, seen, -, shows⟩ := emulating_of_displayed trace done member
    exact ⟨_, shows⟩
  obtain ⟨-, same⟩ := (invariant_of_trace trace).joined set done
  have distinct : (set.map FoundString.data).Nodup :=
    same ▸ nodup_aggregate fun w f member => (traceable.results w f member).hash
  refine ⟨fun f => emulating_of_displayed trace done, fun f member => ?_, fun f member => ?_,
    distinct⟩
  · obtain ⟨u, shows⟩ := shows f member
    exact shows.printable.1
  · obtain ⟨u, shows⟩ := shows f member
    exact ⟨shows.nonempty, shows.printable.2⟩

end Steps

/-- What is displayed after two workers have each found a string. -/
theorem displayLaw_of_trace_turns : ∃ (past : History Machine twoFunctions.threadCount)
    (s : State Machine twoFunctions.threadCount) (set : List FoundString),
    Trace (Step twoFunctions) (.initial Example.noCounts _) past s ∧
      runs past = [(1, [secondFound]), (0, [firstFound])] ∧ s.main = .done set ∧
      DisplayLaw past set := by
  obtain ⟨past, s, set, trace, done, labels⟩ := exists_turns
  exact ⟨past, s, set, trace, runs_of_turns labels, done, displayLaw_of_trace trace done⟩

end Plugin

end Unxorer
