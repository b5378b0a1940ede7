import Unxorer.Emulator.ImageSnapshot
import Unxorer.Emulator.LastWrites
import Unxorer.Plugin.Display

/-!
# Where displayed strings come from

A worker's emulator starts with the bytes of the analysed program in memory and with zeros. What
it is used for afterwards, in one run after the other, brings other bytes into its memory only by
writing them. So each character that is displayed was a byte of the program, or an instruction
the worker has emulated has written it.

## Main definitions

* `WrittenBy` — a step of a worker's run has written a byte
* `Sourced` — the characters of a found string belong to the program or have been written

## Main results

* `sourced_of_trace` — everything that is displayed is sourced, after every interleaving
-/

set_option autoImplicit false

namespace Unxorer.Plugin

open Unicorn Transition Strings

variable {U : Type} [Unicorn U] {threads : ℕ}

/-- The engine a step opens for a new emulator. -/
def Event.opens : Event U threads → Option U
  | .worker _ (.create opened) => some opened
  | _ => none

/-- The engines that have been opened, latest first. -/
def creations (past : History U threads) : List U := past.filterMap fun p => p.2.opens

/-- A step of a run of the worker has written this byte. -/
def WrittenBy [Host] (past : History U threads) (w : Fin threads) (x : Addr) (value : Byte) :
    Prop :=
  ∃ s event index r seen c r', (s, Event.worker w (.emulate event)) ∈ past ∧
    s.phase w = .running index r seen ∧ RunStep event (s.counters, r) (c, r') ∧
    Puts r.emulator r'.emulator event x value

/-- Engines have been opened without memory. -/
def OpensEmpty (past : History U threads) : Prop := ∀ u ∈ creations past, ∀ x, mapped u x = false

/-- At some time a worker's program had a text at the found string's address which makes its
data, and each character of it is a byte of the analysed program at this address or had been
written there by a run of this worker. -/
def Sourced [Host] (db : Database) (past : History U threads) (f : FoundString) : Prop :=
  ∃ later t event earlier w index r seen text, past = later ++ (t, event) :: earlier ∧
    t.phase w = .running index r seen ∧ HoldsText r.emulator.engine f.ptr text ∧
    f.data = stored text ∧ ∀ k (inside : k < text.length),
      db.Holds (f.ptr + BitVec.ofNat 64 k) text[k] ∨
        WrittenBy earlier w (f.ptr + BitVec.ofNat 64 k) text[k]

/-! ### The memory of the workers -/

/-- The emulator of a worker, where it has one. -/
def WorkerPhase.emulator : WorkerPhase U → Option (Emulator U)
  | .starting | .left => none
  | .head e | .claiming e | .claimed _ e | .merging _ e | .merged _ e => some e
  | .running _ r _ => some r.emulator

/-- What holds of a worker's emulator at all times. -/
structure Keeps [Host] (job : Job) (past : History U threads) (w : Fin threads) (e : Emulator U) :
    Prop where
  image : e.image = job.image
  well : e.WellMapped
  accounted : e.Accounted (WrittenBy past w)

section Steps

variable {job : Job} {past : History U threads} {s t : State U threads} {w : Fin threads}
  {e : Emulator U}

theorem OpensEmpty.mono {earlier : History U threads} (opens : OpensEmpty past)
    (suffix : earlier <:+ past) : OpensEmpty earlier :=
  fun u member => opens u ((suffix.sublist.filterMap _).subset member)

variable [Host]

theorem WrittenBy.later {x : Addr} {value : Byte} (written : WrittenBy past w x value)
    (step : State U threads × Event U threads) : WrittenBy (step :: past) w x value := by
  obtain ⟨s, event, index, r, seen, c, r', member, written⟩ := written
  exact ⟨s, event, index, r, seen, c, r', List.mem_cons_of_mem _ member, written⟩

theorem Keeps.later (keeps : Keeps job past w e) (step : State U threads × Event U threads) :
    Keeps job (step :: past) w e :=
  ⟨keeps.image, keeps.well, keeps.accounted.mono fun _ _ written => written.later step⟩

theorem Keeps.startRun {args : RunArgs} {r : RunState U} (keeps : Keeps job past w e)
    (started : e.startRun args = .ok r) : Keeps job past w r.emulator where
  image := (Emulator.startRun_sameCore started).1.image.trans keeps.image
  well := (Emulator.startRun_wellMapped keeps.well started).1
  accounted := keeps.accounted.startRun keeps.well started

theorem Keeps.emulate {index : ℕ} {r r' : RunState U} {seen : Option Bool} {event : RunEvent U}
    {c : Counters} (keeps : Keeps job past w r.emulator)
    (here : s.phase w = .running index r seen) (step : RunStep event (s.counters, r) (c, r')) :
    Keeps job ((s, .worker w (.emulate event)) :: past) w r'.emulator where
  image := step.sameCore.image.trans keeps.image
  well := step.wellMapped keeps.well
  accounted := (keeps.accounted.step step).mono fun x value => by
    rintro (old | puts)
    · exact old.later _
    · exact ⟨s, event, index, r, seen, c, r', List.mem_cons_self, here, step, puts⟩

/-- A step of a worker keeps what holds of its emulator. -/
theorem WorkerStep.keeps {event : WorkerEvent U} (step : WorkerStep job w event s t)
    (opens : OpensEmpty ((s, .worker w event) :: past))
    (keeps : ∀ e, (s.phase w).emulator = some e → Keeps job past w e)
    (now : (t.phase w).emulator = some e) : Keeps job ((s, .worker w event) :: past) w e := by
  cases step with
  | create opened here ready =>
    simp only [State.phase_go, Function.update_self, WorkerPhase.emulator, Option.some.injEq] at now
    subst now
    have empty := opens opened List.mem_cons_self
    refine ⟨?_, Emulator.create_wellMapped ready empty, Emulator.accounted_of_create ready empty⟩
    obtain ⟨u₁, u₂, -, -, ⟨heap, rfl⟩ | ⟨base, u₃, -, -, rfl⟩⟩ := Emulator.create_cases ready
    · rfl
    · rfl
  | fail here | stop here | overrun here =>
    simp [State.go, WorkerPhase.emulator] at now
  | begin here found started =>
    simp only [State.phase_go, Function.update_self, WorkerPhase.emulator, Option.some.injEq] at now
    subst now
    rw [here] at keeps
    exact ((keeps _ rfl).startRun started).later _
  | emulate here sees step =>
    simp only [State.go, Function.update_self, WorkerPhase.emulator, Option.some.injEq] at now
    subst now
    have before := here
    rw [here] at keeps
    exact (keeps _ rfl).emulate before step
  | proceed here | claim here | loadAtHead here | loadInHook here | merge here | count here
  | finish here =>
    simp only [State.go, Function.update_self, WorkerPhase.emulator, Option.some.injEq] at now
    subst now
    rw [here] at keeps
    exact (keeps _ rfl).later _

theorem keeps_of_trace {c : Counters} (trace : Trace (Step job) (State.initial c threads) past s)
    (opens : OpensEmpty past) (found : (s.phase w).emulator = some e) : Keeps job past w e := by
  refine (trace.invariant (P := fun past s => OpensEmpty past →
    ∀ w e, (s.phase w).emulator = some e → Keeps job past w e) ?_ ?_) opens w e found
  · intro _ w e found
    cases found
  intro past s event t before step opens v e found
  have keeps := before (opens.mono (List.suffix_cons _ _))
  cases step with
  | main step =>
    have same : t.phase = s.phase := by cases step <;> rfl
    rw [same] at found
    exact (keeps v e found).later _
  | @worker _ _ w event step =>
    by_cases same : v = w
    · subst same
      exact step.keeps opens (keeps v) found
    · rw [step.phase_of_ne same] at found
      exact (keeps v e found).later _

/-! ### Characters -/

/-- A character of a text in a worker's memory belongs to the program or has been written. -/
theorem Keeps.character {db : Database} (keeps : Keeps job past w e)
    (captured : captureImageSnapshot db = some job.image) {p : Addr} {text : List Byte}
    (holds : HoldsText e.engine p text) (readable : Readable e.engine p (text.length + 1)) {k : ℕ}
    (inside : k < text.length) : db.Holds (p + BitVec.ofNat 64 k) text[k] ∨
      WrittenBy past w (p + BitVec.ofNat 64 k) text[k] := by
  have present : mapped e.engine (p + BitVec.ofNat 64 k) = true := by
    rcases readable k (by omega) with stack | present
    · exact (keeps.well.law.mapped_iff _).mpr (.inl (.inr (.inl stack)))
    · exact present
  have character : byte e.engine (p + BitVec.ofNat 64 k) = text[k] := by
    have entry := holds.getElem? inside.le
    rw [List.getElem?_append_left inside, List.getElem?_eq_getElem inside] at entry
    exact Option.some.inj entry
  have nonzero : text[k] ≠ 0 := by
    intro zero
    have printable := holds.alphabet _ (List.getElem_mem inside)
    rw [zero] at printable
    exact absurd printable (by decide)
  rcases keeps.accounted _ text[k] (by rw [guestByte, if_pos present, character]) nonzero with
    ⟨within, contents⟩ | written
  · rw [Emulator.InImage, keeps.image] at within
    rw [keeps.image] at contents
    have proper : job.image.mapSize ≠ 0 := by
      intro zero
      rw [zero] at within
      exact Nat.not_lt_zero _ within
    have held := (captureLaw captured proper).holds within (by rwa [contents])
    exact .inl (contents ▸ held)
  · exact .inr written

/-- Every displayed string is sourced, after every interleaving of the threads, where the image was
captured from the database and engines are opened without memory. -/
theorem sourced_of_trace {db : Database} {c : Counters} {set : List FoundString}
    (captured : captureImageSnapshot db = some job.image)
    (trace : Trace (Step job) (State.initial c threads) past s) (opens : OpensEmpty past)
    (done : s.main = .done set) : ∀ f ∈ set, Sourced db past f := by
  intro f member
  obtain ⟨t, before, w, index, r, seen, running, shows⟩ := emulating_of_displayed trace done member
  obtain ⟨⟨t, event⟩, inside, rfl⟩ := List.mem_map.mp before
  obtain ⟨later, earlier, split⟩ := List.append_of_mem inside
  rw [split] at trace opens
  obtain ⟨text, holds, readable, data⟩ := shows.text
  have suffix : earlier <:+ later ++ (t, event) :: earlier :=
    (List.suffix_cons _ _).trans (List.suffix_append _ _)
  have keeps : Keeps job earlier w r.emulator :=
    keeps_of_trace trace.of_append (opens.mono suffix) (by rw [running]; rfl)
  exact ⟨later, t, event, earlier, w, index, r, seen, text, split, running, holds, data,
    fun k inside => keeps.character captured holds readable inside⟩

end Steps

/-! ### A run on a captured image -/

namespace Example

open Unxorer.Example

/-- The database of the example. -/
def database : Database where
  minEa := 0x140000000
  maxEa := 0x140001000
  getBytes _ n := List.replicate (min n 0x1000) 0x90
  getBytes_length _ n := by
    rw [List.length_replicate]
    exact Nat.min_le_left n _
  imports := [(0x140000020, "malloc")]
  funcs := []
  decodeInsn _ := none

theorem captureImageSnapshot_database :
    captureImageSnapshot database = some twoFunctions.image := by
  have bytes : database.bytes = List.replicate 0x1000 0x90 := rfl
  have imports : ImportResolver.buildImportMap database.imports database.funcs
      database.decodeInsn = image.importMap := by
    funext a
    by_cases slot : a = 0x140000020
    · rw [slot]
      rfl
    · change (Function.update (fun _ => none) 0x140000020 (some "malloc") a).or none =
        if a = 0x140000020 then some "malloc" else none
      rw [Function.update_of_ne slot, if_neg slot]
      rfl
  have buffer : overwrite (List.replicate 0x1000 0) 0 (List.replicate 0x1000 0x90) =
      List.replicate 0x1000 0x90 := by
    rw [overwrite, List.take_zero, List.nil_append, List.length_replicate,
      List.drop_replicate]
    exact List.append_nil _
  rw [captureImageSnapshot, if_neg (by decide), bytes, imports]
  exact congrArg (fun backup => some { image with imageBackup := backup }) buffer

end Example

/-- Two strings are displayed that two workers have found. -/
theorem sourced_of_trace_turns : ∃ (past : History Machine twoFunctions.threadCount)
    (s : State Machine twoFunctions.threadCount) (set : List FoundString),
    Trace (Step twoFunctions) (.initial Unxorer.Example.noCounts _) past s ∧
      runs past = [(1, [secondFound]), (0, [firstFound])] ∧ s.main = .done set ∧
      ∀ f ∈ set, Sourced Example.database past f := by
  obtain ⟨past, s, set, trace, done, labels⟩ := exists_turns
  have opened : creations past = [Machine.empty, Machine.empty] := by
    have events : creations past = (past.map Prod.snd).filterMap Event.opens := by
      rw [List.filterMap_map]
      rfl
    rw [events, labels]
    rfl
  have opens : OpensEmpty past := by
    intro u member
    rw [opened, List.mem_cons, List.mem_singleton, or_self] at member
    rw [member]
    exact fun _ => rfl
  exact ⟨past, s, set, trace, runs_of_turns labels, done,
    sourced_of_trace Example.captureImageSnapshot_database trace opens done⟩

end Unxorer.Plugin
