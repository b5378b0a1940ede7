import Unxorer.Lib.TicketPool
import Unxorer.Plugin.AllFunctions

/-!
# What the threads have done together

For each point that a run on a function passes, the indices on the way there and those past it
are the tickets of a pool: a worker draws its index from the shared counter and hands it in at
that point. The strings found so far are those in the partial sets and those about to be merged
into one.

## Main definitions

* `Milestone`, `passed` — the points of a run, and the indices that have passed them
* `runs` — the runs that have returned, with the strings they found
* `RunLaw` — what is expected of the threads

## Main results

* `Invariant.step` — every step of a thread keeps the invariant
* `counters_le` — the counters do not wrap around
* `runLaw_of_trace` — the law holds after every interleaving
-/

set_option autoImplicit false

namespace Unxorer.Plugin

open Transition

variable {U : Type} [Unicorn U] {threads : ℕ}

/-! ### The past -/

/-- The points a run on a function passes. -/
inductive Milestone
  | begun | returned | counted

/-- The index a worker has claimed and not yet taken past a milestone. -/
def WorkerPhase.pending : Milestone → WorkerPhase U → Option ℕ
  | _, .claimed index _ => some index
  | .returned, .running index _ _ => some index
  | .counted, .running index _ _ => some index
  | .counted, .merging index _ => some index
  | .counted, .merged index _ => some index
  | _, _ => none

namespace Event

/-- The index an event takes past a milestone. -/
def reaches : Milestone → Event U threads → Option ℕ
  | .begun, .worker _ (.begin index) => some index
  | .returned, .worker _ (.finish index _) => some index
  | .counted, .worker _ (.count index) => some index
  | _, _ => none

/-- The run that returns, with the strings it found. -/
def run : Event U threads → Option (ℕ × List FoundString)
  | .worker _ (.finish index found) => some (index, found)
  | _ => none

end Event

/-- The steps so far, latest first. -/
abbrev History (U : Type) [Unicorn U] (threads : ℕ) := List (State U threads × Event U threads)

/-- The indices that have passed a milestone, latest first. -/
def passed (m : Milestone) (past : History U threads) : List ℕ :=
  past.filterMap fun p => p.2.reaches m

section Passed

variable {m : Milestone} {past : History U threads} {s : State U threads} {event : Event U threads}

theorem passed_cons_none (silent : event.reaches m = none) :
    passed m ((s, event) :: past) = passed m past :=
  List.filterMap_cons_none silent

theorem passed_cons_some {index : ℕ} (reached : event.reaches m = some index) :
    passed m ((s, event) :: past) = index :: passed m past :=
  List.filterMap_cons_some reached

end Passed

/-- The runs that have returned, latest first. -/
def runs (past : History U threads) : List (ℕ × List FoundString) :=
  past.filterMap fun p => p.2.run

theorem passed_returned (past : History U threads) :
    passed .returned past = (runs past).map Prod.fst := by
  rw [passed, runs, List.map_filterMap]
  congr 1
  funext p
  obtain ⟨s, event⟩ := p
  cases event with
  | worker w event => cases event <;> rfl
  | main event => rfl

/-! ### Indices as tickets -/

/-- The pool of the indices that have been claimed, up to a milestone. -/
def pool (m : Milestone) (past : History U threads) (s : State U threads) :
    TicketPool.Pool (Fin threads) :=
  ⟨s.nextIndex, WorkerPhase.pending m ∘ s.phase, passed m past⟩

theorem pending_update (m : Milestone) (phase : Fin threads → WorkerPhase U) (w : Fin threads)
    (p : WorkerPhase U) : WorkerPhase.pending m ∘ Function.update phase w p =
      Function.update (WorkerPhase.pending m ∘ phase) w (p.pending m) :=
  Function.comp_update _ _ _ _

section Pools

variable {job : Job} {m : Milestone} {past : History U threads} {s t : State U threads}
  {w : Fin threads} {event : Event U threads} {p q : WorkerPhase U}

theorem pool_initial (c : Counters) :
    (pool m [] (State.initial (U := U) c threads)).Sound job.total := by
  have free : WorkerPhase.pending m ∘ (State.initial (U := U) c threads).phase = fun _ => none := by
    funext w
    cases m <;> rfl
  rw [pool, free]
  exact .initial

/-- A step that takes no index past the milestone leaves the pool alone. -/
theorem pool_stay (sound : (pool m past s).Sound job.total) (next : t.nextIndex = s.nextIndex)
    (phase : t.phase = Function.update s.phase w p) (here : s.phase w = q)
    (same : p.pending m = q.pending m) (silent : event.reaches m = none) :
    (pool m ((s, event) :: past) t).Sound job.total := by
  have holds : WorkerPhase.pending m ∘ t.phase = WorkerPhase.pending m ∘ s.phase := by
    rw [phase, pending_update, same, ← here]
    exact Function.update_eq_self _ _
  rw [pool, next, holds, passed_cons_none silent]
  exact sound

/-- A step that takes an index past the milestone hands it in. -/
theorem pool_pass (sound : (pool m past s).Sound job.total) {index : ℕ}
    (next : t.nextIndex = s.nextIndex) (phase : t.phase = Function.update s.phase w p)
    (here : s.phase w = q) (before : q.pending m = some index) (after : p.pending m = none)
    (reached : event.reaches m = some index) :
    (pool m ((s, event) :: past) t).Sound job.total := by
  rw [pool, next, phase, pending_update, after, passed_cons_some reached]
  rw [← here] at before
  exact sound.finish before

/-- A claim draws an index, which has passed no milestone yet. -/
theorem pool_claim (sound : (pool m past s).Sound job.total) {e : Emulator U}
    (here : s.phase w = .claiming e) (below : s.nextIndex < job.total)
    (silent : event.reaches m = none) :
    (pool m ((s, event) :: past)
      { s.go w (.claimed s.nextIndex e) with nextIndex := s.nextIndex + 1 }).Sound job.total := by
  have free : (WorkerPhase.pending m ∘ s.phase) w = none := by
    rw [Function.comp_apply, here]
    cases m <;> rfl
  have ticket : (WorkerPhase.claimed s.nextIndex e).pending m = some s.nextIndex := by
    cases m <;> rfl
  have holds : WorkerPhase.pending m ∘ (s.go w (.claimed s.nextIndex e)).phase =
      Function.update (WorkerPhase.pending m ∘ s.phase) w (some s.nextIndex) := by
    rw [State.go, pending_update, ticket]
  have drawn := sound.take free below
  rw [pool, passed_cons_none silent]
  simp only [holds]
  exact drawn

theorem pool_overrun (sound : (pool m past s).Sound job.total) {e : Emulator U}
    (here : s.phase w = .claiming e) (above : job.total ≤ s.nextIndex)
    (silent : event.reaches m = none) :
    (pool m ((s, event) :: past)
      { s.go w .left with nextIndex := s.nextIndex + 1 }).Sound job.total := by
  have same : (WorkerPhase.left : WorkerPhase U).pending m = (s.phase w).pending m := by
    rw [here]
    cases m <;> rfl
  have holds : WorkerPhase.pending m ∘ (s.go w .left).phase = WorkerPhase.pending m ∘ s.phase := by
    rw [State.go, pending_update, same]
    exact Function.update_eq_self _ _
  have beyond := sound.overrun above
  rw [pool, passed_cons_none silent]
  simp only [holds]
  exact beyond

variable [Host]

/-- Every step keeps every pool sound. -/
theorem pool_step (sound : (pool m past s).Sound job.total) (step : Step job event s t) :
    (pool m ((s, event) :: past) t).Sound job.total := by
  cases step with
  | main step =>
    have silent : ∀ e, (Event.main e : Event U threads).reaches m = none := by
      intro e
      cases m <;> rfl
    rw [pool, passed_cons_none (silent _)]
    cases step <;> exact sound
  | worker step =>
    -- Beginning, returning and counting each pass one milestone, a claim draws an index.
    cases step with
    | create opened here | fail here | stop here | proceed here | loadAtHead here
    | loadInHook here | emulate here | merge here =>
      exact pool_stay sound rfl rfl here (by cases m <;> rfl) (by cases m <;> rfl)
    | claim here below => exact pool_claim sound here below (by cases m <;> rfl)
    | overrun here above => exact pool_overrun sound here above (by cases m <;> rfl)
    | begin here found started =>
      cases m with
      | begun => exact pool_pass sound rfl rfl here rfl rfl rfl
      | returned => exact pool_stay sound rfl rfl here rfl rfl
      | counted => exact pool_stay sound rfl rfl here rfl rfl
    | finish here ended =>
      cases m with
      | begun => exact pool_stay sound rfl rfl here rfl rfl
      | returned => exact pool_pass sound rfl rfl here rfl rfl rfl
      | counted => exact pool_stay sound rfl rfl here rfl rfl
    | count here =>
      cases m with
      | begun => exact pool_stay sound rfl rfl here rfl rfl
      | returned => exact pool_stay sound rfl rfl here rfl rfl
      | counted => exact pool_pass sound rfl rfl here rfl rfl rfl

end Pools

/-! ### The strings in a set -/

/-- The strings of a set of found strings. -/
def stringData (set : List FoundString) : Set (List Byte) := {d | ∃ f ∈ set, f.data = d}

@[simp] theorem stringData_nil : stringData [] = ∅ := by simp [stringData]

/-- A string is there after an insertion if it was there or was inserted. An element that is
kept out has the data of one that is in. -/
theorem stringData_emplace (set : List FoundString) (f : FoundString) :
    stringData (FoundString.emplace set f) = stringData set ∪ {f.data} := by
  ext d
  rw [FoundString.emplace]
  constructor
  · rintro ⟨g, member, rfl⟩
    split_ifs at member with known
    · exact .inl ⟨g, member, rfl⟩
    · rcases List.mem_append.mp member with old | new
      · exact .inl ⟨g, old, rfl⟩
      · rw [List.mem_singleton.mp new]
        exact .inr rfl
  · rintro (⟨g, old, rfl⟩ | new)
    · split_ifs
      · exact ⟨g, old, rfl⟩
      · exact ⟨g, List.mem_append_left _ old, rfl⟩
    · rw [Set.mem_singleton_iff.mp new]
      split_ifs with known
      · obtain ⟨g, member, same⟩ := List.any_eq_true.mp known
        rw [Bool.and_eq_true, beq_iff_eq, beq_iff_eq] at same
        exact ⟨g, member, same.2⟩
      · exact ⟨f, List.mem_append_right _ List.mem_cons_self, rfl⟩

theorem stringData_cons (f : FoundString) (found : List FoundString) :
    stringData (f :: found) = {f.data} ∪ stringData found := by
  ext d
  simp [stringData, eq_comm]

theorem stringData_insertAll (set found : List FoundString) :
    stringData (insertAll set found) = stringData set ∪ stringData found := by
  induction found generalizing set with
  | nil => simp [insertAll, stringData]
  | cons f found ih =>
    have first : insertAll set (f :: found) = insertAll (FoundString.emplace set f) found := rfl
    rw [first, ih, stringData_emplace, stringData_cons, Set.union_assoc]

/-- The aggregation loses no string and adds none. -/
theorem stringData_aggregate (results : Fin threads → List FoundString) :
    stringData (aggregate results) = ⋃ w, stringData (results w) := by
  have folded : ∀ (ws : List (Fin threads)) (set : List FoundString),
      stringData (ws.foldl (fun set w => insertAll set (results w)) set) =
        stringData set ∪ ⋃ w ∈ ws, stringData (results w) := by
    intro ws
    induction ws with
    | nil => simp
    | cons w ws ih =>
      intro set
      rw [List.foldl_cons, ih, stringData_insertAll, Set.union_assoc]
      simp
  rw [aggregate, folded]
  ext d
  simp [stringData]

/-! ### Merging -/

/-- What a worker has found and not yet merged. -/
def WorkerPhase.unmerged : WorkerPhase U → List FoundString
  | .merging _ e => e.stringList
  | _ => []

/-- The strings a worker has in its partial set or on the way there. -/
def State.share (s : State U threads) (w : Fin threads) : Set (List Byte) :=
  stringData (s.partialResults w) ∪ stringData (s.phase w).unmerged

/-- The strings the runs have found. -/
def foundData (past : History U threads) : Set (List Byte) :=
  {d | ∃ run ∈ runs past, d ∈ stringData run.2}

/-- What the run that returns has found. -/
def Event.found (event : Event U threads) : List FoundString := (event.run.map Prod.snd).getD []

theorem foundData_cons (past : History U threads) (s : State U threads) (event : Event U threads) :
    foundData ((s, event) :: past) = foundData past ∪ stringData event.found := by
  ext d
  cases returned : event.run with
  | none =>
    have silent : runs ((s, event) :: past) = runs past := List.filterMap_cons_none returned
    simp [foundData, silent, Event.found, returned, stringData]
  | some run =>
    have added : runs ((s, event) :: past) = run :: runs past := List.filterMap_cons_some returned
    simp [foundData, added, Event.found, returned, or_comm]

section Merging

variable {job : Job} {s t : State U threads} {w : Fin threads} {p q : WorkerPhase U}

theorem share_update {v : Fin threads} {added : Set (List Byte)}
    (results : t.partialResults = s.partialResults)
    (phase : t.phase = Function.update s.phase w p) (here : s.phase w = q)
    (found : stringData p.unmerged = stringData q.unmerged ∪ added) :
    t.share v = s.share v ∪ if v = w then added else ∅ := by
  rw [State.share, results, phase, State.share]
  by_cases same : v = w
  · subst same
    rw [Function.update_self, here, found, if_pos rfl, Set.union_assoc]
  · rw [Function.update_of_ne same, if_neg same, Set.union_empty]

theorem share_merge {index : ℕ} {e : Emulator U} (here : s.phase w = .merging index e)
    (v : Fin threads) :
    State.share { s.go w (.merged index e) with
      partialResults := Function.update s.partialResults w
        (insertAll (s.partialResults w) e.stringList) } v = s.share v := by
  rw [State.share, State.share]
  simp only [State.go]
  by_cases same : v = w
  · subst same
    rw [Function.update_self, Function.update_self, here, stringData_insertAll]
    simp [WorkerPhase.unmerged]
  · rw [Function.update_of_ne same, Function.update_of_ne same]

variable [Host]

/-- A step adds what a run returns to the share of its worker, and changes no other share. -/
theorem share_step {event : WorkerEvent U} (step : WorkerStep job w event s t) (v : Fin threads) :
    t.share v = s.share v ∪ if v = w then stringData (Event.worker w event).found else ∅ := by
  have silent : ∀ set : Set (List Byte), set = set ∪ stringData [] := fun set => by simp
  cases step with
  | create opened here | fail here | stop here | proceed here | claim here | overrun here
  | begin here | loadAtHead here | loadInHook here | emulate here | count here =>
    refine share_update rfl rfl here ?_
    exact silent _
  | finish here ended =>
    refine share_update rfl rfl here ?_
    simp [WorkerPhase.unmerged, Event.found, Event.run]
  | merge here =>
    rw [share_merge here]
    simp [Event.found, Event.run]

theorem iUnion_share_step {event : Event U threads} (step : Step job event s t) :
    ⋃ w, t.share w = (⋃ w, s.share w) ∪ stringData event.found := by
  cases step with
  | main step =>
    have nothing : ∀ e, stringData (Event.main e : Event U threads).found = ∅ := by
      intro e
      exact stringData_nil
    rw [nothing, Set.union_empty]
    cases step <;> rfl
  | worker step =>
    rename_i w event
    ext d
    simp only [share_step step, Set.mem_iUnion, Set.mem_union]
    constructor
    · rintro ⟨v, old | new⟩
      · exact .inl ⟨v, old⟩
      · split_ifs at new
        · exact .inr new
        · exact absurd new (Set.notMem_empty d)
    · rintro (⟨v, old⟩ | new)
      · exact ⟨v, .inl old⟩
      · exact ⟨w, .inr (by rwa [if_pos rfl])⟩

end Merging

/-! ### The invariant -/

/-- The workers that have left their loops. -/
def State.leavers (s : State U threads) : Finset (Fin threads) :=
  Finset.univ.filter fun w => (s.phase w).isLeft = true

/-- What holds after every step of a thread. -/
structure Invariant (job : Job) (past : History U threads) (s : State U threads) : Prop where
  pools : ∀ m, (pool m past s).Sound job.total
  completed : s.completed = (passed .counted past).length
  exhausted : ∀ w, s.phase w = .left → s.stopRequested = true ∨ job.total ≤ s.nextIndex
  bounded : s.nextIndex ≤ job.total + s.leavers.card
  strings : ⋃ w, s.share w = foundData past
  joined : ∀ set, s.main = .done set →
    (∀ w, s.phase w = .left) ∧ set = aggregate s.partialResults

section Invariant

variable {job : Job} {past : History U threads} {s t : State U threads} {w : Fin threads}

theorem Invariant.initial (c : Counters) : Invariant job [] (State.initial (U := U) c threads) where
  pools _ := pool_initial c
  completed := rfl
  exhausted _ left := by cases left
  bounded := Nat.zero_le _
  strings := by simp [State.share, State.initial, foundData, runs, WorkerPhase.unmerged]
  joined _ done := by cases done

/-- A worker that moves on from where it has not left leaves all others among the leavers. -/
theorem leavers_subset {p : WorkerPhase U} (active : s.phase w ≠ .left)
    (phase : t.phase = Function.update s.phase w p) : s.leavers ⊆ t.leavers := by
  intro v member
  rw [State.leavers, Finset.mem_filter, WorkerPhase.isLeft_iff] at member ⊢
  have other : v ≠ w := fun same => active (same ▸ member.2)
  rw [phase, Function.update_of_ne other]
  exact member

theorem leavers_insert (phase : t.phase = Function.update s.phase w .left) :
    insert w s.leavers ⊆ t.leavers := by
  intro v member
  rw [State.leavers, Finset.mem_filter, WorkerPhase.isLeft_iff, phase]
  by_cases same : v = w
  · subst same
    exact ⟨Finset.mem_univ _, Function.update_self _ _ _⟩
  · rw [Function.update_of_ne same]
    rcases Finset.mem_insert.mp member with first | old
    · exact absurd first same
    · rw [State.leavers, Finset.mem_filter, WorkerPhase.isLeft_iff] at old
      exact old

theorem notMem_leavers (active : s.phase w ≠ .left) : w ∉ s.leavers := by
  rw [State.leavers, Finset.mem_filter, WorkerPhase.isLeft_iff]
  exact fun member => active member.2

variable [Host]

section WorkerStep

variable {event : WorkerEvent U} (step : WorkerStep job w event s t)
include step

theorem WorkerStep.active : s.phase w ≠ .left := by
  cases step <;> simp [*]

theorem WorkerStep.main_eq : t.main = s.main := by
  cases step <;> rfl

theorem WorkerStep.stop_mono (set : s.stopRequested = true) : t.stopRequested = true := by
  cases step <;> first | exact set | rfl

theorem WorkerStep.nextIndex_le : s.nextIndex ≤ t.nextIndex := by
  cases step <;> first | exact le_rfl | exact Nat.le_succ _

/-- A worker leaves after a failure, at a stop, or when the indices are used up. -/
theorem WorkerStep.left_cases (left : t.phase w = .left) :
    t.stopRequested = true ∨ job.total ≤ t.nextIndex := by
  cases step with
  | fail here => exact .inl rfl
  | stop here set => exact .inl set
  | overrun here above => exact .inr (above.trans (Nat.le_succ _))
  | _ => simp at left

theorem WorkerStep.phase_of_ne {v : Fin threads} (other : v ≠ w) : t.phase v = s.phase v := by
  cases step <;> exact Function.update_of_ne other _ _

theorem WorkerStep.completed_eq (same : s.completed = (passed .counted past).length) :
    t.completed = (passed .counted ((s, .worker w event) :: past)).length := by
  cases step with
  | count here => rw [passed_cons_some rfl, List.length_cons, ← same]
  | _ => exact same

/-- The shared index runs past the total once for each worker that leaves at it. -/
theorem WorkerStep.bounded (bound : s.nextIndex ≤ job.total + s.leavers.card) :
    t.nextIndex ≤ job.total + t.leavers.card := by
  have active := step.active
  have stays : ∀ {t' : State U threads} {p : WorkerPhase U},
      t'.phase = Function.update s.phase w p → s.nextIndex ≤ job.total + t'.leavers.card :=
    fun phase => bound.trans
      (Nat.add_le_add_left (Finset.card_le_card (leavers_subset active phase)) _)
  cases step with
  | claim here below => exact (Nat.succ_le_of_lt below).trans (Nat.le_add_right _ _)
  | overrun here above =>
    have gone : insert w s.leavers ⊆
        State.leavers { s.go w .left with nextIndex := s.nextIndex + 1 } := leavers_insert rfl
    have more := Finset.card_le_card gone
    rw [Finset.card_insert_of_notMem (notMem_leavers active)] at more
    exact (Nat.succ_le_succ bound).trans (Nat.add_le_add_left more _)
  | _ => exact stays rfl

end WorkerStep

/-- Every step of a thread keeps the invariant. -/
theorem Invariant.step {event : Event U threads} (inv : Invariant job past s)
    (step : Step job event s t) : Invariant job ((s, event) :: past) t where
  pools m := pool_step (inv.pools m) step
  completed := by
    cases step with
    | worker step => exact step.completed_eq inv.completed
    | main step => cases step <;> exact inv.completed
  exhausted v left := by
    cases step with
    | main step =>
      cases step with
      | cancel here => exact .inl rfl
      | _ => exact inv.exhausted v left
    | worker step =>
      rename_i w event
      by_cases same : v = w
      · subst same
        exact step.left_cases left
      · rw [step.phase_of_ne same] at left
        exact (inv.exhausted v left).imp step.stop_mono fun all => all.trans step.nextIndex_le
  bounded := by
    cases step with
    | worker step => exact step.bounded inv.bounded
    | main step => cases step <;> exact inv.bounded
  strings := by rw [iUnion_share_step step, inv.strings, foundData_cons]
  joined set done := by
    cases step with
    | worker step =>
      rw [step.main_eq] at done
      exact absurd ((inv.joined set done).1 _) step.active
    | main step =>
      cases step with
      | join here left =>
        cases done
        exact ⟨left, rfl⟩
      | _ => cases done

end Invariant

/-! ### The waiting loop -/

/-- The steps the waiting loop has left when the count is complete. -/
def MainPhase.rest : MainPhase → ℕ
  | .checking => 3
  | .asking => 2
  | .waiting => 1
  | .joining | .done _ => 0

/-- With the count complete, a step of the waiting loop takes it nearer its end. -/
theorem MainStep.rest_lt {job : Job} {s t : State U threads} {event : MainEvent}
    (step : MainStep job event s t) (running : s.stopRequested = false)
    (count : s.completed = job.total) (looping : 0 < s.main.rest) :
    t.main.rest < s.main.rest := by
  cases step with
  | more here less => exact absurd less (by rw [count]; exact lt_irrefl _)
  | stopped here set =>
    rw [running] at set
    exact absurd set Bool.false_ne_true
  | enough here | goOn here | cancel here | sleep here =>
    rw [here]
    simp [MainPhase.rest]
  | join here =>
    rw [here] at looping
    exact absurd looping (lt_irrefl 0)

/-! ### The law -/

section Law

variable [Host]

/-- What is expected of the threads: no function is run twice; when all workers have left and no
stop was requested, every function has been run once and counted, and each step of the waiting
loop takes it nearer its end; and the strings displayed are those the runs have found. -/
structure RunLaw (job : Job) (past : History U threads) (s : State U threads) : Prop where
  once : (passed .begun past).Nodup
  complete : s.stopRequested = false → (∀ w, s.phase w = .left) →
    (passed .begun past).Perm (List.range job.total) ∧
      ((runs past).map Prod.fst).Perm (List.range job.total) ∧ s.completed = job.total
  ends : s.stopRequested = false → (∀ w, s.phase w = .left) → 0 < s.main.rest →
    (∃ (event : Event U threads) (t : State U threads), Step job event s t) ∧
      ∀ (event : Event U threads) (t : State U threads), Step job event s t →
        t.main.rest < s.main.rest
  strings : ∀ set, s.main = .done set → stringData set = ⋃ run ∈ runs past, stringData run.2

theorem invariant_of_trace {job : Job} {c : Counters} {past : History U threads}
    {s : State U threads} (trace : Trace (Step job) (State.initial c threads) past s) :
    Invariant job past s :=
  trace.invariant (.initial c) fun _ _ _ _ inv step => inv.step step

/-- No counter exceeds the number of functions and threads. -/
theorem counters_le {job : Job} {c : Counters} {past : History U threads} {s : State U threads}
    (trace : Trace (Step job) (State.initial c threads) past s) :
    s.completed ≤ job.total ∧ s.nextIndex ≤ job.total + threads := by
  have inv := invariant_of_trace trace
  have leavers : s.leavers.card ≤ threads := by
    have all := Finset.card_le_univ s.leavers
    rwa [Fintype.card_fin] at all
  refine ⟨?_, inv.bounded.trans (Nat.add_le_add_left leavers _)⟩
  rw [inv.completed]
  exact (inv.pools .counted).length_le

/-- The waiting loop is never stuck. -/
theorem exists_step_of_rest {job : Job} {s : State U threads} (running : s.stopRequested = false)
    (looping : 0 < s.main.rest) :
    ∃ (event : Event U threads) (t : State U threads), Step job event s t := by
  cases here : s.main with
  | waiting =>
    rcases Nat.lt_or_ge s.completed job.total with less | all
    · exact ⟨_, _, .main (.more here less)⟩
    · exact ⟨_, _, .main (.enough here all)⟩
  | checking => exact ⟨_, _, .main (.goOn here running)⟩
  | asking => exact ⟨_, _, .main (.sleep here)⟩
  | joining | done =>
    rw [here] at looping
    exact absurd looping (lt_irrefl 0)

/-- The law holds after every interleaving of any number of threads; `threadCount` is never 0. -/
theorem runLaw_of_trace {job : Job} {c : Counters} {past : History U threads}
    {s : State U threads} (positive : 0 < threads)
    (trace : Trace (Step job) (State.initial c threads) past s) : RunLaw job past s := by
  have inv := invariant_of_trace trace
  have complete : s.stopRequested = false → (∀ w, s.phase w = .left) →
      (passed .begun past).Perm (List.range job.total) ∧
        ((runs past).map Prod.fst).Perm (List.range job.total) ∧ s.completed = job.total := by
    intro running left
    have free : ∀ m w, (WorkerPhase.pending m ∘ s.phase) w = none := by
      intro m w
      rw [Function.comp_apply, left w]
      cases m <;> rfl
    -- There is a worker, and it has left because the indices were used up.
    have exhausted : job.total ≤ s.nextIndex := by
      rcases inv.exhausted ⟨0, positive⟩ (left _) with stopped | all
      · rw [running] at stopped
        exact absurd stopped Bool.false_ne_true
      · exact all
    have all : ∀ m, (passed m past).Perm (List.range job.total) :=
      fun m => (inv.pools m).perm_range (free m) exhausted
    refine ⟨all .begun, ?_, ?_⟩
    · rw [← passed_returned]
      exact all .returned
    · rw [inv.completed, (all .counted).length_eq, List.length_range]
  refine ⟨(inv.pools .begun).nodup, complete, ?_, ?_⟩
  · intro running left looping
    have count := (complete running left).2.2
    refine ⟨exists_step_of_rest running looping, ?_⟩
    intro event t step
    cases step with
    | worker step => exact absurd (left _) step.active
    | main step => exact step.rest_lt running count looping
  · intro set done
    obtain ⟨left, rfl⟩ := inv.joined set done
    have shares : ∀ w, s.share w = stringData (s.partialResults w) := by
      intro w
      rw [State.share, left w]
      exact Set.union_eq_self_of_subset_right (by simp [WorkerPhase.unmerged])
    rw [stringData_aggregate, ← Set.iUnion_congr shares, inv.strings]
    ext d
    simp [foundData]

end Law

/-! ### Two functions -/

/-- A database of two functions, at the first two instructions of the example image. -/
def twoFunctions : Job where
  starts := [0x140000000, 0x140000004]
  config := ⟨.stackOnly, 0, 0, 0, true, false⟩
  image := Example.image
  decoded := Example.decoded
  hardware := 8

/-- The workers of eight cores on two functions. -/
def firstWorker : Fin twoFunctions.threadCount := ⟨0, by decide⟩

def secondWorker : Fin twoFunctions.threadCount := ⟨1, by decide⟩

/-- The string of a text at the top of the stack. -/
def topString (rip : Addr) (text : List Byte) : FoundString :=
  ⟨rip, stackBase - 0x1000, Strings.hashString text, text⟩

/-- `abcd` and `efgh`, which the two functions store. -/
def firstFound : FoundString := topString 0x140000000 [0x61, 0x62, 0x63, 0x64]

def secondFound : FoundString := topString 0x140000004 [0x65, 0x66, 0x67, 0x68]

/-- The workers take turns up to the beginning of their runs. The first one gets the second
function. -/
def openingTurns : List (Event Machine twoFunctions.threadCount) :=
  [.worker firstWorker (.create Machine.empty), .worker secondWorker (.create Machine.empty),
    .worker firstWorker .proceed, .worker secondWorker .proceed,
    .worker secondWorker (.claim 0), .worker firstWorker (.claim 1),
    .worker firstWorker (.begin 1), .worker secondWorker (.begin 0)]

def begunRun (start : Addr) : RunState Machine :=
  Example.startedOf Example.decoded false (twoFunctions.runArgs start)

/-- Both workers are at the heads of their runs. -/
def begun : State Machine twoFunctions.threadCount where
  counters := Example.noCounts
  nextIndex := 2
  completed := 0
  stopRequested := false
  partialResults _ := []
  phase w :=
    if w = firstWorker then .running 1 (begunRun 0x140000004) none
    else .running 0 (begunRun 0x140000000) none
  main := .waiting

theorem exists_openingTurns : ∃ past : History Machine twoFunctions.threadCount,
    Trace (Step twoFunctions) (.initial Example.noCounts _) past begun ∧
      past.map Prod.snd = openingTurns.reverse := by
  have ready : Emulator.create Machine.empty twoFunctions.image twoFunctions.decoded
      twoFunctions.emulatorConfig = some (Example.freshOf Example.decoded false) :=
    Example.create_eq_freshOf Example.decoded false
  have started (start : Addr) : (Example.freshOf Example.decoded false).startRun
      (twoFunctions.runArgs start) = .ok (begunRun start) :=
    Example.startRun_eq_startedOf Example.decoded false (twoFunctions.runArgs start)
  have step (w : Fin twoFunctions.threadCount) (event : WorkerEvent Machine)
      {s t : State Machine twoFunctions.threadCount} (next : WorkerStep twoFunctions w event s t) :
      Step twoFunctions (.worker w event) s t := .worker next
  let start : State Machine twoFunctions.threadCount := .initial Example.noCounts _
  have s₀ : Trace (Step twoFunctions) start [] start := .nil
  have s₁ := s₀.snoc (step firstWorker (.create Machine.empty) (.create Machine.empty rfl ready))
  have s₂ := s₁.snoc (step secondWorker (.create Machine.empty) (.create Machine.empty rfl ready))
  have s₃ := s₂.snoc (step firstWorker .proceed (.proceed rfl rfl))
  have s₄ := s₃.snoc (step secondWorker .proceed (.proceed rfl rfl))
  have s₅ := s₄.snoc (step secondWorker _ (.claim rfl (by decide)))
  have s₆ := s₅.snoc (step firstWorker _ (.claim rfl (by decide)))
  have s₇ := s₆.snoc (step firstWorker (.begin 1) (.begin rfl rfl (started 0x140000004)))
  have s₈ := s₇.snoc (step secondWorker (.begin 0) (.begin rfl rfl (started 0x140000000)))
  obtain ⟨past, s, trace, labels, rfl⟩ : ∃ (past : History Machine twoFunctions.threadCount)
      (s : State Machine twoFunctions.threadCount), Trace (Step twoFunctions) start past s ∧
      past.map Prod.snd = openingTurns.reverse ∧ s = begun := by
    refine ⟨_, _, s₈, rfl, ?_⟩
    refine congrArg (fun phase : Fin twoFunctions.threadCount → WorkerPhase Machine =>
      { begun with phase }) (funext fun w => ?_)
    obtain ⟨_ | _ | _, inside⟩ := w
    · rfl
    · rfl
    · exact absurd inside (by simp [show twoFunctions.threadCount = 2 from rfl])
  exact ⟨past, trace, labels⟩

/-- The workers take turns in their runs and behind them. -/
def closingTurns : List (Event Machine twoFunctions.threadCount) :=
  [.worker firstWorker .loadAtHead, .worker secondWorker .loadAtHead,
    .worker secondWorker (.emulate (.enter false)), .worker firstWorker (.emulate (.enter false)),
    .worker firstWorker (.emulate (.store (stackBase - 0x1000) [0x65, 0x66, 0x67, 0x68, 0])),
    .worker secondWorker (.emulate (.store (stackBase - 0x1000) [0x61, 0x62, 0x63, 0x64, 0])),
    .worker secondWorker .loadInHook, .worker firstWorker .loadInHook, .main .more, .main .goOn,
    .worker firstWorker (.emulate (.code 0x140000004 8 false)),
    .worker secondWorker (.emulate (.code 0x140000000 4 false)),
    .worker secondWorker (.emulate (.leave 0)), .worker firstWorker (.emulate (.leave 0)),
    .worker secondWorker (.finish 0 [firstFound]), .worker firstWorker (.finish 1 [secondFound]),
    .worker firstWorker .merge, .worker secondWorker .merge, .main .sleep,
    .worker secondWorker (.count 0), .worker firstWorker (.count 1),
    .worker firstWorker .proceed, .worker secondWorker .proceed,
    .worker firstWorker .overrun, .worker secondWorker .overrun, .main .enough, .main .join]

def MainPhase.isDone : MainPhase → Bool
  | .done _ => true
  | _ => false

theorem MainPhase.isDone_iff {p : MainPhase} : p.isDone = true ↔ ∃ set, p = .done set := by
  cases p <;> simp [isDone]

/-- Each worker finds a string, and the main thread displays what was found. -/
theorem exists_turns :
    ∃ (past : History Machine twoFunctions.threadCount) (s : State Machine twoFunctions.threadCount)
      (set : List FoundString), Trace (Step twoFunctions) (.initial Example.noCounts _) past s ∧
        s.main = .done set ∧ past.map Prod.snd = (openingTurns ++ closingTurns).reverse := by
  obtain ⟨before, opening, first⟩ := exists_openingTurns
  have ran : (Trace.performTrace (Event.perform twoFunctions) [] begun closingTurns).any
      (fun p => p.2.main.isDone) = true := by decide +kernel
  obtain ⟨⟨past, s⟩, performed, done⟩ := (Option.any_eq_true _ _).mp ran
  have closing := Trace.of_performTrace (fun _ _ _ => Step.of_perform) .nil performed
  have second := Trace.labels_of_performTrace performed
  obtain ⟨set, done⟩ := MainPhase.isDone_iff.mp done
  refine ⟨past ++ before, s, set, opening.append closing, done, ?_⟩
  rw [List.map_append, first, second, List.map_nil, List.append_nil, List.reverse_append]

theorem runs_of_turns {past : History Machine twoFunctions.threadCount}
    (labels : past.map Prod.snd = (openingTurns ++ closingTurns).reverse) :
    runs past = [(1, [secondFound]), (0, [firstFound])] := by
  have events : runs past = (past.map Prod.snd).filterMap Event.run := by
    rw [List.filterMap_map]
    rfl
  rw [events, labels]
  rfl

/-- Both functions are run, by different workers, and the strings they have found are displayed. -/
theorem runLaw_of_trace_turns :
    ∃ (past : History Machine twoFunctions.threadCount) (s : State Machine twoFunctions.threadCount)
      (set : List FoundString), Trace (Step twoFunctions) (.initial Example.noCounts _) past s ∧
        runs past = [(1, [secondFound]), (0, [firstFound])] ∧ s.main = .done set ∧
          RunLaw twoFunctions past s := by
  obtain ⟨past, s, set, trace, done, labels⟩ := exists_turns
  exact ⟨past, s, set, trace, runs_of_turns labels, done,
    runLaw_of_trace twoFunctions.threadCount_pos trace⟩

end Unxorer.Plugin
