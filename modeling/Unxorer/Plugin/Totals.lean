import Unxorer.Plugin.Isolation

/-!
# The statistics of all threads

The counters are shared, and their values are displayed in the end. However the steps of the
workers come, the counters are the sums over all runs of what each run has done: nothing a
worker adds is lost, and nothing else is added.

## Main definitions

* `Event.emulated` — the step of a run that a step of a worker is
* `sumOver` — a sum over the runs that have returned and those under way
* `TotalsLaw` — what the counters hold

## Main results

* `totalsLaw_of_trace` — the law holds after every interleaving
-/

set_option autoImplicit false

namespace Unxorer.Plugin

open Unicorn Transition

variable {U : Type} [Unicorn U] {threads : ℕ}

/-! ### Sums over runs -/

/-- A number that belongs to the run a worker is in. -/
def WorkerPhase.amount (f : RunState U → ℕ) : WorkerPhase U → ℕ
  | .running _ r _ => f r
  | _ => 0

/-- The number that belongs to a run when it returns. -/
def returnedAmount (f : RunState U → ℕ) (s : State U threads) : Event U threads → ℕ
  | .worker w (.finish _ _) => (s.phase w).amount f
  | _ => 0

/-- The sum over the runs that have returned and those under way. -/
def sumOver (f : RunState U → ℕ) (past : History U threads) (s : State U threads) : ℕ :=
  (past.map fun p => returnedAmount f p.1 p.2).sum + ∑ w, (s.phase w).amount f

/-- The edges a run has pushed. -/
def pushedEdges (r : RunState U) : ℕ := r.emulator.branches.log.pushed.length

/-- How often a run has been offered an edge that it had been offered before. -/
def repeatedEdges (r : RunState U) : ℕ :=
  r.emulator.branches.log.offered.length - r.emulator.branches.log.offered.toFinset.card

/-- The step of a run that a step of a worker is, with the run before it. -/
def Event.emulated (s : State U threads) : Event U threads → Option (RunState U × RunEvent U)
  | .worker w (.emulate event) =>
    match s.phase w with
    | .running _ r _ => some (r, event)
    | _ => none
  | _ => none

/-- How many steps of runs there have been of some kind. -/
def emulatedCount (f : RunState U → RunEvent U → Bool) (past : History U threads) : ℕ :=
  past.countP fun p => (p.2.emulated p.1).any fun x => f x.1 x.2

section Sums

variable {f : RunState U → ℕ} {past : History U threads} {s t : State U threads}
  {event : Event U threads}

/-- The sum over the workers after one of them has moved on. -/
theorem sum_update (g : WorkerPhase U → ℕ) (phase : Fin threads → WorkerPhase U) (w : Fin threads)
    (p : WorkerPhase U) :
    (∑ v, g (Function.update phase w p v)) + g (phase w) = (∑ v, g (phase v)) + g p := by
  have others : ∑ v ∈ Finset.univ.erase w, g (Function.update phase w p v) =
      ∑ v ∈ Finset.univ.erase w, g (phase v) :=
    Finset.sum_congr rfl fun v member => by
      rw [Function.update_of_ne (Finset.ne_of_mem_erase member)]
  have inside := Finset.mem_univ w
  rw [← Finset.add_sum_erase _ _ inside, ← Finset.add_sum_erase _ (fun v => g (phase v)) inside,
    others, Function.update_self]
  ac_rfl

/-- A step after which the runs have come to `b` more than before. -/
theorem sumOver_step {w : Fin threads} {p q : WorkerPhase U} {b : ℕ}
    (phase : t.phase = Function.update s.phase w p) (here : s.phase w = q)
    (amount : returnedAmount f s event + p.amount f = q.amount f + b) :
    sumOver f ((s, event) :: past) t = sumOver f past s + b := by
  have moved := sum_update (WorkerPhase.amount f) s.phase w p
  rw [sumOver, sumOver, List.map_cons, List.sum_cons, phase]
  rw [here] at moved
  dsimp only
  omega

theorem emulatedCount_cons_none (f : RunState U → RunEvent U → Bool)
    (silent : event.emulated s = none) :
    emulatedCount f ((s, event) :: past) = emulatedCount f past := by
  rw [emulatedCount, List.countP_cons, silent]
  rfl

/-- One more step in a count of steps. -/
theorem ofNat_emulatedCount_cons (f : RunState U → RunEvent U → Bool) {r : RunState U}
    {own : RunEvent U} (step : event.emulated s = some (r, own)) (x : BitVec 64) :
    x + BitVec.ofNat 64 (emulatedCount f ((s, event) :: past)) =
      x + BitVec.ofNat 64 (emulatedCount f past) + if f r own then 1 else 0 := by
  rw [emulatedCount, List.countP_cons, BitVec.ofNat_add, ← add_assoc, step, Option.any_some]
  congr 1
  split_ifs <;> rfl

end Sums

/-! ### The law -/

/-- The counters have gone up by what all the runs have done since they were `c`: by the
instructions counted, those skipped and the calls that have left the image, by the edges pushed,
and by the offers of edges that the same run had been offered before. -/
structure TotalsLaw (c : Counters) (past : History U threads) (s : State U threads) : Prop where
  instructionsExecuted : s.counters.instructionsExecuted = c.instructionsExecuted +
    BitVec.ofNat 64 (emulatedCount (fun r event => (event.counted r).isSome) past)
  skipped : s.counters.skipped = c.skipped +
    BitVec.ofNat 64 (emulatedCount (fun r event => event.skips r) past)
  externalCalls : s.counters.externalCalls = c.externalCalls +
    BitVec.ofNat 64 (emulatedCount (fun r event => event.calls r) past)
  importThunks : s.counters.importThunks = c.importThunks +
    BitVec.ofNat 64 (emulatedCount (fun r event => event.thunks r) past)
  branched : s.counters.branched = c.branched + BitVec.ofNat 64 (sumOver pushedEdges past s)
  alreadyVisited : s.counters.alreadyVisited = c.alreadyVisited +
    BitVec.ofNat 64 (sumOver repeatedEdges past s)

/-- In every run the visited edges are those that have been offered. -/
def Marked (s : State U threads) : Prop :=
  ∀ w index r seen, s.phase w = .running index r seen →
    r.emulator.branches.visited = r.emulator.branches.log.offered.toFinset

section Law

variable {c : Counters} {past : History U threads} {s t : State U threads}
  {event : Event U threads}

/-- A step that is not one of a run and moves no amount keeps the law. -/
theorem TotalsLaw.keep (law : TotalsLaw c past s) (same : t.counters = s.counters)
    (silent : event.emulated s = none)
    (sums : ∀ f, f = pushedEdges ∨ f = repeatedEdges →
      sumOver f ((s, event) :: past) t = sumOver f past s) :
    TotalsLaw c ((s, event) :: past) t := by
  refine ⟨?_, ?_, ?_, ?_, ?_, ?_⟩
  · rw [same, emulatedCount_cons_none _ silent]
    exact law.instructionsExecuted
  · rw [same, emulatedCount_cons_none _ silent]
    exact law.skipped
  · rw [same, emulatedCount_cons_none _ silent]
    exact law.externalCalls
  · rw [same, emulatedCount_cons_none _ silent]
    exact law.importThunks
  · rw [same, sums _ (.inl rfl)]
    exact law.branched
  · rw [same, sums _ (.inr rfl)]
    exact law.alreadyVisited

variable [Host] {job : Job} {w : Fin threads}

/-- A step of a run keeps the law. -/
theorem TotalsLaw.emulate (law : TotalsLaw c past s) (marked : Marked s) {index : ℕ}
    {r r' : RunState U} {seen : Option Bool} {own : RunEvent U} {k : Counters}
    (here : s.phase w = .running index r seen)
    (alone : own.interferes = false) (step : RunStep own (s.counters, r) (k, r')) :
    TotalsLaw c ((s, .worker w (.emulate own)) :: past)
        { s.go w (.running index r' none) with counters := k } ∧
      r'.emulator.branches.visited = r'.emulator.branches.log.offered.toFinset := by
  have notOther : ∀ c, own ≠ .interfere c := by
    intro c other
    rw [other] at alone
    cases alone
  obtain ⟨b, v, edges, counted⟩ := step.counted notOther
  have before := marked w index r seen here
  have after : r'.emulator.branches.visited = r'.emulator.branches.log.offered.toFinset :=
    edges.marked before
  have emulated : (Event.worker w (.emulate own)).emulated s = some (r, own) := by
    rw [Event.emulated, here]
  have pushed : sumOver pushedEdges ((s, .worker w (.emulate own)) :: past)
      { s.go w (.running index r' none) with counters := k } = sumOver pushedEdges past s + b := by
    refine sumOver_step rfl here ?_
    exact (Nat.zero_add _).trans edges.pushed
  have repeated : sumOver repeatedEdges ((s, .worker w (.emulate own)) :: past)
      { s.go w (.running index r' none) with counters := k } = sumOver repeatedEdges past s + v := by
    refine sumOver_step rfl here ?_
    have offered := edges.offered
    have le := r.emulator.branches.log.offered.toFinset_card_le
    have le' := r'.emulator.branches.log.offered.toFinset_card_le
    dsimp only at offered
    rw [before, after] at offered
    simp only [returnedAmount, WorkerPhase.amount, repeatedEdges]
    omega
  refine ⟨⟨?_, ?_, ?_, ?_, ?_, ?_⟩, after⟩
  · rw [ofNat_emulatedCount_cons _ emulated, ← law.instructionsExecuted]
    exact congrArg Counters.instructionsExecuted counted
  · rw [ofNat_emulatedCount_cons _ emulated, ← law.skipped]
    exact congrArg Counters.skipped counted
  · rw [ofNat_emulatedCount_cons _ emulated, ← law.externalCalls]
    exact congrArg Counters.externalCalls counted
  · rw [ofNat_emulatedCount_cons _ emulated, ← law.importThunks]
    exact congrArg Counters.importThunks counted
  · rw [pushed, BitVec.ofNat_add, ← add_assoc, ← law.branched]
    exact congrArg Counters.branched counted
  · rw [repeated, BitVec.ofNat_add, ← add_assoc, ← law.alreadyVisited]
    exact congrArg Counters.alreadyVisited counted

/-- Where a worker's run has just begun or is over, nothing is added. -/
theorem TotalsLaw.step (law : TotalsLaw c past s) (marked : Marked s)
    (step : Step job event s t) : TotalsLaw c ((s, event) :: past) t ∧ Marked t := by
  cases step with
  | main step =>
    have same : t.counters = s.counters ∧ t.phase = s.phase := by
      cases step <;> exact ⟨rfl, rfl⟩
    refine ⟨law.keep same.1 rfl fun f _ => ?_, ?_⟩
    · rw [sumOver, sumOver, List.map_cons, List.sum_cons, same.2]
      exact congrArg (· + _) (Nat.zero_add _)
    · rw [Marked, same.2]
      exact marked
  | @worker _ _ w event step =>
    -- Where the step does not end in a run, the other runs are as they were.
    have others {p : WorkerPhase U} (phase : t.phase = Function.update s.phase w p)
        (mine : ∀ index r seen, p = .running index r seen →
          r.emulator.branches.visited = r.emulator.branches.log.offered.toFinset) : Marked t := by
      intro v index r seen running
      rw [phase] at running
      by_cases same : v = w
      · subst same
        rw [Function.update_self] at running
        exact mine index r seen running
      · rw [Function.update_of_ne same] at running
        exact marked v index r seen running
    cases step with
    | emulate here sees step =>
      obtain ⟨law', after⟩ := law.emulate marked here sees.own step
      refine ⟨law', others rfl ?_⟩
      intro index r seen running
      cases running
      exact after
    | begin here found started =>
      have empty := startRun_branches started
      refine ⟨law.keep rfl rfl fun f choice => sumOver_step (b := 0) rfl here ?_, others rfl ?_⟩
      · rcases choice with rfl | rfl
        · simp [returnedAmount, WorkerPhase.amount, pushedEdges, empty, BranchManager.empty]
        · simp [returnedAmount, WorkerPhase.amount, repeatedEdges, empty, BranchManager.empty]
      · intro index r seen running
        cases running
        rw [empty]
        rfl
    | finish here ended =>
      refine ⟨law.keep rfl rfl fun f _ => sumOver_step (b := 0) rfl here ?_, others rfl ?_⟩
      · rw [returnedAmount, here]
        rfl
      · intro index r seen running
        cases running
    | loadAtHead here | loadInHook here =>
      refine ⟨law.keep rfl rfl fun f _ => sumOver_step (b := 0) rfl here (Nat.zero_add _),
        others rfl ?_⟩
      intro index r seen running
      cases running
      exact marked w _ _ none here
    | create opened here | fail here | stop here | proceed here | claim here | overrun here
    | merge here | count here =>
      refine ⟨law.keep rfl rfl fun f _ => sumOver_step (b := 0) rfl here rfl, others rfl ?_⟩
      intro index r seen running
      cases running

/-- After every interleaving the counters hold what all the runs have done. -/
theorem totalsLaw_of_trace (trace : Trace (Step job) (State.initial c threads) past s) :
    TotalsLaw c past s := by
  have initial : TotalsLaw c [] (State.initial (U := U) c threads) := by
    constructor <;> simp [State.initial, emulatedCount, sumOver, WorkerPhase.amount]
  refine (trace.invariant (P := fun past s => TotalsLaw c past s ∧ Marked s) ⟨initial, ?_⟩ ?_).1
  · intro w index r seen running
    cases running
  · exact fun past s event t before step => before.1.step before.2 step

end Law

/-- Each of the two workers has counted an instruction. -/
theorem totalsLaw_of_trace_turns : ∃ (past : History Machine twoFunctions.threadCount)
    (s : State Machine twoFunctions.threadCount),
    Trace (Step twoFunctions) (.initial Example.noCounts _) past s ∧
      runs past = [(1, [secondFound]), (0, [firstFound])] ∧ TotalsLaw Example.noCounts past s := by
  obtain ⟨past, s, set, trace, -, labels⟩ := exists_turns
  exact ⟨past, s, trace, runs_of_turns labels, totalsLaw_of_trace trace⟩

end Unxorer.Plugin
