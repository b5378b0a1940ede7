import Unxorer.Emulator.MemoryMap
import Unxorer.Emulator.Resumption

/-!
# How many accesses are refused

An access that is refused for the limit on transient pages ends its slice, and each slice but the
first continues an edge that has been put into the set of visited edges. So a run has at most one
refused access more than this set can have elements, and their number does not wrap around.

## Main definitions

* `RunState.goesOn` — the run is in a slice in which no access has failed
* `Refusing` — the invariant that links refused accesses, slices and resumed edges

## Main results

* `RunStep.refusing` — every step keeps the invariant
* `refusals_lt_of_trace` — fewer than `2 ^ 64` accesses are refused in a run
-/

set_option autoImplicit false

namespace Unxorer

open Unicorn Transition

variable {U : Type} [Unicorn U]

theorem BranchManager.visited_of_takeNext {b b' : BranchManager (Context U)}
    {state : BranchState (Context U)} (taken : b.takeNext = some (state, b')) :
    b'.visited = b.visited :=
  congrArg Worklist.visited (Worklist.take_eq_some (take_of_takeNext taken).1).2

namespace RunState

/-- The run is in a slice in which no access has failed. -/
def goesOn (r : RunState U) : Bool := r.phase.isSlice && !r.faulted

theorem goesOn_of_running {r : RunState U} {before : BitVec 64} (here : r.phase = .slice before)
    (running : r.faulted = false) : r.goesOn = true := by
  rw [goesOn, here, running]
  rfl

theorem goesOn_of_isSlice_eq {r : RunState U} (outside : r.phase.isSlice = false) :
    r.goesOn = false := by
  rw [goesOn, outside, Bool.false_and]

end RunState

section Run

variable [Host]

/-- The refused accesses are bounded by the slices, of which the one under way may still meet a
refusal, and the slices by the edges resumed. -/
structure Refusing (past : Past U) (r : RunState U) : Prop where
  fits : r.emulator.branches.visited.card ≤ Host.setMax
  slices : r.slices ≤ r.emulator.branches.log.resumed.length + if r.phase = .head then 0 else 1
  once : refusals past + r.goesOn.toNat ≤ r.slices

variable {past : Past U} {event : RunEvent U} {s s' : Counters × RunState U}

omit [Host] in
theorem refusals_cons :
    refusals ((s, event) :: past) = refusals past + (event.refused s).toNat := by
  rw [refusals, List.countP_cons, refusals]
  cases event.refused s <;> rfl

/-- Within a slice no branch is resumed, and a refusal ends the slice. -/
theorem Refusing.inSlice {e : Emulator U} {before : BitVec 64} {faulted : Bool}
    (refusing : Refusing past s.2) (here : s.2.phase = .slice before)
    (running : s.2.faulted = false)
    (resumed : e.branches.log.resumed = s.2.emulator.branches.log.resumed)
    (fits : e.branches.visited.card ≤ Host.setMax)
    (ends : event.refused s = true → faulted = true) :
    Refusing ((s, event) :: past) { s.2 with emulator := e, faulted } where
  fits := fits
  slices := by
    rw [resumed]
    exact refusing.slices
  once := by
    have once := refusing.once
    rw [RunState.goesOn_of_running here running, Bool.toNat_true] at once
    have slice : s.2.phase.isSlice = true := Phase.isSlice_of_eq here
    simp only [refusals_cons, RunState.goesOn, slice, Bool.true_and]
    cases refused : event.refused s with
    | false => exact (Nat.add_le_add_left (Bool.toNat_le _) _).trans once
    | true =>
      rw [ends refused]
      exact once

theorem Refusing.enter {r : RunState U} {c : Counters} (refusing : Refusing past r)
    (here : r.phase = .head) (stop : Bool) :
    Refusing (((c, r), .enter stop) :: past) (r.enterSlice c stop) := by
  have slices := refusing.slices
  have once := refusing.once
  rw [if_pos here] at slices
  have silent : refusals (((c, r), .enter stop) :: past) = refusals past := refusals_cons
  rw [RunState.enterSlice]
  split_ifs
  · exact ⟨refusing.fits, Nat.le_succ_of_le slices, silent ▸ Nat.le_of_add_right_le once⟩
  · exact ⟨refusing.fits, Nat.le_succ_of_le slices, silent ▸ Nat.le_of_add_right_le once⟩
  · exact ⟨refusing.fits, Nat.succ_le_succ slices,
      silent ▸ Nat.succ_le_succ (Nat.le_of_add_right_le once)⟩

/-- At the end of a slice the branch that is resumed makes up for it. -/
theorem Refusing.leave {r r' : RunState U} {c : Counters} {before elapsedUs : BitVec 64}
    (refusing : Refusing past r) (here : r.phase = .slice before)
    (left : r.leaveSlice c before elapsedUs = .ok r') :
    Refusing (((c, r), .leave elapsedUs) :: past) r' := by
  obtain ⟨e₁, scanned, continues⟩ := RunState.leaveSlice_cases left
  obtain ⟨found, rfl⟩ := scanned.exists_stringList
  have silent : refusals (((c, r), .leave elapsedUs) :: past) = refusals past := refusals_cons
  have outside := RunState.goesOn_of_isSlice_eq continues.isSlice_eq
  have once := Nat.le_of_add_right_le refusing.once
  have slices := refusing.slices
  rw [here, if_neg Phase.noConfusion] at slices
  cases continues with
  | nothingPending => exact ⟨refusing.fits, slices, by rwa [silent, outside]⟩
  | restoreFailed taken =>
    have same := BranchManager.visited_of_takeNext taken
    have resumed := (BranchManager.take_of_takeNext taken).2.2.1
    refine ⟨same ▸ refusing.fits, ?_, by rwa [silent, outside]⟩
    rw [resumed, List.length_cons]
    exact Nat.le_succ_of_le slices
  | resumed taken =>
    have same := BranchManager.visited_of_takeNext taken
    have resumed := (BranchManager.take_of_takeNext taken).2.2.1
    refine ⟨same ▸ refusing.fits, ?_, by rwa [silent, outside]⟩
    rw [resumed, List.length_cons]
    exact slices

/-- Every step of a run keeps the invariant. -/
theorem RunStep.refusing (step : RunStep event s s') (refusing : Refusing past s.2) :
    Refusing ((s, event) :: past) s'.2 := by
  cases step with
  | enter stop here => exact refusing.enter here stop
  | code address size stop here hook running =>
    exact refusing.inSlice here running (BranchManager.Offers.hookCode hook).resumed
      (Emulator.card_visited_of_hookCode hook refusing.fits) fun refused => by cases refused
  | @store c r before done e address bytes here nonempty small stored running =>
    have same := (Emulator.guestStore_kept stored).2
    obtain ⟨e₀, e₁, hooked, -, ends, -⟩ := Emulator.guestStore_faults stored
    refine refusing.inSlice here running (same ▸ rfl) (same ▸ refusing.fits) fun refused => ?_
    simp only [RunEvent.refused, hooked] at refused
    rw [ends refused, Bool.not_false]
  | load address size here nonempty small loaded running =>
    have same := (Emulator.guestLoad_cases loaded).branches_eq
    refine refusing.inSlice here running (same ▸ rfl) (same ▸ refusing.fits) fun refused => ?_
    rw [(Emulator.guestLoad_faults loaded).2 refused, Bool.not_false]
  | execute u here memory mappings running =>
    exact refusing.inSlice here running rfl refusing.fits fun refused => by cases refused
  | leave elapsedUs here left => exact refusing.leave here left
  | @interfere c r c' =>
    have silent : refusals (((c, r), .interfere c') :: past) = refusals past := refusals_cons
    exact ⟨refusing.fits, refusing.slices, silent ▸ refusing.once⟩

/-- In a run there are fewer refused accesses than its counter of them can count. -/
theorem refusals_lt_of_trace {e : Emulator U} {args : RunArgs} {c : Counters} {r₀ : RunState U}
    (started : e.startRun args = .ok r₀) (trace : Trace RunStep (c, r₀) past s) :
    refusals past < 2 ^ 64 := by
  have initial : Refusing [] r₀ := by
    obtain ⟨e', reset, rfl⟩ := Emulator.startRun_cases started
    obtain ⟨u, heap, -, rfl⟩ := Emulator.resetForRun_cases reset
    exact ⟨Nat.zero_le _, le_rfl, le_rfl⟩
  obtain ⟨resuming, refusing⟩ := trace.invariant
    (P := fun past s => Resuming past s.2 ∧ Refusing past s.2) ⟨.initial started, initial⟩
    fun past s event s' holds step => ⟨step.resuming holds.1, step.refusing holds.2⟩
  have visited : s.2.emulator.branches.log.resumed.length ≤ s.2.emulator.branches.visited.card :=
    resuming.stacked.length_taken_le
  have limit := Host.setMax_lt
  calc
    refusals past ≤ s.2.slices := Nat.le_of_add_right_le refusing.once
    _ ≤ s.2.emulator.branches.log.resumed.length + 1 := by
      refine refusing.slices.trans (Nat.add_le_add_left ?_ _)
      split_ifs <;> omega
    _ ≤ Host.setMax + 1 := Nat.succ_le_succ (visited.trans refusing.fits)
    _ < 2 ^ 64 := by omega

end Run

end Unxorer
