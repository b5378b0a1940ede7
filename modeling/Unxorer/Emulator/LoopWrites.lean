import Unxorer.Emulator.Loops

/-!
# Loops that write

With write tracking the allowance of a branch backwards is raised to 2000 as soon as a page
is dirty. The set of dirty pages belongs to the run and is never emptied in it, so a store
raises the allowances of all loops that come later, whether they write or not.

## Main definitions

* `RunEvent.records` — a step makes a page dirty
* `storesSince` — a store since the first counted hit of a branch

## Main results

* `dirtyPages_eq_empty_iff` — no page is dirty as long as no step has made one dirty
* `allowance_iff_of_trace` — when a loop that does not write has no more than its limit
-/

set_option autoImplicit false

namespace Unxorer

open Unicorn Transition WriteTracker

/-- A write leaves no page dirty exactly if none was and its range wraps around. -/
theorem WriteTracker.eq_empty_iff_of_recordWrite {dirty dirty' : Finset Addr} {address : Addr}
    {size : BitVec 64} (done : recordWrite dirty address size = .ok dirty') :
    dirty' = ∅ ↔ dirty = ∅ ∧ ¬ pageOf address ≤ pageOf (address + size - 1) := by
  have ended := recordLoop_of_recordWrite done
  by_cases forward : pageOf address ≤ pageOf (address + size - 1)
  · have added := (recordLoop_spec _ ended).2 (pageOf address) le_rfl forward (by simp)
    constructor
    · rintro rfl
      exact absurd added (Finset.notMem_empty _)
    · rintro ⟨-, wraps⟩
      exact absurd forward wraps
  · rw [recordLoop, if_neg forward] at ended
    cases ended
    exact (and_iff_left forward).symm

variable {U : Type} [Unicorn U]

/-- The step is a store that makes a page dirty. -/
def RunEvent.records : RunEvent U → Bool
  | .store address bytes => pageOf address ≤ pageOf (address + BitVec.ofNat 64 bytes.length - 1)
  | _ => false

/-- The step is the first counted hit of a branch. -/
def isFirstHit (a : Addr) (x : (Counters × RunState U) × RunEvent U) : Bool :=
  x.2.executes a && (x.1.2.emulator.loopIterations a).isNone

/-- A store has been executed between the first counted hit of a branch and its next hit. A
handled vector store or a stub that writes is no such store. -/
def storesSince (a : Addr) (s : Counters × RunState U) (past : Past U) : Bool :=
  (s.2.emulator.loopIterations a).isSome &&
    (past.takeWhile fun x => !isFirstHit a x).any fun x => x.2.isStore

section Runs

variable [Host] {s₀ s s' : Counters × RunState U} {past : Past U} {event : RunEvent U}

/-- With write tracking a step leaves no page dirty if none was and it records none. -/
theorem RunStep.dirtyPages_eq_empty_iff (step : RunStep event s s')
    (tracking : s.2.emulator.enableWriteTracking = true) :
    s'.2.emulator.dirtyPages = ∅ ↔ s.2.emulator.dirtyPages = ∅ ∧ event.records = false := by
  cases stores : event.isStore with
  | false =>
    have quiet : event.records = false := by
      cases event <;> first | rfl | cases stores
    rw [step.dirtyPages_eq stores, and_iff_left quiet]
  | true =>
    cases step with
    | @store c r _ done e address bytes here nonempty small stored =>
      rcases (Emulator.guestStore_loopView nonempty stored).2 with ⟨-, recorded⟩ | ⟨off, -⟩
      · rw [RunEvent.records, decide_eq_false_iff_not]
        exact eq_empty_iff_of_recordWrite recorded
      · exact absurd (tracking.symm.trans off) Bool.noConfusion
    | _ => cases stores

/-- In a run with write tracking no page is dirty as long as no step has made one dirty. -/
theorem dirtyPages_eq_empty_iff (clean : s₀.2.emulator.dirtyPages = ∅)
    (tracking : s₀.2.emulator.enableWriteTracking = true) (trace : Trace RunStep s₀ past s) :
    s.2.emulator.dirtyPages = ∅ ↔ ∀ x ∈ past, x.2.records = false := by
  induction trace with
  | nil => exact iff_of_true clean fun x member => absurd member List.not_mem_nil
  | @snoc past t u event before next ih =>
    have enabled : t.2.emulator.enableWriteTracking = true := by
      injection settings_of_trace before with _ _ _ _ _ same
      rwa [same]
    rw [next.dirtyPages_eq_empty_iff enabled, ih, List.forall_mem_cons, and_comm]

/-- A loop that does not write has its limit and a quarter of its span as allowance in
exactly these states: the loop does write, or the limit is not below 2000, or no store has
made a page dirty in the whole run. -/
theorem allowance_iff_of_trace {e : Emulator U} {args : RunArgs} {r : RunState U} {c : Counters}
    (started : e.startRun args = .ok r) (tracking : e.enableWriteTracking = true)
    (trace : Trace RunStep (c, r) past s) {a taken : Addr} (backward : taken ≤ a) :
    ∀ x ∈ executions a past,
      ((storesSince a x.1 x.2 = false → (x.1.2.emulator.loopAllowance a taken).toNat =
          min (args.maxLoopIterations.toNat + (a.toNat - taken.toNat) / 4) (2 ^ 64 - 1)) ↔
        storesSince a x.1 x.2 = true ∨ 2000 ≤ args.maxLoopIterations.toNat ∨
          ∀ y ∈ x.2, y.2.records = false) := by
  intro x execution
  have before := trace_of_mem_executions trace execution
  obtain ⟨view, limit, -, enabled⟩ := startRun_loopView started
  injection view with _ clean
  have recorded := dirtyPages_eq_empty_iff clean (enabled.trans tracking) before
  injection settings_of_trace before with _ _ limitKept _ _ trackingKept
  have base : x.1.2.emulator.baseAllowance =
      if x.1.2.emulator.dirtyPages = ∅ then args.maxLoopIterations.toNat
      else max args.maxLoopIterations.toNat 2000 := by
    rw [Emulator.baseAllowance, limitKept, limit, trackingKept, enabled, tracking]
    by_cases none : x.1.2.emulator.dirtyPages = ∅
    · simp [hasDirty, none]
    · simp [hasDirty, none]
  have span := a.isLt
  rw [x.1.2.emulator.toNat_loopAllowance backward, base, ← recorded]
  cases writes : storesSince a x.1 x.2 with
  | true => simp
  | false =>
    by_cases none : x.1.2.emulator.dirtyPages = ∅
    · simp [none]
    · rw [if_neg none]
      simp only [none, Bool.false_eq_true, or_false, false_or, true_imp_iff]
      omega

end Runs

namespace Example

/-- A byte is stored, and then a loop that does not write is entered. -/
def storeThenLoop : List (RunEvent Machine) :=
  [.enter false, .store 0x140000100 [0], .code 0x140000000 2 false, .code 0x140000002 2 false]

theorem exists_storeThenLoop : ∃ past s, Trace RunStep (noCounts, loopStarted) past s ∧
    ∃ x ∈ executions 0x140000002 past, storesSince 0x140000002 x.1 x.2 = false ∧
      x.1.2.emulator.loopAllowance 0x140000002 0x140000000 = 2000 := by
  obtain ⟨⟨past, s⟩, performed, found⟩ : ∃ p,
      Trace.performTrace RunEvent.perform [] (noCounts, loopStarted) storeThenLoop = some p ∧
      ∃ x ∈ executions 0x140000002 p.1, storesSince 0x140000002 x.1 x.2 = false ∧
        x.1.2.emulator.loopAllowance 0x140000002 0x140000000 = 2000 :=
    ⟨_, rfl, by decide +kernel⟩
  exact ⟨past, s, RunEvent.trace_of_performTrace performed,
    found⟩

end Example

theorem allowance_iff_of_trace_store : ∃ past s,
    Trace RunStep (Example.noCounts, Example.loopStarted) past s ∧
      ∃ x ∈ executions 0x140000002 past,
        ((storesSince 0x140000002 x.1 x.2 = false →
            (x.1.2.emulator.loopAllowance 0x140000002 0x140000000).toNat = 2) ↔
          storesSince 0x140000002 x.1 x.2 = true ∨ 2000 ≤ 2 ∨
            ∀ y ∈ x.2, y.2.records = false) := by
  obtain ⟨past, s, trace, x, execution, -⟩ := Example.exists_storeThenLoop
  have started := Example.startRun_eq_startedOf Example.loopDecoded true Example.loopArgs
  exact ⟨past, s, trace, x, execution,
    allowance_iff_of_trace started rfl trace (by decide) x execution⟩

/-- A store before the loop raises the allowance of a loop that does not write from 2 to
2000. -/
theorem store_before_loop_raises_allowance : ∃ r,
    (Example.freshOf Example.loopDecoded true).startRun Example.loopArgs = .ok r ∧
      ∃ past s, Trace RunStep (Example.noCounts, r) past s ∧
        ∃ x ∈ executions 0x140000002 past, storesSince 0x140000002 x.1 x.2 = false ∧
          (x.1.2.emulator.loopAllowance 0x140000002 0x140000000).toNat ≠
            min (Example.loopArgs.maxLoopIterations.toNat +
              ((0x140000002 : Addr).toNat - (0x140000000 : Addr).toNat) / 4) (2 ^ 64 - 1) := by
  refine ⟨_, Example.startRun_eq_startedOf Example.loopDecoded true Example.loopArgs, ?_⟩
  obtain ⟨past, s, trace, x, execution, quiet, allowance⟩ := Example.exists_storeThenLoop
  refine ⟨past, s, trace, x, execution, quiet, ?_⟩
  rw [allowance]
  decide

end Unxorer
