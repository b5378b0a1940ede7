import Unxorer.Emulator.Loops

/-!
# Entering a loop again

The count of a branch backwards goes back to zero only when the branch is made to fall
through. A loop that ends by itself leaves its count behind, and the next entry goes on
from there.

When a loop is entered is not for the emulator to see. The results hold for every notion of
it by which the first execution of the branch belongs to a new entry, and so does the first
one after the branch was made to fall through.

## Main definitions

* `Entering` — a notion of when a loop is entered
* `Entering.iterations` — the executions of the branch since the loop was last entered
* `Entering.byAddress` — the notion that goes by where the hooks are called

## Main results

* `Entering.iterations_eq_of_trace` — a branch is made to fall through after as many
  executions as its allowance in runs that find no count when they enter the loop
-/

set_option autoImplicit false

namespace Unxorer

open Unicorn InstructionClassifier Transition

variable {U : Type} [Unicorn U]

/-- A notion of when the loop of a branch is entered: whether the next execution of the
branch after some steps is the first one since the loop was entered. -/
structure Entering (U : Type) [Unicorn U] (a taken : Addr) where
  enters : Past U → Bool
  /-- Where nothing goes on from an earlier execution, a new entry begins. -/
  starts : ∀ past, (∀ x ∈ (executions a past).head?, x.1.2.emulator.Redirects a taken) →
    enters past = true

namespace Entering

variable {a taken : Addr}

/-- The number of the listed executions since the loop was last entered. -/
def count (entering : Entering U a taken) : List ((Counters × RunState U) × Past U) → ℕ
  | [] => 0
  | x :: earlier => if entering.enters x.2 then 1 else entering.count earlier + 1

/-- The number of executions since the loop was last entered, with this one. -/
def iterations (entering : Entering U a taken) (x : (Counters × RunState U) × Past U) : ℕ :=
  entering.count (x :: executions a x.2)

/-- The loop is entered only where no count is stored for its branch. -/
def FindsNoCount (entering : Entering U a taken) (past : Past U) : Prop :=
  ∀ x ∈ executions a past, entering.enters x.2 = true → x.1.2.emulator.loopIterations a = none

section Runs

variable [Host] {s₀ s : Counters × RunState U} {past : Past U} {insn : Insn}
  {entering : Entering U a insn.op1.addr}

omit [Host] in
/-- The count after an execution that is not redirected is not zero. -/
theorem hits_ne_zero_of_head? {x : (Counters × RunState U) × Past U} {taken : Addr}
    (last : (executions a past).head? = some x)
    (passed : ¬ HitCounter.Refused (x.1.2.emulator.loopAllowance a taken).toNat
      (allowances a taken x.2)) :
    HitCounter.hits (allowances a taken past) ≠ 0 := by
  obtain ⟨earlier, list⟩ := List.head?_eq_some_iff.mp last
  have before : earlier = executions a x.2 :=
    executions_of_append (show executions a past = [] ++ x :: earlier from list)
  rw [allowances, list, List.map_cons, before, ← allowances,
    HitCounter.hits_cons_of_not_refused passed]
  exact Nat.succ_ne_zero _

/-- Where a new entry finds no count and an old one has been counted, the next execution of
the branch is counted as one more since the loop was entered. -/
theorem hits_succ_eq_count (counts : s₀.2.emulator.CountsBranch a insn)
    (start : s₀.2.emulator.loopIterations a = none) (trace : Trace RunStep s₀ past s)
    (counted : HitCounter.hits (allowances a insn.op1.addr past) ≠ 0 →
      HitCounter.hits (allowances a insn.op1.addr past) = entering.count (executions a past))
    (clean : entering.enters past = true → s.2.emulator.loopIterations a = none) :
    HitCounter.hits (allowances a insn.op1.addr past) + 1 =
      entering.count ((s, past) :: executions a past) := by
  rw [count]
  by_cases new : entering.enters past = true
  · have none := clean new
    rw [loopIterations_of_trace counts start trace, storedCount] at none
    split_ifs at none with zero
    rw [if_pos new, zero]
  · -- An old entry goes on from an execution that was not redirected.
    have continued := mt (entering.starts past) new
    push Not at continued
    obtain ⟨x, last, proceeds⟩ := continued
    have execution : x ∈ executions a past := List.mem_of_mem_head? last
    have passed := mt (redirects_iff_of_mem_executions counts start trace execution).mpr proceeds
    rw [if_neg new, counted (hits_ne_zero_of_head? last passed)]

/-- In a run that finds no count when it enters the loop the count is that of the executions
since then. -/
theorem hits_eq_count (counts : s₀.2.emulator.CountsBranch a insn)
    (start : s₀.2.emulator.loopIterations a = none) (trace : Trace RunStep s₀ past s)
    (clean : entering.FindsNoCount past)
    (some : HitCounter.hits (allowances a insn.op1.addr past) ≠ 0) :
    HitCounter.hits (allowances a insn.op1.addr past) = entering.count (executions a past) := by
  induction trace with
  | nil => exact absurd rfl some
  | @snoc past t u event before next ih =>
    rw [FindsNoCount, executions] at clean
    rw [allowances, executions] at some ⊢
    split_ifs at clean some ⊢
    · rw [List.map_cons, ← allowances] at some ⊢
      have earlier := ih fun x execution => clean x (List.mem_cons_of_mem _ execution)
      by_cases refused : HitCounter.Refused (t.2.emulator.loopAllowance a insn.op1.addr).toNat
          (allowances a insn.op1.addr past)
      · exact absurd (HitCounter.hits_cons_of_refused refused) some
      · rw [HitCounter.hits_cons_of_not_refused refused]
        exact hits_succ_eq_count counts start before earlier (clean (t, past) List.mem_cons_self)
    · exact ih clean some

/-- A branch is made to fall through after as many executions as its allowance, in a run
that finds no count when it enters the loop. -/
theorem iterations_eq_of_trace {e : Emulator U} {args : RunArgs} {r : RunState U} {c : Counters}
    (started : e.startRun args = .ok r) (trace : Trace RunStep (c, r) past s)
    (decoded : e.tryGetInsn a = some insn) (branch : isBranch insn.itype = true)
    (backward : insn.op1.addr ≤ a) (clean : entering.FindsNoCount past) :
    ∀ x ∈ executions a past, x.1.2.emulator.Redirects a insn.op1.addr →
      entering.iterations x = (x.1.2.emulator.loopAllowance a insn.op1.addr).toNat := by
  intro x execution redirects
  have before := trace_of_mem_executions trace execution
  -- Without a limit no branch is redirected.
  have limited : args.maxLoopIterations ≠ 0 := by
    injection settings_of_trace before with _ _ limit
    rw [← (startRun_loopView started).2.1]
    exact limit ▸ redirects.1
  obtain ⟨counts, start⟩ := countsBranch_of_startRun started limited decoded branch backward
  have refused := (redirects_iff_of_mem_executions counts start trace execution).mp redirects
  have earlier : entering.FindsNoCount x.2 := fun y older =>
    clean y (executions_subset execution older)
  have counted := hits_eq_count counts start before earlier
  rw [iterations, ← hits_succ_eq_count counts start before counted (clean x execution)]
  apply HitCounter.hits_succ_eq_of_refused _ _ refused
  · intro n member
    rcases List.mem_cons.mp member with rfl | member
    · exact Emulator.toNat_loopAllowance_pos redirects.1 backward
    · exact (mem_allowances_bounds counts before member).1
  · intro n last
    rw [allowances, List.head?_map] at last
    obtain ⟨y, latest, rfl⟩ := Option.map_eq_some_iff.mp last
    exact loopAllowance_le_of_mem_executions before backward (List.mem_of_mem_head? latest)

end Runs

/-! ### Entries by address -/

/-- Where control is with respect to a loop: outside, behind the execution of its branch
with the next instruction not known yet, or inside. -/
inductive Position
  | outside | branching | inside
deriving DecidableEq

/-- Where control is after some steps. A loop is left when its branch is made to fall
through, when the instruction after its branch is not its target, and with its slice. -/
def position (a taken : Addr) : Past U → Position
  | [] => .outside
  | (s, .code address _ stop) :: past =>
    if stop then position a taken past
    else if address = a then
      if s.2.emulator.Redirects a taken then .outside else .branching
    else if position a taken past = .branching then
      if address = taken then .inside else .outside
    else position a taken past
  | (_, .leave _) :: _ => .outside
  | _ :: past => position a taken past

theorem position_eq_outside {past : Past U}
    (ended : ∀ x ∈ (executions a past).head?, x.1.2.emulator.Redirects a taken) :
    position a taken past = .outside := by
  induction past with
  | nil => rfl
  | cons step past ih =>
    obtain ⟨s, event⟩ := step
    cases event with
    | code address size stop =>
      rw [executions, RunEvent.executes] at ended
      rw [position]
      by_cases stopped : stop = true
      · rw [if_pos stopped]
        rw [stopped, Bool.not_true, Bool.and_false, if_neg Bool.false_ne_true] at ended
        exact ih ended
      rw [if_neg stopped]
      rw [Bool.not_eq_true] at stopped
      by_cases here : address = a
      · -- The last execution was redirected.
        rw [here, stopped, decide_eq_true rfl, Bool.not_false, Bool.and_true, if_pos rfl] at ended
        rw [if_pos here, if_pos (ended (s, past) rfl)]
      · rw [decide_eq_false here, Bool.false_and, if_neg Bool.false_ne_true] at ended
        rw [if_neg here, ih ended]
        rfl
    | leave => rfl
    | enter => exact ih ended
    | store => exact ih ended
    | load => exact ih ended
    | execute => exact ih ended
    | interfere => exact ih ended

/-- A loop is entered where the next execution of its branch does not go on from inside. -/
def byAddress (U : Type) [Unicorn U] (a taken : Addr) : Entering U a taken where
  enters past := position a taken past = .outside ∨ position a taken past = .branching ∧ a ≠ taken
  starts _ ended := decide_eq_true (.inl (position_eq_outside ended))

end Entering

namespace Example

/-- The loop is entered and iterates until its branch is made to fall through, and after
another instruction the same again. -/
def loopForced : List (RunEvent Machine) :=
  [.enter false, .code 0x140000000 2 false, .code 0x140000002 2 false, .code 0x140000000 2 false,
    .code 0x140000002 2 false, .code 0x140000004 2 false, .code 0x140000000 2 false,
    .code 0x140000002 2 false, .code 0x140000000 2 false, .code 0x140000002 2 false]

/-- The notion of entries that goes by addresses, for the loop of the example. -/
def byAddress : Entering Machine 0x140000002 0x140000000 := .byAddress _ _ _

end Example

/-- A loop that is entered again after its branch was made to fall through. -/
theorem Entering.iterations_eq_of_trace_forced : ∃ past s,
    Trace RunStep (Example.noCounts, Example.loopStarted) past s ∧
      (executions 0x140000002 past).countP
        (fun x => x.1.2.emulator.Redirects 0x140000002 0x140000000) = 2 ∧
      ∀ x ∈ executions 0x140000002 past, x.1.2.emulator.Redirects 0x140000002 0x140000000 →
        Example.byAddress.iterations x = 2 := by
  obtain ⟨⟨past, s⟩, performed, clean, forced, allowance⟩ : ∃ p,
      Trace.performTrace RunEvent.perform [] (Example.noCounts, Example.loopStarted)
        Example.loopForced = some p ∧ Example.byAddress.FindsNoCount p.1 ∧
      (executions 0x140000002 p.1).countP
        (fun x => x.1.2.emulator.Redirects 0x140000002 0x140000000) = 2 ∧
      ∀ x ∈ executions 0x140000002 p.1,
        (x.1.2.emulator.loopAllowance 0x140000002 0x140000000).toNat = 2 := by
    refine ⟨_, rfl, ?_, ?_, ?_⟩
    · unfold FindsNoCount
      decide +kernel
    · decide +kernel
    · decide +kernel
  have trace : Trace RunStep (Example.noCounts, Example.loopStarted) past s :=
    RunEvent.trace_of_performTrace performed
  have started := Example.startRun_eq_startedOf Example.loopDecoded true Example.loopArgs
  refine ⟨past, s, trace, forced, fun x execution redirects => ?_⟩
  rw [← allowance x execution]
  exact iterations_eq_of_trace started trace Example.decoded_loopInsn rfl (by decide) clean x
    execution redirects

/-- A loop that ends by itself after one iteration and is entered again is made to fall
through at the first execution of its branch, with an allowance of two. -/
theorem second_entry_cut_short : ∃ r,
    (Example.freshOf Example.loopDecoded true).startRun Example.loopArgs = .ok r ∧
      ∃ past s, Trace RunStep (Example.noCounts, r) past s ∧
        ∃ x ∈ executions 0x140000002 past, x.1.2.emulator.Redirects 0x140000002 0x140000000 ∧
          Example.byAddress.iterations x = 1 ∧
          (x.1.2.emulator.loopAllowance 0x140000002 0x140000000).toNat = 2 := by
  refine ⟨_, Example.startRun_eq_startedOf Example.loopDecoded true Example.loopArgs, ?_⟩
  obtain ⟨⟨past, s⟩, performed, found⟩ : ∃ p,
      Trace.performTrace RunEvent.perform [] (Example.noCounts, Example.loopStarted)
        Example.loopTwice = some p ∧
      ∃ x ∈ executions 0x140000002 p.1, x.1.2.emulator.Redirects 0x140000002 0x140000000 ∧
        Example.byAddress.iterations x = 1 ∧
        (x.1.2.emulator.loopAllowance 0x140000002 0x140000000).toNat = 2 :=
    ⟨_, rfl, by decide +kernel⟩
  exact ⟨past, s, RunEvent.trace_of_performTrace performed,
    found⟩

end Unxorer
