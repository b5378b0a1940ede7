import Unxorer.Emulator.Budget

/-!
# The instruction limit of a run

Each slice is started with what is left of the limit, and Unicorn executes at most as many
instructions in it. What a slice is charged afterwards is not what Unicorn has executed but
what the hook has counted, and the hook counts only instructions that were decoded.

## Main definitions

* `executed` — the number of instructions executed in some steps
* `HeedsCount` — Unicorn keeps to the count a slice is started with
* `Metered` — the counter shows what is executed

## Main results

* `executed_le_of_trace` — a metered run keeps to its limit
-/

set_option autoImplicit false

namespace Unxorer

open Unicorn Transition

variable {U : Type} [Unicorn U]

/-- The step is an instruction: the hook is called for it, and not told to stop. -/
def RunEvent.isInstruction : RunEvent U → Bool
  | .code _ _ stop => !stop
  | _ => false

/-- The number of instructions executed in some steps. -/
def executed (past : Past U) : ℕ := past.countP fun x => x.2.isInstruction

/-- The steps since the last slice was entered. -/
def sliceSteps (past : Past U) : Past U := past.takeWhile fun x => !x.2.enters

/-- By how much a step advances the shared counter. -/
def RunEvent.advances (s : Counters × RunState U) : RunEvent U → ℕ
  | .interfere c => (c.instructionsExecuted - s.1.instructionsExecuted).toNat
  | event => event.counts s.2

/-- By how much some steps advance the shared counter. -/
def advanced (past : Past U) : ℕ := (past.map fun x => x.2.advances x.1).sum

/-- In no slice does Unicorn execute more instructions than the slice was started with. -/
def HeedsCount : Past U → Prop :=
  Trace.Along fun past s event => event.isInstruction = true → s.2.limitInstr = true →
    executed (sliceSteps past) < s.2.instructionsLeft.toNat

/-- Every instruction that is executed is decoded, and in no slice does the counter go once
around. -/
def Metered : Past U → Prop :=
  Trace.Along fun past s event => (event.isInstruction = true → event.counts s.2 = 1) ∧
    (event.leaves = true → advanced (sliceSteps past) < 2 ^ 64)

instance (past : Past U) : Decidable (HeedsCount past) := Trace.Along.decidable _ _

instance (past : Past U) : Decidable (Metered past) := Trace.Along.decidable _ _

/-! ### Slices -/

section Slices

variable {s : Counters × RunState U} {past : Past U} {event : RunEvent U}

theorem sliceSteps_of_enters (enters : event.enters = true) :
    sliceSteps ((s, event) :: past) = [] := by
  rw [sliceSteps, List.takeWhile_cons_of_neg (by simp [enters])]

theorem sliceSteps_cons (within : event.enters = false) :
    sliceSteps ((s, event) :: past) = (s, event) :: sliceSteps past := by
  rw [sliceSteps, List.takeWhile_cons_of_pos (by simp [within]), sliceSteps]

theorem executed_cons :
    executed ((s, event) :: past) = executed past + event.isInstruction.toNat := by
  rw [executed, List.countP_cons, executed]
  cases event.isInstruction <;> rfl

theorem advanced_cons : advanced ((s, event) :: past) = event.advances s + advanced past := by
  rw [advanced, List.map_cons, List.sum_cons, advanced]

end Slices

section Steps

variable [Host] {s s' : Counters × RunState U} {event : RunEvent U} {past : Past U}

/-- A step advances the counter by as much as is recorded for it. -/
theorem RunStep.counter_eq (step : RunStep event s s') :
    s'.1.instructionsExecuted =
      s.1.instructionsExecuted + BitVec.ofNat 64 (event.advances s) := by
  cases step with
  | @interfere c r c' =>
    rw [RunEvent.advances, BitVec.ofNat_toNat, BitVec.setWidth_eq]
    exact (add_sub_cancel _ _).symm
  | code address size stop here hook running =>
    refine RunStep.instructionsExecuted_eq ?_ (.code address size stop here hook running)
    intro c same
    cases same
  | _ => exact (add_zero _).symm

/-- Within a slice a step changes neither the phase nor the budget, and outside only other
emulators do something. -/
theorem RunStep.within (step : RunStep event s s') (enters : event.enters = false)
    (leaves : event.leaves = false) :
    s'.2.phase = s.2.phase ∧ s'.2.limitInstr = s.2.limitInstr ∧
      s'.2.instructionsLeft = s.2.instructionsLeft := by
  cases step with
  | enter => cases enters
  | leave => cases leaves
  | _ => exact ⟨rfl, rfl, rfl⟩

/-- What a run has been charged: what it has executed and what is left to it do not exceed
the limit, where the instructions of the current slice have not been charged yet. -/
structure Charged (limit : ℕ) (past : Past U) (s : Counters × RunState U) : Prop where
  limited : s.2.limitInstr = true
  counter : ∀ before, s.2.phase = .slice before →
    s.1.instructionsExecuted = before + BitVec.ofNat 64 (advanced (sliceSteps past))
  counted : executed (sliceSteps past) ≤ advanced (sliceSteps past)
  pending : s.2.phase.isSlice = true → executed (sliceSteps past) ≤ s.2.instructionsLeft.toNat
  total : executed past + s.2.instructionsLeft.toNat ≤
    limit + if s.2.phase.isSlice then executed (sliceSteps past) else 0

/-- Nothing has been executed and nothing charged when a slice is entered. -/
theorem Charged.enter {limit : ℕ} (charged : Charged limit past s) {stop : Bool}
    (step : RunStep (.enter stop) s s') : Charged limit ((s, .enter stop) :: past) s' := by
  cases step with
  | @enter c r stop here =>
    have fresh : sliceSteps ((((c, r), .enter stop) :: past : Past U)) = [] :=
      sliceSteps_of_enters rfl
    have total := charged.total
    rw [here] at total
    have same : (r.enterSlice c stop).limitInstr = r.limitInstr ∧
        (r.enterSlice c stop).instructionsLeft = r.instructionsLeft := by
      rw [RunState.enterSlice]
      split_ifs <;> exact ⟨rfl, rfl⟩
    refine ⟨same.1.trans charged.limited, ?_, ?_, ?_, ?_⟩
    · intro before entered
      rw [fresh]
      rw [RunState.enterSlice_cases entered] at entered
      cases entered
      exact (add_zero _).symm
    · rw [fresh]
      exact le_rfl
    · intro _
      rw [fresh]
      exact Nat.zero_le _
    · have none : executed ([] : Past U) = 0 := rfl
      rw [fresh, executed_cons, same.2, none, ite_self]
      exact total

/-- Within a slice what is executed is recorded and not charged yet. -/
theorem Charged.within {limit : ℕ} (charged : Charged limit past s) (step : RunStep event s s')
    (enters : event.enters = false) (leaves : event.leaves = false)
    (heeds : event.isInstruction = true → s.2.limitInstr = true →
      executed (sliceSteps past) < s.2.instructionsLeft.toNat)
    (metered : event.isInstruction = true → event.counts s.2 = 1) :
    Charged limit ((s, event) :: past) s' := by
  obtain ⟨phase, limitInstr, left⟩ := step.within enters leaves
  have counts : event.isInstruction.toNat ≤ event.advances s := by
    cases event with
    | code address size stop =>
      cases stop with
      | true => exact Nat.zero_le _
      | false => exact (metered rfl).ge
    | _ => exact Nat.zero_le _
  have inside : event.isInstruction = true → s.2.phase.isSlice = true := by
    intro instruction
    cases step with
    | code _ _ _ here => exact Phase.isSlice_of_eq here
    | _ => cases instruction
  refine ⟨limitInstr.trans charged.limited, ?_, ?_, ?_, ?_⟩
  · intro before here
    rw [phase] at here
    rw [step.counter_eq, charged.counter before here, sliceSteps_cons enters, advanced_cons,
      add_assoc, ← BitVec.ofNat_add, Nat.add_comm (advanced _)]
  · rw [sliceSteps_cons enters, executed_cons, advanced_cons]
    have counted := charged.counted
    omega
  · intro slice
    rw [phase] at slice
    rw [sliceSteps_cons enters, executed_cons, left]
    cases instruction : event.isInstruction with
    | false => exact charged.pending slice
    | true => exact heeds instruction charged.limited
  · rw [sliceSteps_cons enters, executed_cons, executed_cons, left, phase]
    have total := charged.total
    cases instruction : event.isInstruction with
    | false => exact total
    | true =>
      rw [inside instruction, if_pos rfl] at total ⊢
      rw [Bool.toNat_true]
      omega

/-- After a slice at least as much is charged as was executed in it. -/
theorem Charged.leave {limit : ℕ} (charged : Charged limit past s) {elapsedUs : BitVec 64}
    (step : RunStep (.leave elapsedUs) s s') (once : advanced (sliceSteps past) < 2 ^ 64) :
    Charged limit ((s, .leave elapsedUs) :: past) s' := by
  cases step with
  | @leave c r r' before elapsedUs here left =>
    obtain ⟨e₁, -, continues⟩ := RunState.leaveSlice_cases left
    have outside := continues.isSlice_eq
    have counter := charged.counter before here
    have counted := charged.counted
    have pending := charged.pending (Phase.isSlice_of_eq here)
    have total := charged.total
    rw [Phase.isSlice_of_eq here, if_pos rfl] at total
    -- The difference of the readings is what the counter has advanced by in the slice.
    have charge : r'.instructionsLeft.toNat =
        r.instructionsLeft.toNat - advanced (sliceSteps past) := by
      have limited : r.limitInstr = true := charged.limited
      rw [continues.instructionsLeft_eq]
      simp only [limited, if_true]
      rw [RunState.toNat_remaining, counter, add_sub_cancel_left, BitVec.toNat_ofNat,
        Nat.mod_eq_of_lt once]
    refine ⟨?_, ?_, ?_, ?_, ?_⟩
    · have limited : r.limitInstr = true := charged.limited
      rw [← limited]
      cases continues <;> rfl
    · intro before' slice
      rw [show r'.phase = _ from slice] at outside
      cases outside
    · rw [sliceSteps_cons rfl, executed_cons, advanced_cons]
      change _ + 0 ≤ 0 + _
      omega
    · intro slice
      exact absurd (outside.symm.trans slice) Bool.false_ne_true
    · rw [executed_cons, show r'.phase.isSlice = false from outside, if_neg Bool.false_ne_true]
      dsimp only at pending total ⊢
      rw [charge]
      change executed past + 0 + _ ≤ limit + 0
      omega

theorem charged_of_trace {limit : ℕ} (charged : Charged limit ([] : Past U) s)
    (trace : Trace RunStep s past s') (heeds : HeedsCount past) (metered : Metered past) :
    Charged limit past s' := by
  apply trace.invariant_of_along (heeds.and metered) charged
  intro past t event u before ⟨heeds, metered, once⟩ step
  cases event with
  | enter stop => exact before.enter step
  | leave elapsedUs => exact before.leave step (once rfl)
  | _ => exact before.within step rfl rfl heeds metered

/-- A run with a limit whose counter shows what it executes keeps to the limit. -/
theorem executed_le_of_trace {e : Emulator U} {args : RunArgs} {r : RunState U} {c : Counters}
    (started : e.startRun args = .ok r) (limited : args.maxInstr ≠ 0)
    (trace : Trace RunStep (c, r) past s) (heeds : HeedsCount past) (metered : Metered past) :
    executed past ≤ args.maxInstr.toNat := by
  have initial : Charged args.maxInstr.toNat ([] : Past U) (c, r) := by
    obtain ⟨e', -, rfl⟩ := Emulator.startRun_cases started
    refine ⟨decide_eq_true limited, ?_, le_rfl, ?_, ?_⟩
    · intro before here
      cases here
    · intro slice
      cases slice
    · exact (Nat.zero_add _).le
  have charged := charged_of_trace initial trace heeds metered
  have total := charged.total
  have pending := charged.pending
  split_ifs at total with slice
  · have := pending slice
    omega
  · omega

end Steps

namespace Example

/-- A run of at most two instructions. -/
def twoArgs (start : Addr) : RunArgs := ⟨start, 0, 2, 0, true⟩

/-- The program with the instruction behind its conditional jump. -/
def moveBehind : InstructionSnapshot := AList.insert 0x140000014 moveInsn decoded

/-- The conditional jump, and in a second slice the instruction behind it. -/
def twoSlices : List (RunEvent Machine) :=
  [.enter false, .code 0x140000012 2 false, .leave 0,
    .enter false, .code 0x140000014 4 false, .leave 0]

end Example

/-- A run that executes one decoded instruction in each of two slices. -/
theorem executed_le_of_trace_slices : ∃ past s,
    Trace RunStep (Example.noCounts,
      Example.startedOf Example.moveBehind true (Example.twoArgs 0x140000012)) past s ∧
      HeedsCount past ∧ Metered past ∧ s.2.slices = 2 ∧ executed past = 2 ∧
        executed past ≤ (Example.twoArgs 0x140000012).maxInstr.toNat := by
  obtain ⟨⟨past, s⟩, performed, heeds, metered, slices, two⟩ : ∃ p,
      Trace.performTrace RunEvent.perform [] (Example.noCounts,
        Example.startedOf Example.moveBehind true (Example.twoArgs 0x140000012))
        Example.twoSlices = some p ∧
      HeedsCount p.1 ∧ Metered p.1 ∧ p.2.2.slices = 2 ∧ executed p.1 = 2 :=
    ⟨_, rfl, by decide +kernel⟩
  have trace := RunEvent.trace_of_performTrace performed
  have started := Example.startRun_eq_startedOf Example.moveBehind true
    (Example.twoArgs 0x140000012)
  exact ⟨past, s, trace, heeds, metered, slices, two,
    executed_le_of_trace started (by decide) trace heeds metered⟩

/-- A run with a limit of two instructions that executes three: a jump, the instruction at
its target, which is not decoded, and the instruction behind the jump, which is not decoded
either. -/
theorem undecoded_exceeds_limit : ∃ r,
    (Example.freshOf Example.decoded true).startRun (Example.twoArgs 0x140000012) = .ok r ∧
      ∃ past s, Trace RunStep (Example.noCounts, r) past s ∧ HeedsCount past ∧
        (Example.twoArgs 0x140000012).maxInstr.toNat < executed past := by
  refine ⟨_, Example.startRun_eq_startedOf Example.decoded true (Example.twoArgs 0x140000012), ?_⟩
  obtain ⟨⟨past, s⟩, performed, heeds, more⟩ : ∃ p,
      Trace.performTrace RunEvent.perform [] (Example.noCounts,
        Example.startedOf Example.decoded true (Example.twoArgs 0x140000012))
        [.enter false, .code 0x140000012 2 false, .code 0x140000020 1 false, .leave 0,
          .enter false, .code 0x140000014 1 false] = some p ∧
      HeedsCount p.1 ∧ (Example.twoArgs 0x140000012).maxInstr.toNat < executed p.1 :=
    ⟨_, rfl, by decide +kernel⟩
  exact ⟨past, s, RunEvent.trace_of_performTrace performed,
    heeds, more⟩

end Unxorer
