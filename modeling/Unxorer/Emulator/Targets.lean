import Unxorer.Emulator.Counting

/-!
# The targets of an instruction

For an instruction that leads elsewhere the hook offers the branch manager an edge: to where an
indirect jump or call goes, or to what lies behind a conditional branch. No instruction has two
such targets, so a hook call offers at most one edge, and the branches behind it are known from
the branches before it.

## Main definitions

* `Emulator.LeadsTo` — the target of an instruction
* `Emulator.BranchesAfter` — what a hook call does to the branches

## Main results

* `Emulator.branches_of_hookCode` — a hook call offers the target of its instruction, and
  nothing else
* `Emulator.card_visited_of_hookCode` — the set of visited edges never outgrows the host
-/

set_option autoImplicit false

namespace Unxorer.Emulator

open Unicorn InstructionClassifier

variable {U : Type} [Unicorn U]

/-- The targets the hook offers for an instruction: where an indirect jump or call leads, and
what lies behind a conditional branch. -/
inductive LeadsTo (e : Emulator U) (address : Addr) (size : BitVec 32) (insn : Insn) : Addr → Prop
  | indirect {target : Addr} (control : insn.itype ∈ indirectControlTypes)
      (memory : insn.op1.type = .mem ∨ insn.op1.type = .displ)
      (resolved : resolveOperandTarget e.engine insn.op1 = some target) :
      LeadsTo e address size insn target
  | fallthrough (branch : isBranch insn.itype = true) :
      LeadsTo e address size insn (address + size.setWidth 64)

section LeadsTo

variable {e e' : Emulator U} {address target target' : Addr} {size : BitVec 32} {insn : Insn}

/-- A conditional branch is no indirect jump, so an instruction has at most one target. -/
theorem LeadsTo.unique (leads : e.LeadsTo address size insn target)
    (leads' : e.LeadsTo address size insn target') : target = target' := by
  cases leads with
  | indirect control memory resolved =>
    cases leads' with
    | indirect control' memory' resolved' => exact Option.some.inj (resolved.symm.trans resolved')
    | fallthrough branch => exact absurd control (plain_of_isBranch branch).2.2.2
  | fallthrough branch =>
    cases leads' with
    | indirect control => exact absurd control (plain_of_isBranch branch).2.2.2
    | fallthrough => rfl

/-- Jumps, calls and conditional branches are neither skipped nor handled. -/
theorem LeadsTo.plain (leads : e.LeadsTo address size insn target) :
    shouldSkip insn.itype = false ∧ shouldHandle insn.itype = false := by
  cases leads with
  | indirect control =>
    revert control
    cases insn.itype <;> decide
  | fallthrough branch =>
    obtain ⟨skip, handle, -⟩ := plain_of_isBranch branch
    exact ⟨skip, handle⟩

/-- Scans for strings have no influence on targets and edges. -/
theorem SameButStrings.leadsTo_iff (same : SameButStrings e e') :
    e'.LeadsTo address size insn target ↔ e.LeadsTo address size insn target := by
  obtain ⟨found, rfl⟩ := same.exists_stringList
  constructor
  · rintro (⟨control, memory, resolved⟩ | branch)
    · exact .indirect control memory resolved
    · exact .fallthrough branch
  · rintro (⟨control, memory, resolved⟩ | branch)
    · exact .indirect control memory resolved
    · exact .fallthrough branch

theorem SameButStrings.scheduled {b : BranchManager (Context U)} (same : SameButStrings e e')
    (scheduled : e'.Scheduled address target b) : e.Scheduled address target b := by
  obtain ⟨found, rfl⟩ := same.exists_stringList
  cases scheduled with
  | visited seen => exact .visited seen
  | outside fresh out => exact .outside fresh out
  | unsaved failed => exact .unsaved failed
  | saved fresh inside ctx log logged save =>
    exact Scheduled.saved (e := e) fresh inside ctx log logged save

end LeadsTo

/-! ### The branches behind a hook call -/

/-- The branches behind a hook call: those before it, where the instruction is ignored, leads
nowhere or is a call that leaves the image, or those after its target was offered. -/
inductive BranchesAfter (e : Emulator U) (address : Addr) (size : BitVec 32) (stop : Bool) :
    BranchManager (Context U) → Prop
  | kept (nowhere : stop = false → ∀ insn target, e.tryGetInsn address = some insn →
        e.leaves insn = false → ¬ e.LeadsTo address size insn target) :
      BranchesAfter e address size stop e.branches
  | offered {insn : Insn} {target : Addr} {b : BranchManager (Context U)} (running : stop = false)
      (decoded : e.tryGetInsn address = some insn) (leads : e.LeadsTo address size insn target)
      (scheduled : e.Scheduled address target b) : BranchesAfter e address size stop b

section Hook

variable {e e' : Emulator U} {c c' : Counters} {address : Addr} {size : BitVec 32} {insn : Insn}

theorem branches_followBranch (e : Emulator U) (address taken fallthrough : Addr) (insn : Insn) :
    (e.followBranch address taken fallthrough insn).branches = e.branches := by
  simp only [followBranch]
  split_ifs <;> rfl

/-- Looking for indirect targets offers where the instruction leads, if it leads anywhere. -/
theorem branches_of_discoverIndirectTargets (e : Emulator U) (c : Counters) (address : Addr)
    (size : BitVec 32) (other : isBranch insn.itype = false) :
    (e.discoverIndirectTargets c address insn).1.branches = e.branches ∧
        (∀ target, ¬ e.LeadsTo address size insn target) ∨
      ∃ target, e.LeadsTo address size insn target ∧
        e.Scheduled address target (e.discoverIndirectTargets c address insn).1.branches := by
  rw [discoverIndirectTargets]
  have direct {P : Prop} (nothing : insn.itype ∈ indirectControlTypes →
      insn.op1.type = .mem ∨ insn.op1.type = .displ →
      ∀ target, resolveOperandTarget e.engine insn.op1 = some target → P)
      {target : Addr} (leads : e.LeadsTo address size insn target) : P := by
    cases leads with
    | indirect control memory resolved => exact nothing control memory _ resolved
    | fallthrough branch => exact absurd (other.symm.trans branch) Bool.false_ne_true
  by_cases control : insn.itype ∉ indirectControlTypes
  · rw [if_pos control]
    exact .inl ⟨rfl, fun _ => direct fun holds => absurd holds control⟩
  rw [if_neg control]
  by_cases memory : insn.op1.type ≠ .mem ∧ insn.op1.type ≠ .displ
  · rw [if_pos memory]
    exact .inl ⟨rfl, fun _ => direct fun _ holds => absurd memory (or_iff_not_and_not.mp holds)⟩
  rw [if_neg memory]
  cases resolved : resolveOperandTarget e.engine insn.op1 with
  | none =>
    refine .inl ⟨rfl, fun _ => direct fun _ _ target leads => ?_⟩
    rw [resolved] at leads
    cases leads
  | some target =>
    obtain ⟨branches, c', scheduled, result, -⟩ := e.scheduleBranch_cases c address target
    have known := or_iff_not_and_not.mpr memory
    refine .inr ⟨target, .indirect (not_not.mp control) known resolved, ?_⟩
    dsimp only
    rw [result]
    exact scheduled

/-- Looking at the branches of an instruction offers its target, if it has one. -/
theorem branches_of_exploreBranches (explore : e.exploreBranches c address size insn = (e', c')) :
    e'.branches = e.branches ∧ (∀ target, ¬ e.LeadsTo address size insn target) ∨
      ∃ target, e.LeadsTo address size insn target ∧ e.Scheduled address target e'.branches := by
  cases branch : isBranch insn.itype with
  | true =>
    have discovered : e.discoverIndirectTargets c address insn = (e, c) := by
      rw [discoverIndirectTargets, if_pos (plain_of_isBranch branch).2.2.2]
    rw [exploreBranches, discovered] at explore
    simp only [isConditional_of_isBranch branch, branch, Bool.not_true, Bool.false_eq_true,
      if_false] at explore
    cases explore
    obtain ⟨branches, c', scheduled, result, -⟩ :=
      e.scheduleBranch_cases c address (address + size.setWidth 64)
    refine .inr ⟨_, .fallthrough branch, ?_⟩
    have same := congrArg (fun s : Emulator U × Counters => s.1.branches) result
    rw [branches_followBranch]
    exact same ▸ scheduled
  | false =>
    have discovered := e.branches_of_discoverIndirectTargets c address size branch
    rw [exploreBranches] at explore
    simp only [branch, Bool.not_false, if_true] at explore
    -- Forcing a conditional instruction leaves the branches alone.
    split_ifs at explore <;> cases explore <;> exact discovered

variable [Host]

/-- A hook call offers the target of its instruction, and nothing else. -/
theorem branches_of_hookCode {stop : Bool} (hook : e.hookCode c address size stop = .ok (e', c')) :
    e.BranchesAfter address size stop e'.branches := by
  rcases hookCode_cases hook with ⟨ignored, rfl, -⟩ | ⟨insn, proceeds, decoded, executed⟩
  · refine .kept fun running insn target decoded _ _ => ?_
    rw [ignores, running, decoded] at ignored
    cases ignored
  have running : stop = false := (Bool.or_eq_false_iff.mp proceeds).1
  have only {P : Prop} (nothing : e.leaves insn = false → ∀ target,
      e.LeadsTo address size insn target → P) (_ : stop = false) (insn' : Insn) (target : Addr)
      (decoded' : e.tryGetInsn address = some insn') (stays : e.leaves insn' = false)
      (leads : e.LeadsTo address size insn' target) : P := by
    cases decoded.symm.trans decoded'
    exact nothing stays target leads
  cases executed with
  | skipped skip =>
    refine .kept (only fun _ target leads => ?_)
    exact absurd (leads.plain.1.symm.trans skip) Bool.false_ne_true
  | handled _ scanned handle =>
    obtain ⟨found, rfl⟩ := scanned.exists_stringList
    refine .kept (only fun _ target leads => ?_)
    exact absurd (leads.plain.2.symm.trans handle) Bool.false_ne_true
  | @called e₁ _ _ stub skip scanned _ call =>
    have out : e.leaves insn = true := by
      rw [← (scanned.leaves_eq insn).1]
      rcases e₁.handleCall_counted (countInsn c) address size insn with ⟨none, -⟩ | ⟨out, -⟩
      · rw [none] at call
        cases call
      · exact out
    obtain ⟨u, heap, -, same, -⟩ := handleCall_cases call
    have branches : e'.branches = e.branches := by rw [same, scanned]
    rw [branches]
    exact .kept (only fun stays _ _ => absurd (stays.symm.trans out) Bool.false_ne_true)
  | explored _ scanned _ _ explore =>
    rcases branches_of_exploreBranches explore with ⟨same, nowhere⟩ | ⟨target, leads, scheduled⟩
    · have branches : e'.branches = e.branches := by rw [same, scanned]
      rw [branches]
      refine .kept (only fun _ target leads => ?_)
      exact nowhere target (scanned.leadsTo_iff.mpr leads)
    · exact .offered running decoded (scanned.leadsTo_iff.mp leads) (scanned.scheduled scheduled)

/-- The set of visited edges never outgrows what the host can hold. -/
theorem card_visited_of_hookCode {stop : Bool}
    (hook : e.hookCode c address size stop = .ok (e', c'))
    (fits : e.branches.visited.card ≤ Host.setMax) : e'.branches.visited.card ≤ Host.setMax := by
  rcases hookCode_cases hook with ⟨-, rfl, -⟩ | ⟨insn, -, -, executed⟩
  · exact fits
  cases executed with
  | skipped => exact fits
  | handled _ scanned =>
    obtain ⟨found, rfl⟩ := scanned.exists_stringList
    exact fits
  | called _ scanned _ call =>
    obtain ⟨u, heap, -, same, -⟩ := handleCall_cases call
    rwa [show e'.branches = e.branches by rw [same, scanned]]
  | explored _ _ _ _ _ fits' => exact fits'

end Hook

end Unxorer.Emulator
