import Unxorer.Emulator.Steps

/-!
# Forced conditions

`force_branch` sets flags, or RCX, so that the condition of an instruction is true. The
processor's conditions are stated here on their own: each instruction has one of nineteen
condition codes, and a code is a statement about five flags and RCX.

## Main definitions

* `ConditionCode`, `ConditionCode.Holds` — the conditions of the processor
* `conditionCode` — the condition of an instruction
* `Forced` — an engine is as another one, with the condition of an instruction made true
* `ForceLaw` — what forcing does, and what is saved when a branch forwards is forced

## Main results

* `forceLaw` — the law holds
-/

set_option autoImplicit false

namespace Unxorer

open Unicorn InstructionClassifier Emulator

/-! ### The conditions of the processor -/

/-- Overflow, below (carry), zero, below or equal, sign, parity, less, less or equal, each
with its negation, and the three tests of the count register. -/
inductive ConditionCode
  | o | no | b | ae | z | nz | be | a | s | ns | p | np | l | ge | le | g | cxz | ecxz | rcxz
deriving DecidableEq

namespace ConditionCode

/-- The condition is true with these contents of EFLAGS and RCX. -/
def Holds (eflags rcx : BitVec 64) (code : ConditionCode) : Prop :=
  let cf := eflags.getLsbD 0
  let pf := eflags.getLsbD 2
  let zf := eflags.getLsbD 6
  let sf := eflags.getLsbD 7
  let of := eflags.getLsbD 11
  match code with
  | .o => of = true
  | .no => of = false
  | .b => cf = true
  | .ae => cf = false
  | .z => zf = true
  | .nz => zf = false
  | .be => cf = true ∨ zf = true
  | .a => cf = false ∧ zf = false
  | .s => sf = true
  | .ns => sf = false
  | .p => pf = true
  | .np => pf = false
  | .l => sf ≠ of
  | .ge => sf = of
  | .le => zf = true ∨ sf ≠ of
  | .g => zf = false ∧ sf = of
  | .cxz => rcx.setWidth 16 = 0
  | .ecxz => rcx.setWidth 32 = 0
  | .rcxz => rcx = 0

end ConditionCode

/-- The condition of a conditional instruction. -/
def conditionCode : Itype → Option ConditionCode
  | .jo | .cmovo | .seto => some .o
  | .jno | .cmovno | .setno => some .no
  | .jb | .jc | .jnae | .cmovb | .setb | .setc => some .b
  | .jae | .jnb | .jnc | .setae => some .ae
  | .jz | .je | .cmovz | .setz | .sete => some .z
  | .jnz | .jne | .cmovnz | .setnz | .setne => some .nz
  | .jbe | .jna | .cmovbe | .setbe => some .be
  | .ja | .jnbe | .cmova | .seta => some .a
  | .js | .cmovs | .sets => some .s
  | .jns | .cmovns | .setns => some .ns
  | .jp | .jpe | .cmovp | .setp => some .p
  | .jnp | .jpo | .cmovnp | .setnp | .setpo => some .np
  | .jl | .jnge | .cmovl | .setl => some .l
  | .jge | .jnl | .cmovge | .setge => some .ge
  | .jle | .jng | .cmovle | .setle => some .le
  | .jg | .jnle | .cmovg | .setg => some .g
  | .jcxz => some .cxz
  | .jecxz => some .ecxz
  | .jrcxz => some .rcxz
  | _ => none

theorem exists_conditionCode {itype : Itype} (conditional : isConditional itype = true) :
    ∃ code, conditionCode itype = some code := by
  rw [isConditional, Bool.or_eq_true, isBranch, isFlagDependent, List.elem_iff, List.elem_iff,
    ← List.mem_append] at conditional
  apply Option.isSome_iff_exists.mp
  revert itype
  decide

/-! ### Forcing a condition -/

namespace ConditionCode

/-- The flags `force_branch` writes for the instructions with a condition. -/
def force (eflags : BitVec 64) : ConditionCode → BitVec 64
  | .o => eflags ||| flagOf
  | .no => eflags &&& ~~~flagOf
  | .b | .be => eflags ||| flagCf
  | .ae => eflags &&& ~~~flagCf
  | .z | .le => eflags ||| flagZf
  | .nz => eflags &&& ~~~flagZf
  | .a => eflags &&& ~~~(flagCf ||| flagZf)
  | .s => eflags ||| flagSf
  | .ns => eflags &&& ~~~flagSf
  | .p => eflags ||| flagPf
  | .np => eflags &&& ~~~flagPf
  | .l => (eflags ||| flagSf) &&& ~~~flagOf
  | .ge => eflags &&& ~~~(flagSf ||| flagOf)
  | .g => eflags &&& ~~~(flagZf ||| flagSf ||| flagOf)
  | .cxz | .ecxz | .rcxz => eflags

/-- The condition is a test of the count register. -/
def testsCount : ConditionCode → Bool
  | .cxz | .ecxz | .rcxz => true
  | _ => false

variable {code : ConditionCode}

/-- The forced flags make every condition true that is about flags. -/
theorem holds_force (eflags rcx : BitVec 64) (flags : code.testsCount = false) :
    code.Holds (code.force eflags) rcx := by
  cases code <;> simp [Holds, force, flagCf, flagPf, flagZf, flagSf, flagOf]
  all_goals cases flags

/-- A count of zero makes every test of the count true. -/
theorem holds_zero (eflags : BitVec 64) (count : code.testsCount = true) :
    code.Holds eflags 0 := by
  cases code with
  | cxz | ecxz | rcxz => rfl
  | _ => cases count

theorem force_of_testsCount (eflags : BitVec 64) (count : code.testsCount = true) :
    code.force eflags = eflags := by
  cases code with
  | cxz | ecxz | rcxz => rfl
  | _ => cases count

/-- The flags conditions are about. -/
def flagMask : BitVec 64 := flagCf ||| flagPf ||| flagZf ||| flagSf ||| flagOf

theorem or_and_not_flagMask (eflags : BitVec 64) {mask : BitVec 64}
    (inside : mask &&& ~~~flagMask = 0#64) :
    (eflags ||| mask) &&& ~~~flagMask = eflags &&& ~~~flagMask := by
  rw [BitVec.and_or_distrib_right, inside, BitVec.or_zero]

theorem and_not_and_not_flagMask (eflags : BitVec 64) {mask : BitVec 64}
    (inside : ~~~mask &&& ~~~flagMask = ~~~flagMask) :
    (eflags &&& ~~~mask) &&& ~~~flagMask = eflags &&& ~~~flagMask := by
  rw [BitVec.and_assoc, inside]

/-- Forcing changes no other flags. -/
theorem force_and_not_flagMask (eflags : BitVec 64) :
    code.force eflags &&& ~~~flagMask = eflags &&& ~~~flagMask := by
  cases code with
  | cxz | ecxz | rcxz => rfl
  | o | b | z | be | s | p | le => exact or_and_not_flagMask _ (by decide)
  | no | ae | nz | a | ns | np | ge | g => exact and_not_and_not_flagMask _ (by decide)
  | l =>
    rw [force, and_not_and_not_flagMask _ (by decide), or_and_not_flagMask _ (by decide)]

end ConditionCode

/-- The flags `force_branch` writes depend on the condition alone. -/
theorem forcedFlags_eq {itype : Itype} {code : ConditionCode}
    (has : conditionCode itype = some code) (eflags : BitVec 64) :
    forcedFlags itype eflags = code.force eflags := by
  have all : forcedFlags itype eflags =
      (conditionCode itype).elim eflags (ConditionCode.force eflags) := by
    cases itype <;> rfl
  rw [all, has, Option.elim_some]

/-- The instructions that test the count register. -/
def countTypes : List Itype := [.jcxz, .jecxz, .jrcxz]

theorem testsCount_iff {itype : Itype} {code : ConditionCode}
    (has : conditionCode itype = some code) : code.testsCount = true ↔ itype ∈ countTypes := by
  have all : (conditionCode itype).elim false ConditionCode.testsCount =
      decide (itype ∈ countTypes) := by
    cases itype <;> rfl
  rw [has, Option.elim_some] at all
  rw [all, decide_eq_true_iff]

section Engine

variable {U : Type} [Unicorn U]

theorem forceBranch_eq (u : U) (insn : Insn) :
    forceBranch u insn = regWrite (if insn.itype ∈ countTypes then regWrite u .rcx 0 else u) .eflags
      (forcedFlags insn.itype (reg u .eflags)) := by
  rw [forceBranch]
  cases insn.itype <;> rfl

theorem reg_forceBranch (u : U) (insn : Insn) (r : Reg) :
    reg (forceBranch u insn) r =
      if r = .eflags then forcedFlags insn.itype (reg u .eflags)
      else if insn.itype ∈ countTypes ∧ r = .rcx then 0
      else reg u r := by
  rw [forceBranch_eq, reg_regWrite]
  by_cases counts : insn.itype ∈ countTypes
  · rw [if_pos counts, reg_regWrite]
    simp only [counts, true_and]
  · rw [if_neg counts]
    simp only [counts, false_and, if_false]

theorem ymm_forceBranch (u : U) (insn : Insn) : ymm (forceBranch u insn) = ymm u := by
  rw [forceBranch]
  split <;> simp only [ymm_regWrite]

/-- An engine is as an engine before, except that the condition of an instruction is true:
none but the flags conditions are about have changed, or RCX for the tests of the count. -/
structure Forced (itype : Itype) (u u' : U) : Prop where
  condition : ∃ code, conditionCode itype = some code ∧ code.Holds (reg u' .eflags) (reg u' .rcx)
  flags : reg u' .eflags &&& ~~~ConditionCode.flagMask = reg u .eflags &&& ~~~ConditionCode.flagMask
  count : itype ∈ countTypes → reg u' .eflags = reg u .eflags
  registers : ∀ r, r ≠ .eflags → ¬ (itype ∈ countTypes ∧ r = .rcx) → reg u' r = reg u r
  vectors : ymm u' = ymm u
  memory : byte u' = byte u
  mappings : mapped u' = mapped u

theorem forced_forceBranch (u : U) {insn : Insn} (conditional : isConditional insn.itype = true) :
    Forced insn.itype u (forceBranch u insn) := by
  obtain ⟨code, has⟩ := exists_conditionCode conditional
  have eflags : reg (forceBranch u insn) .eflags = code.force (reg u .eflags) := by
    rw [reg_forceBranch, if_pos rfl, forcedFlags_eq has]
  refine ⟨⟨code, has, ?_⟩, ?_, ?_, ?_, ymm_forceBranch u insn, byte_forceBranch u insn,
    mapped_forceBranch u insn⟩
  · rw [eflags]
    cases count : code.testsCount with
    | false => exact code.holds_force _ _ count
    | true =>
      have rcx : reg (forceBranch u insn) .rcx = 0 := by
        rw [reg_forceBranch, if_neg Reg.noConfusion, if_pos ⟨(testsCount_iff has).mp count, rfl⟩]
      rw [rcx]
      exact code.holds_zero _ count
  · rw [eflags]
    exact code.force_and_not_flagMask _
  · intro counts
    rw [eflags]
    exact code.force_of_testsCount _ ((testsCount_iff has).mpr counts)
  · intro r general other
    rw [reg_forceBranch, if_neg general, if_neg other]

/-- The fall-through edge of a branch has been left for later, in a context with the
registers of an engine. -/
def SavedEdge (u : U) (address fallthrough : Addr)
    (pending pending' : List (BranchState (Context U))) : Prop :=
  ∃ ctx, pending' = ⟨ctx, fallthrough, ⟨address, fallthrough⟩⟩ :: pending ∧
    contextReg ctx = reg u ∧ contextYmm ctx = ymm u

/-- Scheduling changes the pending branches only by an edge with the current registers. -/
theorem scheduleBranch_pending (e : Emulator U) (c : Counters) (address target : Addr) :
    (e.scheduleBranch c address target).2.1.branches.pending = e.branches.pending ∨
      SavedEdge e.engine address target e.branches.pending
        (e.scheduleBranch c address target).2.1.branches.pending := by
  simp only [scheduleBranch]
  split_ifs
  · exact .inl rfl
  · exact .inl rfl
  · rw [BranchManager.saveBranch]
    cases save : contextSave e.engine with
    | none => exact .inl rfl
    | some ctx => exact .inr ⟨ctx, rfl, contextSave_registers _ _ save⟩

/-- A branch forwards is followed by forcing its condition. -/
theorem followBranch_forward (e : Emulator U) {address taken : Addr} (forward : address < taken)
    (fallthrough : Addr) (insn : Insn) :
    e.followBranch address taken fallthrough insn = { e with
      loopIterations := Function.update e.loopIterations address none
      engine := forceBranch e.engine insn } :=
  if_neg (BitVec.not_le.mpr forward)

/-- What forcing does: on an engine it makes a condition true and changes nothing else, and
when the hook meets a branch forwards it has saved the registers before. -/
structure ForceLaw (U : Type) [Unicorn U] [Host] : Prop where
  forced : ∀ (u : U) (insn : Insn), isConditional insn.itype = true →
    Forced insn.itype u (forceBranch u insn)
  forward : ∀ (e e' : Emulator U) (c c' : Counters) (address : Addr) (size : BitVec 32)
    (insn : Insn), e.tryGetInsn address = some insn → isBranch insn.itype = true →
    address < insn.op1.addr → e.hookCode c address size false = .ok (e', c') →
    Forced insn.itype e.engine e'.engine ∧
      (e'.branches.pending ≠ e.branches.pending →
        SavedEdge e.engine address (address + size.setWidth 64) e.branches.pending
          e'.branches.pending)

/-- Every conditional instruction is forced, and a branch forwards only after it was saved. -/
theorem forceLaw [Host] : ForceLaw U where
  forced := fun u _ conditional => forced_forceBranch u conditional
  forward := by
    intro e e' c c' address size insn decoded branch forward hook
    obtain ⟨e₁, scanned, rfl⟩ := hookCode_branch decoded branch hook
    obtain ⟨found, rfl⟩ := scanned.exists_stringList
    rw [followBranch_forward _ forward]
    obtain ⟨branches, c₁, -, scheduled, -⟩ := scheduleBranch_cases
      { e with stringList := found } (countInsn c) address (address + size.setWidth 64)
    constructor
    · -- Scheduling the other side leaves the engine alone.
      rw [scheduled]
      exact forced_forceBranch e.engine (isConditional_of_isBranch branch)
    · intro pushed
      rcases scheduleBranch_pending { e with stringList := found } (countInsn c) address
        (address + size.setWidth 64) with same | saved
      · exact absurd same pushed
      · exact saved

end Engine

/-- A jump to a higher address on an engine with cleared registers. -/
theorem forceLaw_jump :
    Forced .jz Machine.empty (forceBranch Machine.empty Example.jumpInsn) := by
  have law : @ForceLaw Machine _ _ := forceLaw
  exact law.forced Machine.empty Example.jumpInsn rfl

end Unxorer
