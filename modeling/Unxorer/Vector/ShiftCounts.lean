import Unxorer.Vector.ScalarMoves

/-!
# The counts of packed shifts

A packed shift takes its count from an immediate, from memory or from the low 64 bits of an
XMM register. The handler reads eight bytes of the operand into a word of zeros. It cannot
read eight bytes of an XMM register, and the count it then shifts by is zero.

## Main definitions

* `CountIs` — the count an operand supplies
* `CountLaw` — the handler shifts by a count, as it would by an immediate

## Main results

* `Handler.handleShift_withCount` — a shift depends on the value of its count only
* `Handler.countLaw_iff` — when the count is that of the operand
-/

set_option autoImplicit false

namespace Unxorer

open Unicorn VectorOperations RegisterMapper

variable {U : Type} [Unicorn U]

/-! ### Counts -/

/-- The last operand. -/
def countOperand (insn : Insn) : Operand := if insn.op3.type ≠ .void then insn.op3 else insn.op2

/-- The instruction with another last operand. -/
def Insn.withCount (insn : Insn) (op : Operand) : Insn :=
  if insn.op3.type ≠ .void then { insn with op3 := op } else { insn with op2 := op }

def immediate (value : BitVec 64) : Operand := ⟨.imm, 0, 0, value⟩

/-- The low 64 bits of a count operand, where `ea` is the address of an operand in memory. -/
inductive CountIs (u : U) (ea : Addr) (op : Operand) : BitVec 64 → Prop
  | immediate (type : op.type = .imm) : CountIs u ea op op.value
  | register {i : Fin 16} (isRegister : IsRegister op 16 i) :
      CountIs u ea op (leWord (List.ofFn ((Location.xmm i).value u 8)))
  | memory (inMemory : Mmx.isInMemory op = true) (room : Mapped u ea 8) :
      CountIs u ea op (leWord (bytesAt u ea 8))

/-- The handler uses the count, and leaves what it would leave for the count as an
immediate. -/
structure CountLaw (u : U) (address : Addr) (length : BitVec 32) (insn : Insn)
    (count : BitVec 64) : Prop where
  used : Handler.resolveShiftCount (updateRip u address length) (countOperand insn) = count
  same : Handler.handle u address length insn =
    Handler.handle u address length (insn.withCount (immediate count))

/-- The count of an immediate can be read, and that in memory if the bytes at the address the
handler computes are those of the operand. For any other count the handler takes zero. -/
def ReadsCount (u : U) (op : Operand) (count : BitVec 64) : Prop :=
  let a := calculateEffectiveAddress u op
  if op.type = .imm then True
  else if isMemoryOperand op = true ∧ Mapped u a 8 then leWord (bytesAt u a 8) = count
  else count = 0

/-! ### Reading a count -/

namespace Handler

theorem resolveShiftCount_imm (u : U) {op : Operand} (type : op.type = .imm) :
    resolveShiftCount u op = op.value :=
  if_pos type

theorem resolveShiftCount_of_eq_none {u : U} {op : Operand} (type : op.type ≠ .imm)
    (failed : readOperand u op (Buf.zero 8) 8 = none) : resolveShiftCount u op = 0 := by
  have zero : leWord (List.ofFn (Buf.zero 8)) = 0 := by decide +kernel
  rw [resolveShiftCount, if_neg type, failed, Option.getD_none, zero]

/-- Bytes copied over a whole buffer are the buffer. -/
theorem ofFn_copy {n : ℕ} (dest : Buf n) {bs : List Byte} (whole : bs.length = n) :
    List.ofFn (dest.copy bs) = bs := by
  apply List.ext_getElem
  · rw [List.length_ofFn, whole]
  · intro j _ inside
    rw [List.getElem_ofFn, Buf.copy_of_lt _ inside]

theorem resolveShiftCount_memory {u : U} {op : Operand} (memory : isMemoryOperand op = true)
    (room : Mapped u (calculateEffectiveAddress u op) 8) :
    resolveShiftCount u op = leWord (bytesAt u (calculateEffectiveAddress u op) 8) := by
  have notImm : op.type ≠ .imm := by
    intro type
    rw [isMemoryOperand, type] at memory
    exact Bool.false_ne_true memory
  have whole := ofFn_copy (Buf.zero 8) (length_bytesAt u (calculateEffectiveAddress u op) 8)
  rw [resolveShiftCount, if_neg notImm, readOperand_of_isMemoryOperand u memory,
    memRead_of_mapped room, Option.map_some, Option.getD_some, whole]

/-- The count the handler takes for an operand. -/
theorem resolveShiftCount_eq_iff {u : U} {ea : Addr} {op : Operand} {count : BitVec 64}
    (counts : CountIs u ea op count) :
    resolveShiftCount u op = count ↔ ReadsCount u op count := by
  simp only [ReadsCount]
  cases counts with
  | immediate type =>
    rw [if_pos type]
    exact iff_of_true (resolveShiftCount_imm u type) trivial
  | register isRegister =>
    have kind : op.type ≠ .imm := by rw [isRegister.type]; decide
    have notMemory : ¬ isMemoryOperand op = true := by
      rw [isMemoryOperand, isRegister.type]
      decide
    have failed := readOperand_of_short isRegister u (Buf.zero 8) (show 8 < 16 by decide)
    rw [if_neg kind, if_neg fun known => notMemory known.1,
      resolveShiftCount_of_eq_none kind failed, eq_comm]
  | memory inMemory room =>
    have kind : op.type ≠ .imm := by
      intro type
      rw [Mmx.isInMemory, type] at inMemory
      exact Bool.false_ne_true inMemory
    rw [if_neg kind]
    by_cases known : isMemoryOperand op = true ∧ Mapped u (calculateEffectiveAddress u op) 8
    · rw [if_pos known, resolveShiftCount_memory known.1 known.2]
    · rw [if_neg known, eq_comm,
        resolveShiftCount_of_eq_none kind (readOperand_memory_eq_none inMemory _ known)]

/-! ### The handler -/

/-- A shift depends on its last operand through the value of the count only. -/
theorem handleShift_withCount {u : U} {insn : Insn} {count : BitVec 64}
    (used : resolveShiftCount u (countOperand insn) = count) :
    handleShift u insn = handleShift u (insn.withCount (immediate count)) := by
  have taken : resolveShiftCount u (immediate count) = count := resolveShiftCount_imm u rfl
  by_cases vex : insn.op3.type ≠ .void
  · have third : (immediate count).type ≠ .void := fun same => by cases same
    rw [countOperand, if_pos vex] at used
    rw [Insn.withCount, if_pos vex]
    simp only [handleShift, if_pos vex, if_pos third, used, taken]
  · rw [countOperand, if_neg vex] at used
    rw [Insn.withCount, if_neg vex]
    simp only [handleShift, if_neg vex, used, taken]

/-- A shift uses the count of its operand exactly where the handler can read it. -/
theorem countLaw_iff (u : U) (address : Addr) (length : BitVec 32) (ea : Addr) {insn : Insn}
    (shift : isShift insn.itype = true) {count : BitVec 64}
    (counts : CountIs u ea (countOperand insn) count) :
    CountLaw u address length insn count ↔ ReadsCount u (countOperand insn) count := by
  have advanced : resolveShiftCount (updateRip u address length) (countOperand insn) =
      resolveShiftCount u (countOperand insn) := by
    rw [resolveShiftCount, resolveShiftCount, readOperand_updateRip]
  have other : isShift (insn.withCount (immediate count)).itype = true := by
    rw [Insn.withCount]
    split_ifs <;> exact shift
  rw [← resolveShiftCount_eq_iff counts, ← advanced]
  constructor
  · exact fun law => law.used
  · intro used
    refine ⟨used, ?_⟩
    rw [handle_shift u address length shift, handle_shift u address length other]
    exact handleShift_withCount used

/-- `psllw xmm0, 3` and `psllw xmm0, xmm1`. -/
def shiftByThreeInsn : Insn := ⟨.psllw, 5, ⟨.reg, 64, 0, 0⟩, ⟨.imm, 0, 0, 3⟩, .none⟩

def shiftByRegisterInsn : Insn := ⟨.psllw, 4, ⟨.reg, 64, 0, 0⟩, ⟨.reg, 65, 0, 0⟩, .none⟩

theorem countLaw_iff_three : CountLaw patterned 0x1000 5 shiftByThreeInsn 3 :=
  (countLaw_iff patterned 0x1000 5 0 rfl (.immediate rfl)).mpr trivial

/-- The count in XMM1 shifts everything out, but XMM0 keeps its bytes. -/
theorem register_count_ignored : ∃ count,
    CountIs patterned 0 (countOperand shiftByRegisterInsn) count ∧
      ymm (handle patterned 0x1000 4 shiftByRegisterInsn) 0 1 = 7 ∧
      ymm (handle patterned 0x1000 4 (shiftByRegisterInsn.withCount (immediate count))) 0 1 = 0 := by
  refine ⟨_, .register (i := 1) ⟨rfl, rfl, rfl, by decide⟩, ?_, ?_⟩
  · decide +kernel
  · decide +kernel

end Handler

end Unxorer
