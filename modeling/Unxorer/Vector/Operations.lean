import Unxorer.Ida.Classes

/-!
# Operand access

The accessors of `vector_operations.hpp` and the operand reads and writes that every
handler goes through. A buffer argument is what the pointer parameter points to; a
result of `none` stands for the returned `false`, which leaves buffer and engine alone.
-/

set_option autoImplicit false

namespace Unxorer

open Unicorn

variable {U : Type} [Unicorn U] {n : ℕ}

namespace VectorOperations

open RegisterMapper

def isMemoryOperand (op : Operand) : Bool := op.type = .mem || op.type = .displ

def calculateEffectiveAddress (u : U) (op : Operand) : Addr :=
  if isMemoryOperand op then
    -- Only the base register is looked at, never an index register.
    match idaToUnicorn op.reg with
    | none => op.addr
    | some base => op.addr + reg u base
  else 0

/-- `read_vector_register`: `data` with its front replaced by the register. -/
def readVectorRegister (u : U) (idaReg : ℕ) (data : Buf n) (expectedSize : ℕ) : Option (Buf n) :=
  if isXmmReg idaReg ∧ expectedSize ≥ 16 then
    (xmmToUnicorn idaReg).map fun i => data.copy (List.ofFn (xmm u i))
  else if isYmmReg idaReg ∧ expectedSize ≥ 32 then
    (ymmToUnicorn idaReg).map fun i => data.copy (List.ofFn (ymm u i))
  else none

def writeVectorRegister (u : U) (idaReg : ℕ) (data : Buf n) (dataSize : ℕ) : Option U :=
  if isXmmReg idaReg then
    match xmmToUnicorn idaReg with
    | none => none
    | some i => if dataSize = 32 then some (ymmWrite u i (data.resize 32))
        else some (xmmWrite u i (data.resize 16))
  else if !isYmmReg idaReg then none
  else
    match ymmToUnicorn idaReg with
    | none => none
    -- Bytes of a YMM register beyond the data become zero.
    | some i => some (ymmWrite u i ((Buf.zero 32).copy (data.take (min dataSize 32))))

def updateRip (u : U) (address : Addr) (size : BitVec 32) : U :=
  regWrite u .rip (address + size.setWidth 64)

end VectorOperations

open VectorOperations RegisterMapper

/-- `read_operand`: `dest` with its front replaced by the operand. -/
def readOperand (u : U) (op : Operand) (dest : Buf n) (size : ℕ) : Option (Buf n) :=
  match op.type with
  | .mem | .displ => (memRead u (calculateEffectiveAddress u op) size).map dest.copy
  | .reg =>
    if vectorRegSize op.reg > 0 then readVectorRegister u op.reg dest size
    else (idaToUnicorn op.reg).map fun r => dest.copy ((leBytes (reg u r)).take (min size 8))
  | .imm => some (dest.copy ((leBytes op.value).take (min size 8)))
  | _ => none

/-- `write_operand`: the engine after the operand took the first `size` bytes of `src`. -/
def writeOperand (u : U) (op : Operand) (src : Buf n) (size : ℕ) : Option U :=
  match op.type with
  | .mem | .displ => memWrite u (calculateEffectiveAddress u op) (src.take size)
  | .reg =>
    if vectorRegSize op.reg > 0 then writeVectorRegister u op.reg src size
    else (idaToUnicorn op.reg).map fun r =>
      -- A write of 4 bytes clears the upper half of the register.
      if size = 4 then regWrite u r ((leWord (src.take 4)).setWidth 32 |>.setWidth 64)
      else regWrite u r (leWord (src.take (min size 8)))
  | _ => none

theorem isMemoryOperand_iff {op : Operand} :
    isMemoryOperand op = true ↔ op.type = .mem ∨ op.type = .displ := by
  rw [isMemoryOperand, Bool.or_eq_true, decide_eq_true_iff, decide_eq_true_iff]

section Memory

variable (u : U) {op : Operand} (memory : isMemoryOperand op = true) (size : ℕ)
include memory

/-- A memory operand is read at its effective address. -/
theorem readOperand_of_isMemoryOperand (dest : Buf n) :
    readOperand u op dest size =
      (memRead u (calculateEffectiveAddress u op) size).map dest.copy := by
  rcases isMemoryOperand_iff.mp memory with type | type
  · simp only [readOperand, type]
  · simp only [readOperand, type]

/-- A memory operand is written at its effective address. -/
theorem writeOperand_of_isMemoryOperand (src : Buf n) :
    writeOperand u op src size =
      memWrite u (calculateEffectiveAddress u op) (src.take size) := by
  rcases isMemoryOperand_iff.mp memory with type | type
  · simp only [writeOperand, type]
  · simp only [writeOperand, type]

end Memory

/-- `resolve_operands_2_or_3`: the two sources, each zero where its read failed. -/
def resolveOperands2Or3 (u : U) (insn : Insn) (size : ℕ) : Buf 32 × Buf 32 :=
  let lhs := Buf.zero 32
  let rhs := Buf.zero 32
  if insn.op3.type ≠ .void then
    ((readOperand u insn.op2 lhs size).getD lhs, (readOperand u insn.op3 rhs size).getD rhs)
  else
    ((readOperand u insn.op1 lhs size).getD lhs, (readOperand u insn.op2 rhs size).getD rhs)

end Unxorer
