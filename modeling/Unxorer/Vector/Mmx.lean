import Unxorer.Vector.Correctness

/-!
# The MMX forms of the emulated instructions

Most legacy instructions that are taken away from Unicorn also work on the 64-bit MMX
registers. The classifier looks at the opcode only, while the handlers know XMM and YMM
registers only, so such an instruction is passed over: RIP moves on and nothing else
happens.

## Main definitions

* `Mmx` — engines with MMX registers
* `Mmx.IsForm` — an instruction in its MMX form
* `Mmx.architectural` — the value the instruction gives its destination

## Main results

* `Handler.handle_mmx` — all the handler does is to advance RIP
* `Handler.handle_mmx_result_iff` — when that is the architectural result
-/

set_option autoImplicit false

namespace Unxorer

open Unicorn VectorOperations RegisterMapper InstructionClassifier Lanes

/-- The MMX registers of an engine. The code reads and writes none of them, and no write of
another register changes one. -/
class Mmx (U : Type) [Unicorn U] where
  mm : U → Fin 8 → Buf 8
  mm_regWrite : ∀ u r v, mm (regWrite u r v) = mm u

/-- The reference engine leaves its MMX registers as they are after reset. -/
instance : Mmx Machine := ⟨fun _ _ => Buf.zero 8, fun _ _ _ => rfl⟩

namespace Mmx

/-- The number of an MMX register; the IDA numbers are 56 to 63. -/
def mmNumber (r : ℕ) : Option (Fin 8) :=
  if 56 ≤ r ∧ r ≤ 63 then some (Fin.ofNat 8 (r - 56)) else none

/-- Operands in memory, whether or not the handlers know their kind. -/
def isInMemory (op : Operand) : Bool := op.type = .mem || op.type = .displ || op.type = .phrase

def isMm (op : Operand) : Bool := op.type = .reg && (mmNumber op.reg).isSome

def isGeneral (op : Operand) : Bool := op.type = .reg && (idaToUnicorn op.reg).isSome

/-! ### The forms -/

def isPacked (itype : Itype) : Bool := List.elem itype
  [.pxor, .pand, .por, .pandn, .paddb, .paddw, .paddd, .paddq, .psubb, .psubw, .psubd, .psubq,
    .pmullw, .pshufb]

def isShift (itype : Itype) : Bool := List.elem itype
  [.psllw, .pslld, .psllq, .psrlw, .psrld, .psrlq, .psraw, .psrad]

/-- The instruction works on MMX registers: packed operations on two of them or on one and
memory, shifts also by an immediate, and moves from or to an MMX register. -/
def IsForm (insn : Insn) : Prop :=
  (isPacked insn.itype = true ∧ isMm insn.op1 = true ∧
      (isMm insn.op2 = true ∨ isInMemory insn.op2 = true)) ∨
    (isShift insn.itype = true ∧ isMm insn.op1 = true ∧
      (isMm insn.op2 = true ∨ isInMemory insn.op2 = true ∨ insn.op2.type = .imm)) ∨
    ((insn.itype = .movd ∨ insn.itype = .movq) ∧
      (isMm insn.op1 = true ∧
          (isMm insn.op2 = true ∨ isGeneral insn.op2 = true ∨ isInMemory insn.op2 = true) ∨
        isMm insn.op2 = true ∧ (isGeneral insn.op1 = true ∨ isInMemory insn.op1 = true)))

theorem kind_of_isPacked {itype : Itype} (packed : isPacked itype = true) :
    shouldHandle itype = true ∧ Handler.isBinary itype = true := by
  rw [isPacked, List.elem_iff] at packed
  revert itype
  decide

theorem kind_of_isShift {itype : Itype} (shift : isShift itype = true) :
    shouldHandle itype = true ∧ Handler.isShift itype = true := by
  rw [isShift, List.elem_iff] at shift
  revert itype
  decide

/-- All these instructions are taken away from Unicorn. -/
theorem IsForm.shouldHandle {insn : Insn} (form : IsForm insn) :
    shouldHandle insn.itype = true := by
  rcases form with ⟨packed, -⟩ | ⟨shift, -⟩ | ⟨move | move, -⟩
  · exact (kind_of_isPacked packed).1
  · exact (kind_of_isShift shift).1
  · rw [move]
    rfl
  · rw [move]
    rfl

/-! ### The architectural result -/

/-- An operation on the lanes of two registers. -/
def onLanes (w : ℕ) (f : BitVec (8 * w) → BitVec (8 * w) → BitVec (8 * w)) (a b : Buf 8) : Buf 8 :=
  storeLanes w (8 / w) (fun k => f (lane w a k) (lane w b k)) a

/-- A shift of the lanes of a register; the count is all of the second operand. -/
def shiftLanes (w : ℕ) (f : BitVec (8 * w) → ℕ → BitVec (8 * w)) (a b : Buf 8) : Buf 8 :=
  storeLanes w (8 / w) (fun k => f (lane w a k) (lane 8 b 0).toNat) a

/-- The byte shuffle of a 64-bit register takes the low three bits of an index. -/
def shuffle (a mask : Buf 8) : Buf 8 := fun j =>
  if (mask j).msb then 0 else byteAt a ((mask j).toNat % 8)

/-- What a packed operation or shift makes of its two operands. -/
def compute (itype : Itype) (a b : Buf 8) : Option (Buf 8) :=
  match itype with
  | .pxor => some fun j => a j ^^^ b j
  | .pand => some fun j => a j &&& b j
  | .por => some fun j => a j ||| b j
  | .pandn => some fun j => ~~~ (a j) &&& b j
  | .paddb => some (onLanes 1 (· + ·) a b)
  | .paddw => some (onLanes 2 (· + ·) a b)
  | .paddd => some (onLanes 4 (· + ·) a b)
  | .paddq => some (onLanes 8 (· + ·) a b)
  | .psubb => some (onLanes 1 (· - ·) a b)
  | .psubw => some (onLanes 2 (· - ·) a b)
  | .psubd => some (onLanes 4 (· - ·) a b)
  | .psubq => some (onLanes 8 (· - ·) a b)
  | .pmullw => some (onLanes 2 (· * ·) a b)
  | .pshufb => some (shuffle a b)
  | .psllw => some (shiftLanes 2 (· <<< ·) a b)
  | .pslld => some (shiftLanes 4 (· <<< ·) a b)
  | .psllq => some (shiftLanes 8 (· <<< ·) a b)
  | .psrlw => some (shiftLanes 2 (· >>> ·) a b)
  | .psrld => some (shiftLanes 4 (· >>> ·) a b)
  | .psrlq => some (shiftLanes 8 (· >>> ·) a b)
  | .psraw => some (shiftLanes 2 BitVec.sshiftRight a b)
  | .psrad => some (shiftLanes 4 BitVec.sshiftRight a b)
  | _ => none

/-- The bytes of a 64-bit value. -/
def bytesOf (v : BitVec 64) : Buf 8 := fun j => v.extractLsb' (8 * j) 8

/-- The first four bytes of a value, zero-extended. -/
def lowHalf (v : Buf 8) : Buf 8 := fun j => if j.1 < 4 then v j else 0

variable {U : Type} [Unicorn U] [Mmx U]

/-- The value of an operand, where `ea` is the address of the operand in memory. Memory that
is not mapped is mapped and zero when the instruction reads it. -/
def operandValue (u : U) (ea : Addr) (op : Operand) : Option (Buf 8) :=
  match op.type with
  | .reg =>
    match mmNumber op.reg with
    | some i => some (mm u i)
    | none => (idaToUnicorn op.reg).map fun r => bytesOf (reg u r)
  | .mem | .displ | .phrase => some fun j => (guestByte u (ea + BitVec.ofNat 64 j)).getD 0
  | .imm => some (bytesOf (op.value.setWidth 8 |>.setWidth 64))
  | _ => none

/-- The value the instruction gives its destination. -/
def architectural (u : U) (ea : Addr) (insn : Insn) : Option (Buf 8) := do
  let second ← operandValue u ea insn.op2
  match insn.itype with
  | .movd => return lowHalf second
  | .movq => return second
  | itype => compute itype (← operandValue u ea insn.op1) second

/-- The destination holds a value; a `movd` to memory stores four bytes of it. -/
def DestinationHolds (u : U) (ea : Addr) (insn : Insn) (v : Buf 8) : Prop :=
  match insn.op1.type with
  | .reg =>
    match mmNumber insn.op1.reg with
    | some i => mm u i = v
    | none => (idaToUnicorn insn.op1.reg).map (fun r => bytesOf (reg u r)) = some v
  | _ => ∀ j : Fin 8, j.1 < (if insn.itype = .movd then 4 else 8) →
      guestByte u (ea + BitVec.ofNat 64 j) = some (v j)

theorem operandValue_of_isMm (u : U) (ea : Addr) {op : Operand} (isMm : isMm op = true) :
    ∃ v, operandValue u ea op = some v := by
  rw [Mmx.isMm, Bool.and_eq_true, decide_eq_true_eq] at isMm
  obtain ⟨i, number⟩ := Option.isSome_iff_exists.mp isMm.2
  exact ⟨mm u i, by simp only [operandValue, isMm.1, number]⟩

theorem operandValue_of_isInMemory (u : U) (ea : Addr) {op : Operand}
    (inMemory : isInMemory op = true) : ∃ v, operandValue u ea op = some v := by
  simp only [isInMemory, Bool.or_eq_true, decide_eq_true_eq] at inMemory
  rcases inMemory with (type | type) | type
  all_goals exact ⟨_, by rw [operandValue, type]⟩

theorem operandValue_of_isGeneral (u : U) (ea : Addr) {op : Operand}
    (general : isGeneral op = true) : ∃ v, operandValue u ea op = some v := by
  rw [isGeneral, Bool.and_eq_true, decide_eq_true_eq] at general
  obtain ⟨r, number⟩ := Option.isSome_iff_exists.mp general.2
  simp only [operandValue, general.1, number]
  cases mmNumber op.reg with
  | none => exact ⟨_, rfl⟩
  | some i => exact ⟨_, rfl⟩

/-- Every instruction in its MMX form has an architectural result. -/
theorem exists_architectural (u : U) (ea : Addr) {insn : Insn} (form : IsForm insn) :
    ∃ v, architectural u ea insn = some v := by
  rcases form with ⟨packed, first, second⟩ | ⟨shift, first, second⟩ | ⟨move, operands⟩
  · obtain ⟨a, valueA⟩ := operandValue_of_isMm u ea first
    obtain ⟨b, valueB⟩ : ∃ v, operandValue u ea insn.op2 = some v := by
      rcases second with mm | memory
      · exact operandValue_of_isMm u ea mm
      · exact operandValue_of_isInMemory u ea memory
    simp only [architectural, valueA, valueB]
    generalize insn.itype = itype at packed ⊢
    rw [isPacked, List.elem_iff] at packed
    simp only [List.mem_cons, List.not_mem_nil, or_false] at packed
    rcases packed with rfl | rfl | rfl | rfl | rfl | rfl | rfl | rfl | rfl | rfl | rfl | rfl | rfl |
      rfl
    all_goals exact ⟨_, rfl⟩
  · obtain ⟨a, valueA⟩ := operandValue_of_isMm u ea first
    obtain ⟨b, valueB⟩ : ∃ v, operandValue u ea insn.op2 = some v := by
      rcases second with mm | memory | immediate
      · exact operandValue_of_isMm u ea mm
      · exact operandValue_of_isInMemory u ea memory
      · exact ⟨_, by rw [operandValue, immediate]⟩
    simp only [architectural, valueA, valueB]
    generalize insn.itype = itype at shift ⊢
    rw [isShift, List.elem_iff] at shift
    simp only [List.mem_cons, List.not_mem_nil, or_false] at shift
    rcases shift with rfl | rfl | rfl | rfl | rfl | rfl | rfl | rfl
    all_goals exact ⟨_, rfl⟩
  · obtain ⟨b, valueB⟩ : ∃ v, operandValue u ea insn.op2 = some v := by
      rcases operands with ⟨-, mm | general | memory⟩ | ⟨mm, -⟩
      · exact operandValue_of_isMm u ea mm
      · exact operandValue_of_isGeneral u ea general
      · exact operandValue_of_isInMemory u ea memory
      · exact operandValue_of_isMm u ea mm
    rcases move with move | move
    all_goals
      simp only [architectural, valueB, move]
      exact ⟨_, rfl⟩

/-- No handler finds an engine register for an MMX register. -/
theorem unknown_of_isMm {op : Operand} (isMm : isMm op = true) :
    op.type = .reg ∧ vectorRegSize op.reg = 0 ∧ idaToUnicorn op.reg = none := by
  rw [Mmx.isMm, Bool.and_eq_true, decide_eq_true_eq] at isMm
  obtain ⟨type, number⟩ := isMm
  have range : 56 ≤ op.reg ∧ op.reg ≤ 63 := by
    by_contra outside
    rw [mmNumber, if_neg outside] at number
    cases number
  refine ⟨type, ?_, ?_⟩
  · exact vectorRegSize_eq_zero (by omega) (by omega)
  · exact List.getElem?_eq_none (by change 16 ≤ op.reg; omega)

omit [Mmx U] in
theorem readOperand_of_isMm {n : ℕ} (u : U) {op : Operand} (isMm : isMm op = true) (dest : Buf n)
    (size : ℕ) : readOperand u op dest size = none := by
  obtain ⟨type, width, number⟩ := unknown_of_isMm isMm
  simp only [readOperand, type, width, gt_iff_lt, lt_irrefl, if_false, number, Option.map_none]

omit [Mmx U] in
theorem writeOperand_of_isMm {n : ℕ} (u : U) {op : Operand} (isMm : isMm op = true) (src : Buf n)
    (size : ℕ) : writeOperand u op src size = none := by
  obtain ⟨type, width, number⟩ := unknown_of_isMm isMm
  simp only [writeOperand, type, width, gt_iff_lt, lt_irrefl, if_false, number, Option.map_none]

/-- The advance of RIP changes no destination. -/
theorem destinationHolds_updateRip (u : U) (address : Addr) (size : BitVec 32) (ea : Addr)
    (insn : Insn) (v : Buf 8) :
    DestinationHolds (updateRip u address size) ea insn v ↔ DestinationHolds u ea insn v := by
  have memory : guestByte (updateRip u address size) = guestByte u := by
    funext x
    rw [guestByte, guestByte, mapped_updateRip, byte_updateRip]
  rw [DestinationHolds, DestinationHolds, memory]
  split
  · split
    · rw [updateRip, mm_regWrite]
    · cases number : idaToUnicorn insn.op1.reg with
      | none => rfl
      | some r =>
        rw [Option.map_some, Option.map_some, reg_updateRip,
          Function.update_of_ne (idaToUnicorn_general number).1]
  · rfl

end Mmx

namespace Handler

open Mmx

variable {U : Type} [Unicorn U]

/-- The handler passes over an instruction in its MMX form. -/
theorem handle_mmx (u : U) (address : Addr) (size : BitVec 32) {insn : Insn}
    (form : IsForm insn) : handle u address size insn = updateRip u address size := by
  rcases form with ⟨packed, first, -⟩ | ⟨shift, first, -⟩ | ⟨move, operands⟩
  · rw [handle_binary u address size (kind_of_isPacked packed).2]
    exact if_pos (unknown_of_isMm first).2.1
  · rw [handle_shift u address size (kind_of_isShift shift).2]
    exact if_pos (unknown_of_isMm first).2.1
  · have moves : isMove insn.itype = true := by
      rcases move with move | move
      · rw [move]
        rfl
      · rw [move]
        rfl
    rw [handle_move u address size moves, handleMove]
    -- The read fails for an MMX source, the write for an MMX destination.
    rcases operands with ⟨destination, -⟩ | ⟨source, -⟩
    · split
      · rw [writeOperand_of_isMm _ destination, Option.getD_none]
      · rfl
    · rw [readOperand_of_isMm _ source]

/-- An instruction in its MMX form has an architectural result, whatever the machine state
and the address of its memory operand are. The handler only advances RIP, so it has
produced that result or left the instruction to Unicorn exactly when the destination held
the result beforehand. -/
theorem handle_mmx_result_iff [Mmx U] (u : U) (address : Addr) (size : BitVec 32) (ea : Addr)
    {insn : Insn} (form : IsForm insn) (length : size ≠ 0) :
    shouldHandle insn.itype = true ∧ handle u address size insn = updateRip u address size ∧
      ∃ v, architectural u ea insn = some v ∧
        (DestinationHolds (handle u address size insn) ea insn v ∨
            reg (handle u address size insn) .rip = address ↔
          DestinationHolds u ea insn v) := by
  have passed := handle_mmx u address size form
  obtain ⟨v, result⟩ := exists_architectural u ea form
  refine ⟨form.shouldHandle, passed, v, result, ?_⟩
  have advanced : ¬ reg (updateRip u address size) .rip = address := by
    rw [reg_updateRip, Function.update_self]
    intro same
    apply length
    have zero : size.setWidth 64 = 0 := by
      rw [← sub_eq_zero.mpr same, add_sub_cancel_left]
    apply BitVec.eq_of_toNat_eq
    have value := congrArg BitVec.toNat zero
    rwa [BitVec.toNat_setWidth_of_le (by decide)] at value
  rw [passed, or_iff_left advanced, destinationHolds_updateRip]

/-- `pxor mm0, mm0`. -/
def pxorInsn : Insn := ⟨.pxor, 3, ⟨.reg, 56, 0, 0⟩, ⟨.reg, 56, 0, 0⟩, .none⟩

/-- `paddb mm0, [rbx+10h]`. -/
def paddbInsn : Insn := ⟨.paddb, 4, ⟨.reg, 56, 0, 0⟩, ⟨.displ, 3, 0x10, 0⟩, .none⟩

theorem handle_mmx_result_iff_pxor : ∃ v, architectural Machine.empty 0 pxorInsn = some v ∧
    (DestinationHolds (handle Machine.empty 0x1000 3 pxorInsn) 0 pxorInsn v ∨
        reg (handle Machine.empty 0x1000 3 pxorInsn) .rip = 0x1000 ↔
      DestinationHolds Machine.empty 0 pxorInsn v) :=
  (handle_mmx_result_iff Machine.empty 0x1000 3 0 (.inl ⟨rfl, rfl, .inl rfl⟩) (by decide)).2.2

/-- On a machine with a pattern in memory the sum is not zero, but MM0 is left at zero and
RIP is moved past the instruction. -/
theorem paddb_mmx_has_no_effect : IsForm paddbInsn ∧ ∃ v : Buf 8,
    architectural patterned 0x2010 paddbInsn = some v ∧
      ¬ (DestinationHolds (handle patterned 0x1000 4 paddbInsn) 0x2010 paddbInsn v ∨
        reg (handle patterned 0x1000 4 paddbInsn) .rip = 0x1000) := by
  refine ⟨.inl ⟨rfl, rfl, .inr rfl⟩, _, rfl, ?_⟩
  rintro (holds | unmoved)
  · have first : Buf.zero 8 0 = _ := congrFun holds 0
    revert first
    decide +kernel
  · revert unmoved
    decide +kernel

end Handler

end Unxorer
