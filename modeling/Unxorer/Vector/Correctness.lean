import Unxorer.Lib.PackedInteger
import Unxorer.Machine.Reference
import Unxorer.Vector.Handler

/-!
# The emulated instructions compute the packed operations

Whatever form an instruction comes in, its two sources go through one path: an operand
of the instruction's width, read into a zeroed buffer. What the lane loops make of such
buffers is the packed operation of the instruction, and the write to the destination
register changes nothing else.

## Main definitions

* `Holds` — the bytes an operand of a given width stands for
* `operation` — the packed operation of an instruction

## Main results

* `Handler.handle_packed` — the handler computes the packed operations and the moves
-/

set_option autoImplicit false

namespace Unxorer

open Unicorn VectorOperations RegisterMapper Lanes Packed

variable {U : Type} [Unicorn U]

/-! ### Operands of one width -/

/-- The vector register an IDA register number stands for. -/
def vectorNumber (r : ℕ) : Option (Fin 16) := (xmmNumber r).or (ymmNumber r)

/-- The operand is a vector register of `size` bytes. -/
structure IsRegister (op : Operand) (size : ℕ) (i : Fin 16) : Prop where
  type : op.type = .reg
  width : vectorRegSize op.reg = size
  number : vectorNumber op.reg = some i
  positive : 0 < size

/-- The operand is memory at a displacement from a general register, with `size` bytes
mapped there. -/
structure IsMemory (u : U) (op : Operand) (size : ℕ) : Prop where
  type : op.type = .displ
  general : op.reg < 16
  mapped : Mapped u (calculateEffectiveAddress u op) size

/-- The bytes of an operand of `size` bytes. -/
inductive Holds (u : U) (op : Operand) (size : ℕ) : Buf size → Prop
  | register {i : Fin 16} (isRegister : IsRegister op size i) :
      Holds u op size fun j => byteAt (ymm u i) j
  | memory (isMemory : IsMemory u op size) :
      Holds u op size fun j => byte u (calculateEffectiveAddress u op + BitVec.ofNat 64 j)

/-- The two sources of a legacy instruction are its first two operands, those of an
instruction with three operands its last two. -/
def Sources (u : U) (insn : Insn) (size : ℕ) (first second : Buf size) : Prop :=
  insn.op3.type = .void ∧ Holds u insn.op1 size first ∧ Holds u insn.op2 size second ∨
    insn.op3.type ≠ .void ∧ Holds u insn.op2 size first ∧ Holds u insn.op3 size second

/-- A register operand is an XMM register of 16 bytes or a YMM register of 32. -/
theorem IsRegister.cases {op : Operand} {size : ℕ} {i : Fin 16} (h : IsRegister op size i) :
    size = 16 ∧ isXmmReg op.reg = true ∧ xmmNumber op.reg = some i ∨
      size = 32 ∧ isXmmReg op.reg = false ∧ isYmmReg op.reg = true ∧ ymmNumber op.reg = some i := by
  obtain ⟨-, width, number, positive⟩ := h
  -- The ranges of XMM and YMM numbers are apart, so the number comes from one of the two.
  rcases vectorRegSize_cases op.reg with ⟨xmm, value⟩ | ⟨ymm, value⟩ | ⟨-, -, value⟩
  · obtain ⟨i', found⟩ := exists_xmmNumber xmm
    refine .inl ⟨width.symm.trans value, xmm, ?_⟩
    rwa [vectorNumber, found, Option.some_or, ← found] at number
  · have notXmm : isXmmReg op.reg = false := by
      rw [← Bool.not_eq_true]
      intro xmm
      rw [not_isYmmReg_of_isXmmReg xmm] at ymm
      exact Bool.false_ne_true ymm
    have missing : xmmNumber op.reg = none := by
      have outside : ¬ isXmmReg op.reg = true := by rw [notXmm]; exact Bool.false_ne_true
      rw [isXmmReg_iff] at outside
      rw [xmmNumber]
      split_ifs <;> first | rfl | omega
    refine .inr ⟨width.symm.trans value, notXmm, ymm, ?_⟩
    rwa [vectorNumber, missing, Option.none_or] at number
  · omega

theorem IsRegister.size_eq {op : Operand} {size : ℕ} {i : Fin 16} (h : IsRegister op size i) :
    size = 16 ∨ size = 32 := by
  rcases h.cases with ⟨narrow, -⟩ | ⟨wide, -⟩
  · exact .inl narrow
  · exact .inr wide

theorem IsRegister.size_le {op : Operand} {size : ℕ} {i : Fin 16} (h : IsRegister op size i) :
    size ≤ 32 := by
  rcases h.size_eq with rfl | rfl <;> decide

theorem IsMemory.isMemoryOperand {u : U} {op : Operand} {size : ℕ} (h : IsMemory u op size) :
    isMemoryOperand op = true :=
  isMemoryOperand_iff.mpr (.inr h.type)

/-- A memory operand is not a vector register operand by its register number. -/
theorem IsMemory.not_vector {u : U} {op : Operand} {size : ℕ} (h : IsMemory u op size) :
    vectorRegSize op.reg = 0 := by
  have general := h.general
  exact vectorRegSize_eq_zero (by omega) (by omega)

/-- Only a vector register has the number of one. -/
theorem vectorRegSize_pos {r : ℕ} {i : Fin 16} (number : vectorNumber r = some i) :
    0 < vectorRegSize r := by
  rw [vectorRegSize]
  split_ifs with xmm ymm
  · decide
  · decide
  · rw [isXmmReg_iff] at xmm
    rw [isYmmReg_iff] at ymm
    have missing : vectorNumber r = none := by
      rw [vectorNumber, xmmNumber, dif_neg (by omega), dif_neg (by omega), ymmNumber,
        dif_neg ymm, Option.none_or]
    rw [missing] at number
    cases number

/-! ### Reading an operand -/

/-- Bytes copied over a zeroed buffer are the bytes behind the pointer. -/
theorem copy_zero {size : ℕ} (v : Buf size) : (Buf.zero 32).copy (List.ofFn v) = v.resize 32 := by
  funext j
  by_cases inside : j.1 < size
  · rw [Buf.copy_of_lt _ (by simpa using inside), Buf.resize_of_lt _ _ inside, List.getElem_ofFn]
  · rw [Buf.copy_of_le _ (by simpa using inside), Buf.resize_of_le _ _ (Nat.not_lt.mp inside)]
    rfl

theorem xmm_eq (u : U) (i : Fin 16) : xmm u i = fun j : Fin 16 => byteAt (ymm u i) j := by
  funext j
  have inside : j.1 < 32 := by omega
  rw [xmm, Buf.resize_of_lt _ _ inside, byteAt, dif_pos inside]

theorem readOperand_register {op : Operand} {size : ℕ} {i : Fin 16} (u : U) {n : ℕ} (dest : Buf n)
    (h : IsRegister op size i) :
    readOperand u op dest size =
      some (dest.copy (List.ofFn fun j : Fin size => byteAt (ymm u i) j)) := by
  have isVector : vectorRegSize op.reg > 0 := h.width ▸ h.positive
  simp only [readOperand, h.type, if_pos isVector, readVectorRegister]
  rcases h.cases with ⟨rfl, xmm, number⟩ | ⟨rfl, notXmm, ymm, number⟩
  · simp [xmm, xmmToUnicorn, number, xmm_eq]
  · have whole : Unicorn.ymm u i = fun j : Fin 32 => byteAt (Unicorn.ymm u i) j := by
      funext j
      rw [byteAt, dif_pos j.2]
    simp only [notXmm, Bool.false_eq_true, false_and, if_false, ymm, ge_iff_le, le_refl, and_self,
      if_true, ymmToUnicorn, number, Option.map_some]
    rw [← whole]

/-- A part of a vector register cannot be read. -/
theorem readOperand_of_short {op : Operand} {width : ℕ} {i : Fin 16} (h : IsRegister op width i)
    (u : U) {n : ℕ} (dest : Buf n) {size : ℕ} (short : size < width) :
    readOperand u op dest size = none := by
  have isVector : vectorRegSize op.reg > 0 := h.width ▸ h.positive
  simp only [readOperand, h.type, if_pos isVector, readVectorRegister]
  rcases h.cases with ⟨rfl, xmm, -⟩ | ⟨rfl, notXmm, -⟩
  · have narrow : ¬ size ≥ 16 := Nat.not_le.mpr short
    simp only [narrow, and_false, if_false, not_isYmmReg_of_isXmmReg xmm, Bool.false_eq_true,
      false_and]
  · have narrow : ¬ size ≥ 32 := Nat.not_le.mpr short
    simp only [narrow, and_false, if_false, notXmm, Bool.false_eq_true, false_and]

/-- Reading an operand into a zeroed buffer yields its bytes, then zeros. -/
theorem readOperand_of_holds {u : U} {op : Operand} {size : ℕ} {v : Buf size}
    (h : Holds u op size v) : readOperand u op (Buf.zero 32) size = some (v.resize 32) := by
  cases h with
  | register isRegister => rw [readOperand_register u _ isRegister, copy_zero]
  | memory isMemory =>
    rw [readOperand_of_isMemoryOperand u isMemory.isMemoryOperand,
      memRead_of_mapped isMemory.mapped, Option.map_some, bytesAt, copy_zero fun j : Fin size =>
      byte u (calculateEffectiveAddress u op + BitVec.ofNat 64 j)]

/-! ### The advance of RIP -/

section UpdateRip

variable (u : U) (address : Addr) (length : BitVec 32)

@[simp] theorem ymm_updateRip : ymm (updateRip u address length) = ymm u := ymm_regWrite _ _ _

@[simp] theorem byte_updateRip : byte (updateRip u address length) = byte u := byte_regWrite _ _ _

@[simp] theorem mapped_updateRip : mapped (updateRip u address length) = mapped u :=
  mapped_regWrite _ _ _

theorem reg_updateRip :
    reg (updateRip u address length) =
      Function.update (reg u) .rip (address + length.setWidth 64) := by
  funext r
  rw [updateRip, reg_regWrite, Function.update_apply]

/-- No operand is addressed relative to the instruction pointer. -/
theorem calculateEffectiveAddress_updateRip (op : Operand) :
    calculateEffectiveAddress (updateRip u address length) op = calculateEffectiveAddress u op := by
  unfold calculateEffectiveAddress
  cases found : idaToUnicorn op.reg with
  | none => rfl
  | some base =>
    have general : base ≠ .rip := (idaToUnicorn_general found).1
    simp only [reg_updateRip, Function.update_of_ne general]

theorem range_mapped_updateRip (a : Addr) (n : ℕ) :
    Mapped (updateRip u address length) a n ↔ Mapped u a n :=
  mapped_congr (mapped_updateRip _ _ _) a n

theorem memRead_updateRip (a : Addr) (n : ℕ) :
    memRead (updateRip u address length) a n = memRead u a n :=
  memRead_congr (mapped_updateRip _ _ _) (byte_updateRip _ _ _) a n

/-- The advance of RIP changes no operand. -/
theorem readOperand_updateRip (op : Operand) {n : ℕ} (dest : Buf n) (size : ℕ) :
    readOperand (updateRip u address length) op dest size = readOperand u op dest size := by
  simp only [readOperand, calculateEffectiveAddress_updateRip, memRead_updateRip,
    readVectorRegister, xmm, ymm_updateRip]
  cases found : idaToUnicorn op.reg with
  | none => rfl
  | some r =>
    simp only [Option.map_some, reg_updateRip,
      Function.update_of_ne (idaToUnicorn_general found).1]

variable {u}

theorem IsMemory.updateRip {op : Operand} {size : ℕ} (h : IsMemory u op size) :
    IsMemory (updateRip u address length) op size := by
  refine ⟨h.type, h.general, ?_⟩
  rw [calculateEffectiveAddress_updateRip]
  exact (range_mapped_updateRip _ _ _ _ _).mpr h.mapped

theorem Holds.updateRip {op : Operand} {size : ℕ} {v : Buf size} (h : Holds u op size v) :
    Holds (updateRip u address length) op size v := by
  cases h with
  | register isRegister =>
    have moved := Holds.register (u := VectorOperations.updateRip u address length) isRegister
    rwa [ymm_updateRip] at moved
  | memory isMemory =>
    have moved := Holds.memory (isMemory.updateRip address length)
    rwa [byte_updateRip, calculateEffectiveAddress_updateRip] at moved

theorem Sources.updateRip {insn : Insn} {size : ℕ} {first second : Buf size}
    (h : Sources u insn size first second) :
    Sources (updateRip u address length) insn size first second := by
  rcases h with ⟨legacy, lhs, rhs⟩ | ⟨vex, lhs, rhs⟩
  · exact .inl ⟨legacy, lhs.updateRip _ _, rhs.updateRip _ _⟩
  · exact .inr ⟨vex, lhs.updateRip _ _, rhs.updateRip _ _⟩

end UpdateRip

theorem resolveOperands2Or3_of_sources {u : U} {insn : Insn} {size : ℕ} {first second : Buf size}
    (h : Sources u insn size first second) :
    resolveOperands2Or3 u insn size = (first.resize 32, second.resize 32) := by
  rw [resolveOperands2Or3]
  rcases h with ⟨legacy, lhs, rhs⟩ | ⟨vex, lhs, rhs⟩
  · simp [legacy, readOperand_of_holds lhs, readOperand_of_holds rhs]
  · simp [vex, readOperand_of_holds lhs, readOperand_of_holds rhs]

/-! ### Writing an operand -/

/-- The only changes are RIP and the low `size` bytes of one vector register. -/
structure Loads (u u' : U) (rip : Addr) (i : Fin 16) {size : ℕ} (v : Buf size) : Prop where
  result : ∀ j : Fin size, byteAt (ymm u' i) j = v j
  registers : reg u' = Function.update (reg u) .rip rip
  vectors : ∀ i' ≠ i, ymm u' i' = ymm u i'
  memory : byte u' = byte u
  mappings : mapped u' = mapped u

/-- The only changes are RIP and `size` bytes of memory. -/
structure Stores (u u' : U) (rip a : Addr) {size : ℕ} (v : Buf size) : Prop where
  registers : reg u' = Function.update (reg u) .rip rip
  vectors : ymm u' = ymm u
  memory : ∀ x, byte u' x = if h : (x - a).toNat < size then v ⟨(x - a).toNat, h⟩ else byte u x
  mappings : mapped u' = mapped u

section Write

variable (u : U)

/-- A write of an XMM operand that is not 32 bytes long writes 16 bytes. -/
theorem writeOperand_xmm {op : Operand} {i : Fin 16} (h : IsRegister op 16 i) {n : ℕ}
    (res : Buf n) {size : ℕ} (narrow : size ≠ 32) :
    writeOperand u op res size = some (xmmWrite u i (res.resize 16)) := by
  have isVector : vectorRegSize op.reg > 0 := h.width ▸ h.positive
  rcases h.cases with ⟨-, xmm, number⟩ | ⟨wide, -⟩
  · simp only [writeOperand, h.type, if_pos isVector, writeVectorRegister, xmm, if_true,
      xmmToUnicorn, number, if_neg narrow]
  · exact absurd wide (by decide)

/-- A write of a YMM operand fills the register up with zeros. -/
theorem writeOperand_ymm {op : Operand} {i : Fin 16} (h : IsRegister op 32 i) {n : ℕ}
    (res : Buf n) (size : ℕ) :
    writeOperand u op res size =
      some (ymmWrite u i ((Buf.zero 32).copy (res.take (min size 32)))) := by
  have isVector : vectorRegSize op.reg > 0 := h.width ▸ h.positive
  rcases h.cases with ⟨narrow, -⟩ | ⟨-, notXmm, ymm, number⟩
  · exact absurd narrow (by decide)
  · simp only [writeOperand, h.type, if_pos isVector, writeVectorRegister, notXmm,
      Bool.false_eq_true, if_false, ymm, Bool.not_true, ymmToUnicorn, number]

variable (address : Addr) (length : BitVec 32)

/-- A write of a vector register operand loads the front of the buffer. -/
theorem loads_writeOperand {op : Operand} {size : ℕ} {i : Fin 16} (res : Buf 32)
    (h : IsRegister op size i) :
    Loads u ((writeOperand (updateRip u address length) op res size).getD
      (updateRip u address length)) (address + length.setWidth 64) i (res.resize size) := by
  rcases h.size_eq with rfl | rfl
  · rw [writeOperand_xmm _ h res (by decide), Option.getD_some]
    refine ⟨?_, ?_, ?_, ?_, ?_⟩
    · intro j
      have inside : j.1 < 32 := by omega
      simp [byteAt, inside]
    · rw [reg_xmmWrite, reg_updateRip]
    · intro i' other
      rw [ymm_xmmWrite, if_neg other, ymm_updateRip]
    · rw [byte_xmmWrite, byte_updateRip]
    · rw [mapped_xmmWrite, mapped_updateRip]
  · rw [writeOperand_ymm _ h, Option.getD_some, min_self]
    refine ⟨?_, ?_, ?_, ?_, ?_⟩
    · intro j
      rw [byteAt, dif_pos j.2, ymm_ymmWrite, if_pos rfl]
      exact congrFun (copy_zero (res.resize 32)) j |>.trans (by rw [Buf.resize_self])
    · rw [reg_ymmWrite, reg_updateRip]
    · intro i' other
      rw [ymm_ymmWrite, if_neg other, ymm_updateRip]
    · rw [byte_ymmWrite, byte_updateRip]
    · rw [mapped_ymmWrite, mapped_updateRip]

/-- A write of a memory operand stores the front of the buffer at its address. -/
theorem stores_writeOperand {op : Operand} {size : ℕ} (res : Buf 32) (h : IsMemory u op size) :
    Stores u ((writeOperand (updateRip u address length) op res size).getD
      (updateRip u address length)) (address + length.setWidth 64)
      (calculateEffectiveAddress u op) (res.resize size) := by
  have room : Mapped (updateRip u address length)
      (calculateEffectiveAddress (updateRip u address length) op) (res.take size).length := by
    rw [Buf.length_take]
    exact (h.updateRip address length).mapped
  rw [writeOperand_of_isMemoryOperand _ h.isMemoryOperand, memWrite_of_mapped room,
    Option.getD_some, calculateEffectiveAddress_updateRip]
  refine ⟨?_, ?_, ?_, ?_⟩
  · rw [reg_store, reg_updateRip]
  · rw [ymm_store, ymm_updateRip]
  · intro x
    by_cases inside : (x - calculateEffectiveAddress u op).toNat < size
    · have within : (x - calculateEffectiveAddress u op).toNat < (res.take size).length := by
        rwa [Buf.length_take]
      rw [byte_store_of_lt _ _ _ within, Buf.getElem_take, dif_pos inside]
    · rw [byte_store_of_le _ _ _ (by simpa using inside), dif_neg inside, byte_updateRip]
  · rw [mapped_store, mapped_updateRip]

end Write

/-! ### The lane loops -/

/-- The packed operation of an instruction. -/
def operation : Itype → Option Operation
  | .pxor | .vpxor => some .xor
  | .pand | .vpand => some .and
  | .por | .vpor => some .or
  | .pandn | .vpandn => some .andn
  | .paddb | .vpaddb => some (.add 1)
  | .paddw | .vpaddw => some (.add 2)
  | .paddd | .vpaddd => some (.add 4)
  | .paddq | .vpaddq => some (.add 8)
  | .psubb | .vpsubb => some (.sub 1)
  | .psubw | .vpsubw => some (.sub 2)
  | .psubd | .vpsubd => some (.sub 4)
  | .psubq | .vpsubq => some (.sub 8)
  | .pmullw | .vpmullw => some .mullw
  | .pshufb | .vpshufb => some .shufb
  | _ => none

/-- The moves of a whole register. -/
def isFullMove (itype : Itype) : Bool := List.elem itype
  [.movdqa, .movdqu, .vmovdqa, .vmovdqu, .movaps, .vmovaps, .movups, .vmovups, .movapd, .vmovapd,
    .movupd, .vmovupd]

theorem byteAt_resize {n : ℕ} (m : ℕ) (b : Buf n) {j : ℕ} (inside : j < m) :
    byteAt (b.resize m) j = byteAt b j := by
  by_cases within : j < n
  · rw [byteAt, dif_pos inside, byteAt, dif_pos within, Buf.resize_of_lt m b within]
  · rw [byteAt, dif_pos inside, byteAt, dif_neg within,
      Buf.resize_of_le m b (Nat.not_lt.mp within)]

theorem lane_resize {n w k : ℕ} (m : ℕ) (b : Buf n) (room : w * (k + 1) ≤ m) :
    lane w (b.resize m) k = lane w b k := by
  refine lane_congr fun i inside => byteAt_resize m b ?_
  have expanded : w * (k + 1) = w * k + w := Nat.mul_succ w k
  omega

section Loops

variable {size : ℕ} (a b : Buf size) (wide : size ≤ 32)
include wide

theorem bitwise_resize (f : Byte → Byte → Byte) (j : Fin size) :
    (Handler.bitwise f (Buf.zero 32) (a.resize 32) (b.resize 32) size).resize size j =
      f (a j) (b j) := by
  have inside : j.1 < 32 := by omega
  rw [Buf.resize_of_lt _ _ inside, Handler.bitwise, if_pos j.2,
    Buf.resize_of_lt 32 a (i := ⟨j.1, inside⟩) j.2, Buf.resize_of_lt 32 b (i := ⟨j.1, inside⟩) j.2]

theorem lane_storeLanes_resize {w : ℕ} (positive : 0 < w)
    (g : BitVec (8 * w) → BitVec (8 * w) → BitVec (8 * w)) {k : ℕ} (room : w * (k + 1) ≤ size) :
    lane w (Buf.resize size (storeLanes w (size / w)
      (fun i => g (lane w (a.resize 32) i) (lane w (b.resize 32) i)) (Buf.zero 32))) k =
      g (lane w a k) (lane w b k) := by
  have stored : k + 1 ≤ size / w := by
    rw [Nat.le_div_iff_mul_le positive, Nat.mul_comm]
    exact room
  rw [lane_resize size _ room, lane_storeLanes _ _ stored (room.trans wide),
    lane_resize 32 a (room.trans wide), lane_resize 32 b (room.trans wide)]

end Loops

theorem shuffle_mask (m : Byte) : m &&& 0x80 ≠ 0 ↔ m.msb = true := by
  revert m
  decide +kernel

theorem shuffle_index (m : Byte) : (m &&& 0x0F).toNat = m.toNat % 16 := by
  rw [BitVec.toNat_and]
  exact Nat.and_two_pow_sub_one_eq_mod m.toNat 4

/-- One half of the shuffle, on positions inside it. -/
theorem performPshufb16_of_mem {base : ℕ} (dst src mask : Buf 32) {j : Fin 32}
    (inside : base ≤ j.1 ∧ j.1 < base + 16) :
    Handler.performPshufb16 base dst src mask j =
      if (mask j).msb then 0 else byteAt src (base + (mask j).toNat % 16) := by
  rw [Handler.performPshufb16, if_pos inside, shuffle_index]
  by_cases high : (mask j).msb = true
  · rw [if_pos ((shuffle_mask _).mpr high), if_pos high]
  · rw [if_neg (fun set => high ((shuffle_mask _).mp set)), if_neg high]

theorem pshufb_resize {size : ℕ} (width : size = 16 ∨ size = 32) (a b : Buf size) (j : Fin size) :
    (Handler.pshufb size (a.resize 32) (b.resize 32)).resize size j =
      if (b j).msb then 0 else byteAt a (16 * (j.1 / 16) + (b j).toNat % 16) := by
  have wide : j.1 < 32 := by omega
  have mask : (b.resize 32) ⟨j.1, wide⟩ = b j := Buf.resize_of_lt 32 b (i := ⟨j.1, wide⟩) j.2
  have index : (b j).toNat % 16 < 16 := Nat.mod_lt _ (by decide)
  rw [Buf.resize_of_lt _ _ wide, Handler.pshufb]
  -- The second pass writes the upper half of a YMM result and keeps the lower one.
  by_cases upper : 16 ≤ j.1
  · have whole : size = 32 := by omega
    have half : 16 * (j.1 / 16) = 16 := by omega
    rw [if_pos whole, performPshufb16_of_mem _ _ _ ⟨upper, wide⟩, mask, half,
      byteAt_resize 32 a (by omega)]
  · have half : 16 * (j.1 / 16) = 0 := by omega
    have lower : Handler.performPshufb16 0 (Buf.zero 32) (a.resize 32) (b.resize 32) ⟨j.1, wide⟩ =
        if (b j).msb then 0 else byteAt a (16 * (j.1 / 16) + (b j).toNat % 16) := by
      rw [performPshufb16_of_mem _ _ _ ⟨Nat.zero_le _, Nat.lt_of_not_le upper⟩, mask, half,
        byteAt_resize 32 a (by omega)]
    by_cases whole : size = 32
    · rw [if_pos whole, Handler.performPshufb16, if_neg fun within => upper within.1, lower]
    · rw [if_neg whole, lower]

/-- The low half of the signed product of two words is their product modulo `2 ^ 16`. -/
theorem ofInt_toInt_mul {w : ℕ} (x y : BitVec w) : BitVec.ofInt w (x.toInt * y.toInt) = x * y := by
  apply BitVec.eq_of_toInt_eq
  rw [BitVec.toInt_ofInt, BitVec.toInt_mul]

/-- On the buffers the operands are read into, an instruction computes its operation. -/
theorem binary_computes {itype : Itype} {op : Operation} {size : ℕ}
    (width : size = 16 ∨ size = 32) (known : operation itype = some op) (a b : Buf size) :
    ∃ res, Handler.binary itype size (a.resize 32) (b.resize 32) = some res ∧
      op.Computes a b (res.resize size) := by
  have wide : size ≤ 32 := by omega
  have sums : ∀ w, 0 < w → (Operation.add w).Computes a b
      (Buf.resize size (Handler.performAdd w (Buf.zero 32) (a.resize 32) (b.resize 32) size)) :=
    fun w positive k room => lane_storeLanes_resize a b wide positive (· + ·) room
  have differences : ∀ w, 0 < w → (Operation.sub w).Computes a b
      (Buf.resize size (Handler.performSub w (Buf.zero 32) (a.resize 32) (b.resize 32) size)) :=
    fun w positive k room => lane_storeLanes_resize a b wide positive (· - ·) room
  cases itype
  case pxor | vpxor | pand | vpand | por | vpor | pandn | vpandn =>
    cases known
    exact ⟨_, rfl, bitwise_resize a b wide _⟩
  case paddb | vpaddb | paddw | vpaddw | paddd | vpaddd | paddq | vpaddq =>
    cases known
    exact ⟨_, rfl, sums _ (by decide)⟩
  case psubb | vpsubb | psubw | vpsubw | psubd | vpsubd | psubq | vpsubq =>
    cases known
    exact ⟨_, rfl, differences _ (by decide)⟩
  case pmullw | vpmullw =>
    cases known
    refine ⟨_, rfl, ?_⟩
    intro k room
    -- The loop multiplies without regard to the sign.
    rw [ofInt_toInt_mul]
    exact lane_storeLanes_resize a b wide (by decide) (· * ·) room
  case pshufb | vpshufb =>
    cases known
    exact ⟨_, rfl, pshufb_resize width a b⟩
  all_goals cases known

theorem isBinary_of_operation {itype : Itype} {op : Operation} (known : operation itype = some op) :
    Handler.isBinary itype = true := by
  cases itype <;> first | rfl | cases known

/-- What divides the size of an XMM register divides that of a YMM register. -/
theorem dvd_of_dvd_sixteen {w size : ℕ} (divides : w ∣ 16) (width : size = 16 ∨ size = 32) :
    w ∣ size := by
  rcases width with rfl | rfl
  · exact divides
  · exact divides.trans ⟨2, rfl⟩

/-- A vector register consists of whole lanes of every operation. -/
theorem width_of_operation {itype : Itype} {op : Operation} (known : operation itype = some op) :
    0 < op.width ∧ op.width ∣ 16 := by
  cases itype <;> cases known <;> decide

/-! ### Moves -/

theorem isMove_of_isFullMove {itype : Itype} (full : isFullMove itype = true) :
    Handler.isMove itype = true := by
  cases itype <;> first | rfl | exact absurd full Bool.false_ne_true

/-- A full move is as wide as the register in its first operand, or else its second. -/
theorem moveSize_of_isFullMove {insn : Insn} (full : isFullMove insn.itype = true) {size : ℕ}
    (positive : 0 < size)
    (width : vectorRegSize insn.op1.reg = size ∨
      vectorRegSize insn.op1.reg = 0 ∧ vectorRegSize insn.op2.reg = size) :
    Handler.moveSize insn = size := by
  -- The moves of 4 and 8 bytes are not among the full moves.
  have notDouble : ¬ (insn.itype = .movd ∨ insn.itype = .vmovd) := by
    rintro (same | same) <;> rw [same] at full <;> exact Bool.false_ne_true full
  have notQuad : ¬ (insn.itype = .movq ∨ insn.itype = .vmovq) := by
    rintro (same | same) <;> rw [same] at full <;> exact Bool.false_ne_true full
  have present : size ≠ 0 := positive.ne'
  simp only [Handler.moveSize, if_neg notDouble, if_neg notQuad]
  rcases width with first | ⟨first, second⟩
  · simp only [first, if_neg present, gt_iff_lt, if_pos positive]
  · simp only [first, second, if_true, gt_iff_lt, if_pos positive]

theorem resize_resize {size : ℕ} (v : Buf size) (wide : size ≤ 32) :
    (v.resize 32).resize size = v := by
  funext j
  have inside : j.1 < 32 := by omega
  rw [Buf.resize_of_lt _ _ inside, Buf.resize_of_lt 32 v (i := ⟨j.1, inside⟩) j.2]

/-! ### The handler -/

namespace Handler

/-- The handler computes exactly the packed operation of its instruction, and the full
moves move exactly the bytes of their source, into a vector register or to memory. RIP
moves past the instruction and nothing else changes. -/
theorem handle_packed (u : U) (address : Addr) (length : BitVec 32) (insn : Insn) :
    (∀ op size i first second, operation insn.itype = some op → IsRegister insn.op1 size i →
      Sources u insn size first second →
      ∃ result : Buf size, (∀ r, op.Computes first second r ↔ r = result) ∧
        Loads u (handle u address length insn) (address + length.setWidth 64) i result) ∧
    (∀ size i source, isFullMove insn.itype = true → IsRegister insn.op1 size i →
      Holds u insn.op2 size source →
      Loads u (handle u address length insn) (address + length.setWidth 64) i source) ∧
    (∀ size i, isFullMove insn.itype = true → IsMemory u insn.op1 size →
      IsRegister insn.op2 size i →
      Stores u (handle u address length insn) (address + length.setWidth 64)
        (calculateEffectiveAddress u insn.op1) fun j : Fin size => byteAt (ymm u i) j) := by
  refine ⟨?_, ?_, ?_⟩
  · intro op size i first second known destination sources
    have width := destination.size_eq
    obtain ⟨res, computed, computes⟩ := binary_computes width known first second
    refine ⟨res.resize size, fun r => ⟨fun other => ?_, fun same => same ▸ computes⟩, ?_⟩
    -- A register consists of whole lanes, so no other result satisfies the operation.
    · obtain ⟨positive, divides⟩ := width_of_operation known
      exact other.unique positive (dvd_of_dvd_sixteen divides width) computes
    · have general : ¬ size = 0 := destination.positive.ne'
      rw [handle_binary u address length (isBinary_of_operation known)]
      simp only [handleBinary, destination.width, if_neg general,
        resolveOperands2Or3_of_sources (sources.updateRip address length), computed]
      exact loads_writeOperand u address length res destination
  · intro size i source full destination holds
    have moved := moveSize_of_isFullMove full destination.positive (.inl destination.width)
    rw [handle_move u address length (isMove_of_isFullMove full)]
    simp only [handleMove, moved, readOperand_of_holds (holds.updateRip address length)]
    have loads := loads_writeOperand u address length (source.resize 32) destination
    rwa [resize_resize source destination.size_le] at loads
  · intro size i full destination register
    -- The register number of the memory operand is that of its base, which is no vector register.
    have holds : Holds u insn.op2 size fun j => byteAt (ymm u i) j := .register register
    have moved := moveSize_of_isFullMove full register.positive
      (.inr ⟨destination.not_vector, register.width⟩)
    rw [handle_move u address length (isMove_of_isFullMove full)]
    simp only [handleMove, moved, readOperand_of_holds (holds.updateRip address length)]
    have stores := stores_writeOperand u address length
      (Buf.resize 32 fun j : Fin size => byteAt (ymm u i) j) destination
    rwa [resize_resize _ register.size_le] at stores

/-- A machine with a page of memory, a pointer into it and a pattern in its registers. -/
def patterned : Machine where
  reg r := if r = .rbx then 0x2000 else 0
  ymm i j := BitVec.ofNat 8 (32 * i + 7 * j)
  byte a := a.setWidth 8
  mappedPage p := p = 2

/-- `vpaddd ymm0, ymm1, [rbx+10h]`, `movdqu xmm3, [rbx+10h]` and `vmovups [rbx+10h], ymm1`. -/
theorem handle_packed_patterned :
    (∃ result : Buf 32,
      (∀ r, (Operation.add 4).Computes (fun j => byteAt (patterned.ymm 1) j)
        (fun j => patterned.byte (0x2010 + BitVec.ofNat 64 j)) r ↔ r = result) ∧
      Loads patterned (handle patterned 0x1000 5 ⟨.vpaddd, 5, ⟨.reg, 81, 0, 0⟩, ⟨.reg, 82, 0, 0⟩,
        ⟨.displ, 3, 0x10, 0⟩⟩) 0x1005 0 result) ∧
    Loads patterned (handle patterned 0x1000 5 ⟨.movdqu, 5, ⟨.reg, 67, 0, 0⟩,
        ⟨.displ, 3, 0x10, 0⟩, .none⟩) 0x1005 3
      (fun j : Fin 16 => patterned.byte (0x2010 + BitVec.ofNat 64 j)) ∧
    Stores patterned (handle patterned 0x1000 5 ⟨.vmovups, 5, ⟨.displ, 3, 0x10, 0⟩,
        ⟨.reg, 82, 0, 0⟩, .none⟩) 0x1005 0x2010 (fun j : Fin 32 => byteAt (patterned.ymm 1) j) := by
  have memory : ∀ size ≤ 32, IsMemory patterned ⟨.displ, 3, 0x10, 0⟩ size := by
    refine fun size small => ⟨rfl, by decide, fun i inside => ?_⟩
    have all : Mapped patterned 0x2010 32 := by decide
    exact all i (inside.trans_le small)
  refine ⟨(handle_packed patterned 0x1000 5 _).1 (.add 4) 32 0 _ _ rfl ⟨rfl, rfl, rfl, by decide⟩
      (.inr ⟨by decide, .register ⟨rfl, rfl, rfl, by decide⟩, .memory (memory 32 le_rfl)⟩),
    (handle_packed patterned 0x1000 5 _).2.1 16 3 _ rfl ⟨rfl, rfl, rfl, by decide⟩
      (.memory (memory 16 (by decide))),
    (handle_packed patterned 0x1000 5 _).2.2 32 1 rfl (memory 32 le_rfl)
      ⟨rfl, rfl, rfl, by decide⟩⟩

end Handler

end Unxorer
