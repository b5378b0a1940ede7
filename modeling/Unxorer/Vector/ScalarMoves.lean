import Unxorer.Vector.Mmx

/-!
# Moves of one element

`movd` and `movq` move 4 or 8 bytes between an XMM register and a general register, memory
or another XMM register. On the way in, the value comes out of a buffer of zeros and is
written to the whole XMM register. On the way out, `read_vector_register` refuses to read
fewer than 16 bytes of an XMM register, and nothing is moved.

## Main definitions

* `Location` — the registers and the memory the moves work on
* `ScalarMove` — an instruction that moves one element between two locations
* `Delivers` — what the move leaves in its destination

## Main results

* `Handler.handle_scalarMove` — what the handler makes of the instruction
* `Handler.handle_scalarMove_iff` — when that is the move
-/

set_option autoImplicit false

namespace Unxorer

open Unicorn VectorOperations RegisterMapper Lanes

variable {U : Type} [Unicorn U]

/-! ### Locations -/

/-- A place a value is moved from or to. -/
inductive Location
  | xmm (i : Fin 16)
  | general (r : Reg)
  | memory (a : Addr)

/-- The operand names the location, where `ea` is the address of an operand in memory. -/
inductive Names (ea : Addr) (op : Operand) : Location → Prop
  | xmm {i : Fin 16} (isRegister : IsRegister op 16 i) : Names ea op (.xmm i)
  | general {r : Reg} (type : op.type = .reg) (number : idaToUnicorn op.reg = some r) :
      Names ea op (.general r)
  | memory (inMemory : Mmx.isInMemory op = true) : Names ea op (.memory ea)

/-- The low `size` bytes at a location. -/
def Location.value (u : U) (size : ℕ) : Location → Buf size
  | xmm i => fun j => byteAt (ymm u i) j
  | general r => fun j => (reg u r).extractLsb' (8 * j) 8
  | memory a => fun j => byte u (a + BitVec.ofNat 64 j)

/-- After the move, an XMM register or a general register holds the value, zero-extended.
In memory its bytes are the only ones that change. -/
def Delivers (u u' : U) {size : ℕ} (v : Buf size) : Location → Prop
  | .xmm i => ∀ j < 16, byteAt (ymm u' i) j = byteAt v j
  | .general r => reg u' r = leWord (List.ofFn v)
  | .memory a => ∀ x,
      byte u' x = if h : (x - a).toNat < size then v ⟨(x - a).toNat, h⟩ else byte u x

def isScalarMove (itype : Itype) : Bool := List.elem itype [.movd, .vmovd, .movq, .vmovq]

/-- The instruction moves one element from or to an XMM register. Between two of them only
`movq` does, and memory is mapped where it is read or written. -/
structure ScalarMove (u : U) (ea : Addr) (insn : Insn) (source destination : Location) :
    Prop where
  scalar : isScalarMove insn.itype = true
  first : Names ea insn.op1 destination
  second : Names ea insn.op2 source
  vector : (∃ i, destination = .xmm i) ∨ ∃ i, source = .xmm i
  quad : ∀ i i', destination = .xmm i → source = .xmm i' → Handler.moveSize insn = 8
  mapped : ∀ a, source = .memory a ∨ destination = .memory a →
    Mapped u a (Handler.moveSize insn)

theorem moveSize_of_isScalarMove {insn : Insn} (scalar : isScalarMove insn.itype = true) :
    Handler.isMove insn.itype = true ∧
      (Handler.moveSize insn = 4 ∨ Handler.moveSize insn = 8) := by
  rw [isScalarMove, List.elem_iff] at scalar
  simp only [List.mem_cons, List.not_mem_nil, or_false] at scalar
  rw [Handler.moveSize]
  rcases scalar with same | same | same | same <;> simp [same, Handler.isMove]

/-! ### Reading the source -/

/-- A general register is no vector register. -/
theorem vectorRegSize_of_general {k : ℕ} {r : Reg} (number : idaToUnicorn k = some r) :
    vectorRegSize k = 0 := by
  have small : k < 16 := (List.getElem?_eq_some_iff.mp number).1
  exact vectorRegSize_eq_zero (by omega) (by omega)

theorem readOperand_general {op : Operand} {r : Reg} (type : op.type = .reg)
    (number : idaToUnicorn op.reg = some r) (u : U) {size : ℕ} (small : size ≤ 8) :
    readOperand u op (Buf.zero 32) size =
      some (((Location.general r).value u size).resize 32) := by
  have notVector : ¬ vectorRegSize op.reg > 0 := by
    rw [vectorRegSize_of_general number]
    exact lt_irrefl 0
  have bytes : (leBytes (reg u r)).take (min size 8) =
      List.ofFn ((Location.general r).value u size) := by
    apply List.ext_getElem
    · simp [leBytes, small]
    · intro j _ _
      simp only [leBytes, List.getElem_take, List.getElem_ofFn, Location.value]
  simp only [readOperand, type, if_neg notVector, number, Option.map_some, bytes, copy_zero]

theorem readOperand_memory {u : U} {op : Operand} {size : ℕ} (memory : isMemoryOperand op = true)
    (room : Mapped u (calculateEffectiveAddress u op) size) :
    readOperand u op (Buf.zero 32) size =
      some (((Location.memory (calculateEffectiveAddress u op)).value u size).resize 32) := by
  have bytes : bytesAt u (calculateEffectiveAddress u op) size =
      List.ofFn ((Location.memory (calculateEffectiveAddress u op)).value u size) :=
    rfl
  rw [readOperand_of_isMemoryOperand u memory, memRead_of_mapped room, Option.map_some, bytes,
    copy_zero]

/-- Memory cannot be read through an operand of a kind the handlers do not know, or where the
address they compute is not mapped. -/
theorem readOperand_memory_eq_none {u : U} {op : Operand} (inMemory : Mmx.isInMemory op = true)
    {n : ℕ} (dest : Buf n) {size : ℕ}
    (missing : ¬ (isMemoryOperand op = true ∧ Mapped u (calculateEffectiveAddress u op) size)) :
    readOperand u op dest size = none := by
  by_cases memory : isMemoryOperand op = true
  · have room : ¬ Mapped u (calculateEffectiveAddress u op) size :=
      fun room => missing ⟨memory, room⟩
    rw [readOperand_of_isMemoryOperand u memory, memRead_of_not_mapped room, Option.map_none]
  · simp only [Mmx.isInMemory, Bool.or_eq_true, decide_eq_true_eq] at inMemory
    rcases inMemory with known | type
    · exact absurd (isMemoryOperand_iff.mpr known) memory
    · simp only [readOperand, type]

/-! ### Writing the destination -/

/-- A value in front of zeros that is written to an XMM register is zero-extended. -/
theorem delivers_writeOperand {op : Operand} {i : Fin 16} (isRegister : IsRegister op 16 i)
    (u u₀ : U) {size : ℕ} (v w : Buf size) (short : size ≤ 8) :
    Delivers u₀ ((writeOperand u op (w.resize 32) size).getD u) v (.xmm i) ↔ w = v := by
  have narrow : size ≠ 32 := by omega
  have written : ∀ j < 16,
      byteAt (ymm ((writeOperand u op (w.resize 32) size).getD u) i) j = byteAt w j := by
    intro j inside
    have within : j < 32 := by omega
    rw [writeOperand_xmm u isRegister _ narrow, Option.getD_some, byteAt, dif_pos within,
      ymm_xmmWrite, if_pos rfl, dif_pos inside, Buf.resize_of_lt _ _ within]
    exact (dif_pos within).symm.trans (byteAt_resize 32 w within)
  constructor
  · intro delivered
    funext j
    have same := (written j (by omega)).symm.trans (delivered j (by omega))
    rwa [byteAt, dif_pos j.2, byteAt, dif_pos j.2] at same
  · rintro rfl
    exact written

/-- The advance of RIP moves nothing. -/
theorem delivers_updateRip {ea : Addr} {op : Operand} {destination : Location}
    (names : Names ea op destination) (u : U) (address : Addr) (length : BitVec 32) {size : ℕ}
    (v : Buf size) :
    Delivers u (updateRip u address length) v destination ↔ Delivers u u v destination := by
  cases names with
  | xmm isRegister => simp only [Delivers, ymm_updateRip]
  | general type number =>
    simp only [Delivers, reg_updateRip, Function.update_of_ne (idaToUnicorn_general number).1]
  | memory inMemory => simp only [Delivers, byte_updateRip]

/-! ### The handler -/

namespace Handler

/-- The value the handler finds in the source: that of a general register, or what is in
memory at the address it computes for the operand. -/
def found (u : U) (insn : Insn) (size : ℕ) : Location → Option (Buf size)
  | .xmm _ => none
  | .general r => some ((Location.general r).value u size)
  | .memory _ =>
    let a := calculateEffectiveAddress u insn.op2
    if isMemoryOperand insn.op2 = true ∧ Mapped u a size then
      some ((Location.memory a).value u size)
    else none

theorem readOperand_eq_found {u : U} {ea : Addr} {insn : Insn} {source : Location}
    (names : Names ea insn.op2 source) {size : ℕ} (small : size ≤ 8) :
    readOperand u insn.op2 (Buf.zero 32) size =
      (found u insn size source).map fun w => w.resize 32 := by
  cases names with
  | xmm isRegister => exact readOperand_of_short isRegister u _ (by omega)
  | general type number => exact readOperand_general type number u small
  | memory inMemory =>
    rw [found]
    split_ifs with known
    · exact readOperand_memory known.1 known.2
    · exact readOperand_memory_eq_none inMemory _ known

/-- The handler writes what it finds in the source, and otherwise only advances RIP. -/
theorem handle_scalarMove (u : U) (address : Addr) (length : BitVec 32) {ea : Addr} {insn : Insn}
    {source destination : Location} (move : ScalarMove u ea insn source destination) :
    handle u address length insn =
      match found u insn (moveSize insn) source with
      | some w => (writeOperand (updateRip u address length) insn.op1 (w.resize 32)
          (moveSize insn)).getD (updateRip u address length)
      | none => updateRip u address length := by
  obtain ⟨isMove, size⟩ := moveSize_of_isScalarMove move.scalar
  rw [handle_move u address length isMove, handleMove, readOperand_updateRip,
    readOperand_eq_found move.second (by omega)]
  cases found u insn (moveSize insn) source with
  | none => rfl
  | some w => rfl

/-- The source is a general register. Or it is in memory, and the bytes at the address the
handler computes are those of the operand. Or there is nothing the handler can read, but the
destination holds the value already. -/
def Carries (u : U) (insn : Insn) (source destination : Location) : Prop :=
  let v := source.value u (moveSize insn)
  match source with
  | .general _ => True
  | .xmm _ => Delivers u u v destination
  | .memory _ =>
    let a := calculateEffectiveAddress u insn.op2
    if isMemoryOperand insn.op2 = true ∧ Mapped u a (moveSize insn) then
      ∀ j : Fin (moveSize insn), byte u (a + BitVec.ofNat 64 j) = v j
    else Delivers u u v destination

/-- The handler moves the value exactly where it can read it. -/
theorem handle_scalarMove_iff (u : U) (address : Addr) (length : BitVec 32) (ea : Addr)
    {insn : Insn} {source destination : Location}
    (move : ScalarMove u ea insn source destination) :
    Delivers u (handle u address length insn) (source.value u (moveSize insn)) destination ↔
      Carries u insn source destination := by
  obtain ⟨-, size⟩ := moveSize_of_isScalarMove move.scalar
  have short : moveSize insn ≤ 8 := by omega
  rw [handle_scalarMove u address length move]
  -- A source that can be read is no XMM register, so the destination is one.
  have written : ¬ (∃ i, source = .xmm i) → ∀ w,
      (Delivers u ((writeOperand (updateRip u address length) insn.op1 (w.resize 32)
        (moveSize insn)).getD (updateRip u address length)) (source.value u (moveSize insn))
        destination ↔ w = source.value u (moveSize insn)) := by
    intro notXmm w
    obtain ⟨i, rfl⟩ := move.vector.resolve_right notXmm
    cases move.first with
    | xmm isRegister => exact delivers_writeOperand isRegister _ u _ w short
  cases source with
  | xmm i => exact delivers_updateRip move.first u address length _
  | general r =>
    have notXmm : ¬ ∃ i, Location.general r = .xmm i := fun ⟨i, same⟩ => by cases same
    exact (written notXmm _).trans (iff_of_true rfl trivial)
  | memory a =>
    have notXmm : ¬ ∃ i, Location.memory a = .xmm i := fun ⟨i, same⟩ => by cases same
    simp only [Carries]
    by_cases known : isMemoryOperand insn.op2 = true ∧
        Mapped u (calculateEffectiveAddress u insn.op2) (moveSize insn)
    · simp only [found, if_pos known]
      exact (written notXmm _).trans funext_iff
    · simp only [found, if_neg known]
      exact delivers_updateRip move.first u address length _

/-- `movq xmm3, rbx` and `movq rcx, xmm1`. -/
def quadInInsn : Insn := ⟨.movq, 5, ⟨.reg, 67, 0, 0⟩, ⟨.reg, 3, 0, 0⟩, .none⟩

def quadOutInsn : Insn := ⟨.movq, 5, ⟨.reg, 1, 0, 0⟩, ⟨.reg, 65, 0, 0⟩, .none⟩

theorem scalarMove_quadIn :
    ScalarMove patterned 0 quadInInsn (.general .rbx) (.xmm 3) where
  scalar := rfl
  first := .xmm ⟨rfl, rfl, rfl, by decide⟩
  second := .general rfl rfl
  vector := .inl ⟨3, rfl⟩
  quad _ _ _ second := by cases second
  mapped a memory := by rcases memory with same | same <;> cases same

theorem scalarMove_quadOut :
    ScalarMove patterned 0 quadOutInsn (.xmm 1) (.general .rcx) where
  scalar := rfl
  first := .general rfl rfl
  second := .xmm ⟨rfl, rfl, rfl, by decide⟩
  vector := .inr ⟨1, rfl⟩
  quad _ _ first _ := by cases first
  mapped a memory := by rcases memory with same | same <;> cases same

/-- The value of RBX arrives in the XMM register. -/
theorem handle_scalarMove_iff_quadIn :
    Delivers patterned (handle patterned 0x1000 5 quadInInsn)
      ((Location.general .rbx).value patterned 8) (.xmm 3) :=
  (handle_scalarMove_iff patterned 0x1000 5 0 scalarMove_quadIn).mpr trivial

/-- The value of the XMM register does not arrive in RCX, which keeps its zero. -/
theorem quad_not_moved_out :
    ScalarMove patterned 0 quadOutInsn (.xmm 1) (.general .rcx) ∧
      ¬ Delivers patterned (handle patterned 0x1000 5 quadOutInsn)
        ((Location.xmm 1).value patterned 8) (.general .rcx) := by
  refine ⟨scalarMove_quadOut, ?_⟩
  rw [handle_scalarMove patterned 0x1000 5 scalarMove_quadOut]
  intro delivered
  have kept := (delivers_updateRip scalarMove_quadOut.first patterned 0x1000 5 _).mp delivered
  revert kept
  change ¬ (0 : BitVec 64) = leWord _
  decide +kernel

end Handler

end Unxorer
