import Unxorer.Vector.Correctness

/-!
# AES rounds on YMM registers

The VEX forms of the AES rounds also work on both lanes of YMM registers. The handler reads
16 bytes of each operand, which `read_vector_register` refuses for a YMM register, and goes
on with a state and a round key of zeros. It writes 16 bytes and clears the upper lane.

## Main definitions

* `round` — the round function of an instruction
* `ymmLane` — a lane of a YMM register

## Main results

* `Handler.handleAes_ymm` — what the handler leaves in the destination
* `Handler.handleAes_lanes_iff` — when that is the round on both lanes
-/

set_option autoImplicit false

namespace Unxorer

open Unicorn VectorOperations RegisterMapper AesImpl

variable {U : Type} [Unicorn U]

/-! ### Rounds -/

/-- The VEX forms of the rounds. -/
def isVexRound (itype : Itype) : Bool := List.elem itype
  [.vaesenc, .vaesenclast, .vaesdec, .vaesdeclast]

/-- The round function of an instruction, legacy or VEX. -/
def round (itype : Itype) (state key : Block) : Block :=
  match Handler.legacyAes itype with
  | .aesenc => aesenc state key
  | .aesenclast => aesenclast state key
  | .aesdec => aesdec state key
  | _ => aesdeclast state key

/-- A round without its last step, the addition of the round key. -/
def keylessRound (itype : Itype) (state : Block) : Block := round itype state (Buf.zero 16)

theorem xorBlock_zero (s : Block) : xorBlock s (Buf.zero 16) = s :=
  funext fun _ => BitVec.xor_zero

theorem xorBlock_xorBlock_left (s t : Block) : xorBlock s (xorBlock s t) = t := by
  funext i
  rw [xorBlock, xorBlock, ← BitVec.xor_assoc, BitVec.xor_self, BitVec.zero_xor]

theorem round_eq (itype : Itype) (state key : Block) :
    round itype state key = xorBlock (keylessRound itype state) key := by
  rw [keylessRound, round, round]
  split
  all_goals simp only [aesenc, aesenclast, aesdec, aesdeclast, xorBlock_zero]

/-- The round key is determined by the state and the result. -/
theorem eq_round_iff {itype : Itype} {state key result : Block} :
    result = round itype state key ↔ key = xorBlock (keylessRound itype state) result := by
  rw [round_eq]
  constructor
  · rintro rfl
    exact (xorBlock_xorBlock_left _ _).symm
  · rintro rfl
    exact (xorBlock_xorBlock_left _ _).symm

/-! ### Lanes -/

/-- A 128-bit lane of a YMM register. -/
def ymmLane (u : U) (i : Fin 16) (h : Fin 2) : Block := fun j => ymm u i ⟨16 * h.1 + j.1, by omega⟩

namespace Handler

/-- An instruction of the rounds writes the round of what it reads. -/
theorem handleAes_round (u : U) {insn : Insn} (rounds : isVexRound insn.itype = true) :
    handleAes u insn =
      let read (op : Operand) : Block := (readOperand u op (Buf.zero 16) 16).getD (Buf.zero 16)
      (writeOperand u insn.op1 (round insn.itype (read insn.op2) (read insn.op3)) 16).getD u := by
  obtain ⟨itype, length, op1, op2, op3⟩ := insn
  rw [isVexRound, List.elem_iff] at rounds
  simp only [List.mem_cons, List.not_mem_nil, or_false] at rounds
  rcases rounds with rfl | rfl | rfl | rfl <;> rfl

/-- Whatever the sources hold, the lower lane of the destination becomes the round of zeros
and the upper lane zero. -/
theorem handleAes_ymm (u : U) {insn : Insn} {d s k : Fin 16}
    (rounds : isVexRound insn.itype = true) (destination : IsRegister insn.op1 32 d)
    (state : IsRegister insn.op2 32 s) (key : IsRegister insn.op3 32 k) :
    ymmLane (handleAes u insn) d 0 = keylessRound insn.itype (Buf.zero 16) ∧
      ymmLane (handleAes u insn) d 1 = Buf.zero 16 := by
  have unread : ∀ {op : Operand} {i : Fin 16}, IsRegister op 32 i →
      readOperand u op (Buf.zero 16) 16 = none :=
    fun h => readOperand_of_short h u _ (by decide)
  rw [handleAes_round u rounds]
  simp only [unread state, unread key, Option.getD_none]
  rw [writeOperand_ymm u destination, Option.getD_some]
  constructor
  · funext j
    have inside : j.1 < 16 := j.2
    rw [ymmLane, ymm_ymmWrite, if_pos rfl, Buf.copy_of_lt _ (by simp), Buf.getElem_take]
    simp [keylessRound, Buf.resize]
  · funext j
    rw [ymmLane, ymm_ymmWrite, if_pos rfl, Buf.copy_of_le _ (by simp)]
    rfl

/-- The handler computes the round on both lanes exactly for the round keys that make the
results the round of zeros and zero. -/
theorem handleAes_lanes_iff (u : U) {insn : Insn} {d s k : Fin 16}
    (rounds : isVexRound insn.itype = true) (destination : IsRegister insn.op1 32 d)
    (state : IsRegister insn.op2 32 s) (key : IsRegister insn.op3 32 k) :
    (∀ h, ymmLane (handleAes u insn) d h =
        round insn.itype (ymmLane u s h) (ymmLane u k h)) ↔
      ymmLane u k 0 = xorBlock (keylessRound insn.itype (ymmLane u s 0))
        (keylessRound insn.itype (Buf.zero 16)) ∧
      ymmLane u k 1 = keylessRound insn.itype (ymmLane u s 1) := by
  obtain ⟨lower, upper⟩ := handleAes_ymm u rounds destination state key
  rw [Fin.forall_fin_two, lower, upper, eq_round_iff, eq_round_iff, xorBlock_zero]

/-- `vaesenc ymm0, ymm1, ymm2`. -/
def vaesencInsn : Insn := ⟨.vaesenc, 5, ⟨.reg, 81, 0, 0⟩, ⟨.reg, 82, 0, 0⟩, ⟨.reg, 83, 0, 0⟩⟩

theorem handleAes_lanes_iff_vaesenc :
    (∀ h, ymmLane (handleAes patterned vaesencInsn) 0 h =
        round .vaesenc (ymmLane patterned 1 h) (ymmLane patterned 2 h)) ↔
      ymmLane patterned 2 0 = xorBlock (keylessRound .vaesenc (ymmLane patterned 1 0))
        (keylessRound .vaesenc (Buf.zero 16)) ∧
      ymmLane patterned 2 1 = keylessRound .vaesenc (ymmLane patterned 1 1) :=
  handleAes_lanes_iff patterned rfl ⟨rfl, rfl, rfl, by decide⟩ ⟨rfl, rfl, rfl, by decide⟩
    ⟨rfl, rfl, rfl, by decide⟩

/-- On registers that hold a pattern the upper lane becomes zero, which is not the round of
the upper lanes of the sources. -/
theorem upper_lane_lost :
    ymmLane (handleAes patterned vaesencInsn) 0 1 ≠
      round .vaesenc (ymmLane patterned 1 1) (ymmLane patterned 2 1) := by
  intro same
  have first := congrFun same 0
  revert first
  decide +kernel

end Handler

end Unxorer
