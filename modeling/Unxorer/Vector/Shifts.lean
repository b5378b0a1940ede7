import Unxorer.Lib.HostIntegers
import Unxorer.Lib.PackedShift
import Unxorer.Vector.Handler

/-!
# The shifts compute the packed shifts

The handler shifts one element after the other with the shifts of the host. Elements of 16 bits
are promoted to `int` there, and a count at the width of the element or beyond it never reaches
the host's shift.

## Main definitions

* `Handler.hostPerformShift` — `perform_shift` with the shifts of the host
* `packedShift` — the packed shift of an instruction and the width of its lanes
* `ShiftLaw` — what the handler makes of every lane

## Main results

* `Handler.hostPerformShift_eq` — every shift of the host is defined
* `Handler.shiftLaw` — the law holds for every shift instruction, vector and count
-/

set_option autoImplicit false

namespace Unxorer

open Lanes Packed

namespace Handler

/-! ### The shifts of the host -/

section Host

variable {bits : ℕ}

/-- One round of the loop of `perform_shift<T, U>`, where `T` and `U` are the signed and the
unsigned type of `bits` bits; `none` where the host does not define a shift. -/
def hostElement (s : BitVec bits) (count : BitVec 64) (itype : Itype) : Option (BitVec bits) :=
  if count.toNat ≥ bits then
    if isLeft itype || isLogicalRight itype then some 0
    else some (if s.toInt < 0 then -1 else 0)
  else if isLeft itype then (HostInteger.shiftLeft false s count.toNat).map (·.setWidth bits)
  else if isLogicalRight itype then
    (HostInteger.shiftRight false s count.toNat).map (·.setWidth bits)
  else (HostInteger.shiftRight true s count.toNat).map (·.setWidth bits)

/-- `perform_shift`, which stores the elements in their order. -/
def hostPerformShift (w : ℕ) (res src : Buf 32) (count : BitVec 64) (size : ℕ) (itype : Itype) :
    Option (Buf 32) :=
  (List.range (size / w)).foldlM
    (fun res i => (hostElement (lane w src i) count itype).map fun v => storeLane w i v res) res

/-- Every shift an element goes through is defined on the host. -/
theorem hostElement_eq (s : BitVec bits) (count : BitVec 64) (itype : Itype) :
    hostElement s count itype = some (shiftElement s count itype) := by
  rw [hostElement, shiftElement]
  by_cases large : count.toNat ≥ bits
  · have sign : s.msb = decide (s.toInt < 0) := BitVec.msb_eq_toInt
    rw [if_pos large, if_pos large, sign]
    simp only [decide_eq_true_eq]
    split_ifs <;> rfl
  · have small : count.toNat < bits := Nat.not_le.mp large
    rw [if_neg large, if_neg large]
    split_ifs
    · exact HostInteger.shiftLeft_eq s small
    · exact HostInteger.shiftRight_unsigned s small
    · exact HostInteger.shiftRight_signed s small

theorem hostPerformShift_eq (w : ℕ) (res src : Buf 32) (count : BitVec 64) (size : ℕ)
    (itype : Itype) :
    hostPerformShift w res src count size itype =
      some (performShift w res src count size itype) :=
  foldlM_storeLane (fun i _ => hostElement_eq (lane w src i) count itype) res

end Host

end Handler

/-! ### The packed shifts -/

/-- The packed shift of an instruction, with the width of its lanes in bytes. -/
def packedShift : Itype → Option (Shift × ℕ)
  | .psllw | .vpsllw => some (.left, 2)
  | .pslld | .vpslld => some (.left, 4)
  | .psllq | .vpsllq => some (.left, 8)
  | .psrlw | .vpsrlw => some (.logicalRight, 2)
  | .psrld | .vpsrld => some (.logicalRight, 4)
  | .psrlq | .vpsrlq => some (.logicalRight, 8)
  | .psraw | .vpsraw => some (.arithmeticRight, 2)
  | .psrad | .vpsrad => some (.arithmeticRight, 4)
  | _ => none

/-- What the handler makes of the `size` bytes at `src`. -/
structure ShiftLaw (itype : Itype) (op : Shift) (w size : ℕ) (src : Buf 32)
    (count : BitVec 64) : Prop where
  dispatched : Handler.shift itype src count size =
    some (Handler.performShift w (Buf.zero 32) src count size itype)
  /-- No shift by an amount the host does not define. -/
  defined : ∀ res, Handler.hostPerformShift w res src count size itype =
    some (Handler.performShift w res src count size itype)
  shifts : ∀ res k, w * (k + 1) ≤ size →
    op.Shifts (lane w src k) (lane w (Handler.performShift w res src count size itype) k)
      count.toNat
  emptied : 8 * w ≤ count.toNat → ∀ res k, w * (k + 1) ≤ size →
    lane w (Handler.performShift w res src count size itype) k = op.emptied (lane w src k)
  /-- A lane depends on no other lane. -/
  separate : ∀ res res' src' k, w * (k + 1) ≤ size → lane w src' k = lane w src k →
    lane w (Handler.performShift w res' src' count size itype) k =
      lane w (Handler.performShift w res src count size itype) k

namespace Handler

variable {itype : Itype} {op : Shift} {w : ℕ}

theorem positive_of_packedShift (known : packedShift itype = some (op, w)) : 0 < w := by
  cases itype <;> cases known <;> decide

/-- The template is instantiated with the width of the instruction's lanes. -/
theorem shift_of_packedShift (known : packedShift itype = some (op, w)) (src : Buf 32)
    (count : BitVec 64) (size : ℕ) :
    shift itype src count size = some (performShift w (Buf.zero 32) src count size itype) := by
  cases itype <;> cases known <;> rfl

/-- The two tests of `perform_shift` tell the three kinds of shifts apart. -/
theorem kind_of_packedShift (known : packedShift itype = some (op, w)) :
    isLeft itype = decide (op = .left) ∧ isLogicalRight itype = decide (op = .logicalRight) := by
  cases itype <;> cases known <;> decide

theorem shiftElement_shifts (known : packedShift itype = some (op, w)) {bits : ℕ}
    (s : BitVec bits) (count : BitVec 64) :
    op.Shifts s (shiftElement s count itype) count.toNat := by
  obtain ⟨left, logicalRight⟩ := kind_of_packedShift known
  rw [shiftElement, left, logicalRight]
  by_cases large : count.toNat ≥ bits
  · rw [if_pos large]
    have emptied := Shift.shifts_emptied op s large
    cases op with
    | left | logicalRight => exact emptied
    | arithmeticRight =>
      rw [Shift.emptied, ← BitVec.neg_one_eq_allOnes] at emptied
      exact emptied
  · rw [if_neg large]
    cases op with
    | left => exact Shift.shifts_shiftLeft s count.toNat
    | logicalRight => exact Shift.shifts_ushiftRight s count.toNat
    | arithmeticRight => exact Shift.shifts_sshiftRight s count.toNat

/-- Every whole lane is shifted by itself. -/
theorem lane_performShift (positive : 0 < w) {size : ℕ} (wide : size ≤ 32) (res src : Buf 32)
    (count : BitVec 64) (itype : Itype) {k : ℕ} (room : w * (k + 1) ≤ size) :
    lane w (performShift w res src count size itype) k =
      shiftElement (lane w src k) count itype := by
  have stored : k + 1 ≤ size / w := by
    rw [Nat.le_div_iff_mul_le positive, Nat.mul_comm]
    exact room
  rw [performShift, lane_storeLanes _ _ stored (room.trans wide)]

/-- Every shift instruction shifts every lane of a vector by the whole count. -/
theorem shiftLaw (shift : isShift itype = true) {size : ℕ} (width : size = 16 ∨ size = 32)
    (src : Buf 32) (count : BitVec 64) :
    ∃ op w, packedShift itype = some (op, w) ∧ ShiftLaw itype op w size src count := by
  obtain ⟨op, w, known⟩ : ∃ op w, packedShift itype = some (op, w) := by
    cases itype <;> first | exact ⟨_, _, rfl⟩ | exact absurd shift Bool.false_ne_true
  have positive := positive_of_packedShift known
  have wide : size ≤ 32 := by omega
  have shifts (res : Buf 32) (k : ℕ) (room : w * (k + 1) ≤ size) :
      op.Shifts (lane w src k) (lane w (performShift w res src count size itype) k)
        count.toNat := by
    rw [lane_performShift positive wide res src count itype room]
    exact shiftElement_shifts known _ count
  refine ⟨op, w, known, shift_of_packedShift known src count size,
    fun res => hostPerformShift_eq w res src count size itype, shifts, ?_, ?_⟩
  · intro large res k room
    exact (shifts res k room).eq_emptied large
  · intro res res' src' k room same
    rw [lane_performShift positive wide res' src' count itype room,
      lane_performShift positive wide res src count itype room, same]

/-- `psraw` of sixteen bytes, half of the lanes negative, by a count far beyond their width. -/
theorem shiftLaw_psraw : ∃ op w, packedShift .psraw = some (op, w) ∧
    ShiftLaw .psraw op w 16 (fun j => BitVec.ofNat 8 (64 * j)) (2 ^ 40) :=
  shiftLaw rfl (.inl rfl) _ (2 ^ 40)

end Handler

end Unxorer
