import Mathlib

/-!
# Bytes, addresses and host buffers

Guest addresses and registers are 64-bit words and host buffers are arrays of
bytes of a fixed length. A buffer of the source is passed around as a pointer, so
the operations here are the ones the code performs through such pointers: a copy
into the front of a buffer and a read of its first bytes.
-/

set_option autoImplicit false

namespace Unxorer

/-- `uint8_t`. -/
abbrev Byte := BitVec 8

/-- `uint64_t`, as an address or as the contents of a general register. -/
abbrev Addr := BitVec 64

/-- `std::array<uint8_t, n>` or a `uint8_t` pointer into `n` valid bytes. -/
abbrev Buf (n : ℕ) := Fin n → Byte

/-- Every address is at its offset from any other, modulo `2 ^ 64`. -/
theorem add_offset (a x : Addr) : a + BitVec.ofNat 64 (x - a).toNat = x := by
  rw [BitVec.ofNat_toNat, BitVec.setWidth_eq, add_sub_cancel]

theorem toNat_add_ofNat {a : Addr} {k : ℕ} (room : a.toNat + k < 2 ^ 64) :
    (a + BitVec.ofNat 64 k).toNat = a.toNat + k := by
  rw [BitVec.toNat_add, BitVec.toNat_ofNat, Nat.mod_eq_of_lt (by omega : k < 2 ^ 64),
    Nat.mod_eq_of_lt room]

/-- The offset of an address that is `i` bytes behind another. -/
theorem toNat_offset (a : Addr) {i : ℕ} (inside : i < 2 ^ 64) :
    (a + BitVec.ofNat 64 i - a).toNat = i := by
  rw [add_sub_cancel_left, BitVec.toNat_ofNat, Nat.mod_eq_of_lt inside]

theorem toNat_pos_of_ne_zero {x : Addr} (nonzero : x ≠ 0) : 0 < x.toNat :=
  Nat.pos_of_ne_zero fun zero => nonzero (BitVec.eq_of_toNat_eq zero)

/-- Clearing the low bits of a word rounds it down to a multiple of a power of two. -/
theorem toNat_and_not_mask (x : BitVec 64) (k : ℕ) :
    (x &&& ~~~(BitVec.ofNat 64 (2 ^ k - 1))).toNat = x.toNat / 2 ^ k * 2 ^ k := by
  -- Shifting right and back clears the same bits.
  have shifted : x &&& ~~~(BitVec.ofNat 64 (2 ^ k - 1)) = (x >>> k) <<< k := by
    apply BitVec.eq_of_getLsbD_eq
    intro i inside
    rw [BitVec.getLsbD_and, BitVec.getLsbD_not, BitVec.getLsbD_ofNat, Nat.testBit_two_pow_sub_one,
      BitVec.getLsbD_shiftLeft, BitVec.getLsbD_ushiftRight]
    by_cases low : i < k
    · simp [low, inside]
    · simp [low, inside, Nat.add_sub_cancel' (Nat.not_lt.mp low)]
  have le : x.toNat / 2 ^ k * 2 ^ k ≤ x.toNat := Nat.div_mul_le_self _ _
  rw [shifted, BitVec.toNat_shiftLeft, BitVec.toNat_ushiftRight, Nat.shiftRight_eq_div_pow,
    Nat.shiftLeft_eq, Nat.mod_eq_of_lt (le.trans_lt x.isLt)]

namespace Buf

variable {n : ℕ}

/-- A value-initialised array. -/
def zero (n : ℕ) : Buf n := fun _ => 0

/-- `std::memcpy` of a list of bytes over the front of a buffer. -/
def copy (dest : Buf n) (src : List Byte) : Buf n := fun i => src[i.1]?.getD (dest i)

/-- The first `m` bytes behind a pointer, zero where the array has ended. -/
def resize (m : ℕ) (b : Buf n) : Buf m := fun i => if h : i.1 < n then b ⟨i, h⟩ else 0

/-- The first `m` bytes behind a pointer, as a list. -/
def take (m : ℕ) (b : Buf n) : List Byte := List.ofFn (b.resize m)

theorem copy_of_lt (dest : Buf n) {src : List Byte} {i : Fin n} (inside : i.1 < src.length) :
    dest.copy src i = src[i.1] := by
  simp [copy, inside]

theorem copy_of_le (dest : Buf n) {src : List Byte} {i : Fin n} (outside : src.length ≤ i.1) :
    dest.copy src i = dest i := by
  simp [copy, outside]

theorem resize_of_lt (m : ℕ) (b : Buf n) {i : Fin m} (inside : i.1 < n) :
    b.resize m i = b ⟨i, inside⟩ := by
  simp [resize, inside]

theorem resize_of_le (m : ℕ) (b : Buf n) {i : Fin m} (outside : n ≤ i.1) :
    b.resize m i = 0 := by
  simp [resize, Nat.not_lt.mpr outside]

@[simp] theorem resize_self (b : Buf n) : b.resize n = b := by
  funext i
  rw [resize_of_lt n b i.2]

@[simp] theorem length_take (m : ℕ) (b : Buf n) : (b.take m).length = m := by simp [take]

theorem getElem_take {m : ℕ} (b : Buf n) {i : ℕ} (inside : i < (b.take m).length) :
    (b.take m)[i] = b.resize m ⟨i, by simpa using inside⟩ := by
  simp [take]

end Buf

end Unxorer
