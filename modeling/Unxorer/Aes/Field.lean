import Unxorer.Aes.Impl
import Unxorer.Lib.BinaryPolynomial

/-!
# The field behind the byte arithmetic

Bytes are the elements of `GF(2^8)`, the polynomials over `ZMod 2` modulo
`X ^ 8 + X ^ 4 + X ^ 3 + X + 1`. The loop of `gmul` is the bit-serial product for
this modulus, so every law of the field transfers to bytes. The modulus is shown
irreducible by exhibiting the inverse of each byte through the S-box table.

## Main definitions

* `GF256` — the field
* `toField`, `byteEquiv` — the element a byte names, and the resulting equivalence

## Main results

* `modulus_reduction` — the polynomial behind the constant in `gmul`
* `toField_gmul` — `gmul` is multiplication in `GF256`
* `toField_inverseByte` — the inverse read off the S-box is the inverse in `GF256`
-/

noncomputable section

namespace Unxorer.AesImpl

open Polynomial

/-- The lower terms of the reduction polynomial, the constant in `gmul`. -/
abbrev reduction : Byte := 0x1b

/-- The reduction polynomial of FIPS-197. -/
theorem modulus_reduction :
    BinaryPolynomial.modulus reduction = X ^ 8 + X ^ 4 + X ^ 3 + X + 1 := by
  have low : BinaryPolynomial.ofWord reduction = X ^ 4 + X ^ 3 + X + 1 := by
    simp only [BinaryPolynomial.ofWord, Finset.sum_range_succ, Finset.sum_range_zero]
    simp [BinaryPolynomial.bit, BitVec.getLsbD, Nat.testBit]
    ring
  rw [BinaryPolynomial.modulus, low]
  ring

theorem and_one_ne_zero (b : Byte) : b &&& 1 ≠ 0 ↔ b.getLsbD 0 = true := by
  revert b
  decide +kernel

theorem and_top_ne_zero (a : Byte) : a &&& 0x80 ≠ 0 ↔ a.msb = true := by
  revert a
  decide +kernel

theorem gmulStep_eq : gmulStep = BinaryPolynomial.mulStep reduction := by
  funext ⟨p, a, b⟩
  simp only [gmulStep, BinaryPolynomial.mulStep, BinaryPolynomial.timesX, and_one_ne_zero,
    and_top_ne_zero]

theorem gmul_eq (a b : Byte) : gmul a b = BinaryPolynomial.mul reduction a b := by
  rw [gmul, gmulStep_eq, BinaryPolynomial.mul]

/-- The inverse of a byte, read off the S-box: undo the affine map of its entry. -/
def inverseByte (x : Byte) : Byte :=
  let y := sbox x ^^^ 0x63
  y.rotateLeft 1 ^^^ y.rotateLeft 3 ^^^ y.rotateLeft 6

theorem gmul_inverseByte : ∀ x : Byte, x ≠ 0 → gmul x (inverseByte x) = 1 := by
  decide +kernel

theorem reduction_irreducible : Irreducible (BinaryPolynomial.modulus reduction) :=
  BinaryPolynomial.modulus_irreducible (by decide) fun a nonzero =>
    ⟨inverseByte a, by rw [← gmul_eq, gmul_inverseByte a nonzero]⟩

instance : Fact (Irreducible (BinaryPolynomial.modulus reduction)) := ⟨reduction_irreducible⟩

/-- `GF(2^8)` as FIPS-197 defines it. -/
abbrev GF256 := AdjoinRoot (BinaryPolynomial.modulus reduction)

/-- The field element a byte names. -/
def toField (x : Byte) : GF256 := BinaryPolynomial.residue reduction x

theorem toField_injective : Function.Injective toField := BinaryPolynomial.residue_injective

/-- Bytes and field elements correspond. -/
def byteEquiv : Byte ≃ GF256 := Equiv.ofBijective toField BinaryPolynomial.residue_bijective

@[simp] theorem byteEquiv_apply (x : Byte) : byteEquiv x = toField x := rfl

@[simp] theorem toField_zero : toField 0 = 0 := BinaryPolynomial.residue_zero

@[simp] theorem toField_one : toField 1 = 1 := BinaryPolynomial.residue_one (by decide)

@[simp] theorem toField_xor (a b : Byte) : toField (a ^^^ b) = toField a + toField b :=
  BinaryPolynomial.residue_xor a b

@[simp] theorem toField_gmul (a b : Byte) : toField (gmul a b) = toField a * toField b := by
  rw [gmul_eq]
  exact BinaryPolynomial.residue_mul a b

theorem field_two : (2 : GF256) = 0 := BinaryPolynomial.two_eq_zero

/-- The inverse of a byte through the table is its inverse in the field. -/
theorem toField_inverseByte (x : Byte) : toField (inverseByte x) = (toField x)⁻¹ := by
  by_cases zero : x = 0
  · subst zero
    have none : inverseByte 0 = 0 := by decide +kernel
    rw [none, toField_zero, inv_zero]
  · apply eq_inv_of_mul_eq_one_right
    rw [← toField_gmul, gmul_inverseByte x zero, toField_one]

end Unxorer.AesImpl

end
