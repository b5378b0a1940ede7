import Unxorer.Aes.Rounds

/-!
# The rounds of FIPS-197

The cipher steps in the standard's own terms. Substitution inverts in `GF(2^8)` and
applies the affine map over the bits, a row is rotated by its index, and a column
is a polynomial over the field multiplied by a fixed polynomial modulo `X ^ 4 + 1`.
The inverse steps are the inverse functions of these three. The executable rounds
compute the AES-NI instructions built from the steps.

## Main definitions

* `Fips197.subBytes`, `Fips197.shiftRows`, `Fips197.mixColumns`
* `Fips197.aesenc`, `Fips197.aesenclast`, `Fips197.aesdec`, `Fips197.aesdeclast`,
  `Fips197.aesimc`

## Main results

* `rounds_eq_fips197` — the five instructions agree on every state and key
-/

noncomputable section

namespace Unxorer.Fips197

open Polynomial AesImpl

/-- The affine map of the S-box: bit `i` of the result. -/
def affineBit (b : Byte) (i : Fin 8) : Bool :=
  b.getLsbD i ^^ b.getLsbD ((i + 4) % 8) ^^ b.getLsbD ((i + 5) % 8) ^^ b.getLsbD ((i + 6) % 8) ^^
    b.getLsbD ((i + 7) % 8) ^^ (0x63 : Byte).getLsbD i

/-- The affine map over `GF(2)` of the S-box. -/
def affine (b : Byte) : Byte := BitVec.ofFnLE (affineBit b)

/-- Inversion in the field, with zero sent to itself, then the affine map. -/
def subByte (x : Byte) : Byte := affine (byteEquiv.symm (byteEquiv x)⁻¹)

def subBytes (s : Block) : Block := fun i => subByte (s i)

/-- The entry of the state at a row and a column. -/
def entry (s : Block) (row c : Fin 4) : Byte := s (cell row c)

/-- The block with given entries, column after column. -/
def ofEntries (m : Fin 4 → Fin 4 → Byte) : Block :=
  fun i => m ⟨i.1 % 4, row_lt i⟩ ⟨i.1 / 4, column_lt i⟩

/-- Row `row` moves left by `row` positions. -/
def shiftRows (s : Block) : Block := ofEntries fun row c => entry s row (c + row)

/-- A column as a polynomial over the field, row `row` being the coefficient of
`X ^ row`. -/
def columnPolynomial (s : Block) (c : Fin 4) : GF256[X] :=
  ∑ row : Fin 4, C (toField (entry s row c)) * X ^ row.1

/-- The polynomial `{03}x^3 + {01}x^2 + {01}x + {02}`. -/
def mixPolynomial : GF256[X] :=
  C (toField 3) * X ^ 3 + C (toField 1) * X ^ 2 + C (toField 1) * X + C (toField 2)

/-- Each column is multiplied by the fixed polynomial modulo `x^4 + 1`. -/
def mixColumns (s : Block) : Block :=
  ofEntries fun row c =>
    byteEquiv.symm (((mixPolynomial * columnPolynomial s c) %ₘ (X ^ 4 + 1)).coeff row)

def addRoundKey (s key : Block) : Block := fun i => s i ^^^ key i

def invSubBytes : Block → Block := Function.invFun subBytes

def invShiftRows : Block → Block := Function.invFun shiftRows

def invMixColumns : Block → Block := Function.invFun mixColumns

def aesenc (s key : Block) : Block := addRoundKey (mixColumns (subBytes (shiftRows s))) key

def aesenclast (s key : Block) : Block := addRoundKey (subBytes (shiftRows s)) key

def aesdec (s key : Block) : Block :=
  addRoundKey (invMixColumns (invSubBytes (invShiftRows s))) key

def aesdeclast (s key : Block) : Block := addRoundKey (invSubBytes (invShiftRows s)) key

def aesimc (s : Block) : Block := invMixColumns s

/-! ### The forward steps -/

@[simp] theorem ofEntries_cell (m : Fin 4 → Fin 4 → Byte) (row c : Fin 4) :
    ofEntries m (cell row c) = m row c := by
  have rowOf : (⟨(cell row c).1 % 4, by omega⟩ : Fin 4) = row :=
    Fin.ext (by simp only [cell]; omega)
  have columnOf : (⟨(cell row c).1 / 4, by omega⟩ : Fin 4) = c :=
    Fin.ext (by simp only [cell]; omega)
  rw [ofEntries, rowOf, columnOf]

/-- The table entry is the affine map of the inverse read off the same table. -/
theorem sbox_eq_affine : ∀ x, sbox x = affine (inverseByte x) := by decide +kernel

theorem sbox_eq_subByte (x : Byte) : sbox x = subByte x := by
  rw [sbox_eq_affine, subByte, byteEquiv_apply, ← toField_inverseByte, ← byteEquiv_apply,
    Equiv.symm_apply_apply]

theorem subBytes_eq : AesImpl.subBytes = subBytes :=
  funext fun s => funext fun i => sbox_eq_subByte (s i)

theorem shiftRows_eq : AesImpl.shiftRows = shiftRows :=
  funext fun s => block_ext fun c => funext fun row => by
    rw [column, column, shiftRows_cell, shiftRows, ofEntries_cell, entry]

/-- The polynomial with four given coefficients. -/
def cubic (f : Fin 4 → GF256) : GF256[X] := ∑ row : Fin 4, C (f row) * X ^ row.1

theorem coeff_cubic (f : Fin 4 → GF256) (row : Fin 4) : (cubic f).coeff row = f row := by
  simp only [cubic, finsetSum_coeff, coeff_C_mul_X_pow]
  simp [Fin.val_inj]

theorem degree_cubic_lt (f : Fin 4 → GF256) : (cubic f).degree < (X ^ 4 + 1 : GF256[X]).degree := by
  have modulus : (X ^ 4 + 1 : GF256[X]).degree = (4 : ℕ) := by
    rw [← C_1]
    exact degree_X_pow_add_C (by decide) 1
  rw [modulus, degree_lt_iff_coeff_zero]
  intro i outside
  -- No term of the sum has degree 4 or more.
  simp only [cubic, finsetSum_coeff, coeff_C_mul_X_pow]
  refine Finset.sum_eq_zero fun row _ => if_neg ?_
  omega

/-- Reducing the product of a column with the fixed polynomial leaves the column that
the matrix form of the mix computes. -/
theorem mixPolynomial_mod (s : Block) (c : Fin 4) :
    (mixPolynomial * columnPolynomial s c) %ₘ (X ^ 4 + 1) =
      cubic fun row => toField (mixWord (column s c) row) := by
  have monic : (X ^ 4 + 1 : GF256[X]).Monic := by
    rw [← C_1]
    exact monic_X_pow_add_C 1 (by decide)
  have two : (2 : GF256[X]) = 0 := by
    have image := congrArg (C : GF256 →+* GF256[X]) field_two
    rwa [map_ofNat, map_zero] at image
  let b (row : Fin 4) : GF256[X] := C (toField (s (cell row c)))
  -- The terms of degree four to six, each of which wraps around to degree zero to two.
  let q : GF256[X] := (C (toField 1) * b 3 + C (toField 1) * b 2 + C (toField 3) * b 1) +
    (C (toField 1) * b 3 + C (toField 3) * b 2) * X + C (toField 3) * b 3 * X ^ 2
  -- The product is `q * (X ^ 4 + 1)` and the mixed column, and 2 is 0.
  refine (div_modByMonic_unique q _ monic ⟨?_, degree_cubic_lt _⟩).2
  simp only [mixPolynomial, columnPolynomial, cubic, Fin.sum_univ_four, mixWord, column, entry,
    toField_xor, toField_gmul, Matrix.cons_val, map_add, map_mul, toField_one, map_one, q, b]
  simp only [Fin.coe_ofNat_eq_mod, Nat.zero_mod, Nat.one_mod, Nat.reduceMod, pow_zero, pow_one]
  linear_combination (C (toField (s (cell 3 c))) + C (toField (s (cell 2 c))) +
    C (toField 3) * C (toField (s (cell 1 c))) +
    (C (toField (s (cell 3 c))) + C (toField 3) * C (toField (s (cell 2 c)))) * X +
    C (toField 3) * C (toField (s (cell 3 c))) * X ^ 2) * two

theorem mixColumns_eq : AesImpl.mixColumns = mixColumns :=
  funext fun s => block_ext fun c => funext fun row => by
    rw [column_mixColumns, column, mixColumns, ofEntries_cell, mixPolynomial_mod, coeff_cubic,
      ← byteEquiv_apply, Equiv.symm_apply_apply]

/-! ### The inverse steps -/

/-- A two-sided inverse of a function is its inverse function. -/
theorem eq_invFun {f g : Block → Block} (left : ∀ s, g (f s) = s) (right : ∀ s, f (g s) = s) :
    g = Function.invFun f :=
  funext fun s => by
    calc
      g s = Function.invFun f (f (g s)) :=
        (Function.leftInverse_invFun (Function.LeftInverse.injective left) (g s)).symm
      _ = Function.invFun f s := by rw [right]

/-- Blocks are finite in number, so the left inverse of the mix is also a right one. -/
theorem mixColumns_invMixColumns (s : Block) :
    AesImpl.mixColumns (AesImpl.invMixColumns s) = s := by
  have surjective : Function.Surjective AesImpl.mixColumns :=
    Finite.surjective_of_injective (Function.LeftInverse.injective invMixColumns_mixColumns)
  exact Function.LeftInverse.rightInverse_of_surjective invMixColumns_mixColumns surjective s

theorem invSubBytes_eq : AesImpl.invSubBytes = invSubBytes := by
  rw [invSubBytes, ← subBytes_eq]
  exact eq_invFun invSubBytes_subBytes subBytes_invSubBytes

theorem invShiftRows_eq : AesImpl.invShiftRows = invShiftRows := by
  rw [invShiftRows, ← shiftRows_eq]
  exact eq_invFun invShiftRows_shiftRows shiftRows_invShiftRows

theorem invMixColumns_eq : AesImpl.invMixColumns = invMixColumns := by
  rw [invMixColumns, ← mixColumns_eq]
  exact eq_invFun invMixColumns_mixColumns mixColumns_invMixColumns

/-- The three steps are invertible, so their inverse functions are inverses on both
sides. -/
theorem steps_bijective :
    Function.Bijective subBytes ∧ Function.Bijective shiftRows ∧ Function.Bijective mixColumns := by
  rw [← subBytes_eq, ← shiftRows_eq, ← mixColumns_eq]
  exact ⟨Function.bijective_iff_has_inverse.mpr
      ⟨_, invSubBytes_subBytes, subBytes_invSubBytes⟩,
    Function.bijective_iff_has_inverse.mpr
      ⟨_, invShiftRows_shiftRows, shiftRows_invShiftRows⟩,
    Function.bijective_iff_has_inverse.mpr
      ⟨_, invMixColumns_mixColumns, mixColumns_invMixColumns⟩⟩

/-! ### The executable rounds -/

theorem aesenc_eq : AesImpl.aesenc = aesenc := by
  funext s key
  rw [AesImpl.aesenc, mixColumns_eq, subBytes_eq, shiftRows_eq]
  rfl

theorem aesenclast_eq : AesImpl.aesenclast = aesenclast := by
  funext s key
  rw [AesImpl.aesenclast, subBytes_eq, shiftRows_eq]
  rfl

theorem aesdec_eq : AesImpl.aesdec = aesdec := by
  funext s key
  rw [AesImpl.aesdec, invMixColumns_eq, invSubBytes_eq, invShiftRows_eq]
  rfl

theorem aesdeclast_eq : AesImpl.aesdeclast = aesdeclast := by
  funext s key
  rw [AesImpl.aesdeclast, invSubBytes_eq, invShiftRows_eq]
  rfl

theorem aesimc_eq : AesImpl.aesimc = aesimc := by
  funext s
  rw [AesImpl.aesimc, invMixColumns_eq]
  rfl

/-- The executable rounds are the AES-NI instructions of the standard, and the inverse
steps these use are inverses of the forward ones. -/
theorem rounds_eq_fips197 :
    (∀ s key, AesImpl.aesenc s key = aesenc s key) ∧
    (∀ s key, AesImpl.aesenclast s key = aesenclast s key) ∧
    (∀ s key, AesImpl.aesdec s key = aesdec s key) ∧
    (∀ s key, AesImpl.aesdeclast s key = aesdeclast s key) ∧
    (∀ s, AesImpl.aesimc s = aesimc s) ∧
    Function.Bijective subBytes ∧ Function.Bijective shiftRows ∧ Function.Bijective mixColumns := by
  refine ⟨fun s key => ?_, fun s key => ?_, fun s key => ?_, fun s key => ?_, fun s => ?_,
    steps_bijective⟩
  · rw [aesenc_eq]
  · rw [aesenclast_eq]
  · rw [aesdec_eq]
  · rw [aesdeclast_eq]
  · rw [aesimc_eq]

end Unxorer.Fips197

end
