import Mathlib

/-!
# Binary polynomials packed in machine words

A word of `w` bits names the polynomial over `ZMod 2` whose coefficient of
`X ^ i` is bit `i`. Modulo `X ^ w + r`, for a word `r` of lower-order terms, every
residue class has exactly one word, exclusive or is addition, and the bit-serial
product (add, double with reduction, halve the multiplier) is multiplication.

Irreducibility of the modulus is not assumed. It follows when every non-zero word
has an inverse for the bit-serial product.

## Main definitions

* `ofWord` — the polynomial a word names
* `modulus`, `residue` — the reduction polynomial and the class of a word
* `timesX`, `mulStep`, `mul` — the executable bit-serial product

## Main results

* `residue_mul` — the bit-serial product is multiplication of residue classes
* `residue_bijective` — words and residue classes correspond
* `modulus_irreducible` — inverses of words make the modulus irreducible
-/

noncomputable section

namespace BinaryPolynomial

open Polynomial

variable {w : ℕ}

/-- The coefficient a bit stands for. -/
def bit (b : Bool) : ZMod 2 := if b then 1 else 0

theorem bit_xor (a b : Bool) : bit (a ^^ b) = bit a + bit b := by
  cases a <;> cases b <;> decide

theorem bit_injective : Function.Injective bit := by decide

/-- The polynomial whose coefficient of `X ^ i` is bit `i` of the word. -/
def ofWord (a : BitVec w) : (ZMod 2)[X] :=
  ∑ i ∈ Finset.range w, C (bit (a.getLsbD i)) * X ^ i

@[simp] theorem coeff_ofWord (a : BitVec w) (i : ℕ) : (ofWord a).coeff i = bit (a.getLsbD i) := by
  simp only [ofWord, finsetSum_coeff, coeff_C_mul_X_pow, Finset.sum_ite_eq, Finset.mem_range]
  split_ifs with inside
  · rfl
  · rw [BitVec.getLsbD_of_ge a i (not_lt.mp inside)]
    rfl

theorem ofWord_injective : Function.Injective (ofWord (w := w)) := by
  intro a b same
  apply BitVec.eq_of_getLsbD_eq
  intro i _
  apply bit_injective
  rw [← coeff_ofWord, ← coeff_ofWord, same]

@[simp] theorem ofWord_zero : ofWord (0 : BitVec w) = 0 := by
  ext i
  simp [bit]

theorem ofWord_one (positive : 0 < w) : ofWord (1 : BitVec w) = 1 := by
  ext i
  rw [coeff_ofWord, coeff_one]
  cases i with
  | zero => simp [bit, positive]
  | succ i => simp [bit, BitVec.getLsbD_one]

theorem ofWord_xor (a b : BitVec w) : ofWord (a ^^^ b) = ofWord a + ofWord b := by
  ext i
  rw [coeff_add, coeff_ofWord, coeff_ofWord, coeff_ofWord, BitVec.getLsbD_xor, bit_xor]

theorem degree_ofWord_lt (a : BitVec w) : (ofWord a).degree < w := by
  rw [degree_lt_iff_coeff_zero]
  intro i outside
  rw [coeff_ofWord, BitVec.getLsbD_of_ge a i outside]
  rfl

/-- Every polynomial of degree below the width is the polynomial of a word. -/
theorem exists_ofWord_eq {p : (ZMod 2)[X]} (low : p.degree < w) :
    ∃ a : BitVec w, ofWord a = p := by
  have two (c : ZMod 2) : bit (decide (c = 1)) = c := by revert c; decide
  refine ⟨BitVec.ofFnLE fun i => decide (p.coeff i = 1), ?_⟩
  ext i
  rw [coeff_ofWord, BitVec.getLsbD_ofFnLE]
  split_ifs with inside
  · exact two (p.coeff i)
  · rw [(degree_lt_iff_coeff_zero p w).mp low i (not_lt.mp inside)]
    rfl

/-- Shifting left multiplies by `X`, except for the bit that falls out. -/
theorem ofWord_shiftLeft (a : BitVec w) :
    ofWord (a <<< 1) + C (bit a.msb) * X ^ w = X * ofWord a := by
  ext i
  rw [coeff_add, coeff_ofWord, coeff_C_mul_X_pow, BitVec.getLsbD_shiftLeft]
  cases i with
  | zero =>
    cases w with
    | zero => simp [bit, BitVec.msb]
    | succ w => simp [bit]
  | succ i =>
    rw [coeff_X_mul, coeff_ofWord]
    -- Bit `i` of the word moves up by one, except that the last one falls out.
    rcases lt_trichotomy (i + 1) w with below | same | above
    · simp [below, below.ne, bit]
    · subst same
      simp [bit, BitVec.msb_eq_getLsbD_last]
    · simp [above.not_gt, above.ne', bit, BitVec.getLsbD_of_ge a i (by omega)]

/-- Shifting right removes the constant term and divides by `X`. -/
theorem ofWord_shiftRight (a : BitVec w) :
    C (bit (a.getLsbD 0)) + X * ofWord (a >>> 1) = ofWord a := by
  ext i
  rw [coeff_add, coeff_ofWord, coeff_C]
  cases i with
  | zero => simp
  | succ i => simp [coeff_X_mul, Nat.add_comm 1 i]

/-! ### Residue classes -/

/-- The reduction polynomial with leading term `X ^ w` and lower terms `r`. -/
def modulus (r : BitVec w) : (ZMod 2)[X] := X ^ w + ofWord r

/-- The residue class a word stands for. -/
def residue (r a : BitVec w) : AdjoinRoot (modulus r) := AdjoinRoot.mk (modulus r) (ofWord a)

variable {r : BitVec w}

theorem modulus_monic : (modulus r).Monic := monic_X_pow_add (degree_ofWord_lt r)

theorem degree_modulus : (modulus r).degree = w := by
  have low : (ofWord r).degree < (X ^ w : (ZMod 2)[X]).degree := by
    rw [degree_X_pow]
    exact degree_ofWord_lt r
  rw [modulus, degree_add_eq_left_of_degree_lt low, degree_X_pow]

@[simp] theorem residue_zero : residue r 0 = 0 := by rw [residue, ofWord_zero, map_zero]

theorem residue_one (positive : 0 < w) : residue r 1 = 1 := by
  rw [residue, ofWord_one positive, map_one]

theorem residue_xor (a b : BitVec w) : residue r (a ^^^ b) = residue r a + residue r b := by
  simp only [residue, ofWord_xor, map_add]

theorem residue_injective : Function.Injective (residue r) := by
  intro a b same
  apply ofWord_injective
  apply sub_eq_zero.mp
  -- The difference is a multiple of the modulus and of lower degree.
  apply eq_zero_of_dvd_of_degree_lt (AdjoinRoot.mk_eq_mk.mp same)
  rw [degree_modulus]
  exact (degree_sub_le _ _).trans_lt (max_lt (degree_ofWord_lt a) (degree_ofWord_lt b))

theorem residue_surjective : Function.Surjective (residue r) := by
  intro x
  obtain ⟨p, rfl⟩ := AdjoinRoot.mk_surjective x
  have low : (p %ₘ modulus r).degree < w := by
    rw [← degree_modulus (r := r)]
    exact degree_modByMonic_lt p modulus_monic
  obtain ⟨a, ha⟩ := exists_ofWord_eq low
  refine ⟨a, ?_⟩
  rw [residue, ha, AdjoinRoot.mk_eq_mk]
  exact ⟨-(p /ₘ modulus r), by linear_combination modByMonic_add_div p (modulus r)⟩

theorem residue_bijective : Function.Bijective (residue r) :=
  ⟨residue_injective, residue_surjective⟩

theorem two_eq_zero : (2 : AdjoinRoot (modulus r)) = 0 := by
  have image := congrArg (AdjoinRoot.mk (modulus r)) (CharTwo.two_eq_zero (R := (ZMod 2)[X]))
  rwa [map_ofNat, map_zero] at image

/-! ### The bit-serial product -/

/-- Doubling with reduction: shift left and fold the lost bit back in. -/
def timesX (r a : BitVec w) : BitVec w := if a.msb then (a <<< 1) ^^^ r else a <<< 1

theorem residue_timesX (a : BitVec w) :
    residue r (timesX r a) = AdjoinRoot.root (modulus r) * residue r a := by
  have shifted := congrArg (AdjoinRoot.mk (modulus r)) (ofWord_shiftLeft a)
  have reduced : AdjoinRoot.mk (modulus r) (X ^ w) + residue r r = 0 := by
    rw [residue, ← map_add]
    exact AdjoinRoot.mk_self
  rw [map_add, map_mul, map_mul, AdjoinRoot.mk_X] at shifted
  rw [timesX]
  -- A bit that falls out stands for `X ^ w`, which is `r` modulo the modulus.
  cases lost : a.msb with
  | false =>
    rw [lost] at shifted
    simpa [residue, bit] using shifted
  | true =>
    rw [lost] at shifted
    rw [if_pos rfl, residue_xor]
    simp only [bit, if_true, map_one, one_mul] at shifted
    unfold residue at reduced ⊢
    linear_combination
      shifted - reduced + AdjoinRoot.mk (modulus r) (ofWord r) * two_eq_zero (r := r)

/-- One round on the product so far, the addend and the remaining multiplier. -/
def mulStep (r : BitVec w) (s : BitVec w × BitVec w × BitVec w) : BitVec w × BitVec w × BitVec w :=
  (if s.2.2.getLsbD 0 then s.1 ^^^ s.2.1 else s.1, timesX r s.2.1, s.2.2 >>> 1)

/-- The bit-serial product: one round for each bit of the multiplier. -/
def mul (r a b : BitVec w) : BitVec w := ((mulStep r)^[w] (0, a, b)).1

/-- What a round keeps: the product so far plus the addend times the rest. -/
def pending (r : BitVec w) (s : BitVec w × BitVec w × BitVec w) : AdjoinRoot (modulus r) :=
  residue r s.1 + residue r s.2.1 * residue r s.2.2

theorem pending_mulStep (s : BitVec w × BitVec w × BitVec w) :
    pending r (mulStep r s) = pending r s := by
  obtain ⟨product, addend, multiplier⟩ := s
  have halved := congrArg (AdjoinRoot.mk (modulus r)) (ofWord_shiftRight multiplier)
  rw [map_add, map_mul, AdjoinRoot.mk_X] at halved
  simp only [pending, mulStep, residue_timesX]
  -- What the low bit of the multiplier contributes goes to the product now.
  cases low : multiplier.getLsbD 0 with
  | false =>
    simp only [low, bit, Bool.false_eq_true, if_false, map_zero, zero_add] at halved ⊢
    unfold residue
    linear_combination AdjoinRoot.mk (modulus r) (ofWord addend) * halved
  | true =>
    simp only [low, bit, if_true, map_one, residue_xor] at halved ⊢
    unfold residue
    linear_combination AdjoinRoot.mk (modulus r) (ofWord addend) * halved

theorem pending_iterate (n : ℕ) (s : BitVec w × BitVec w × BitVec w) :
    pending r ((mulStep r)^[n] s) = pending r s := by
  induction n with
  | zero => rfl
  | succ n ih => rw [Function.iterate_succ_apply', pending_mulStep, ih]

theorem multiplier_iterate (n : ℕ) (s : BitVec w × BitVec w × BitVec w) :
    ((mulStep r)^[n] s).2.2 = s.2.2 >>> n := by
  induction n with
  | zero => simp
  | succ n ih => rw [Function.iterate_succ_apply', mulStep, ih, ← BitVec.shiftRight_add]

/-- The bit-serial product of words is the product of their classes. -/
theorem residue_mul (a b : BitVec w) : residue r (mul r a b) = residue r a * residue r b := by
  have kept := pending_iterate (r := r) w (0, a, b)
  have spent := multiplier_iterate (r := r) w (0, a, b)
  -- After `w` rounds nothing is left of the multiplier.
  have exhausted : b >>> w = 0 := BitVec.ushiftRight_eq_zero le_rfl
  rw [exhausted] at spent
  simpa only [pending, spent, mul, residue_zero, mul_zero, add_zero, zero_add] using kept

/-! ### Irreducibility -/

/-- The residue ring is a field as soon as every non-zero word has an inverse. -/
theorem isField_of_inverses (positive : 0 < w)
    (inverse : ∀ a : BitVec w, a ≠ 0 → ∃ b, mul r a b = 1) :
    IsField (AdjoinRoot (modulus r)) where
  exists_pair_ne := by
    refine ⟨residue r 0, residue r 1, residue_injective.ne ?_⟩
    have one : (1 : BitVec w).getLsbD 0 = true := by simp [positive]
    intro same
    rw [← same] at one
    simp at one
  mul_comm := mul_comm
  mul_inv_cancel := by
    intro x nonzero
    obtain ⟨a, rfl⟩ := residue_surjective x
    obtain ⟨b, hb⟩ := inverse a fun zero => nonzero (by rw [zero, residue_zero])
    exact ⟨residue r b, by rw [← residue_mul, hb, residue_one positive]⟩

/-- Inverses of words make the reduction polynomial irreducible. -/
theorem modulus_irreducible (positive : 0 < w)
    (inverse : ∀ a : BitVec w, a ≠ 0 → ∃ b, mul r a b = 1) : Irreducible (modulus r) := by
  have maximal : (Ideal.span {modulus r}).IsMaximal :=
    Ideal.Quotient.maximal_of_isField _ (isField_of_inverses positive inverse)
  have nonzero : modulus r ≠ 0 := modulus_monic.ne_zero
  exact ((Ideal.span_singleton_prime nonzero).mp maximal.isPrime).irreducible

end BinaryPolynomial

end
