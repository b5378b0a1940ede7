import Unxorer.Lib.Lanes

/-!
# Packed shifts

The shifts of a vector unit, each stated by what it does to the number a lane stands for: to the
left the number is multiplied by a power of two and cut off at the width of the lane, to the right
it is divided and rounded down. The count is any number, and at the width of the lane and beyond
it nothing is left of the lane but its sign.

## Main definitions

* `Packed.Shift` — the kinds of shifts
* `Packed.Shift.Shifts` — what each of them makes of a lane
* `Packed.Shift.emptied` — what is left of a lane when all its bits are shifted out

## Main results

* `Packed.Shift.Shifts.unique` — the result is determined by the lane and the count
* `Packed.Shift.Shifts.eq_emptied` — the result for counts at the width or beyond
-/

set_option autoImplicit false

namespace Packed

inductive Shift
  | left | logicalRight | arithmeticRight
deriving DecidableEq

namespace Shift

variable {bits count : ℕ} {op : Shift} {x r s : BitVec bits}

/-- `r` is what the shift by a count makes of a lane. The quotients are rounded down. -/
def Shifts (x r : BitVec bits) (count : ℕ) : Shift → Prop
  | left => r.toNat = x.toNat * 2 ^ count % 2 ^ bits
  | logicalRight => r.toNat = x.toNat / 2 ^ count
  | arithmeticRight => r.toInt = x.toInt / 2 ^ count

/-- What is left of a lane when all its bits are shifted out. -/
def emptied (x : BitVec bits) : Shift → BitVec bits
  | arithmeticRight => if x.msb then BitVec.allOnes bits else 0
  | _ => 0

theorem Shifts.unique (first : op.Shifts x r count) (second : op.Shifts x s count) : r = s := by
  cases op with
  | left | logicalRight => exact BitVec.eq_of_toNat_eq (Eq.trans first second.symm)
  | arithmeticRight => exact BitVec.eq_of_toInt_eq (Eq.trans first second.symm)

/-! ### The shifts of words -/

theorem shifts_shiftLeft (x : BitVec bits) (count : ℕ) : left.Shifts x (x <<< count) count := by
  rw [Shifts, BitVec.toNat_shiftLeft, Nat.shiftLeft_eq]

theorem shifts_ushiftRight (x : BitVec bits) (count : ℕ) :
    logicalRight.Shifts x (x >>> count) count := by
  rw [Shifts, BitVec.toNat_ushiftRight, Nat.shiftRight_eq_div_pow]

theorem shifts_sshiftRight (x : BitVec bits) (count : ℕ) :
    arithmeticRight.Shifts x (x.sshiftRight count) count := by
  rw [Shifts, BitVec.toInt_sshiftRight, Int.shiftRight_eq_div_pow]
  norm_cast

/-- At the width of the lane and beyond it the count does not matter. -/
theorem shifts_emptied (op : Shift) (x : BitVec bits) (large : bits ≤ count) :
    op.Shifts x (op.emptied x) count := by
  have power : 2 ^ bits ≤ 2 ^ count := Nat.pow_le_pow_right (by decide) large
  cases op with
  | left =>
    have divides : 2 ^ bits ∣ x.toNat * 2 ^ count := Dvd.dvd.mul_left (pow_dvd_pow 2 large) x.toNat
    exact (Nat.mod_eq_zero_of_dvd divides).symm
  | logicalRight => exact (Nat.div_eq_of_lt (x.isLt.trans_le power)).symm
  | arithmeticRight =>
    have half : (2 : ℤ) ^ (bits - 1) ≤ 2 ^ count := by
      exact_mod_cast Nat.pow_le_pow_right (by decide) ((Nat.sub_le bits 1).trans large)
    have lower := (neg_le_neg half).trans (BitVec.le_toInt x)
    have upper := (BitVec.toInt_lt (x := x)).trans_le half
    rw [Shifts, emptied]
    by_cases sign : x.msb = true
    · have negative : x.toInt < 0 := by
        rwa [BitVec.msb_eq_toInt, decide_eq_true_eq] at sign
      -- A lane with a sign has a bit.
      have positive : 0 < bits := Nat.pos_of_ne_zero fun zero => by
        subst zero
        rw [BitVec.eq_nil x] at negative
        exact lt_irrefl 0 negative
      rw [if_pos sign, BitVec.toInt_allOnes, if_pos positive,
        Int.ediv_eq_neg_one_of_neg_of_le negative (neg_le.mp lower)]
    · have positive : 0 ≤ x.toInt := by
        rwa [BitVec.msb_eq_toInt, decide_eq_true_eq, not_lt] at sign
      rw [if_neg sign, Int.ediv_eq_zero_of_lt positive upper]
      exact BitVec.toInt_zero

/-- All the bits of a lane are shifted out by a count at its width or beyond. -/
theorem Shifts.eq_emptied (shifts : op.Shifts x r count) (large : bits ≤ count) :
    r = op.emptied x :=
  shifts.unique (shifts_emptied op x large)

end Shift

end Packed
