import Mathlib

/-!
# Shifts of host integers

How C++ shifts an integer of a fixed width. An operand narrower than `int` is first converted to
`int`, which keeps its value and makes it signed. The shift is defined only by a count below the
width of the promoted operand, and to the right it repeats the sign of a signed operand.

## Main definitions

* `HostInteger.shiftLeft`, `HostInteger.shiftRight` — the shifts, `none` where they are not defined

## Main results

* `HostInteger.shiftLeft_eq`, `HostInteger.shiftRight_unsigned`, `HostInteger.shiftRight_signed` —
  the shifts by counts below the width, after conversion back to the type of the operand
-/

set_option autoImplicit false

namespace HostInteger

variable {bits count : ℕ}

/-- The integer promotion of a value, where `int` has 32 bits. -/
def promote (signed : Bool) (x : BitVec bits) : BitVec (max bits 32) :=
  if signed then x.signExtend (max bits 32) else x.setWidth (max bits 32)

/-- A promoted type is signed if the type was, or if it was narrower than `int`. -/
def promotedSigned (signed : Bool) (bits : ℕ) : Bool := signed || decide (bits < 32)

def shiftLeft (signed : Bool) (x : BitVec bits) (count : ℕ) : Option (BitVec (max bits 32)) :=
  if count < max bits 32 then some (promote signed x <<< count) else none

def shiftRight (signed : Bool) (x : BitVec bits) (count : ℕ) : Option (BitVec (max bits 32)) :=
  if count < max bits 32 then
    if promotedSigned signed bits then some ((promote signed x).sshiftRight count)
    else some (promote signed x >>> count)
  else none

theorem getLsbD_promote_unsigned (x : BitVec bits) (i : ℕ) :
    (promote false x).getLsbD i = x.getLsbD i := by
  rw [promote, if_neg Bool.false_ne_true, BitVec.getLsbD_setWidth]
  by_cases inside : i < max bits 32
  · rw [decide_eq_true inside, Bool.true_and]
  · rw [BitVec.getLsbD_of_ge x i (by omega), Bool.and_false]

/-- The bits shifted out of a promoted operand are not seen in its own type. -/
theorem shiftLeft_eq (x : BitVec bits) (small : count < bits) :
    (shiftLeft false x count).map (·.setWidth bits) = some (x <<< count) := by
  rw [shiftLeft, if_pos (lt_max_of_lt_left small), Option.map_some]
  refine congrArg some (BitVec.eq_of_getLsbD_eq fun i inside => ?_)
  have wide : i < max bits 32 := lt_max_of_lt_left inside
  simp only [BitVec.getLsbD_setWidth, BitVec.getLsbD_shiftLeft, getLsbD_promote_unsigned, inside,
    wide, decide_true, Bool.true_and]

/-- An unsigned operand that is promoted to `int` is not negative, so zeros are shifted in. -/
theorem shiftRight_unsigned (x : BitVec bits) (small : count < bits) :
    (shiftRight false x count).map (·.setWidth bits) = some (x >>> count) := by
  have zeros : (shiftRight false x count) = some (promote false x >>> count) := by
    rw [shiftRight, if_pos (lt_max_of_lt_left small)]
    by_cases narrow : bits < 32
    · have sign : (promote false x).msb = false := by
        rw [BitVec.msb_eq_getLsbD_last, getLsbD_promote_unsigned]
        exact BitVec.getLsbD_of_ge x _ (by omega)
      rw [promotedSigned, decide_eq_true narrow, Bool.or_true, if_pos rfl,
        BitVec.sshiftRight_eq_of_msb_false sign]
    · rw [promotedSigned, decide_eq_false narrow, Bool.or_false, if_neg Bool.false_ne_true]
  rw [zeros, Option.map_some]
  refine congrArg some (BitVec.eq_of_getLsbD_eq fun i inside => ?_)
  simp only [BitVec.getLsbD_setWidth, BitVec.getLsbD_ushiftRight, getLsbD_promote_unsigned, inside,
    decide_true, Bool.true_and]

/-- A signed operand keeps its sign when it is promoted. -/
theorem shiftRight_signed (x : BitVec bits) (small : count < bits) :
    (shiftRight true x count).map (·.setWidth bits) = some (x.sshiftRight count) := by
  rw [shiftRight, if_pos (lt_max_of_lt_left small), promotedSigned, Bool.true_or, if_pos rfl,
    Option.map_some]
  refine congrArg some (BitVec.eq_of_getLsbD_eq fun i inside => ?_)
  have wide : ¬ max bits 32 ≤ i := Nat.not_le.mpr (lt_max_of_lt_left inside)
  have sign : (promote true x).msb = x.msb := by
    rw [promote, if_pos rfl, BitVec.msb_signExtend]
    simp [BitVec.msb]
  have extended (j : ℕ) (below : j < max bits 32) :
      (promote true x).getLsbD j = if j < bits then x.getLsbD j else x.msb := by
    rw [promote, if_pos rfl, BitVec.getLsbD_signExtend, decide_eq_true below, Bool.true_and]
  rw [BitVec.getLsbD_setWidth, BitVec.getLsbD_sshiftRight, BitVec.getLsbD_sshiftRight, sign,
    decide_eq_true inside, decide_eq_false wide, decide_eq_false (Nat.not_le.mpr inside)]
  -- Beyond the operand's own bits there are copies of its sign, wherever the promotion ends.
  by_cases within : count + i < max bits 32
  · rw [if_pos within, extended _ within]
    rfl
  · rw [if_neg within, if_neg (by omega)]
    rfl

end HostInteger
