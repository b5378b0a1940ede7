import Unxorer.Lib.Lanes

/-!
# Packed integer operations

The lane-wise operations of a vector unit on byte arrays, each stated as a relation
between two sources and a result: bitwise operations act on every byte, packed sums,
differences and products on every whole lane, and the byte shuffle inside each group of
sixteen bytes.

## Main definitions

* `Packed.Operation` — the operations
* `Packed.Operation.Computes` — what each of them makes of its sources
* `Packed.Operation.ofMissing` — what is left of them when a source is missing

## Main results

* `Packed.Operation.Computes.unique` — on an array of whole lanes the result is determined
* `Packed.Operation.computes_ofMissing` — the result when a missing source counts as zero
-/

set_option autoImplicit false

namespace Packed

open Lanes

variable {n : ℕ}

/-- Packed operations; sums and differences carry their lane width in bytes. -/
inductive Operation
  | xor | and | or | andn
  | add (w : ℕ)
  | sub (w : ℕ)
  | mullw
  | shufb
deriving DecidableEq

namespace Operation

/-- The lane width of an operation, in bytes. -/
def width : Operation → ℕ
  | add w => w
  | sub w => w
  | mullw => 2
  | _ => 1

/-- `r` is what the operation makes of `a` and `b`. -/
def Computes (a b r : Fin n → BitVec 8) : Operation → Prop
  | xor => ∀ j, r j = a j ^^^ b j
  | and => ∀ j, r j = a j &&& b j
  | or => ∀ j, r j = a j ||| b j
  | andn => ∀ j, r j = ~~~ (a j) &&& b j
  | add w => ∀ k, w * (k + 1) ≤ n → lane w r k = lane w a k + lane w b k
  | sub w => ∀ k, w * (k + 1) ≤ n → lane w r k = lane w a k - lane w b k
  | mullw => ∀ k, 2 * (k + 1) ≤ n →
      lane 2 r k = BitVec.ofInt 16 ((lane 2 a k).toInt * (lane 2 b k).toInt)
  | shufb => ∀ j, r j =
      if (b j).msb then 0 else byteAt a (16 * (j.1 / 16) + (b j).toNat % 16)

/-- Arrays of whole lanes are equal when their lanes are. -/
theorem eq_of_lanes {w : ℕ} {r s : Fin n → BitVec 8} (positive : 0 < w) (whole : w ∣ n)
    (same : ∀ k, w * (k + 1) ≤ n → lane w r k = lane w s k) : r = s := by
  funext j
  -- Byte `j` is byte `j % w` of lane `j / w`, which lies inside the array.
  have within : j.1 % w < w := Nat.mod_lt _ positive
  have split : w * (j.1 / w) + j.1 % w = j.1 := Nat.div_add_mod j.1 w
  have room : w * (j.1 / w + 1) ≤ n := by
    obtain ⟨q, rfl⟩ := whole
    exact Nat.mul_le_mul_left w (Nat.succ_le_of_lt (Nat.div_lt_of_lt_mul j.2))
  have bytes : byteAt r j.1 = byteAt s j.1 := by
    rw [← split, ← byteOf_lane r _ within, ← byteOf_lane s _ within, same _ room]
  simpa [byteAt] using bytes

/-- On an array of whole lanes an operation has one result. -/
theorem Computes.unique {op : Operation} {a b r s : Fin n → BitVec 8} (positive : 0 < op.width)
    (whole : op.width ∣ n) (first : op.Computes a b r) (second : op.Computes a b s) : r = s := by
  cases op with
  | xor | and | or | andn | shufb => exact funext fun j => (first j).trans (second j).symm
  | add w | sub w | mullw =>
    exact eq_of_lanes positive whole fun k room => (first k room).trans (second k room).symm

/-! ### Missing sources -/

/-- Every whole lane with its sign changed. -/
def negateLanes (w : ℕ) (b : Fin n → BitVec 8) : Fin n → BitVec 8 :=
  storeLanes w (n / w) (fun k => -lane w b k) 0

/-- What an operation leaves of its sources when at least one of them is missing. -/
def ofMissing (a b : Option (Fin n → BitVec 8)) : Operation → Fin n → BitVec 8
  | xor | or | add _ => (a.or b).getD 0
  | and | mullw => 0
  | andn => if a.isSome then 0 else b.getD 0
  | sub w => a.getD (negateLanes w (b.getD 0))
  | shufb => fun j => byteAt (a.getD 0) (16 * (j.1 / 16))

theorem lane_negateLanes {w k : ℕ} (positive : 0 < w) (b : Fin n → BitVec 8)
    (room : w * (k + 1) ≤ n) : lane w (negateLanes w b) k = -lane w b k := by
  have stored : k + 1 ≤ n / w := by
    rw [Nat.le_div_iff_mul_le positive, Nat.mul_comm]
    exact room
  rw [negateLanes, lane_storeLanes _ _ stored room]

/-- The operations on sources of which the missing ones count as zero. -/
theorem computes_ofMissing {op : Operation} (positive : 0 < op.width)
    {a b : Option (Fin n → BitVec 8)} (missing : a = none ∨ b = none) :
    op.Computes (a.getD 0) (b.getD 0) (op.ofMissing a b) := by
  have zero : (0 : BitVec (8 * 2)).toInt = 0 := rfl
  rcases missing with rfl | rfl
  · cases op with
    | xor => exact fun j => BitVec.zero_xor.symm
    | and => exact fun j => BitVec.zero_and.symm
    | or => exact fun j => BitVec.zero_or.symm
    | andn =>
      intro j
      change b.getD 0 j = ~~~(0#8) &&& b.getD 0 j
      rw [BitVec.not_zero, BitVec.allOnes_and]
    | add w =>
      intro k _
      rw [ofMissing, Option.none_or, Option.getD_none, lane_zero, zero_add]
    | sub w =>
      intro k room
      have negated := lane_negateLanes positive (b.getD 0) room
      rw [ofMissing, Option.getD_none, Option.getD_none, lane_zero, zero_sub]
      exact negated
    | mullw =>
      intro k _
      simp only [ofMissing, Option.getD_none, lane_zero, zero, zero_mul]
      rfl
    | shufb =>
      intro j
      simp [ofMissing, byteAt_zero]
  · cases op with
    | xor =>
      intro j
      simp [ofMissing]
    | and => exact fun j => BitVec.and_zero.symm
    | or =>
      intro j
      simp [ofMissing]
    | andn =>
      intro j
      cases a <;> simp [ofMissing]
    | add w =>
      intro k _
      rw [ofMissing, Option.or_none, Option.getD_none, lane_zero, add_zero]
    | sub w =>
      intro k room
      rw [ofMissing, Option.getD_none, lane_zero, sub_zero]
      cases a with
      | none =>
        have negated := lane_negateLanes positive (0 : Fin n → BitVec 8) room
        rw [lane_zero, neg_zero] at negated
        rw [Option.getD_none, Option.getD_none, lane_zero]
        exact negated
      | some a => rfl
    | mullw =>
      intro k _
      simp only [ofMissing, Option.getD_none, lane_zero, zero, mul_zero]
      rfl
    | shufb =>
      intro j
      simp [ofMissing]

end Operation

end Packed
