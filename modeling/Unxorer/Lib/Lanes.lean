import Mathlib

/-!
# Little-endian lanes of a byte array

A byte array can be viewed as an array of words of `w` bytes each, least significant
byte first. Reading a lane assembles its bytes, and a loop that stores one lane after
the other replaces the bytes of the lanes it reaches and no others.

## Main definitions

* `lane` — the word at an index of the view
* `storeLane` — the array after a word is stored at an index
* `storeLanes` — the array after a loop that stores a word at each index below a count

## Main results

* `byteOf_lane` — a lane is determined by its bytes
* `lane_storeLanes` — a stored lane reads back
-/

set_option autoImplicit false

namespace Lanes

variable {n w : ℕ}

/-- The byte at a position, zero past the end. -/
def byteAt (b : Fin n → BitVec 8) (i : ℕ) : BitVec 8 := if h : i < n then b ⟨i, h⟩ else 0

/-- Lane `k` of the view with lanes of `w` bytes. -/
def lane (w : ℕ) (b : Fin n → BitVec 8) (k : ℕ) : BitVec (8 * w) :=
  BitVec.ofFnLE fun j : Fin (8 * w) => (byteAt b (w * k + j.1 / 8)).getLsbD (j.1 % 8)

/-- Byte `i` of a word. -/
def byteOf (v : BitVec (8 * w)) (i : ℕ) : BitVec 8 := v.extractLsb' (8 * i) 8

/-- The array after storing `v` in lane `k`. -/
def storeLane (w k : ℕ) (v : BitVec (8 * w)) (res : Fin n → BitVec 8) : Fin n → BitVec 8 :=
  fun j => if j.1 / w = k then byteOf v (j.1 % w) else res j

/-- The array after storing `g i` in lane `i` for every `i` below the count. -/
def storeLanes (w count : ℕ) (g : ℕ → BitVec (8 * w)) (res : Fin n → BitVec 8) :
    Fin n → BitVec 8 :=
  fun j => if j.1 / w < count then byteOf (g (j.1 / w)) (j.1 % w) else res j

theorem getLsbD_lane (b : Fin n → BitVec 8) (k : ℕ) {j : ℕ} (inside : j < 8 * w) :
    (lane w b k).getLsbD j = (byteAt b (w * k + j / 8)).getLsbD (j % 8) := by
  rw [lane, BitVec.getLsbD_ofFnLE, dif_pos inside]

theorem getLsbD_byteOf (v : BitVec (8 * w)) (i : ℕ) {j : ℕ} (inside : j < 8) :
    (byteOf v i).getLsbD j = v.getLsbD (8 * i + j) := by
  simp [byteOf, inside]

/-- A lane is determined by its bytes. -/
theorem byteOf_lane (b : Fin n → BitVec 8) (k : ℕ) {i : ℕ} (inside : i < w) :
    byteOf (lane w b k) i = byteAt b (w * k + i) := by
  apply BitVec.eq_of_getLsbD_eq
  intro j bound
  have quotient : (8 * i + j) / 8 = i := by omega
  have remainder : (8 * i + j) % 8 = j := by omega
  rw [getLsbD_byteOf _ _ bound, getLsbD_lane _ _ (by omega), quotient, remainder]

/-- Arrays with the same bytes in a lane have the same lane. -/
theorem lane_congr {m : ℕ} {b : Fin n → BitVec 8} {c : Fin m → BitVec 8} {k : ℕ}
    (same : ∀ i < w, byteAt b (w * k + i) = byteAt c (w * k + i)) : lane w b k = lane w c k := by
  apply BitVec.eq_of_getLsbD_eq
  intro j bound
  rw [getLsbD_lane _ _ bound, getLsbD_lane _ _ bound, same (j / 8) (by omega)]

theorem byteAt_zero (i : ℕ) : byteAt (0 : Fin n → BitVec 8) i = 0 := by
  rw [byteAt]
  split_ifs <;> rfl

theorem lane_zero (k : ℕ) : lane w (0 : Fin n → BitVec 8) k = 0 := by
  apply BitVec.eq_of_getLsbD_eq
  intro j bound
  rw [getLsbD_lane _ _ bound, byteAt_zero]
  exact BitVec.getLsbD_zero.trans BitVec.getLsbD_zero.symm

/-- A stored lane reads back as the word stored there. -/
theorem lane_storeLanes {count k : ℕ} (g : ℕ → BitVec (8 * w)) (res : Fin n → BitVec 8)
    (stored : k < count) (room : w * (k + 1) ≤ n) :
    lane w (storeLanes w count g res) k = g k := by
  apply BitVec.eq_of_getLsbD_eq
  intro j bound
  -- Bit `j` of the lane is in byte `w * k + j / 8` of the array.
  have within : j / 8 < w := by omega
  have inside : w * k + j / 8 < n := by
    have expanded : w * (k + 1) = w * k + w := Nat.mul_succ w k
    omega
  have index : (w * k + j / 8) / w = k := by
    rw [Nat.mul_add_div (by omega), Nat.div_eq_of_lt within, Nat.add_zero]
  have offset : (w * k + j / 8) % w = j / 8 := by
    rw [Nat.mul_add_mod, Nat.mod_eq_of_lt within]
  rw [getLsbD_lane _ _ bound, byteAt, dif_pos inside, storeLanes]
  simp only [index, offset]
  rw [if_pos stored, getLsbD_byteOf _ _ (Nat.mod_lt _ (by decide)), Nat.div_add_mod]

/-- One more round of the loop stores one more lane. -/
theorem storeLanes_succ (count : ℕ) (g : ℕ → BitVec (8 * w)) (res : Fin n → BitVec 8) :
    storeLanes w (count + 1) g res = storeLane w count (g count) (storeLanes w count g res) := by
  funext j
  rw [storeLane, storeLanes, storeLanes]
  rcases lt_trichotomy (j.1 / w) count with before | same | behind
  · rw [if_pos (by omega), if_neg (by omega), if_pos before]
  · rw [if_pos (by omega), if_pos same, same]
  · rw [if_neg (by omega), if_neg (by omega), if_neg (by omega)]

/-- A loop that stores one lane after the other and does not stop early. -/
theorem foldlM_storeLane {count : ℕ} {f : ℕ → Option (BitVec (8 * w))} {g : ℕ → BitVec (8 * w)}
    (total : ∀ i < count, f i = some (g i)) (res : Fin n → BitVec 8) :
    (List.range count).foldlM (fun res i => (f i).map fun v => storeLane w i v res) res =
      some (storeLanes w count g res) := by
  induction count with
  | zero =>
    have none : storeLanes w 0 g res = res := funext fun j => if_neg (Nat.not_lt_zero _)
    rw [none]
    rfl
  | succ count ih =>
    rw [List.range_succ, List.foldlM_append, ih fun i inside => total i (by omega)]
    simp only [Option.bind_eq_bind, Option.bind_some, List.foldlM_cons, List.foldlM_nil,
      total count (Nat.lt_succ_self count), Option.map_some, storeLanes_succ]
    rfl

end Lanes
