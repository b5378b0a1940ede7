import Mathlib

/-!
# Linear sweeps

A linear sweep looks for an item at its position. It goes on behind the item, or at the next
position if there is none, and so cuts what lies ahead of it into pieces: the items it has come
to, and single positions without one.

## Main definitions

* `LinearSweep.position` — the positions a sweep comes to
* `LinearSweep.Contains` — a position lies in an item the sweep has come to

## Main results

* `LinearSweep.exists_contains_or_missing` — every position ahead lies in an item or has none
* `LinearSweep.Contains.unique`, `LinearSweep.Contains.not_missing` — and only one of these
-/

set_option autoImplicit false

namespace LinearSweep

/-- Where a sweep goes on; `len` is the length of the item at a position, if there is one. -/
def next (len : ℕ → Option ℕ) (p : ℕ) : ℕ := p + (len p).getD 1

/-- The position a sweep has come to after `n` steps. -/
def position (len : ℕ → Option ℕ) (start n : ℕ) : ℕ := (next len)^[n] start

/-- The item after `n` steps contains `x`. -/
def Contains (len : ℕ → Option ℕ) (start n x : ℕ) : Prop :=
  ∃ l, len (position len start n) = some l ∧ position len start n ≤ x ∧
    x < position len start n + l

variable {len : ℕ → Option ℕ} {start n m x : ℕ}

theorem position_succ : position len start (n + 1) = next len (position len start n) :=
  Function.iterate_succ_apply' (next len) n start

theorem Contains.lt_next (contains : Contains len start n x) :
    x < next len (position len start n) := by
  obtain ⟨l, item, -, upper⟩ := contains
  rwa [next, item]

section Positive

variable (positive : ∀ p l, len p = some l → 0 < l)
include positive

theorem lt_next (p : ℕ) : p < next len p := by
  rw [next]
  cases item : len p with
  | none => exact Nat.lt_succ_self p
  | some l => exact Nat.lt_add_of_pos_right (positive p l item)

variable (start) in
theorem position_strictMono : StrictMono (position len start) := by
  apply strictMono_nat_of_lt_succ
  intro n
  rw [position_succ]
  exact lt_next positive _

theorem start_le_position (n : ℕ) : start ≤ position len start n :=
  (position_strictMono start positive).monotone (Nat.zero_le n)

variable (start) in
/-- A position behind a step lies behind the item of that step. -/
theorem next_le_position (before : n < m) :
    next len (position len start n) ≤ position len start m := by
  rw [← position_succ]
  exact (position_strictMono start positive).monotone before

/-- Every position ahead lies between two positions the sweep comes to. -/
theorem exists_position_le (ahead : start ≤ x) :
    ∃ n, position len start n ≤ x ∧ x < next len (position len start n) := by
  have passed : ∃ n, x < position len start (n + 1) :=
    ⟨x, Nat.lt_of_succ_le ((position_strictMono _ positive).le_apply)⟩
  classical
  refine ⟨Nat.find passed, ?_, position_succ ▸ Nat.find_spec passed⟩
  cases steps : Nat.find passed with
  | zero => exact ahead
  | succ k => exact Nat.not_lt.mp (Nat.find_min passed (steps ▸ Nat.lt_succ_self k))

/-- Every position ahead lies in an item, or the sweep comes to it and there is none. -/
theorem exists_contains_or_missing (ahead : start ≤ x) :
    (∃ n, Contains len start n x) ∨ ∃ n, position len start n = x ∧ len x = none := by
  obtain ⟨n, lower, upper⟩ := exists_position_le positive ahead
  rw [next] at upper
  cases item : len (position len start n) with
  | some l =>
    rw [item] at upper
    exact .inl ⟨n, l, item, lower, upper⟩
  | none =>
    rw [item] at upper
    have here : position len start n = x := le_antisymm lower (Nat.lt_succ_iff.mp upper)
    exact .inr ⟨n, here, here ▸ item⟩

/-- The items a sweep comes to have no position in common. -/
theorem Contains.unique (first : Contains len start n x) (second : Contains len start m x) :
    n = m := by
  obtain ⟨-, -, lower, -⟩ := id first
  obtain ⟨-, -, lower', -⟩ := id second
  rcases lt_trichotomy n m with before | same | behind
  · have apart := next_le_position start positive before
    have inside := first.lt_next
    omega
  · exact same
  · have apart := next_le_position start positive behind
    have inside := second.lt_next
    omega

/-- A position without an item that the sweep comes to lies in no item. -/
theorem Contains.not_missing (contains : Contains len start n x)
    (here : position len start m = x) : len x ≠ none := by
  intro missing
  obtain ⟨l, item, lower, -⟩ := id contains
  rcases lt_trichotomy n m with before | rfl | behind
  · have apart := next_le_position start positive before
    have inside := contains.lt_next
    omega
  · rw [here, missing] at item
    cases item
  · have later := position_strictMono start positive behind
    omega

end Positive

end LinearSweep
