import Mathlib

/-!
# Counters with an allowance

A counter is increased at each use of something, and a use at which it reaches the
allowance of that use is refused and sets it back. The allowances may differ from use to
use. A history of uses is the list of their allowances, latest first.

## Main definitions

* `HitCounter.hits` — the counter after a history
* `HitCounter.Refused` — a use is refused after a history

## Main results

* `HitCounter.hits_lt` — the counter stays below the last allowance
* `HitCounter.exists_refused` — among enough consecutive uses there is a refused one
* `HitCounter.hits_succ_eq_of_refused` — with allowances that do not decrease, the count at
  a refused use is its allowance
-/

set_option autoImplicit false

namespace HitCounter

/-- The counter after a history. -/
def hits : List ℕ → ℕ
  | [] => 0
  | allowance :: past => if allowance ≤ hits past + 1 then 0 else hits past + 1

/-- A use with this allowance is refused after a history. -/
def Refused (allowance : ℕ) (past : List ℕ) : Prop := allowance ≤ hits past + 1

variable {allowance bound : ℕ} {past window : List ℕ}

theorem hits_cons_of_refused (refused : Refused allowance past) : hits (allowance :: past) = 0 :=
  if_pos refused

theorem hits_cons_of_not_refused (passed : ¬ Refused allowance past) :
    hits (allowance :: past) = hits past + 1 :=
  if_neg passed

/-- The counter stays below the last allowance. -/
theorem hits_lt (past : List ℕ) (positive : 0 < allowance) :
    hits (allowance :: past) < allowance := by
  by_cases refused : Refused allowance past
  · rwa [hits_cons_of_refused refused]
  · rw [hits_cons_of_not_refused refused]
    exact Nat.lt_of_not_le refused

/-- Uses of which none is refused are all counted. -/
theorem length_le_hits (window : List ℕ)
    (passed : ∀ later allowance earlier, window = later ++ allowance :: earlier →
      ¬ Refused allowance (earlier ++ past)) :
    window.length ≤ hits (window ++ past) := by
  induction window with
  | nil => exact Nat.zero_le _
  | cons allowance earlier ih =>
    have counted := ih fun later a rest split =>
      passed (allowance :: later) a rest (by rw [split]; rfl)
    rw [List.cons_append, hits_cons_of_not_refused (passed [] allowance earlier rfl),
      List.length_cons]
    omega

/-- Among as many consecutive uses as the largest of their allowances one is refused. -/
theorem exists_refused (past : List ℕ) (positive : 0 < bound)
    (bounded : ∀ allowance ∈ window, allowance ≤ bound) (long : bound ≤ window.length) :
    ∃ later allowance earlier, window = later ++ allowance :: earlier ∧
      Refused allowance (earlier ++ past) := by
  by_contra none
  have passed : ∀ later allowance earlier, window = later ++ allowance :: earlier →
      ¬ Refused allowance (earlier ++ past) := by
    intro later allowance earlier split refused
    exact none ⟨later, allowance, earlier, split, refused⟩
  cases window with
  | nil => exact absurd long (Nat.not_le.mpr positive)
  | cons allowance earlier =>
    -- The last use was not refused, so the counter has not reached its allowance.
    have counted := length_le_hits (allowance :: earlier) passed
    have last := passed [] allowance earlier rfl
    rw [List.cons_append, hits_cons_of_not_refused last] at counted
    have small := bounded allowance List.mem_cons_self
    rw [Refused] at last
    omega

/-- With allowances that do not decrease the count at a refused use is its allowance. -/
theorem hits_succ_eq_of_refused (positive : ∀ a ∈ allowance :: past, 0 < a)
    (grows : ∀ a ∈ past.head?, a ≤ allowance) (refused : Refused allowance past) :
    hits past + 1 = allowance := by
  apply le_antisymm
  · cases past with
    | nil => exact positive allowance List.mem_cons_self
    | cons earlier rest =>
      have below := hits_lt rest (positive earlier (by simp))
      exact le_trans below (grows earlier rfl)
  · exact refused

end HitCounter
