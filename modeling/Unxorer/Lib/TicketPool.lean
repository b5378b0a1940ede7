import Mathlib

/-!
# Tickets from a shared counter

Workers draw tickets from a counter, one after the other, and hand each ticket in when they
are done with it. The counter may run past the last ticket. Each ticket is drawn and handed in
at most once, and exactly once if the counter has run past it and nobody holds it any more.

## Main definitions

* `TicketPool.Pool` — the counter, the tickets in the workers' hands and those handed in
* `TicketPool.Pool.Sound` — each ticket that was drawn is in one place

## Main results

* `TicketPool.Pool.Sound.take`, `finish`, `overrun` — what a worker does keeps a pool sound
* `TicketPool.Pool.Sound.perm_range` — an exhausted pool has every ticket back
-/

set_option autoImplicit false

namespace TicketPool

variable {W : Type*}

/-- The counter, the ticket each worker holds, and the tickets handed in, latest first. -/
structure Pool (W : Type*) where
  next : ℕ
  holds : W → Option ℕ
  done : List ℕ

variable [Fintype W]

/-- How many workers hold a ticket. -/
def held (holds : W → Option ℕ) (i : ℕ) : ℕ := ∑ w, if holds w = some i then 1 else 0

/-- A ticket that was drawn is held by one worker or was handed in once, and no other ticket
is anywhere. -/
def Pool.Sound (total : ℕ) (p : Pool W) : Prop :=
  ∀ i, p.done.count i + held p.holds i = if i < p.next ∧ i < total then 1 else 0

theorem held_eq_zero {holds : W → Option ℕ} (free : ∀ w, holds w = none) (i : ℕ) :
    held holds i = 0 := by
  apply Finset.sum_eq_zero
  intro w _
  rw [free w]
  rfl

namespace Pool.Sound

variable {total : ℕ} {p : Pool W} {w : W} {i : ℕ}

theorem initial : (⟨0, fun _ => none, []⟩ : Pool W).Sound total := by
  intro i
  rw [held_eq_zero fun _ => rfl]
  simp

/-- Beyond the last ticket the counter moves and nothing else. -/
theorem overrun (sound : p.Sound total) (above : total ≤ p.next) :
    (⟨p.next + 1, p.holds, p.done⟩ : Pool W).Sound total := by
  intro i
  have same : (i < p.next + 1 ∧ i < total) ↔ (i < p.next ∧ i < total) := by omega
  simp only [same]
  exact sound i

/-- No ticket is handed in twice. -/
theorem nodup (sound : p.Sound total) : p.done.Nodup := by
  rw [List.nodup_iff_count_le_one]
  intro i
  have place := sound i
  split_ifs at place <;> omega

theorem lt_total (sound : p.Sound total) (member : i ∈ p.done) : i < total := by
  have place := sound i
  have present := List.count_pos_iff.mpr member
  by_contra outside
  rw [if_neg fun inside => outside inside.2] at place
  omega

theorem length_le (sound : p.Sound total) : p.done.length ≤ total := by
  have inside : p.done ⊆ List.range total :=
    fun i member => List.mem_range.mpr (sound.lt_total member)
  have bound := (sound.nodup.subperm inside).length_le
  rwa [List.length_range] at bound

/-- When the counter has passed every ticket and no worker holds one, all are handed in. -/
theorem perm_range (sound : p.Sound total) (free : ∀ w, p.holds w = none)
    (exhausted : total ≤ p.next) : p.done.Perm (List.range total) := by
  apply List.perm_iff_count.mpr
  intro i
  have place := sound i
  have same : (i < p.next ∧ i < total) ↔ i < total := by omega
  rw [held_eq_zero free, Nat.add_zero] at place
  rw [place, List.nodup_range.count]
  simp only [List.mem_range, same]

end Pool.Sound

section Moves

variable [DecidableEq W]

/-- A worker that changes its ticket gives up the old one and gains the new one. -/
theorem held_update (holds : W → Option ℕ) (w : W) (ticket : Option ℕ) (i : ℕ) :
    held (Function.update holds w ticket) i + (if holds w = some i then 1 else 0) =
      held holds i + if ticket = some i then 1 else 0 := by
  have others : ∑ v ∈ Finset.univ.erase w,
      (if Function.update holds w ticket v = some i then 1 else 0) =
      ∑ v ∈ Finset.univ.erase w, if holds v = some i then 1 else 0 := by
    apply Finset.sum_congr rfl
    intro v member
    rw [Function.update_of_ne (Finset.ne_of_mem_erase member)]
  rw [held, held, ← Finset.add_sum_erase _ _ (Finset.mem_univ w),
    ← Finset.add_sum_erase _ (fun v => if holds v = some i then 1 else 0) (Finset.mem_univ w),
    others, Function.update_self]
  omega

namespace Pool.Sound

variable {total : ℕ} {p : Pool W} {w : W} {i : ℕ}

/-- A worker without a ticket draws the next one. -/
theorem take (sound : p.Sound total) (free : p.holds w = none) (below : p.next < total) :
    (⟨p.next + 1, Function.update p.holds w (some p.next), p.done⟩ : Pool W).Sound total := by
  intro i
  have before := sound i
  have moved := held_update p.holds w (some p.next) i
  simp only [free, reduceCtorEq, if_false, Option.some.injEq] at moved
  change p.done.count i + held (Function.update p.holds w (some p.next)) i =
    if i < p.next + 1 ∧ i < total then 1 else 0
  -- Nobody has seen the ticket before, and no other ticket changes its place.
  by_cases drawn : p.next = i
  · subst drawn
    rw [if_neg fun inside => lt_irrefl _ inside.1] at before
    rw [if_pos rfl] at moved
    rw [if_pos ⟨Nat.lt_succ_self _, below⟩]
    omega
  · have same : (i < p.next + 1 ∧ i < total) ↔ (i < p.next ∧ i < total) := by omega
    rw [if_neg drawn] at moved
    simp only [same]
    omega

/-- A worker hands in the ticket it holds. -/
theorem finish (sound : p.Sound total) (holding : p.holds w = some i) :
    (⟨p.next, Function.update p.holds w none, i :: p.done⟩ : Pool W).Sound total := by
  intro j
  have before := sound j
  have moved := held_update p.holds w none j
  simp only [holding, reduceCtorEq, if_false, Option.some.injEq] at moved
  change (i :: p.done).count j + held (Function.update p.holds w none) j =
    if j < p.next ∧ j < total then 1 else 0
  rw [List.count_cons]
  simp only [beq_iff_eq]
  omega

end Pool.Sound

end Moves

end TicketPool
