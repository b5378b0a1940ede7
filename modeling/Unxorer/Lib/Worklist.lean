import Mathlib

/-!
# Worklists that take every item once

Items are offered to a worklist in any order and any number of times. An item that was
offered before is dropped; a new one is remembered, and pushed onto a stack if it is
admissible. Between offers items are taken from the stack. A worklist carries its own
history.

## Main definitions

* `Worklist` — a stack, the items seen, and the history
* `Worklist.offer`, `Worklist.take` — the two operations
* `Worklist.Sound` — the invariant that links them
* `Worklist.Stacked` — the order of the stack

## Main results

* `Worklist.Sound.offer`, `Worklist.Sound.take` — the operations keep the invariant
* `Worklist.Sound.count_taken` — once the stack is empty, every admissible item that was
  offered has been taken exactly once
* `Worklist.Sound.length_taken` — and their number is the number of takes
* `Worklist.Stacked.find?_pushed` — the item taken is the one pushed last among those waiting
-/

set_option autoImplicit false

/-- A stack of pending items, the items seen so far, and what has been offered, pushed
and taken, latest first. -/
structure Worklist (α : Type*) where
  pending : List α
  visited : Finset α
  offered : List α
  pushed : List α
  taken : List α

namespace Worklist

variable {α : Type*}

def empty : Worklist α := ⟨[], ∅, [], [], []⟩

/-- An item is offered. -/
def offer [DecidableEq α] (admissible : α → Prop) [DecidablePred admissible] (w : Worklist α)
    (k : α) : Worklist α :=
  let w := { w with offered := k :: w.offered }
  if k ∈ w.visited then w
  else if admissible k then
    { w with
      pending := k :: w.pending
      visited := insert k w.visited
      pushed := k :: w.pushed }
  else { w with visited := insert k w.visited }

/-- The top of the stack is taken. -/
def take (w : Worklist α) : Option (α × Worklist α) :=
  match w.pending with
  | [] => none
  | k :: rest => some (k, { w with pending := rest, taken := k :: w.taken })

/-- What is taken was the top of the stack. -/
theorem take_eq_some {w w' : Worklist α} {k : α} (taken : w.take = some (k, w')) :
    w.pending = k :: w'.pending ∧ w' = { w with
      pending := w'.pending
      taken := k :: w.taken } := by
  rw [take] at taken
  split at taken
  · cases taken
  · rename_i top rest stack
    cases taken
    exact ⟨stack, rfl⟩

/-- The items seen are those offered, the items pushed are the admissible ones among them,
each pushed once, and each is pending or taken. -/
structure Sound (admissible : α → Prop) (w : Worklist α) : Prop where
  mem_visited : ∀ k, k ∈ w.visited ↔ k ∈ w.offered
  mem_pushed : ∀ k, k ∈ w.pushed ↔ k ∈ w.offered ∧ admissible k
  nodup : w.pushed.Nodup
  perm : w.pushed.Perm (w.pending ++ w.taken)

namespace Sound

variable {admissible : α → Prop} {w : Worklist α}

theorem empty : Sound admissible (Worklist.empty : Worklist α) where
  mem_visited k := by simp [Worklist.empty]
  mem_pushed k := by simp [Worklist.empty]
  nodup := List.nodup_nil
  perm := .refl _

/-- Taking an item keeps the invariant. -/
theorem take (sound : Sound admissible w) {k : α} {w' : Worklist α}
    (taken : w.take = some (k, w')) : Sound admissible w' := by
  obtain ⟨stack, same⟩ := take_eq_some taken
  rw [same]
  refine ⟨sound.mem_visited, sound.mem_pushed, sound.nodup, ?_⟩
  have perm := sound.perm
  rw [stack, List.cons_append] at perm
  exact perm.trans List.perm_middle.symm

theorem nodup_taken (sound : Sound admissible w) : w.taken.Nodup :=
  ((sound.perm.nodup_iff.mp sound.nodup).sublist (List.sublist_append_right _ _))

/-- What is taken was offered and is admissible. -/
theorem of_mem_taken (sound : Sound admissible w) {k : α} (taken : k ∈ w.taken) :
    k ∈ w.offered ∧ admissible k :=
  (sound.mem_pushed k).mp (sound.perm.mem_iff.mpr (List.mem_append_right _ taken))

/-- Once the stack is empty, every admissible item that was offered has been taken. -/
theorem mem_taken (sound : Sound admissible w) (done : w.pending = []) {k : α}
    (offered : k ∈ w.offered) (good : admissible k) : k ∈ w.taken := by
  have pushed := sound.perm.mem_iff.mp ((sound.mem_pushed k).mpr ⟨offered, good⟩)
  rwa [done, List.nil_append] at pushed

section Counting

variable [DecidableEq α]

/-- Once the stack is empty, every admissible item that was offered has been taken once. -/
theorem count_taken (sound : Sound admissible w) (done : w.pending = []) {k : α}
    (offered : k ∈ w.offered) (good : admissible k) : w.taken.count k = 1 :=
  List.count_eq_one_of_mem sound.nodup_taken (sound.mem_taken done offered good)

variable [DecidablePred admissible]

/-- An offer keeps the invariant, whatever becomes of the item. -/
theorem offer (sound : Sound admissible w) (k : α) : Sound admissible (w.offer admissible k) := by
  rw [Worklist.offer]
  by_cases seen : k ∈ w.visited
  · have offered : k ∈ w.offered := (sound.mem_visited k).mp seen
    simp only [seen, if_true]
    -- The item was offered before, so the history only gets longer.
    refine ⟨?_, ?_, sound.nodup, sound.perm⟩
    · intro l
      rw [sound.mem_visited, List.mem_cons]
      exact ⟨.inr, fun h => h.elim (fun same => same ▸ offered) id⟩
    · intro l
      rw [sound.mem_pushed, List.mem_cons]
      exact and_congr_left fun _ => ⟨.inr, fun h => h.elim (fun same => same ▸ offered) id⟩
  · have fresh : k ∉ w.offered := fun offered => seen ((sound.mem_visited k).mpr offered)
    have visited : ∀ l, l ∈ insert k w.visited ↔ l ∈ k :: w.offered := fun l => by
      rw [Finset.mem_insert, List.mem_cons, sound.mem_visited]
    by_cases good : admissible k
    · simp only [seen, if_false, good, if_true]
      refine ⟨visited, ?_, ?_, sound.perm.cons k⟩
      · intro l
        rw [List.mem_cons, List.mem_cons, sound.mem_pushed, or_and_right]
        refine or_congr_left ⟨fun same => ⟨same, same ▸ good⟩, And.left⟩
      -- Whatever was pushed was offered, and this item was not.
      · exact List.nodup_cons.mpr ⟨fun pushed => fresh ((sound.mem_pushed k).mp pushed).1,
          sound.nodup⟩
    · simp only [seen, if_false, good]
      refine ⟨visited, ?_, sound.nodup, sound.perm⟩
      intro l
      rw [sound.mem_pushed, List.mem_cons, or_and_right]
      exact ⟨.inr, fun h => h.elim (fun same => absurd (same.1 ▸ same.2) good) id⟩

/-- There are no more takes than admissible items among those offered. -/
theorem length_taken_le (sound : Sound admissible w) :
    w.taken.length ≤ (w.offered.toFinset.filter admissible).card := by
  rw [← List.toFinset_card_of_nodup sound.nodup_taken]
  apply Finset.card_le_card
  intro k taken
  have offered := sound.of_mem_taken (List.mem_toFinset.mp taken)
  exact Finset.mem_filter.mpr ⟨List.mem_toFinset.mpr offered.1, offered.2⟩

/-- Once the stack is empty, as many items have been taken as admissible ones were offered. -/
theorem length_taken (sound : Sound admissible w) (done : w.pending = []) :
    w.taken.length = (w.offered.toFinset.filter admissible).card := by
  refine le_antisymm sound.length_taken_le ?_
  rw [← List.toFinset_card_of_nodup sound.nodup_taken]
  apply Finset.card_le_card
  intro k offered
  obtain ⟨mem, good⟩ := Finset.mem_filter.mp offered
  exact List.mem_toFinset.mpr (sound.mem_taken done (List.mem_toFinset.mp mem) good)

end Counting

end Sound

/-! ### The order of takes -/

section Order

variable [DecidableEq α]

/-- The stack holds the items pushed and not taken, latest first. -/
structure Stacked (w : Worklist α) : Prop where
  pending : w.pending = w.pushed.filter (· ∉ w.taken)
  nodup : w.pushed.Nodup
  visited : ∀ k ∈ w.pushed, k ∈ w.visited
  taken : ∀ k ∈ w.taken, k ∈ w.pushed
  once : w.taken.Nodup

namespace Stacked

variable {w : Worklist α}

theorem empty : Stacked (Worklist.empty : Worklist α) :=
  ⟨rfl, List.nodup_nil, fun _ mem => absurd mem List.not_mem_nil,
    fun _ mem => absurd mem List.not_mem_nil, List.nodup_nil⟩

/-- An item that is seen and not pushed. -/
theorem drop (stacked : Stacked w) (k : α) :
    Stacked { w with offered := k :: w.offered, visited := insert k w.visited } :=
  ⟨stacked.pending, stacked.nodup,
    fun l pushed => Finset.mem_insert_of_mem (stacked.visited l pushed), stacked.taken,
    stacked.once⟩

/-- An offer keeps the order of the stack, whatever becomes of the item. -/
theorem offer {admissible : α → Prop} [DecidablePred admissible] (stacked : Stacked w) (k : α) :
    Stacked (w.offer admissible k) := by
  rw [Worklist.offer]
  by_cases seen : k ∈ w.visited
  · simp only [seen, if_true]
    exact ⟨stacked.pending, stacked.nodup, stacked.visited, stacked.taken, stacked.once⟩
  by_cases good : admissible k
  · simp only [seen, if_false, good, if_true]
    have fresh : k ∉ w.pushed := fun pushed => seen (stacked.visited k pushed)
    have waiting : k ∉ w.taken := fun taken => fresh (stacked.taken k taken)
    refine ⟨?_, List.nodup_cons.mpr ⟨fresh, stacked.nodup⟩, ?_, ?_, stacked.once⟩
    · change k :: w.pending = (k :: w.pushed).filter (· ∉ w.taken)
      rw [stacked.pending]
      exact (List.filter_cons_of_pos (p := (· ∉ w.taken)) (decide_eq_true waiting)).symm
    · intro l pushed
      rcases List.mem_cons.mp pushed with rfl | pushed
      · exact Finset.mem_insert_self l _
      · exact Finset.mem_insert_of_mem (stacked.visited l pushed)
    · exact fun l taken => List.mem_cons_of_mem k (stacked.taken l taken)
  · simp only [seen, if_false, good]
    exact stacked.drop k

/-- Taking the top of the stack keeps its order. -/
theorem take (stacked : Stacked w) {k : α} {w' : Worklist α} (taken : w.take = some (k, w')) :
    Stacked w' := by
  obtain ⟨stack, same⟩ := take_eq_some taken
  rw [same]
  generalize w'.pending = rest at stack ⊢
  have waiting := stacked.pending
  rw [stack] at waiting
  -- The item occurs once among those that wait, so the others wait still.
  have once : (k :: rest).Nodup := waiting ▸ stacked.nodup.filter _
  have first : k ∈ w.pushed.filter (· ∉ w.taken) := waiting ▸ List.mem_cons_self
  refine ⟨?_, stacked.nodup, stacked.visited, ?_, ?_⟩
  · have others : rest = (k :: rest).filter (· ≠ k) := by
      rw [List.filter_cons_of_neg (by simp), List.filter_eq_self.mpr]
      intro l mem
      exact decide_eq_true fun same => (List.nodup_cons.mp once).1 (same ▸ mem)
    calc rest = (k :: rest).filter (· ≠ k) := others
      _ = (w.pushed.filter (· ∉ w.taken)).filter (· ≠ k) := by rw [waiting]
      _ = w.pushed.filter (· ∉ k :: w.taken) := by
        rw [List.filter_filter]
        refine List.filter_congr fun l _ => ?_
        simp [not_or]
  · intro l mem
    rcases List.mem_cons.mp mem with rfl | mem
    · exact List.mem_of_mem_filter first
    · exact stacked.taken l mem
  · exact List.nodup_cons.mpr ⟨of_decide_eq_true (List.mem_filter.mp first).2, stacked.once⟩

/-- There are no more takes than items seen. -/
theorem length_taken_le (stacked : Stacked w) : w.taken.length ≤ w.visited.card := by
  rw [← List.toFinset_card_of_nodup stacked.once]
  apply Finset.card_le_card
  intro k taken
  exact stacked.visited k (stacked.taken k (List.mem_toFinset.mp taken))

/-- What is taken is the item pushed last among those not taken before. -/
theorem find?_pushed (stacked : Stacked w) {k : α} {w' : Worklist α}
    (taken : w.take = some (k, w')) : w.pushed.find? (· ∉ w.taken) = some k := by
  rw [← List.head?_filter, ← stacked.pending, (take_eq_some taken).1, List.head?_cons]

end Stacked

end Order

end Worklist
