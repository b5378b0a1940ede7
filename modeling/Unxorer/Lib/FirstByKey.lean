import Mathlib

/-!
# Sets that keep the first element for each key

An insertion into such a set changes nothing if an element with the same key is there.
What is in the set after a sequence of insertions is the first element of the sequence
for each key that occurs in it.

## Main definitions

* `FirstByKey.insert` — insertion
* `FirstByKey.Collects` — a set holds the first elements of a sequence

## Main results

* `FirstByKey.Collects.snoc` — insertion of the next element of the sequence
-/

set_option autoImplicit false

namespace FirstByKey

variable {α κ : Type*} [DecidableEq κ] {key : α → κ}

/-- The set with an element added, unless there is one with its key. -/
def insert (key : α → κ) (set : List α) (x : α) : List α :=
  if key x ∈ set.map key then set else set ++ [x]

/-- The set holds, for each key in the sequence, the first element that has it. -/
structure Collects (key : α → κ) (xs set : List α) : Prop where
  nodup : (set.map key).Nodup
  complete : ∀ x ∈ xs, key x ∈ set.map key
  first : ∀ s ∈ set, xs.find? (fun x => key x = key s) = some s

theorem Collects.nil : Collects key [] [] where
  nodup := List.nodup_nil
  complete _ member := absurd member List.not_mem_nil
  first _ member := absurd member List.not_mem_nil

namespace Collects

variable {xs set : List α}

/-- The set has no keys but those of the sequence. -/
theorem mem_of_mem (collects : Collects key xs set) {s : α} (member : s ∈ set) : s ∈ xs :=
  List.mem_of_find?_eq_some (collects.first s member)

theorem key_mem_iff (collects : Collects key xs set) (k : κ) :
    k ∈ set.map key ↔ k ∈ xs.map key := by
  constructor
  · intro member
    obtain ⟨s, inSet, rfl⟩ := List.mem_map.mp member
    exact List.mem_map_of_mem (collects.mem_of_mem inSet)
  · intro member
    obtain ⟨x, inSequence, rfl⟩ := List.mem_map.mp member
    exact collects.complete x inSequence

/-- Inserting the next element of the sequence keeps the set up with it. -/
theorem snoc (collects : Collects key xs set) (x : α) :
    Collects key (xs ++ [x]) (insert key set x) := by
  rw [insert]
  by_cases known : key x ∈ set.map key
  · rw [if_pos known]
    refine ⟨collects.nodup, ?_, ?_⟩
    · intro y member
      rcases List.mem_append.mp member with old | new
      · exact collects.complete y old
      · rwa [List.mem_singleton.mp new]
    · intro s member
      rw [List.find?_append, collects.first s member, Option.some_or]
  · rw [if_neg known]
    refine ⟨?_, ?_, ?_⟩
    · rw [List.map_append]
      apply List.nodup_append.mpr
      refine ⟨collects.nodup, List.nodup_singleton _, ?_⟩
      intro k old k' new equal
      rw [List.map_singleton, List.mem_singleton] at new
      exact known (new ▸ equal ▸ old)
    · intro y member
      rw [List.map_append, List.mem_append]
      rcases List.mem_append.mp member with old | new
      · exact .inl (collects.complete y old)
      · rw [List.mem_singleton.mp new]
        exact .inr List.mem_cons_self
    · intro s member
      rw [List.find?_append]
      rcases List.mem_append.mp member with old | new
      · rw [collects.first s old, Option.some_or]
      · -- No earlier element has the key, so the new one is the first.
        rw [List.mem_singleton.mp new]
        have none : xs.find? (fun y => key y = key x) = none := by
          apply List.find?_eq_none.mpr
          intro y earlier
          rw [decide_eq_true_eq]
          intro same
          exact known (same ▸ collects.complete y earlier)
        rw [none, Option.none_or, List.find?_singleton, decide_eq_true rfl, if_pos rfl]

end Collects

end FirstByKey
