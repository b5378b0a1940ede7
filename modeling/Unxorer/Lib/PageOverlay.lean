import Mathlib

/-!
# Pages over a fixed core

An address space in which a fixed core is always present and pages are added to it one by
one, up to a capacity, until all of them are taken away at once. What is present and the
list of added pages are kept apart, as a system keeps its memory and its records of it.

## Main definitions

* `PageOverlay.State`, `PageOverlay.Step` — the address space and its two operations
* `PageOverlay.Sound` — the list of pages describes what is present beyond the core

## Main results

* `PageOverlay.Sound.reachable` — every state reached from a sound one is sound
* `PageOverlay.Sound.present_clear` — without its pages the space is the core
-/

set_option autoImplicit false

namespace PageOverlay

variable {α β : Type*}

/-- The addresses that are present and the pages that were added. -/
structure State (α β : Type*) where
  present : Set α
  pages : List β

/-- The space after its pages are taken away. -/
def State.clear (pageOf : α → β) (s : State α β) : State α β :=
  ⟨s.present \ {x | pageOf x ∈ s.pages}, []⟩

/-- A page of which nothing is present is added, or all pages are taken away. -/
inductive Step (pageOf : α → β) (capacity : ℕ) : State α β → State α β → Prop
  | add {s : State α β} (p : β) (room : s.pages.length < capacity) (page : p ∈ Set.range pageOf)
      (free : ∀ x ∈ s.present, pageOf x ≠ p) :
      Step pageOf capacity s ⟨s.present ∪ {x | pageOf x = p}, s.pages ++ [p]⟩
  | clear {s : State α β} : Step pageOf capacity s (s.clear pageOf)

/-- The list of pages is a record of what is present beyond the core. -/
structure Sound (pageOf : α → β) (capacity : ℕ) (core : Set α) (s : State α β) : Prop where
  range : ∀ p ∈ s.pages, p ∈ Set.range pageOf
  nodup : s.pages.Nodup
  bounded : s.pages.length ≤ capacity
  apart : ∀ x ∈ core, pageOf x ∉ s.pages
  present : ∀ x, x ∈ s.present ↔ x ∈ core ∨ pageOf x ∈ s.pages

variable {pageOf : α → β} {capacity : ℕ} {core : Set α} {s t : State α β}

theorem Sound.initial (pageOf : α → β) (capacity : ℕ) (core : Set α) :
    Sound pageOf capacity core ⟨core, []⟩ where
  range _ member := absurd member List.not_mem_nil
  nodup := List.nodup_nil
  bounded := Nat.zero_le _
  apart _ _ := List.not_mem_nil
  present x := by simp

theorem Sound.present_clear (sound : Sound pageOf capacity core s) :
    (s.clear pageOf).present = core := by
  ext x
  simp only [State.clear, Set.mem_sdiff, Set.mem_ofPred_eq, sound.present x]
  constructor
  · rintro ⟨inside | added, removed⟩
    · exact inside
    · exact absurd added removed
  · intro inside
    exact ⟨.inl inside, sound.apart x inside⟩

/-- Both operations keep the record. -/
theorem Sound.step (sound : Sound pageOf capacity core s) (step : Step pageOf capacity s t) :
    Sound pageOf capacity core t := by
  cases step with
  | add p room page free =>
    -- A page on the list has an address, and that address is present.
    have fresh : p ∉ s.pages := by
      intro listed
      obtain ⟨x, rfl⟩ := page
      exact free x ((sound.present x).mpr (.inr listed)) rfl
    refine ⟨?_, ?_, ?_, ?_, ?_⟩
    · intro q member
      rcases List.mem_append.mp member with old | new
      · exact sound.range q old
      · rwa [List.mem_singleton.mp new]
    · apply List.nodup_append.mpr
      refine ⟨sound.nodup, List.nodup_singleton p, ?_⟩
      intro q old q' new equal
      rw [List.mem_singleton.mp new] at equal
      exact fresh (equal ▸ old)
    · rw [List.length_append, List.length_singleton]
      exact room
    · intro x inside member
      rcases List.mem_append.mp member with old | new
      · exact sound.apart x inside old
      · exact free x ((sound.present x).mpr (.inl inside)) (List.mem_singleton.mp new)
    · intro x
      rw [Set.mem_union, sound.present x, List.mem_append, List.mem_singleton, Set.mem_ofPred_eq]
      exact or_assoc
  | clear =>
    rw [show s.clear pageOf = ⟨core, []⟩ from
      congrArg (fun present => State.mk present []) sound.present_clear]
    exact .initial pageOf capacity core

/-- Every state reached from a sound one is sound. -/
theorem Sound.reachable (sound : Sound pageOf capacity core s)
    (steps : Relation.ReflTransGen (Step pageOf capacity) s t) :
    Sound pageOf capacity core t := by
  induction steps with
  | refl => exact sound
  | tail _ last ih => exact ih.step last

end PageOverlay
