import Mathlib

/-!
# Bump arenas

A bump arena hands out consecutive blocks between two bounds and takes none of them back
until it is emptied as a whole. A block may reserve more than was asked for. Bounds and
lengths are natural numbers, so the arena has no arithmetic to go wrong.

## Main definitions

* `BumpArena.State`, `BumpArena.Step` — the arena and its two operations
* `BumpArena.Sound` — cursor in bounds, blocks inside, aligned and disjoint

## Main results

* `BumpArena.Sound.reachable` — every state reached from an empty arena is sound
-/

set_option autoImplicit false

namespace BumpArena

/-- A block of an arena: where it starts and how many bytes were asked for. -/
structure Block where
  start : ℕ
  length : ℕ
deriving DecidableEq

/-- No byte lies in both blocks. -/
def Block.Disjoint (a b : Block) : Prop :=
  a.start + a.length ≤ b.start ∨ b.start + b.length ≤ a.start

/-- The cursor and the blocks handed out since the arena was last empty. -/
structure State where
  cursor : ℕ
  blocks : List Block

/-- The empty arena. -/
def State.initial (base : ℕ) : State := ⟨base, []⟩

variable {base limit align : ℕ} {s t : State}

/-- A block is served at the cursor, or the arena is emptied. -/
inductive Step (base limit align : ℕ) : State → State → Prop
  | serve {s : State} (length reserved : ℕ) (covers : length ≤ reserved)
      (multiple : align ∣ reserved) (room : s.cursor + reserved ≤ limit) :
      Step base limit align s ⟨s.cursor + reserved, ⟨s.cursor, length⟩ :: s.blocks⟩
  | empty {s : State} : Step base limit align s (.initial base)

/-- What holds of an arena between its operations. -/
structure Sound (base limit align : ℕ) (s : State) : Prop where
  lower : base ≤ s.cursor
  upper : s.cursor ≤ limit
  aligned : align ∣ s.cursor - base
  inside : ∀ b ∈ s.blocks, base ≤ b.start ∧ b.start + b.length ≤ s.cursor ∧
    align ∣ b.start - base
  disjoint : s.blocks.Pairwise Block.Disjoint

theorem Sound.initial (nonempty : base ≤ limit) : Sound base limit align (.initial base) where
  lower := le_rfl
  upper := nonempty
  aligned := by simp [State.initial]
  inside := by simp [State.initial]
  disjoint := .nil

/-- Both operations keep the arena sound: a new block starts where all others have ended. -/
theorem Sound.step (sound : Sound base limit align s) (step : Step base limit align s t) :
    Sound base limit align t := by
  obtain ⟨lower, upper, aligned, inside, disjoint⟩ := sound
  cases step with
  | serve length reserved covers multiple room =>
    refine ⟨?_, room, ?_, ?_, ?_⟩
    · exact lower.trans (Nat.le_add_right _ _)
    -- Only whole multiples of the alignment are reserved.
    · change align ∣ s.cursor + reserved - base
      rw [Nat.sub_add_comm lower]
      exact Nat.dvd_add aligned multiple
    · intro b member
      rcases List.mem_cons.mp member with rfl | old
      · exact ⟨lower, Nat.add_le_add_left covers _, aligned⟩
      · obtain ⟨above, below, multiple⟩ := inside b old
        exact ⟨above, below.trans (Nat.le_add_right _ _), multiple⟩
    · refine List.pairwise_cons.mpr ⟨?_, disjoint⟩
      intro b old
      -- An older block ends below the old cursor, where the new one starts.
      exact .inr (inside b old).2.1
  | empty => exact .initial (lower.trans upper)

/-- An arena is as sound when its latest block is not counted. -/
theorem Sound.tail {cursor : ℕ} {b : Block} {bs : List Block}
    (sound : Sound base limit align ⟨cursor, b :: bs⟩) : Sound base limit align ⟨cursor, bs⟩ where
  lower := sound.lower
  upper := sound.upper
  aligned := sound.aligned
  inside a member := sound.inside a (List.mem_cons_of_mem b member)
  disjoint := (List.pairwise_cons.mp sound.disjoint).2

/-- Every state reached from a sound one is sound. -/
theorem Sound.reachable (sound : Sound base limit align s)
    (steps : Relation.ReflTransGen (Step base limit align) s t) : Sound base limit align t := by
  induction steps with
  | refl => exact sound
  | tail _ last ih => exact ih.step last

end BumpArena
