import Unxorer.Heap.FakeHeap
import Unxorer.Machine.HostWrites

/-!
# The place of the arena

The arena goes behind the image, on the next multiple of 64 KiB. If it would reach into the
stack there it goes behind the stack instead, and the place found then is not looked at again.

## Main definitions

* `FakeHeap.alignUp` — the next multiple of 64 KiB, without wrapping
* `FakeHeap.Placement` — a base is apart from the image and the stack

## Main results

* `FakeHeap.computeBase_cases` — the two places `compute_base` chooses from
* `FakeHeap.placement_computeBase` — the place it chooses is apart from both
-/

set_option autoImplicit false

namespace Unxorer.FakeHeap

/-! ### Alignment -/

def alignUp (n : ℕ) : ℕ := (n + 0xFFFF) / 0x10000 * 0x10000

theorem le_alignUp (n : ℕ) : n ≤ alignUp n := by
  unfold alignUp
  omega

theorem alignUp_mod (n : ℕ) : alignUp n % 0x10000 = 0 := Nat.mul_mod_left _ _

/-- A multiple of 64 KiB is not passed over. -/
theorem alignUp_le {n m : ℕ} (le : n ≤ 0x10000 * m) : alignUp n ≤ 0x10000 * m := by
  unfold alignUp
  omega

theorem alignUp_le_top {n : ℕ} (le : n ≤ 2 ^ 64 - 2 ^ 25) : alignUp n ≤ 2 ^ 64 - 2 ^ 25 :=
  alignUp_le (m := (2 ^ 64 - 2 ^ 25) / 0x10000) le

/-- The alignment of `compute_base`, where it does not wrap. -/
theorem toNat_align {x : BitVec 64} (room : x.toNat ≤ 2 ^ 64 - 2 ^ 25) :
    ((x + 0x10000 - 1) &&& ~~~(0x10000 - 1)).toNat = alignUp x.toNat := by
  have grouped : x + 0x10000 - 1 = x + BitVec.ofNat 64 0xFFFF := by
    rw [add_sub_assoc]
    rfl
  have sum : (x + BitVec.ofNat 64 0xFFFF).toNat = x.toNat + 0xFFFF := by
    refine toNat_add_ofNat ?_
    omega
  rw [grouped, alignUp, ← sum]
  exact toNat_and_not_mask (x + BitVec.ofNat 64 0xFFFF) 16

/-! ### The two places -/

section Places

variable {imageMapEnd stackStart stackEnd : BitVec 64}

variable (stackStart) in
/-- The arena is behind the image and does not touch the stack, or it would have touched the
stack there and is behind the stack. -/
theorem computeBase_cases (image : imageMapEnd.toNat ≤ 2 ^ 64 - 2 ^ 25)
    (stack : stackEnd.toNat ≤ 2 ^ 64 - 2 ^ 25) :
    (computeBase imageMapEnd stackStart stackEnd).toNat = alignUp imageMapEnd.toNat ∧
        (alignUp imageMapEnd.toNat + arenaSize.toNat ≤ stackStart.toNat ∨
          stackEnd.toNat ≤ alignUp imageMapEnd.toNat) ∨
      (computeBase imageMapEnd stackStart stackEnd).toNat = alignUp stackEnd.toNat ∧
        alignUp imageMapEnd.toNat < stackEnd.toNat := by
  have candidate := toNat_align image
  have bound := alignUp_le_top image
  have size : arenaSize.toNat = 0x1000000 := rfl
  simp only [computeBase]
  -- The end of the arena is computed without wrapping, so the test is one of numbers.
  have last := toNat_add_ofNat (a := (imageMapEnd + 0x10000 - 1) &&& ~~~(0x10000 - 1))
    (k := arenaSize.toNat) (by omega)
  rw [BitVec.ofNat_toNat, BitVec.setWidth_eq, candidate] at last
  simp only [gt_iff_lt, BitVec.lt_def, last, candidate]
  split_ifs with touches
  · exact .inr ⟨toNat_align stack, touches.2⟩
  · exact .inl ⟨candidate, by omega⟩

variable (stackStart) in
/-- Either place is behind the image, has room for the arena and is on one side of the stack. -/
theorem computeBase_apart (image : imageMapEnd.toNat ≤ 2 ^ 64 - 2 ^ 25)
    (stack : stackEnd.toNat ≤ 2 ^ 64 - 2 ^ 25) :
    (computeBase imageMapEnd stackStart stackEnd).toNat % 0x10000 = 0 ∧
      imageMapEnd.toNat ≤ (computeBase imageMapEnd stackStart stackEnd).toNat ∧
      (computeBase imageMapEnd stackStart stackEnd).toNat + arenaSize.toNat < 2 ^ 64 ∧
      ((computeBase imageMapEnd stackStart stackEnd).toNat + arenaSize.toNat ≤ stackStart.toNat ∨
        stackEnd.toNat ≤ (computeBase imageMapEnd stackStart stackEnd).toNat) := by
  have size : arenaSize.toNat = 0x1000000 := rfl
  have behindImage := le_alignUp imageMapEnd.toNat
  have behindStack := le_alignUp stackEnd.toNat
  have imageBound := alignUp_le_top image
  have stackBound := alignUp_le_top stack
  rcases computeBase_cases stackStart image stack with ⟨base, apart⟩ | ⟨base, before⟩
  · rw [base]
    exact ⟨alignUp_mod _, behindImage, by omega, apart⟩
  · -- The arena has moved up, so it is still behind the image.
    rw [base]
    exact ⟨alignUp_mod _, by omega, by omega, .inr behindStack⟩

end Places

/-! ### Apart from the image and the stack -/

/-- The addresses of an arena. -/
def arena (base : Addr) : Destination := ⟨base, arenaSize.toNat⟩

/-- An arena at a base on a multiple of 64 KiB does not wrap around and has no address of the
stack and none below the end of the image. -/
structure Placement (imageMapEnd stackStart stackEnd base : Addr) : Prop where
  aligned : base.toNat % 0x10000 = 0
  behind : imageMapEnd ≤ base
  whole : base.toNat + arenaSize.toNat < 2 ^ 64
  image : ∀ x ∈ (arena base).addresses, ¬ x < imageMapEnd
  stack : ∀ x ∈ (arena base).addresses, ¬ (stackStart ≤ x ∧ x < stackEnd)

/-- What is left to show once the ends of the arena are numbers. -/
theorem Placement.of_apart {imageMapEnd stackStart stackEnd base : Addr}
    (aligned : base.toNat % 0x10000 = 0) (behind : imageMapEnd.toNat ≤ base.toNat)
    (whole : base.toNat + arenaSize.toNat < 2 ^ 64)
    (apart : base.toNat + arenaSize.toNat ≤ stackStart.toNat ∨ stackEnd.toNat ≤ base.toNat) :
    Placement imageMapEnd stackStart stackEnd base := by
  refine ⟨aligned, behind, whole, fun x member => ?_, fun x member => ?_⟩
  · have interval := (Destination.mem_addresses_iff whole.le).mp member
    rw [BitVec.lt_def]
    omega
  · have interval := (Destination.mem_addresses_iff whole.le).mp member
    rw [BitVec.le_def, BitVec.lt_def]
    omega

/-- Wherever the image and the stack end, as long as both end 32 MiB below the end of the address
space, there is room for the arena where it is put. -/
theorem placement_computeBase {imageMapEnd stackStart stackEnd : Addr}
    (image : imageMapEnd.toNat ≤ 2 ^ 64 - 2 ^ 25) (stack : stackEnd.toNat ≤ 2 ^ 64 - 2 ^ 25) :
    Placement imageMapEnd stackStart stackEnd (computeBase imageMapEnd stackStart stackEnd) := by
  obtain ⟨aligned, behind, whole, apart⟩ := computeBase_apart stackStart image stack
  exact .of_apart aligned behind whole apart

/-- Behind an image that ends less than 16 MiB below the stack the arena would reach into it. -/
theorem placement_computeBase_moved :
    computeBase 0x7F800000 0x7FEF0000 0x7FFF0000 = 0x7FFF0000 ∧
      Placement 0x7F800000 0x7FEF0000 0x7FFF0000 (computeBase 0x7F800000 0x7FEF0000 0x7FFF0000) :=
  ⟨by decide, placement_computeBase (by decide) (by decide)⟩

end Unxorer.FakeHeap
