import Unxorer.Heap.Ledger

/-!
# Zeroed blocks

`calloc_alloc` multiplies its arguments modulo `2 ^ 64` and hands what is left of the product
to `alloc`. The caller counts on the whole product.

## Main definitions

* `CallocLaw` — a block holds the whole product in zeros; a product without room is refused

## Main results

* `callocLaw_iff` — in every state whose requests have counted right, the law holds exactly of
  the products that count right themselves
-/

set_option autoImplicit false

namespace Unxorer

open Unicorn FakeHeap Transition

section Calloc

variable {U : Type} [Unicorn U] [Host]

/-- What a caller expects of `calloc_alloc`: the block it returns reserves the product of the
arguments, every byte of which is zero, and a product for which the arena has no room left is
answered with 0. -/
structure CallocLaw (u : U) (h : FakeHeap) (count elemSize : BitVec 64) : Prop where
  served : ∀ (ptr : Addr) (u' : U) (h' : FakeHeap),
    h.callocAlloc u count elemSize = .ok (ptr, u', h') → ptr ≠ 0 →
      (∃ reserved, h'.allocSizes ptr = some reserved ∧
        count.toNat * elemSize.toNat ≤ reserved.toNat) ∧
      ∀ i < count.toNat * elemSize.toNat, guestByte u' (ptr + BitVec.ofNat 64 i) = some 0
  refused : h.arenaBase.toNat + arenaSize.toNat <
      h.cursor.toNat + count.toNat * elemSize.toNat →
    ∃ (u' : U) (h' : FakeHeap), h.callocAlloc u count elemSize = .ok (0, u', h')

theorem callocAlloc_of_refused {u : U} {h : FakeHeap} {count elemSize : BitVec 64}
    (refused : (h.alloc (count * elemSize)).1 = 0) :
    h.callocAlloc u count elemSize = .ok (0, u, (h.alloc (count * elemSize)).2) := by
  have null : ¬ (h.alloc (count * elemSize)).1 ≠ 0 := not_not.mpr refused
  simp only [callocAlloc, if_neg null]
  rw [refused]
  rfl

/-- Zeros over a mapped block. -/
theorem zeroFill_eq_store {u u' : U} {ptr : Addr} {size : BitVec 64}
    (present : Mapped u ptr size.toNat) (filled : zeroFill u ptr size = .ok u') :
    u' = store u ptr (List.replicate size.toNat 0) := by
  obtain ⟨-, -, returned⟩ := exists_of_bind_ok filled
  cases returned
  rw [memWrite_of_mapped (by rwa [List.length_replicate]), Option.getD_some]

/-- A request without pointer satisfies the law. -/
theorem callocLaw_of_refused {u : U} {h : FakeHeap} {count elemSize : BitVec 64}
    (refused : (h.alloc (count * elemSize)).1 = 0) : CallocLaw u h count elemSize where
  served ptr u' h' done block := by
    have same := (callocAlloc_of_refused refused).symm.trans done
    cases same
    exact absurd rfl block
  refused _ := ⟨_, _, callocAlloc_of_refused refused⟩

/-- A request with a pointer has zeroed its block, as long as the wrapped product. -/
theorem zeroFill_of_callocAlloc {u u' : U} {h h' : FakeHeap} {ptr : Addr}
    {count elemSize : BitVec 64} (served : (h.alloc (count * elemSize)).1 ≠ 0)
    (done : h.callocAlloc u count elemSize = .ok (ptr, u', h')) :
    zeroFill u ptr (count * elemSize) = .ok u' := by
  simp only [callocAlloc, if_pos served] at done
  obtain ⟨engine, filled, returned⟩ := exists_of_bind_ok done
  cases returned
  exact filled

section Served

variable {s : Ledger U} {count elemSize : BitVec 64} {pos : ℕ}

/-- A product with room left is served with as many zeros. -/
theorem callocLaw_of_fits (ready : s.Ready) (books : s.Books pos)
    (opened : s.heap.initialized = true) (inside : s.heap.cursor.toNat = pos)
    (served : s.heap.alloc (count * elemSize) = (s.heap.cursor, { s.heap with
      cursor := s.heap.cursor + roundSize (count * elemSize)
      allocSizes := Function.update s.heap.allocSizes s.heap.cursor
        (some (roundSize (count * elemSize))) }))
    (fits : pos + roundUp (count.toNat * elemSize.toNat) ≤
      s.heap.arenaBase.toNat + arenaSize.toNat) :
    CallocLaw s.engine s.heap count elemSize := by
  have lower : s.heap.arenaBase.toNat ≤ pos := books.sound.lower
  have arena : arenaSize.toNat = 0x1000000 := rfl
  have reserved := le_roundUp (count.toNat * elemSize.toNat)
  have product : (count * elemSize).toNat = count.toNat * elemSize.toNat := by
    rw [BitVec.toNat_mul, Nat.mod_eq_of_lt (by omega)]
  have rounded : (roundSize (count * elemSize)).toNat =
      roundUp (count.toNat * elemSize.toNat) := by
    rw [toNat_roundSize_of_lt (by rw [product]; omega), product]
  refine ⟨fun ptr u' h' done block => ?_, fun full => absurd fits (by omega)⟩
  obtain ⟨start, heap⟩ := Prod.mk.inj ((callocAlloc_eq_alloc done).trans served)
  have zeroed := zeroFill_of_callocAlloc (by rwa [served, ← start]) done
  have present : Mapped s.engine ptr (count * elemSize).toNat := by
    refine mapped_part (ready.present opened) ?_ ?_
    · rwa [start, inside]
    · rw [start, inside, product]
      omega
  refine ⟨⟨roundSize (count * elemSize), ?_, by rwa [rounded]⟩, fun i below => ?_⟩
  · rw [heap, start]
    exact Function.update_self _ _ _
  · have length : i < (List.replicate (count * elemSize).toNat (0 : Byte)).length := by
      rwa [List.length_replicate, product]
    rw [zeroFill_eq_store present zeroed,
      guestByte_store_of_lt (by rwa [List.length_replicate]) length (by omega),
      List.getElem_replicate]

/-- A product without room left is served all the same. -/
theorem not_callocLaw_of_overrun (books : s.Books pos) (inside : s.heap.cursor.toNat = pos)
    (served : (s.heap.alloc (count * elemSize)).1 ≠ 0)
    (overrun : s.heap.arenaBase.toNat + arenaSize.toNat <
      pos + roundUp (count.toNat * elemSize.toNat)) :
    ¬ CallocLaw s.engine s.heap count elemSize := by
  intro law
  have full : s.heap.arenaBase.toNat + arenaSize.toNat <
      s.heap.cursor.toNat + count.toNat * elemSize.toNat := by
    have lower : s.heap.arenaBase.toNat ≤ pos := books.sound.lower
    obtain ⟨blocks, aligned⟩ : 16 ∣ pos - s.heap.arenaBase.toNat := books.sound.aligned
    have arena : arenaSize.toNat = 16 * 0x100000 := rfl
    -- What is left of the arena is a multiple of 16 bytes.
    rw [roundUp] at overrun
    omega
  obtain ⟨u', h', done⟩ := law.refused full
  have result := callocAlloc_eq_alloc done
  rw [← result] at served
  exact served rfl

end Served

/-- In every state reached by requests that count right, `calloc_alloc` meets its law exactly
when the whole product counts right, or when the pointer it would return is 0. -/
theorem callocLaw_iff {u : U} {s : Ledger U} (run : Run LedgerStep RequestsCount (.start u) s)
    (count elemSize : BitVec 64) :
    CallocLaw s.engine s.heap count elemSize ↔
      s.heap.cursor = 0 ∨ s.heap.CountsRight (count.toNat * elemSize.toNat) := by
  have wrapped := ofNat_mul_toNat count elemSize
  rcases s.heap.alloc_cases (count * elemSize) with
    ⟨refused, reason⟩ | ⟨opened, nonzero, room, accepted⟩
  · have law := callocLaw_of_refused (u := s.engine) (congrArg Prod.fst refused)
    refine iff_of_true law (.inr ?_)
    rw [CountsRight, wrapped]
    rcases reason with closed | zero | exceeds
    exacts [.inl closed, .inr (.inl zero), .inr (.inr (.inl exceeds))]
  by_cases null : s.heap.cursor = 0
  · exact iff_of_true (callocLaw_of_refused (by rw [accepted, null])) (.inl null)
  obtain ⟨pos, books⟩ := kept_of_run run opened
  have ready := ready_of_run run
  have inside := books.toNat_cursor_of_ne_zero (ready.bounded opened) null
  constructor
  · intro law
    refine .inr (.inr (.inr (.inr ?_)))
    by_contra overrun
    rw [inside, Nat.not_le] at overrun
    exact not_callocLaw_of_overrun books inside (by rwa [accepted]) overrun law
  · rintro (zero | counts)
    · exact absurd zero null
    · have fits := counts.fits opened (wrapped.symm ▸ nonzero) (wrapped.symm ▸ room)
      rw [inside] at fits
      exact callocLaw_of_fits ready books opened inside accepted fits

end Calloc

/-- `calloc(3, 8)` as the first request of an arena. -/
theorem callocLaw_iff_first : CallocLaw exampleLedger.engine exampleLedger.heap 3 8 :=
  (callocLaw_iff (Run.refl.tail (fun n asks => by cases asks) exampleLedger_step) 3 8).mpr
    (.inr (.inr (.inr (.inr (by decide)))))

/-- `calloc(2^63 + 8, 2)` there returns a block of 16 bytes. -/
theorem not_callocLaw_wrapped :
    ¬ ∀ (u : Machine) (s : Ledger Machine), Run LedgerStep (fun _ _ => True) (.start u) s →
      ∀ count elemSize : BitVec 64, CallocLaw s.engine s.heap count elemSize := by
  intro always
  have law := always Machine.empty exampleLedger (Run.refl.tail trivial exampleLedger_step)
    0x8000000000000008 2
  obtain ⟨u', h', done⟩ := law.refused (by decide)
  have result := congrArg Prod.fst (callocAlloc_eq_alloc done)
  have start : (exampleLedger.heap.alloc (0x8000000000000008 * 2)).1 = 0x10000 := by decide
  rw [start] at result
  cases result

end Unxorer
