import Unxorer.Tracking.WriteTracker

/-!
# The pages of a recorded write

`record_write` walks from the page of the first byte of a write to the page of its last
byte. Both are 64-bit words. When the last byte is on the topmost page, the page after it is
page zero and the walk never leaves the address space. When the write wraps around, the
walk starts behind its end.

## Main definitions

* `WriteTracker.Touches` — a page holds a byte of a write
* `WriteTracker.RecordsTouched` — the walk ends with exactly the pages of the write added
* `WriteTracker.WalkCovers` — the writes of which the walk adds every page

## Main results

* `WriteTracker.recordLoop_exact` — what a walk below the topmost page adds
* `WriteTracker.recordLoop_topPage` — a walk up to the topmost page never ends
* `WriteTracker.recordsTouched_iff` — exactly the writes that are recorded as they should be
-/

set_option autoImplicit false

namespace Unxorer.WriteTracker

/-- The last page of the address space. -/
def topPage : Addr := pageMask

/-- Page `p` holds one of the `size` bytes from `address` on, modulo `2 ^ 64`. -/
def Touches (address : Addr) (size : BitVec 64) (p : Addr) : Prop :=
  ∃ k < size.toNat, pageOf (address + BitVec.ofNat 64 k) = p

/-- Recording the write ends, and the dirty set is the old one with the touched pages. -/
def RecordsTouched (dirty : Finset Addr) (address : Addr) (size : BitVec 64) : Prop :=
  ∃ dirty', recordWrite dirty address size = .ok dirty' ∧
    ∀ p, p ∈ dirty' ↔ p ∈ dirty ∨ Touches address size p

/-- The write stays below the topmost page. Or it wraps around, does not end on the topmost
page, and each page it touches is dirty already; only the page it starts on may be clean, if
it ends there as well. -/
def WalkCovers (dirty : Finset Addr) (address : Addr) (size : BitVec 64) : Prop :=
  address.toNat + size.toNat ≤ 2 ^ 64 - 0x1000 ∨
    2 ^ 64 < address.toNat + size.toNat ∧ pageOf (address + size - 1) ≠ topPage ∧
      ∀ p, Touches address size p →
        p ∈ dirty ∨ p = pageOf address ∧ pageOf (address + size - 1) = pageOf address

/-! ### The walk -/

theorem toNat_topPage : topPage.toNat = 2 ^ 64 - 0x1000 := rfl

theorem le_topPage {page : Addr} (aligned : 0x1000 ∣ page.toNat) : page ≤ topPage := by
  have bound := page.isLt
  rw [BitVec.le_def, toNat_topPage]
  omega

/-- The page after a page is a page too, also when it is page zero. -/
theorem dvd_next {page : Addr} (aligned : 0x1000 ∣ page.toNat) :
    0x1000 ∣ (page + pageSize).toNat := by
  rw [BitVec.toNat_add]
  change 0x1000 ∣ (page.toNat + 0x1000) % 2 ^ 64
  omega

/-- Every page is at or below the topmost one, so a walk up to it never ends. -/
theorem recordLoop_topPage (fuel : ℕ) {page : Addr} (dirty : Finset Addr)
    (aligned : 0x1000 ∣ page.toNat) : recordLoop topPage fuel page dirty = none := by
  induction fuel generalizing page dirty with
  | zero => rfl
  | succ fuel ih =>
    rw [recordLoop, if_pos (le_topPage aligned)]
    exact ih (insert page dirty) (dvd_next aligned)

/-- A walk below the topmost page ends and adds the pages from its first to its last. -/
theorem recordLoop_exact (lastPage : Addr) (below : lastPage.toNat + 0x1000 < 2 ^ 64)
    (fuel : ℕ) {page : Addr} (dirty : Finset Addr) (aligned : 0x1000 ∣ page.toNat)
    (enough : lastPage.toNat + 0x1000 < page.toNat + fuel * 0x1000 ∧ 0 < fuel) :
    ∃ dirty', recordLoop lastPage fuel page dirty = some dirty' ∧
      ∀ q, q ∈ dirty' ↔ q ∈ dirty ∨ page.toNat ≤ q.toNat ∧ q.toNat ≤ lastPage.toNat ∧
        0x1000 ∣ q.toNat := by
  induction fuel generalizing page dirty with
  | zero => exact absurd enough.2 (Nat.lt_irrefl 0)
  | succ fuel ih =>
    rw [recordLoop]
    by_cases more : page ≤ lastPage
    · rw [if_pos more]
      rw [BitVec.le_def] at more
      have next : (page + pageSize).toNat = page.toNat + 0x1000 := by
        rw [BitVec.toNat_add]
        exact Nat.mod_eq_of_lt (by change page.toNat + 0x1000 < 2 ^ 64; omega)
      obtain ⟨dirty', ended, members⟩ := ih (insert page dirty) (dvd_next aligned)
        (by rw [next]; omega)
      refine ⟨dirty', ended, ?_⟩
      intro q
      -- Between a page and the next one there is no other page.
      have split : q = page ∨ (page + pageSize).toNat ≤ q.toNat ∧ q.toNat ≤ lastPage.toNat ∧
            0x1000 ∣ q.toNat ↔
          page.toNat ≤ q.toNat ∧ q.toNat ≤ lastPage.toNat ∧ 0x1000 ∣ q.toNat := by
        rw [← BitVec.toNat_inj, next]
        omega
      rw [members q, Finset.mem_insert, or_right_comm, split, or_comm]
    · rw [if_neg more]
      rw [BitVec.le_def] at more
      refine ⟨dirty, rfl, ?_⟩
      intro q
      constructor
      · exact Or.inl
      · rintro (old | ⟨above, under, _⟩)
        · exact old
        · exact absurd (above.trans under) more

/-- Recording hangs exactly when the last byte is on the topmost page. -/
theorem recordWrite_eq_hang {dirty : Finset Addr} {address : Addr} {size : BitVec 64}
    (top : pageOf (address + size - 1) = topPage) :
    recordWrite dirty address size = .error .hang := by
  rw [recordWrite, top, recordLoop_topPage _ _ (dvd_pageOf address)]

/-- Any other write is recorded as the pages from that of its first byte to that of its last. -/
theorem recordWrite_eq_ok (dirty : Finset Addr) {address : Addr} {size : BitVec 64}
    (inner : pageOf (address + size - 1) ≠ topPage) :
    ∃ dirty', recordWrite dirty address size = .ok dirty' ∧
      ∀ q, q ∈ dirty' ↔ q ∈ dirty ∨ (pageOf address).toNat ≤ q.toNat ∧
        q.toNat ≤ (pageOf (address + size - 1)).toNat ∧ 0x1000 ∣ q.toNat := by
  have differs : (pageOf (address + size - 1)).toNat ≠ 2 ^ 64 - 0x1000 := fun same =>
    inner (BitVec.eq_of_toNat_eq same)
  have aligned := dvd_pageOf (address + size - 1)
  have bound := (pageOf (address + size - 1)).isLt
  obtain ⟨dirty', ended, members⟩ := recordLoop_exact (pageOf (address + size - 1))
    (by omega) (2 ^ 52 + 1) dirty (dvd_pageOf address) (by omega)
  refine ⟨dirty', ?_, members⟩
  rw [recordWrite, ended]

/-! ### The pages of a write -/

/-- The address of the last byte of a write. -/
theorem toNat_last {address : Addr} {size : BitVec 64} (nonempty : 1 ≤ size.toNat) :
    (address + size - 1).toNat = (address.toNat + size.toNat - 1) % 2 ^ 64 := by
  rw [BitVec.toNat_sub, BitVec.toNat_add]
  simp only [BitVec.reduceToNat]
  omega

theorem touches_first (address : Addr) {size : BitVec 64} (nonempty : 1 ≤ size.toNat) :
    Touches address size (pageOf address) :=
  ⟨0, nonempty, congrArg pageOf (BitVec.add_zero address)⟩

/-- Without a wrap, the touched pages are those from the first to the last. -/
theorem touches_iff {address : Addr} {size : BitVec 64} (nonempty : 1 ≤ size.toNat)
    (room : address.toNat + size.toNat ≤ 2 ^ 64) (p : Addr) :
    Touches address size p ↔ (pageOf address).toNat ≤ p.toNat ∧
      p.toNat ≤ (pageOf (address + size - 1)).toNat ∧ 0x1000 ∣ p.toNat := by
  have last : (address + size - 1).toNat = address.toNat + size.toNat - 1 := by
    rw [toNat_last nonempty, Nat.mod_eq_of_lt (by omega)]
  constructor
  · rintro ⟨k, inside, rfl⟩
    have place := toNat_add_ofNat (a := address) (k := k) (by omega)
    refine ⟨?_, ?_, dvd_pageOf _⟩
    · rw [toNat_pageOf, toNat_pageOf, place]
      omega
    · rw [toNat_pageOf, toNat_pageOf, place, last]
      omega
  · rintro ⟨above, under, aligned⟩
    rw [toNat_pageOf] at above under
    rw [last] at under
    -- The first byte of the write that is not below the page.
    refine ⟨max address.toNat p.toNat - address.toNat, by omega, BitVec.eq_of_toNat_eq ?_⟩
    rw [toNat_pageOf, toNat_add_ofNat (by omega)]
    omega

/-! ### The law -/

variable {dirty dirty' : Finset Addr} {address : Addr} {size : BitVec 64}

theorem recordsTouched_iff_of_ok (done : recordWrite dirty address size = .ok dirty') :
    RecordsTouched dirty address size ↔ ∀ p, p ∈ dirty' ↔ p ∈ dirty ∨ Touches address size p := by
  constructor
  · rintro ⟨recorded, same, members⟩
    rw [done] at same
    cases same
    exact members
  · intro members
    exact ⟨dirty', done, members⟩

/-- A write that wraps around ends below the page it starts on, or on that page, and the
loop adds no other page. -/
theorem mem_of_wrap (nonempty : 1 ≤ size.toNat) (wrap : 2 ^ 64 < address.toNat + size.toNat)
    (members : ∀ q, q ∈ dirty' ↔ q ∈ dirty ∨ (pageOf address).toNat ≤ q.toNat ∧
      q.toNat ≤ (pageOf (address + size - 1)).toNat ∧ 0x1000 ∣ q.toNat) (p : Addr) :
    p ∈ dirty' ↔
      p ∈ dirty ∨ p = pageOf address ∧ pageOf (address + size - 1) = pageOf address := by
  have back : (pageOf (address + size - 1)).toNat ≤ (pageOf address).toNat := by
    rw [toNat_pageOf, toNat_pageOf, toNat_last nonempty]
    omega
  have aligned := dvd_pageOf address
  rw [members p, ← BitVec.toNat_inj, ← BitVec.toNat_inj]
  refine or_congr_right ?_
  constructor
  · rintro ⟨above, under, _⟩
    omega
  · rintro ⟨same, ends⟩
    omega

theorem recordsTouched_iff_of_wrap (nonempty : 1 ≤ size.toNat)
    (wrap : 2 ^ 64 < address.toNat + size.toNat)
    (inner : pageOf (address + size - 1) ≠ topPage) :
    RecordsTouched dirty address size ↔ ∀ p, Touches address size p →
      p ∈ dirty ∨ p = pageOf address ∧ pageOf (address + size - 1) = pageOf address := by
  obtain ⟨dirty', done, members⟩ := recordWrite_eq_ok dirty inner
  have single := mem_of_wrap nonempty wrap members
  rw [recordsTouched_iff_of_ok done]
  constructor
  · intro recorded p touched
    exact (single p).mp ((recorded p).mpr (.inr touched))
  · intro covered p
    rw [single p]
    constructor
    · rintro (old | ⟨rfl, _⟩)
      · exact .inl old
      · exact .inr (touches_first address nonempty)
    · rintro (old | touched)
      · exact .inl old
      · exact covered p touched

/-- The writes whose pages are all recorded, and no others. Every other write either hangs
the loop, or wraps around and leaves touched pages clean. -/
theorem recordsTouched_iff (dirty : Finset Addr) (address : Addr) (size : BitVec 64)
    (nonempty : 1 ≤ size.toNat) :
    RecordsTouched dirty address size ↔ WalkCovers dirty address size := by
  have page : (pageOf (address + size - 1)).toNat =
      (address.toNat + size.toNat - 1) % 2 ^ 64 / 0x1000 * 0x1000 := by
    rw [toNat_pageOf, toNat_last nonempty]
  by_cases top : pageOf (address + size - 1) = topPage
  · rw [top, toNat_topPage] at page
    constructor
    · rintro ⟨dirty', done, _⟩
      rw [recordWrite_eq_hang top] at done
      cases done
    · rintro (below | ⟨_, inner, _⟩)
      · omega
      · exact absurd top inner
  · by_cases room : address.toNat + size.toNat ≤ 2 ^ 64
    · have differs : (pageOf (address + size - 1)).toNat ≠ 2 ^ 64 - 0x1000 := fun same =>
        top (BitVec.eq_of_toNat_eq same)
      obtain ⟨dirty', done, members⟩ := recordWrite_eq_ok dirty top
      refine iff_of_true ?_ (.inl (by omega))
      rw [recordsTouched_iff_of_ok done]
      intro p
      rw [members p, touches_iff nonempty room]
    · have wrap : 2 ^ 64 < address.toNat + size.toNat := Nat.lt_of_not_le room
      rw [recordsTouched_iff_of_wrap nonempty wrap top]
      constructor
      · intro covered
        exact .inr ⟨wrap, top, covered⟩
      · rintro (below | ⟨_, _, covered⟩)
        · omega
        · exact covered

/-- Eight bytes at address zero, on no dirty page: page zero is recorded. -/
theorem recordsTouched_zero : 1 ≤ (8#64).toNat ∧ RecordsTouched ∅ 0 8 :=
  ⟨by decide, (recordsTouched_iff ∅ 0 8 (by decide)).mpr (.inl (by decide))⟩

/-- A store of eight bytes to the last eight of the address space is not recorded. -/
theorem not_recordsTouched_last : ¬ RecordsTouched ∅ 0xFFFFFFFFFFFFFFF8 8 := by
  rintro ⟨dirty', done, _⟩
  rw [recordWrite_eq_hang (by decide)] at done
  cases done

end Unxorer.WriteTracker
