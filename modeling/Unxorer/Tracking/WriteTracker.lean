import Unxorer.Machine.Host

/-!
# The write tracker

The set of guest pages a recorded write has touched, and its presentation as regions of
adjacent pages. Page addresses are 64-bit words, so the loop over the pages of a write
compares addresses that may wrap around.

## Main definitions

* `WriteTracker.recordWrite` — `record_write` on the set of dirty pages
* `WriteTracker.getDirtyRegions` — `get_dirty_regions`

## Main results

* `WriteTracker.subset_of_recordWrite` — recording a write forgets no page
* `WriteTracker.pageOf_mem_of_recordWrite` — every byte of the write is on a dirty page
-/

set_option autoImplicit false

namespace Unxorer.WriteTracker

def pageSize : BitVec 64 := 0x1000

def pageMask : BitVec 64 := ~~~(pageSize - 1)

/-- The page of an address. -/
def pageOf (a : Addr) : Addr := a &&& pageMask

/-- `dirty_region`. -/
structure DirtyRegion where
  start : Addr
  size : BitVec 64
deriving DecidableEq

/-- The loop of `record_write`, for at most `fuel` tests of its condition. -/
def recordLoop (lastPage : Addr) : ℕ → Addr → Finset Addr → Option (Finset Addr)
  | 0, _, _ => none
  | fuel + 1, page, dirty =>
    if page ≤ lastPage then recordLoop lastPage fuel (page + pageSize) (insert page dirty)
    else some dirty

/-- `record_write`. There are `2 ^ 52` pages, so a loop that has not ended after as many
steps comes back to a page it has been at. -/
def recordWrite (dirty : Finset Addr) (address : Addr) (size : BitVec 64) :
    Except HostFault (Finset Addr) :=
  match recordLoop (pageOf (address + size - 1)) (2 ^ 52 + 1) (pageOf address) dirty with
  | some dirty => .ok dirty
  | none => .error .hang

/-- The loop of `get_dirty_regions` over the remaining sorted pages. -/
def mergeRegions (regionStart regionEnd : Addr) : List Addr → List DirtyRegion
  | [] => [⟨regionStart, regionEnd - regionStart⟩]
  | page :: rest =>
    if page ≤ regionEnd then mergeRegions regionStart (page + pageSize) rest
    else ⟨regionStart, regionEnd - regionStart⟩ :: mergeRegions page (page + pageSize) rest

def getDirtyRegions (dirty : Finset Addr) : List DirtyRegion :=
  match dirty.sort with
  | [] => []
  | page :: rest => mergeRegions page (page + pageSize) rest

def hasDirty (dirty : Finset Addr) : Bool := dirty ≠ ∅

/-! ### Pages -/

theorem toNat_pageOf (a : Addr) : (pageOf a).toNat = a.toNat / 0x1000 * 0x1000 :=
  toNat_and_not_mask a 12

theorem dvd_pageOf (a : Addr) : 0x1000 ∣ (pageOf a).toNat := by
  rw [toNat_pageOf]
  exact Nat.dvd_mul_left _ _

/-! ### Recording -/

/-- A loop that ends has kept the set and added every page it passed. -/
theorem recordLoop_spec {lastPage : Addr} (fuel : ℕ) {page : Addr} {dirty dirty' : Finset Addr}
    (done : recordLoop lastPage fuel page dirty = some dirty') :
    dirty ⊆ dirty' ∧ ∀ q : Addr, page.toNat ≤ q.toNat → q.toNat ≤ lastPage.toNat →
      0x1000 ∣ q.toNat - page.toNat → q ∈ dirty' := by
  induction fuel generalizing page dirty with
  | zero => cases done
  | succ fuel ih =>
    rw [recordLoop] at done
    by_cases more : page ≤ lastPage
    · rw [if_pos more] at done
      obtain ⟨kept, added⟩ := ih done
      refine ⟨(Finset.subset_insert _ _).trans kept, ?_⟩
      intro q above below multiple
      by_cases same : q = page
      · exact kept (same ▸ Finset.mem_insert_self _ _)
      -- A later page of the range leaves room for the step to the next page.
      · have apart : q.toNat ≠ page.toNat := fun equal => same (BitVec.eq_of_toNat_eq equal)
        have bound := q.isLt
        have next : (page + pageSize).toNat = page.toNat + 0x1000 := by
          rw [BitVec.toNat_add]
          exact Nat.mod_eq_of_lt (by change page.toNat + 0x1000 < 2 ^ 64; omega)
        exact added q (by omega) below (by omega)
    · rw [if_neg more] at done
      cases done
      refine ⟨subset_rfl, ?_⟩
      intro q above below _
      exact absurd (above.trans below) more

theorem recordLoop_of_recordWrite {dirty dirty' : Finset Addr} {address : Addr}
    {size : BitVec 64} (done : recordWrite dirty address size = .ok dirty') :
    recordLoop (pageOf (address + size - 1)) (2 ^ 52 + 1) (pageOf address) dirty = some dirty' := by
  rw [recordWrite] at done
  split at done
  · rename_i result ended
    cases done
    exact ended
  · cases done

/-- Recording a write forgets no page. -/
theorem subset_of_recordWrite {dirty dirty' : Finset Addr} {address : Addr} {size : BitVec 64}
    (done : recordWrite dirty address size = .ok dirty') : dirty ⊆ dirty' :=
  (recordLoop_spec _ (recordLoop_of_recordWrite done)).1

/-- After a write that does not wrap around, each of its bytes is on a dirty page. -/
theorem pageOf_mem_of_recordWrite {dirty dirty' : Finset Addr} {address : Addr}
    {size : BitVec 64} (done : recordWrite dirty address size = .ok dirty')
    (room : address.toNat + size.toNat ≤ 2 ^ 64) {x : Addr}
    (inside : (x - address).toNat < size.toNat) : pageOf x ∈ dirty' := by
  have last : (address + size - 1).toNat = address.toNat + size.toNat - 1 := by
    rw [BitVec.toNat_sub, BitVec.toNat_add]
    simp only [BitVec.reduceToNat]
    omega
  -- Without a wrap the byte lies between the first and the last one of the write.
  have offset : x.toNat = address.toNat + (x - address).toNat := by
    rw [BitVec.toNat_sub] at inside ⊢
    omega
  refine (recordLoop_spec _ (recordLoop_of_recordWrite done)).2 (pageOf x) ?_ ?_ ?_
  · rw [toNat_pageOf, toNat_pageOf]
    omega
  · rw [toNat_pageOf, toNat_pageOf, last]
    omega
  · exact Nat.dvd_sub (dvd_pageOf x) (dvd_pageOf address)

end Unxorer.WriteTracker
