import Unxorer.Emulator.FaultingStores
import Unxorer.Tracking.RecordedPages

/-!
# Accesses that are repeated after a fault

Unicorn repeats an access when the fault handler returns `true`. The handler walks from the
page of the first byte up to the end of the page of the last one. That end is computed
modulo `2 ^ 64`: it is zero for an access that reaches the topmost page, and it lies at or
below the start for one that wraps around, so the walk is empty or a single page long.

## Main definitions

* `Emulator.RetryLaw` — the handler returns, and with `true` only if the access is mapped
* `Emulator.MapsFreePages` — `uc_mem_map` succeeds on pages that are not mapped
* `Emulator.RoomFrom` — the pages the walk maps fit under the limit
* `Emulator.WalkReaches` — the accesses that are mapped after the walk

## Main results

* `Emulator.CanMap.mapPages` — the walk maps every page between its ends
* `retryLaw_iff` — exactly the accesses for which the law holds
-/

set_option autoImplicit false

namespace Unxorer

open Unicorn WriteTracker Transition

variable {U : Type} [Unicorn U]

namespace Emulator

variable {e e' : Emulator U}

/-- The handler returns. If it returns `true`, each byte of the access is mapped. -/
def RetryLaw (e : Emulator U) (address : Addr) (size : BitVec 64) : Prop :=
  ∃ retry e', e.mapFaultRegion address size = .ok (retry, e') ∧
    (retry = true → Mapped e'.engine address size.toNat)

/-- `uc_mem_map` succeeds on a page of which no byte is mapped, also after other mappings. -/
def MapsFreePages (u : U) : Prop :=
  ∀ u', Relation.ReflTransGen (fun v v' : U => ∃ a n, memMap v a n = .ok v') u u' →
    ∀ p, pageOf p = p → (∀ x, pageOf x = p → mapped u' x = false) →
      ∃ u'', memMap u' p transientMapSize.toNat = .ok u''

/-- The missing pages from `first` up to `stop` do not exceed the limit on transient pages. -/
def RoomFrom (e : Emulator U) (first stop : Addr) : Prop :=
  ∀ pages : Finset Addr,
    (∀ p ∈ pages, pageOf p = p ∧ first ≤ p ∧ p < stop ∧ mapped e.engine p = false) →
      e.transientMappings.length + pages.card ≤ maxTransientRegions

/-- Where the walk over the pages of an access ends. -/
def walkEnd (address : Addr) (size : BitVec 64) : Addr :=
  pageOf (address + (size - 1) + transientMapSize)

/-- The access wraps around and ends on the page it starts on, not on the topmost one. -/
def WrapsOntoStart (address : Addr) (size : BitVec 64) : Prop :=
  2 ^ 64 < address.toNat + size.toNat ∧ pageOf (address + size - 1) = pageOf address ∧
    pageOf address ≠ topPage

/-- The access stays below the topmost page, or each of its bytes is mapped already; if it
wraps around onto the page it starts on, that page may be missing. -/
def WalkReaches (e : Emulator U) (address : Addr) (size : BitVec 64) : Prop :=
  address.toNat + size.toNat ≤ 2 ^ 64 - 0x1000 ∨
    ∀ k < size.toNat, mapped e.engine (address + BitVec.ofNat 64 k) = true ∨
      WrapsOntoStart address size ∧ pageOf (address + BitVec.ofNat 64 k) = pageOf address

/-! ### The walk -/

/-- A page below the end of the walk has a next page. -/
theorem toNat_next {page stop : Addr} (aligned : pageOf page = page)
    (alignedStop : pageOf stop = stop) (more : page < stop) :
    (page + transientMapSize).toNat = page.toNat + 0x1000 := by
  have multiple := mod_eq_zero_of_aligned aligned
  have multipleStop := mod_eq_zero_of_aligned alignedStop
  have bound := stop.isLt
  rw [BitVec.lt_def] at more
  rw [BitVec.toNat_add]
  simp only [transientMapSize, BitVec.reduceToNat]
  omega

/-- A page of the walk is its first one, or lies at or after the next one. -/
theorem walk_split {page stop : Addr} (aligned : pageOf page = page)
    (alignedStop : pageOf stop = stop) (more : page < stop) (x : Addr) :
    page ≤ pageOf x ∧ pageOf x < stop ↔
      pageOf x = page ∨ page + transientMapSize ≤ pageOf x ∧ pageOf x < stop := by
  have next := toNat_next aligned alignedStop more
  rw [BitVec.lt_def] at more
  constructor
  · rintro ⟨above, below⟩
    rcases page_le_cases aligned (pageOf_pageOf x) above with same | later
    · exact .inl same
    · exact .inr ⟨later, below⟩
  · rintro (same | ⟨later, below⟩)
    · rw [same]
      exact ⟨BitVec.le_refl page, BitVec.lt_def.mpr more⟩
    · rw [BitVec.le_def, next] at later
      exact ⟨BitVec.le_def.mpr (by omega), below⟩

/-- What the walk needs of an emulator, and keeps. -/
structure CanMap (e : Emulator U) : Prop where
  well : e.WellMapped
  whole : e.WholeCore
  free : MapsFreePages e.engine

/-- A round of the walk over a missing page maps it and uses up one place. -/
theorem CanMap.mapPage_of_missing (can : e.CanMap) {page stop : Addr}
    (room : e.RoomFrom page stop) (aligned : pageOf page = page) (more : page < stop)
    (missing : mapped e.engine page = false) :
    ∃ e', e.mapPage page = (true, e') ∧ e'.CanMap ∧
      (∀ x, mapped e'.engine x = true ↔ mapped e.engine x = true ∨ pageOf x = page) ∧
      e'.transientMappings.length = e.transientMappings.length + 1 := by
  obtain ⟨well, whole, free⟩ := can
  -- The page itself is one of the missing pages there is room for.
  have left : e.transientMappings.length < maxTransientRegions := by
    have one := room {page} (by
      intro p member
      rw [Finset.mem_singleton.mp member]
      exact ⟨aligned, BitVec.le_refl page, more, missing⟩)
    rw [Finset.card_singleton] at one
    omega
  obtain ⟨u, done⟩ := free e.engine .refl page aligned fun x same => by
    rw [← well.granular whole x, same, missing]
  have maps := MapsPage.mk page u aligned left done
  refine ⟨_, ?_, ⟨maps.wellMapped well, ?_, ?_⟩, ?_, ?_⟩
  · rw [well.mapPage_of_missing missing aligned, mapTransientPage, if_neg (Nat.not_le.mpr left),
      done]
  · exact (MapsPage.sameCore (.single maps)).wholeCore whole
  · intro u' later
    exact free u' (.head ⟨page, _, done⟩ later)
  · intro x
    rw [(mapped_memMap_iff done x).1]
    exact or_congr_right (offset_lt_iff aligned x)
  · exact List.length_append

/-- A round of the walk leaves the page mapped and room for the pages after it. -/
theorem CanMap.mapPage (can : e.CanMap) {page stop : Addr} (room : e.RoomFrom page stop)
    (aligned : pageOf page = page) (alignedStop : pageOf stop = stop) (more : page < stop) :
    ∃ e', e.mapPage page = (true, e') ∧ e'.CanMap ∧
      e'.RoomFrom (page + transientMapSize) stop ∧
      ∀ x, mapped e'.engine x = true ↔ mapped e.engine x = true ∨ pageOf x = page := by
  have next := toNat_next aligned alignedStop more
  have onward {p : Addr} (later : page + transientMapSize ≤ p) : page ≤ p ∧ p ≠ page := by
    rw [BitVec.le_def, next] at later
    refine ⟨BitVec.le_def.mpr (by omega), ?_⟩
    rintro rfl
    omega
  cases present : mapped e.engine page with
  | true =>
    refine ⟨e, mapPage_of_mapped present, can, ?_, ?_⟩
    · intro pages inside
      refine room pages fun p member => ?_
      obtain ⟨alignedP, above, below, missing⟩ := inside p member
      exact ⟨alignedP, (onward above).1, below, missing⟩
    · intro x
      refine ⟨.inl, ?_⟩
      rintro (here | same)
      · exact here
      · rw [← can.well.granular can.whole x, same, present]
  | false =>
    obtain ⟨e', mapped_page, can', grown, length⟩ :=
      can.mapPage_of_missing room aligned more present
    refine ⟨e', mapped_page, can', ?_, grown⟩
    intro pages inside
    -- The page itself was missing too and is none of the later ones.
    have fresh : page ∉ pages := fun member => (onward (inside page member).2.1).2 rfl
    have all := room (insert page pages) (by
      intro p member
      rcases Finset.mem_insert.mp member with rfl | member
      · exact ⟨aligned, BitVec.le_refl p, more, present⟩
      · obtain ⟨alignedP, above, below, missing⟩ := inside p member
        refine ⟨alignedP, (onward above).1, below, ?_⟩
        by_contra here
        rw [Bool.not_eq_false] at here
        have still := (grown p).mpr (.inl here)
        rw [missing] at still
        cases still)
    rw [Finset.card_insert_of_notMem fresh] at all
    omega

theorem mapPages_of_not_lt {page stop : Addr} (past : ¬ page < stop) (fuel : ℕ) :
    mapPages stop (fuel + 1) page e = .ok (true, e) := by
  rw [mapPages, if_neg past]

/-- The walk ends, returns `true` and has mapped every page between its ends. -/
theorem CanMap.mapPages (can : e.CanMap) {page stop : Addr} (room : e.RoomFrom page stop)
    (aligned : pageOf page = page) (alignedStop : pageOf stop = stop) (fuel : ℕ)
    (enough : 0 < fuel ∧ stop.toNat < page.toNat + fuel * 0x1000) :
    ∃ e', Emulator.mapPages stop fuel page e = .ok (true, e') ∧
      ∀ x, mapped e'.engine x = true ↔
        mapped e.engine x = true ∨ page ≤ pageOf x ∧ pageOf x < stop := by
  induction fuel generalizing page e with
  | zero => exact absurd enough.1 (Nat.lt_irrefl 0)
  | succ fuel ih =>
    by_cases more : page < stop
    -- The rest of the walk starts with one page more mapped and one page less to map.
    · obtain ⟨e₁, mapped_page, can₁, room₁, grown⟩ := can.mapPage room aligned alignedStop more
      have next := toNat_next aligned alignedStop more
      have multiple := mod_eq_zero_of_aligned aligned
      have multipleStop := mod_eq_zero_of_aligned alignedStop
      have before := BitVec.lt_def.mp more
      obtain ⟨e', walked, mapped_iff⟩ := ih can₁ room₁ (aligned_next aligned) (by omega)
      rw [Emulator.mapPages, if_pos more, mapped_page]
      refine ⟨e', walked, fun x => ?_⟩
      rw [mapped_iff, grown, walk_split aligned alignedStop more, or_assoc]
    · refine ⟨e, mapPages_of_not_lt more fuel, fun x => ⟨.inl, ?_⟩⟩
      rintro (present | ⟨above, below⟩)
      · exact present
      · rw [BitVec.le_def] at above
        rw [BitVec.lt_def] at more below
        exact absurd (above.trans_lt below) more

theorem CanMap.mapFaultRegion (can : e.CanMap) {address : Addr} {size : BitVec 64}
    (room : e.RoomFrom (pageOf address) (walkEnd address size)) :
    ∃ e', e.mapFaultRegion address size = .ok (true, e') ∧
      ∀ x, mapped e'.engine x = true ↔ mapped e.engine x = true ∨
        pageOf address ≤ pageOf x ∧ pageOf x < walkEnd address size := by
  have bound := (walkEnd address size).isLt
  exact can.mapPages room (pageOf_pageOf _) (pageOf_pageOf _) (2 ^ 52 + 1) ⟨by decide, by omega⟩

/-! ### The ends of the walk -/

theorem toNat_walkEnd {address : Addr} {size : BitVec 64} (nonempty : 1 ≤ size.toNat) :
    (walkEnd address size).toNat =
      ((address.toNat + size.toNat - 1) % 2 ^ 64 + 0x1000) % 2 ^ 64 / 0x1000 * 0x1000 := by
  have last : address + (size - 1) = address + size - 1 := (add_sub_assoc _ _ _).symm
  rw [walkEnd, toNat_pageOf, last, BitVec.toNat_add, toNat_last nonempty]
  rfl

/-- An access below the topmost page is inside its walk. -/
theorem walked_of_below {address : Addr} {size : BitVec 64} (nonempty : 1 ≤ size.toNat)
    (below : address.toNat + size.toNat ≤ 2 ^ 64 - 0x1000) {k : ℕ} (inside : k < size.toNat) :
    pageOf address ≤ pageOf (address + BitVec.ofNat 64 k) ∧
      pageOf (address + BitVec.ofNat 64 k) < walkEnd address size := by
  have place := toNat_add_ofNat (a := address) (k := k) (by omega)
  rw [BitVec.le_def, BitVec.lt_def, toNat_walkEnd nonempty, toNat_pageOf, toNat_pageOf, place]
  omega

/-- The walk of any other access is empty, or it is the page on which the access starts and,
having wrapped around, ends. -/
theorem walked_iff_of_not_below {address : Addr} {size : BitVec 64} (nonempty : 1 ≤ size.toNat)
    (above : ¬ address.toNat + size.toNat ≤ 2 ^ 64 - 0x1000) (x : Addr) :
    pageOf address ≤ pageOf x ∧ pageOf x < walkEnd address size ↔
      WrapsOntoStart address size ∧ pageOf x = pageOf address := by
  have last : (address + size - 1).toNat = (address.toNat + size.toNat - 1) % 2 ^ 64 :=
    toNat_last nonempty
  have bound := address.isLt
  have bound' := size.isLt
  have alignedX := dvd_pageOf x
  have top : pageOf address ≠ topPage ↔ (pageOf address).toNat ≠ 2 ^ 64 - 0x1000 := by
    rw [ne_eq, ← BitVec.toNat_inj, toNat_topPage]
  rw [WrapsOntoStart, top, BitVec.le_def, BitVec.lt_def, toNat_walkEnd nonempty,
    ← BitVec.toNat_inj, ← BitVec.toNat_inj, toNat_pageOf (address + size - 1), last,
    toNat_pageOf address]
  -- The last byte is on the topmost page, or has wrapped around to a page at or below the first.
  constructor
  · rintro ⟨from_start, to_end⟩
    omega
  · rintro ⟨⟨wraps, ends, inner⟩, same⟩
    omega

end Emulator

/-! ### The law -/

/-- In every state of every run, with room for the missing pages and an engine that maps
them, the access is mapped when it is repeated exactly if the walk reaches all its bytes. -/
theorem retryLaw_iff [Host] (paged : PagedMaps U) (e : Reused U)
    (empty : ∀ x, mapped e.opened x = false) {args : RunArgs} {c₀ c : Counters}
    {r₀ r : RunState U} (started : e.emulator.startRun args = .ok r₀)
    (run : Run RunStep (fun _ _ => True) (c₀, r₀) (c, r))
    (free : Emulator.MapsFreePages r.emulator.engine) {address : Addr} {size : BitVec 64}
    (nonempty : 1 ≤ size.toNat)
    (room : r.emulator.RoomFrom (pageOf address) (Emulator.walkEnd address size)) :
    r.emulator.RetryLaw address size ↔ r.emulator.WalkReaches address size := by
  have well := Emulator.wellMapped_of_run (e.wellMapped empty) started run
  have whole := (e.sameCore.trans (Emulator.sameCore_of_run started run)).wholeCore
    (Emulator.create_wholeCore paged e.created)
  obtain ⟨e', handled, mapped_iff⟩ :=
    (Emulator.CanMap.mk well whole free).mapFaultRegion room
  -- The walk reports success whatever the access, so the law is about what it has mapped.
  have law : r.emulator.RetryLaw address size ↔ Mapped e'.engine address size.toNat := by
    constructor
    · rintro ⟨retry, e'', same, access⟩
      rw [handled] at same
      cases same
      exact access rfl
    · intro access
      exact ⟨true, e', handled, fun _ => access⟩
  rw [law]
  by_cases below : address.toNat + size.toNat ≤ 2 ^ 64 - 0x1000
  · refine iff_of_true (fun k inside => ?_) (.inl below)
    exact (mapped_iff _).mpr (.inr (Emulator.walked_of_below nonempty below inside))
  · rw [Emulator.WalkReaches, or_iff_right below]
    refine forall_congr' fun k => imp_congr_right fun _ => ?_
    rw [mapped_iff, Emulator.walked_iff_of_not_below nonempty below]

/-! ### Two accesses in the example -/

namespace Example

/-- The reference engine maps every free page. -/
theorem mapsFreePages (m : Machine) : Emulator.MapsFreePages m := by
  intro m' _ p aligned missing
  have whole : Machine.WholePages p 0x1000 :=
    ⟨mod_eq_zero_of_aligned aligned, by decide, toNat_add_le_of_aligned aligned⟩
  refine ⟨_, Machine.memMap_of_free whole fun i small => ?_⟩
  have first : i = 0 := Nat.lt_one_iff.mp small
  rw [first]
  exact missing p aligned

/-- Every walk over one page has room for it. -/
theorem roomFrom_inSlice {first stop : Addr} (short : ∀ p, pageOf p = p → first ≤ p → p < stop →
    p = first) : inSlice.2.emulator.RoomFrom first stop := by
  intro pages inside
  have one : pages.card ≤ 1 := Finset.card_le_one.mpr fun p member q member' => by
    obtain ⟨aligned, above, below, -⟩ := inside p member
    obtain ⟨aligned', above', below', -⟩ := inside q member'
    rw [short p aligned above below, short q aligned' above' below']
  change 0 + pages.card ≤ 2048
  omega

/-- The access to the last eight bytes of the address space has an empty walk. -/
theorem not_lt_walkEnd_top (p : Addr) : ¬ p < Emulator.walkEnd 0xFFFFFFFFFFFFFFF8 8 := by
  rw [show Emulator.walkEnd 0xFFFFFFFFFFFFFFF8 8 = 0 by decide]
  exact Nat.not_lt_zero _

end Example

/-- An access to the page at 2000h in the first slice of the example. -/
theorem retryLaw_iff_low : ∃ (r₀ : RunState Machine) (s : Counters × RunState Machine),
    (∀ x, mapped Example.unused.opened x = false) ∧
    Example.unused.emulator.startRun ⟨0x140000000, 0, 0, 0, true⟩ = .ok r₀ ∧
    Run RunStep (fun _ _ => True) (Example.noCounts, r₀) s ∧
    s.2.emulator.RoomFrom (pageOf 0x2010) (Emulator.walkEnd 0x2010 8) ∧
    (s.2.emulator.RetryLaw 0x2010 8 ↔ s.2.emulator.WalkReaches 0x2010 8) := by
  have room : Example.inSlice.2.emulator.RoomFrom (pageOf 0x2010) (Emulator.walkEnd 0x2010 8) := by
    refine Example.roomFrom_inSlice fun p aligned above below => ?_
    have stop : (Emulator.walkEnd 0x2010 8).toNat = 0x3000 := by decide
    have start : (pageOf (0x2010 : Addr)).toNat = 0x2000 := by decide
    have multiple := mod_eq_zero_of_aligned aligned
    rw [BitVec.le_def, start] at above
    rw [BitVec.lt_def, stop] at below
    exact BitVec.eq_of_toNat_eq (by omega)
  have begun := Example.startRun_eq_started 0x140000000
  exact ⟨_, Example.inSlice, fun _ => rfl, begun, Example.trace_inSlice.run, room,
    retryLaw_iff Example.pagedMaps Example.unused (fun _ => rfl) begun Example.trace_inSlice.run
      (Example.mapsFreePages _) (by decide) room⟩

/-- A fault at the last eight bytes of the address space is reported as handled, with nothing
mapped. -/
theorem not_retryLaw_top : ∃ (r₀ : RunState Machine) (s : Counters × RunState Machine),
    Example.unused.emulator.startRun ⟨0x140000000, 0, 0, 0, true⟩ = .ok r₀ ∧
    Run RunStep (fun _ _ => True) (Example.noCounts, r₀) s ∧
    Emulator.MapsFreePages s.2.emulator.engine ∧
    s.2.emulator.RoomFrom (pageOf 0xFFFFFFFFFFFFFFF8)
      (Emulator.walkEnd 0xFFFFFFFFFFFFFFF8 8) ∧
    ¬ s.2.emulator.RetryLaw 0xFFFFFFFFFFFFFFF8 8 := by
  refine ⟨_, Example.inSlice, Example.startRun_eq_started 0x140000000, Example.trace_inSlice.run,
    Example.mapsFreePages _, ?_, ?_⟩
  · exact Example.roomFrom_inSlice fun p _ _ below => absurd below (Example.not_lt_walkEnd_top p)
  · rintro ⟨retry, e', handled, access⟩
    have walked : Example.inSlice.2.emulator.mapFaultRegion 0xFFFFFFFFFFFFFFF8 8 =
        .ok (true, Example.inSlice.2.emulator) :=
      Emulator.mapPages_of_not_lt (Example.not_lt_walkEnd_top (pageOf 0xFFFFFFFFFFFFFFF8)) (2 ^ 52)
    rw [walked] at handled
    cases handled
    have first := access rfl 0 (by decide)
    revert first
    decide +kernel

end Unxorer
