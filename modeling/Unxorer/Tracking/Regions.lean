import Unxorer.Tracking.RecordedPages
import Unxorer.Lib.Spans

/-!
# Regions of dirty pages

`get_dirty_regions` sorts the dirty pages and merges adjacent ones. It is one merge of cells
of a page each, carried out on 64-bit words: the end of a region is computed modulo `2 ^ 64`,
which only the topmost page, the last of the sorted ones, can make wrap to zero.

## Main definitions

* `WriteTracker.PageSet` — every dirty address is the address of a page
* `WriteTracker.DirtyRegion.Contains` — a byte of a region
* `WriteTracker.RegionLaw` — what the regions of a set of dirty pages are
* `WriteTracker.RunStart` — where the longest run of dirty bytes up to an address begins

## Main results

* `WriteTracker.getDirtyRegions_eq_merge` — the regions are the spans of the merge
* `WriteTracker.regionLaw` — the regions are aligned, apart and cover exactly the dirty pages
* `WriteTracker.exists_region` — a dirty byte is in the region of its run
* `WriteTracker.getDirtyRegions_all` — with all pages dirty there are only empty regions
-/

set_option autoImplicit false

namespace Unxorer.WriteTracker

/-- The addresses in the set are those of pages. -/
def PageSet (dirty : Finset Addr) : Prop := ∀ p ∈ dirty, 0x1000 ∣ p.toNat

/-- Address `x` is that of a byte of the region. -/
def DirtyRegion.Contains (r : DirtyRegion) (x : Addr) : Prop := (x - r.start).toNat < r.size.toNat

/-- The bytes on the dirty pages, as natural numbers. -/
def dirtyBytes (dirty : Finset Addr) : Set ℕ :=
  {n | ∃ x : Addr, x.toNat = n ∧ pageOf x ∈ dirty}

/-- A span of addresses as the code represents it. -/
def regionOf (s : Spans.Span) : DirtyRegion :=
  ⟨BitVec.ofNat 64 s.start, BitVec.ofNat 64 (s.stop - s.start)⟩

/-- The regions are sorted, begin and end at pages, have a gap between any two, do not reach
past the end of the address space, and hold the bytes of the dirty pages and no others. -/
structure RegionLaw (dirty : Finset Addr) (regions : List DirtyRegion) : Prop where
  aligned : ∀ r ∈ regions, 0x1000 ∣ r.start.toNat
  positive : ∀ r ∈ regions, 0 < r.size.toNat ∧ 0x1000 ∣ r.size.toNat
  within : ∀ r ∈ regions, r.start.toNat + r.size.toNat ≤ 2 ^ 64
  increasing : regions.Pairwise fun a b => a.start < b.start
  separated : regions.Pairwise fun a b => a.start.toNat + a.size.toNat < b.start.toNat
  covers : ∀ x, pageOf x ∈ dirty ↔ ∃ r ∈ regions, r.Contains x

/-- Recording adds addresses of pages only. -/
theorem PageSet.recordWrite {dirty dirty' : Finset Addr} {address : Addr} {size : BitVec 64}
    (pages : PageSet dirty) (done : recordWrite dirty address size = .ok dirty') :
    PageSet dirty' := by
  have inner : pageOf (address + size - 1) ≠ topPage := by
    intro top
    rw [recordWrite_eq_hang top] at done
    cases done
  obtain ⟨recorded, same, members⟩ := recordWrite_eq_ok dirty inner
  rw [done] at same
  cases same
  intro p member
  rcases (members p).mp member with old | ⟨_, _, aligned⟩
  · exact pages p old
  · exact aligned

/-! ### The merge -/

/-- While a later page remains, the open region ends inside the address space. -/
theorem toNat_regionEnd {last page : Addr} (aligned : 0x1000 ∣ last.toNat)
    (aligned' : 0x1000 ∣ page.toNat) (later : last < page) :
    (last + pageSize).toNat = last.toNat + 0x1000 := by
  rw [BitVec.lt_def] at later
  have bound := page.isLt
  rw [BitVec.toNat_add]
  exact Nat.mod_eq_of_lt (by change last.toNat + 0x1000 < 2 ^ 64; omega)

/-- The region that is closed is the span from its start to the end of its last page. -/
theorem region_eq {start last : Addr} (opened : start ≤ last) :
    (⟨start, last + pageSize - start⟩ : DirtyRegion) =
      regionOf ⟨start.toNat, last.toNat + 0x1000⟩ := by
  rw [regionOf, DirtyRegion.mk.injEq]
  rw [BitVec.le_def] at opened
  refine ⟨(BitVec.ofNat_toNat 64 start).symm ▸ (BitVec.setWidth_eq start).symm, ?_⟩
  refine BitVec.eq_of_toNat_eq ?_
  rw [BitVec.toNat_sub, BitVec.toNat_add, BitVec.toNat_ofNat]
  change (2 ^ 64 - start.toNat + (last.toNat + 0x1000) % 2 ^ 64) % 2 ^ 64 =
    (last.toNat + 0x1000 - start.toNat) % 2 ^ 64
  have bound := start.isLt
  omega

theorem mergeRegions_eq {start last : Addr} {pages : List Addr} (opened : start ≤ last)
    (aligned : ∀ p ∈ last :: pages, 0x1000 ∣ p.toNat)
    (sorted : (last :: pages).Pairwise (· < ·)) :
    mergeRegions start (last + pageSize) pages =
      (Spans.mergeFrom 0x1000 start.toNat last.toNat (pages.map BitVec.toNat)).map regionOf := by
  induction pages generalizing start last with
  | nil =>
    rw [mergeRegions, region_eq opened]
    rfl
  | cons page rest ih =>
    obtain ⟨next, tail⟩ := List.pairwise_cons.mp sorted
    obtain ⟨first, others⟩ := List.forall_mem_cons.mp aligned
    have later : last < page := next page List.mem_cons_self
    have ends := toNat_regionEnd first (others page List.mem_cons_self) later
    have joins : page ≤ last + pageSize ↔ page.toNat ≤ last.toNat + 0x1000 := by
      rw [BitVec.le_def, ends]
    rw [mergeRegions, List.map_cons, Spans.mergeFrom]
    by_cases joined : page ≤ last + pageSize
    · rw [if_pos joined, if_pos (joins.mp joined)]
      exact ih (BitVec.le_trans opened (BitVec.le_of_lt later)) others tail
    · rw [if_neg joined, if_neg (mt joins.mpr joined), region_eq opened,
        ih (BitVec.le_refl page) others tail]
      rfl

/-- The sorted pages are strictly increasing: the set holds none of them twice. -/
theorem sort_increasing (dirty : Finset Addr) : dirty.sort.Pairwise (· < ·) :=
  (Finset.pairwise_sort _ _).imp₂ (fun _ _ below apart => BitVec.lt_of_le_ne below apart)
    (Finset.sort_nodup _ _)

/-- The regions of a set of pages are the spans of its sorted pages. -/
theorem getDirtyRegions_eq_merge {dirty : Finset Addr} (pages : PageSet dirty) :
    getDirtyRegions dirty =
      (Spans.merge 0x1000 (dirty.sort.map BitVec.toNat)).map regionOf := by
  have sorted := sort_increasing dirty
  have aligned : ∀ p ∈ dirty.sort, 0x1000 ∣ p.toNat := fun p member =>
    pages p ((Finset.mem_sort _).mp member)
  rw [getDirtyRegions]
  cases list : dirty.sort with
  | nil => rfl
  | cons page rest =>
    rw [list] at sorted aligned
    exact mergeRegions_eq (BitVec.le_refl page) aligned sorted

/-! ### The law -/

/-- The numbers of the sorted pages, a page wide each, are the bytes of the dirty pages. -/
theorem cells_eq_dirtyBytes {dirty : Finset Addr} (pages : PageSet dirty) :
    {n | ∃ cell ∈ dirty.sort.map BitVec.toNat, cell ≤ n ∧ n < cell + 0x1000} =
      dirtyBytes dirty := by
  ext n
  rw [Set.mem_ofPred_eq, dirtyBytes, Set.mem_ofPred_eq]
  constructor
  · rintro ⟨cell, member, above, below⟩
    obtain ⟨p, inside, rfl⟩ := List.mem_map.mp member
    have dirtied := (Finset.mem_sort _).mp inside
    have aligned := pages p dirtied
    have bound := p.isLt
    have place : (BitVec.ofNat 64 n).toNat = n := by
      rw [BitVec.toNat_ofNat, Nat.mod_eq_of_lt (by omega)]
    have same : pageOf (BitVec.ofNat 64 n) = p := BitVec.eq_of_toNat_eq (by
      rw [toNat_pageOf, place]
      omega)
    exact ⟨BitVec.ofNat 64 n, place, same ▸ dirtied⟩
  · rintro ⟨x, rfl, dirtied⟩
    refine ⟨(pageOf x).toNat, List.mem_map_of_mem ((Finset.mem_sort _).mpr dirtied), ?_, ?_⟩
    · rw [toNat_pageOf]
      omega
    · rw [toNat_pageOf]
      omega

theorem decomposes_dirtyBytes {dirty : Finset Addr} (pages : PageSet dirty) :
    Spans.Decomposes (Spans.merge 0x1000 (dirty.sort.map BitVec.toNat)) (dirtyBytes dirty) := by
  have sorted : (dirty.sort.map BitVec.toNat).Pairwise (· < ·) :=
    List.pairwise_map.mpr (sort_increasing dirty)
  rw [← cells_eq_dirtyBytes pages]
  exact Spans.decomposes_merge (by norm_num) sorted

theorem mem_dirtyBytes {dirty : Finset Addr} (x : Addr) :
    x.toNat ∈ dirtyBytes dirty ↔ pageOf x ∈ dirty := by
  rw [dirtyBytes, Set.mem_ofPred_eq]
  constructor
  · rintro ⟨y, same, dirtied⟩
    exact BitVec.eq_of_toNat_eq same ▸ dirtied
  · intro dirtied
    exact ⟨x, rfl, dirtied⟩

/-- Where a clean page is left, a span is shorter than the address space. -/
structure Fits (s : Spans.Span) : Prop where
  nonempty : s.start < s.stop
  within : s.stop ≤ 2 ^ 64
  proper : s.stop - s.start < 2 ^ 64
  aligned : 0x1000 ∣ s.start ∧ 0x1000 ∣ s.stop

theorem fits_of_mem_merge {dirty : Finset Addr} (pages : PageSet dirty) {clean : Addr}
    (page : 0x1000 ∣ clean.toNat) (left : clean ∉ dirty) {s : Spans.Span}
    (member : s ∈ Spans.merge 0x1000 (dirty.sort.map BitVec.toNat)) : Fits s := by
  have decomposes := decomposes_dirtyBytes pages
  have cell : ∀ n ∈ dirty.sort.map BitVec.toNat, 0x1000 ∣ n ∧ n + 0x1000 ≤ 2 ^ 64 := by
    intro n inside
    obtain ⟨p, sorted, rfl⟩ := List.mem_map.mp inside
    have aligned := pages p ((Finset.mem_sort _).mp sorted)
    have bound := p.isLt
    exact ⟨aligned, by omega⟩
  obtain ⟨starts, last, source, stops⟩ := Spans.ends_of_mem_merge member
  have nonempty := decomposes.nonempty s member
  have within : s.stop ≤ 2 ^ 64 := stops ▸ (cell last source).2
  refine ⟨nonempty, within, ?_, (cell _ starts).1, ?_⟩
  · by_contra whole
    -- A span as long as the address space holds the clean page too.
    have bound := clean.isLt
    have dirtied := decomposes.mem_of_contains member
      (x := clean.toNat) ⟨by omega, by omega⟩
    rw [mem_dirtyBytes] at dirtied
    have same : pageOf clean = clean := BitVec.eq_of_toNat_eq (by
      rw [toNat_pageOf]
      omega)
    exact left (same ▸ dirtied)
  · rw [stops]
    exact Nat.dvd_add (cell last source).1 (dvd_refl _)

theorem Fits.toNat_start {s : Spans.Span} (fits : Fits s) : (regionOf s).start.toNat = s.start := by
  have ⟨nonempty, within, _, _⟩ := fits
  exact (BitVec.toNat_ofNat _ _).trans (Nat.mod_eq_of_lt (by omega))

theorem Fits.toNat_size {s : Spans.Span} (fits : Fits s) :
    (regionOf s).size.toNat = s.stop - s.start :=
  (BitVec.toNat_ofNat _ _).trans (Nat.mod_eq_of_lt fits.proper)

theorem Fits.contains_iff {s : Spans.Span} (fits : Fits s) (x : Addr) :
    (regionOf s).Contains x ↔ s.Contains x.toNat := by
  have ⟨nonempty, within, proper, _⟩ := fits
  have bound := x.isLt
  rw [DirtyRegion.Contains, BitVec.toNat_sub, fits.toNat_start, fits.toNat_size,
    Spans.Span.Contains]
  omega

/-- What `get_dirty_regions` returns for every set of pages with a page left out. -/
theorem regionLaw (dirty : Finset Addr) (pages : PageSet dirty)
    (proper : ∃ clean : Addr, 0x1000 ∣ clean.toNat ∧ clean ∉ dirty) :
    RegionLaw dirty (getDirtyRegions dirty) := by
  obtain ⟨clean, page, left⟩ := proper
  have decomposes := decomposes_dirtyBytes pages
  have fits : ∀ s ∈ Spans.merge 0x1000 (dirty.sort.map BitVec.toNat), Fits s := fun s member =>
    fits_of_mem_merge pages page left member
  have separated : (getDirtyRegions dirty).Pairwise fun a b =>
      a.start.toNat + a.size.toNat < b.start.toNat := by
    rw [getDirtyRegions_eq_merge pages, List.pairwise_map]
    refine decomposes.separated.imp_of_mem ?_
    intro a b first second before
    have nonempty := (fits a first).nonempty
    rw [(fits a first).toNat_start, (fits a first).toNat_size, (fits b second).toNat_start]
    omega
  refine ⟨?_, ?_, ?_, ?_, separated, ?_⟩
  · rw [getDirtyRegions_eq_merge pages, List.forall_mem_map]
    intro s member
    rw [(fits s member).toNat_start]
    exact (fits s member).aligned.1
  · rw [getDirtyRegions_eq_merge pages, List.forall_mem_map]
    intro s member
    obtain ⟨nonempty, _, _, first, last⟩ := fits s member
    rw [(fits s member).toNat_size]
    exact ⟨by omega, Nat.dvd_sub last first⟩
  · rw [getDirtyRegions_eq_merge pages, List.forall_mem_map]
    intro s member
    obtain ⟨nonempty, within, _, _⟩ := fits s member
    rw [(fits s member).toNat_start, (fits s member).toNat_size]
    omega
  · refine separated.imp ?_
    intro a b before
    rw [BitVec.lt_def]
    omega
  · intro x
    rw [← mem_dirtyBytes, decomposes.covers, getDirtyRegions_eq_merge pages]
    simp only [List.mem_map, exists_exists_and_eq_and]
    refine exists_congr fun s => and_congr_right fun member => ?_
    exact ((fits s member).contains_iff x).symm

/-! ### Single regions -/

section Single

variable {dirty : Finset Addr} {r r' : DirtyRegion} {x : Addr}

theorem exists_span (pages : PageSet dirty)
    (proper : ∃ clean : Addr, 0x1000 ∣ clean.toNat ∧ clean ∉ dirty)
    (member : r ∈ getDirtyRegions dirty) :
    ∃ s ∈ Spans.merge 0x1000 (dirty.sort.map BitVec.toNat), Fits s ∧ regionOf s = r := by
  obtain ⟨clean, page, left⟩ := proper
  rw [getDirtyRegions_eq_merge pages] at member
  obtain ⟨s, span, same⟩ := List.mem_map.mp member
  exact ⟨s, span, fits_of_mem_merge pages page left span, same⟩

theorem within_of_mem (pages : PageSet dirty)
    (proper : ∃ clean : Addr, 0x1000 ∣ clean.toNat ∧ clean ∉ dirty)
    (member : r ∈ getDirtyRegions dirty) : r.start.toNat + r.size.toNat ≤ 2 ^ 64 := by
  obtain ⟨s, -, fits, rfl⟩ := exists_span pages proper member
  have ⟨nonempty, within, _, _⟩ := fits
  rw [fits.toNat_start, fits.toNat_size]
  omega

/-- The bytes of a region are dirty. -/
theorem dirty_of_contains (pages : PageSet dirty)
    (proper : ∃ clean : Addr, 0x1000 ∣ clean.toNat ∧ clean ∉ dirty)
    (member : r ∈ getDirtyRegions dirty) (inside : r.Contains x) : pageOf x ∈ dirty := by
  obtain ⟨s, span, fits, rfl⟩ := exists_span pages proper member
  exact (mem_dirtyBytes x).mp
    ((decomposes_dirtyBytes pages).mem_of_contains span ((fits.contains_iff x).mp inside))

/-- No byte is in two regions. -/
theorem eq_of_contains (pages : PageSet dirty)
    (proper : ∃ clean : Addr, 0x1000 ∣ clean.toNat ∧ clean ∉ dirty)
    (member : r ∈ getDirtyRegions dirty) (member' : r' ∈ getDirtyRegions dirty)
    (inside : r.Contains x) (inside' : r'.Contains x) : r = r' := by
  obtain ⟨s, span, fits, rfl⟩ := exists_span pages proper member
  obtain ⟨s', span', fits', rfl⟩ := exists_span pages proper member'
  obtain ⟨above, below⟩ := (fits.contains_iff x).mp inside
  obtain ⟨above', below'⟩ := (fits'.contains_iff x).mp inside'
  have separated := (decomposes_dirtyBytes pages).separated
  rcases Spans.eq_or_related separated span span' with same | before | after
  · exact congrArg regionOf same
  · omega
  · omega

end Single

/-! ### Runs of dirty bytes -/

/-- Every byte from `b` to `x` is on a dirty page. -/
def Joins (dirty : Finset Addr) (b x : Addr) : Prop :=
  b ≤ x ∧ ∀ y, b ≤ y → y ≤ x → pageOf y ∈ dirty

/-- The longest run of dirty bytes up to `x` begins at `b`. -/
def RunStart (dirty : Finset Addr) (b x : Addr) : Prop :=
  Joins dirty b x ∧ (b = 0 ∨ pageOf (b - 1) ∉ dirty)

theorem toNat_sub_one {b : Addr} (nonzero : b ≠ 0) : (b - 1).toNat + 1 = b.toNat := by
  have positive := toNat_pos_of_ne_zero nonzero
  rw [BitVec.toNat_sub]
  simp only [BitVec.reduceToNat]
  omega

theorem RunStart.unique {dirty : Finset Addr} {b c x : Addr} (first : RunStart dirty b x)
    (second : RunStart dirty c x) : b = c := by
  have not_below {b c : Addr} (first : RunStart dirty b x) (second : RunStart dirty c x) :
      ¬ b.toNat < c.toNat := by
    obtain ⟨⟨-, joined⟩, -⟩ := first
    obtain ⟨⟨below, -⟩, begins⟩ := second
    intro before
    rcases begins with rfl | clean
    · exact absurd before (Nat.not_lt_zero _)
    · have nonzero : c ≠ 0 := by
        rintro rfl
        exact absurd before (Nat.not_lt_zero _)
      have last := toNat_sub_one nonzero
      rw [BitVec.le_def] at below
      -- The byte before the later start is on the run from the earlier one.
      exact clean (joined (c - 1) (by rw [BitVec.le_def]; omega) (by rw [BitVec.le_def]; omega))
  have left := not_below first second
  have right := not_below second first
  exact BitVec.eq_of_toNat_eq (by omega)

theorem mem_dirtyBytes_of_joins {dirty : Finset Addr} {b x : Addr} (joins : Joins dirty b x)
    {n : ℕ} (above : b.toNat ≤ n) (below : n ≤ x.toNat) : n ∈ dirtyBytes dirty := by
  have bound := x.isLt
  have place : (BitVec.ofNat 64 n).toNat = n := by
    rw [BitVec.toNat_ofNat, Nat.mod_eq_of_lt (by omega)]
  exact ⟨BitVec.ofNat 64 n, place, joins.2 _ (by rwa [BitVec.le_def, place])
    (by rwa [BitVec.le_def, place])⟩

/-- A dirty byte is in a region that begins where its run begins and ends where it ends. -/
theorem exists_region {dirty : Finset Addr} (pages : PageSet dirty)
    (proper : ∃ clean : Addr, 0x1000 ∣ clean.toNat ∧ clean ∉ dirty) {x : Addr}
    (dirtied : pageOf x ∈ dirty) : ∃ r ∈ getDirtyRegions dirty, r.Contains x ∧
      RunStart dirty r.start x ∧ ∀ y, r.start ≤ y → (r.Contains y ↔ Joins dirty r.start y) := by
  obtain ⟨clean, page, left⟩ := proper
  have decomposes := decomposes_dirtyBytes pages
  obtain ⟨s, member, inside⟩ := (decomposes.covers _).mp ((mem_dirtyBytes x).mpr dirtied)
  have fits := fits_of_mem_merge pages page left member
  have first : s.Contains s.start := ⟨le_rfl, fits.nonempty⟩
  have joins : ∀ y, s.Contains y.toNat → Joins dirty (regionOf s).start y := by
    rintro y ⟨above, below⟩
    refine ⟨by rwa [BitVec.le_def, fits.toNat_start], ?_⟩
    intro z above' below'
    rw [BitVec.le_def, fits.toNat_start] at above'
    rw [BitVec.le_def] at below'
    exact (mem_dirtyBytes z).mp (decomposes.mem_of_contains member ⟨above', by omega⟩)
  refine ⟨regionOf s, ?_, (fits.contains_iff x).mpr inside, ⟨joins x inside, ?_⟩, ?_⟩
  · rw [getDirtyRegions_eq_merge pages]
    exact List.mem_map_of_mem member
  · by_cases zero : (regionOf s).start = 0
    · exact .inl zero
    · refine .inr fun reached => ?_
      have last := toNat_sub_one zero
      rw [fits.toNat_start] at last
      exact decomposes.before_notMem member last ((mem_dirtyBytes _).mpr reached)
  · intro y above
    rw [fits.contains_iff]
    refine ⟨joins y, fun joined => ?_⟩
    rw [BitVec.le_def, fits.toNat_start] at above
    refine ⟨above, decomposes.lt_stop member first ?_⟩
    intro n above' below'
    exact mem_dirtyBytes_of_joins joined (by rwa [fits.toNat_start]) below'

/-- With every page dirty there is one region, whose size is zero modulo `2 ^ 64`. -/
theorem getDirtyRegions_all {dirty : Finset Addr} (pages : PageSet dirty)
    (all : ∀ p : Addr, 0x1000 ∣ p.toNat → p ∈ dirty) :
    ∀ r ∈ getDirtyRegions dirty, r.size = 0 := by
  have decomposes := decomposes_dirtyBytes pages
  have dirtied : ∀ n < 2 ^ 64, n ∈ dirtyBytes dirty := by
    intro n bound
    exact ⟨BitVec.ofNat 64 n, (BitVec.toNat_ofNat _ _).trans (Nat.mod_eq_of_lt bound),
      all _ (dvd_pageOf _)⟩
  rw [getDirtyRegions_eq_merge pages, List.forall_mem_map]
  intro s member
  have first : s.Contains s.start := ⟨le_rfl, decomposes.nonempty s member⟩
  obtain ⟨y, same, -⟩ := decomposes.mem_of_contains member first
  have bound := y.isLt
  have start : s.start ≤ 0 := decomposes.start_le member first fun z _ _ => dirtied z (by omega)
  have above : 2 ^ 64 - 1 < s.stop := decomposes.lt_stop member first fun z _ below =>
    dirtied z (by omega)
  have stop : s.stop ≤ 2 ^ 64 := by
    obtain ⟨-, cell, source, ends⟩ := Spans.ends_of_mem_merge member
    obtain ⟨p, sorted, rfl⟩ := List.mem_map.mp source
    have aligned := pages p ((Finset.mem_sort _).mp sorted)
    have bound := p.isLt
    omega
  have whole : s.stop - s.start = 2 ^ 64 := by omega
  rw [regionOf, whole]
  rfl

/-- The first and the last page of the address space. -/
def endPages : Finset Addr := {0, 0xFFFFFFFFFFFFF000}

theorem pageSet_endPages : PageSet endPages := by
  intro p member
  rcases Finset.mem_insert.mp member with rfl | last
  · decide
  · rw [Finset.mem_singleton.mp last]
    decide

theorem exists_clean_endPages : ∃ clean : Addr, 0x1000 ∣ clean.toNat ∧ clean ∉ endPages :=
  ⟨0x1000, by decide, by decide⟩

/-- The last page is a region that ends at address zero; it does not swallow the first page. -/
theorem regionLaw_endPages : RegionLaw endPages (getDirtyRegions endPages) :=
  regionLaw endPages pageSet_endPages exists_clean_endPages

end Unxorer.WriteTracker
