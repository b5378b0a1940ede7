import Unxorer.Emulator.FoundStrings
import Unxorer.Emulator.Hooks
import Unxorer.Tracking.Regions

/-!
# Scans of a growing set of dirty pages

`dump_tracked_writes` reads at most 64 KiB of each region of dirty pages, from its start, and
passes a region over when a byte of that part is not mapped. A further dirty page can join
regions: a byte that was scanned is then further from the start of its region, and is read
along with bytes it was not read with before.

## Main definitions

* `Emulator.trackedReads` — the buffers `dump_tracked_writes` passes to the scanner
* `Emulator.Scans` — a byte is in one of them
* `Emulator.ReadFrom` — the read from the start of a run reaches a byte and succeeds

## Main results

* `Emulator.scans_iff` — the scanned bytes, by the runs of dirty bytes
* `Emulator.scans_recorded_iff` — which scanned bytes are scanned again after a further write
-/

set_option autoImplicit false

namespace Unxorer

open Unicorn WriteTracker

namespace Emulator

variable {U : Type} [Unicorn U] {e : Emulator U}

/-- The bytes `dump_tracked_writes` passes to the scanner, with where they were read. -/
def trackedReads (e : Emulator U) : List (Addr × List Byte) :=
  (getDirtyRegions e.dirtyPages).filterMap fun region =>
    (memRead e.engine region.start (min region.size.toNat 0x10000)).map (region.start, ·)

/-- The byte at `x` is among those passed to the scanner. -/
def Scans (e : Emulator U) (x : Addr) : Prop :=
  ∃ read ∈ e.trackedReads, (x - read.1).toNat < read.2.length

/-- The byte at `x` is less than 64 KiB above `b`, and the dirty bytes that follow `b` without
a gap are mapped for as long. -/
def ReadFrom (u : U) (dirty : Finset Addr) (b x : Addr) : Prop :=
  (x - b).toNat < 0x10000 ∧
    ∀ y, (y - b).toNat < 0x10000 → Joins dirty b y → mapped u y = true

/-- The strings of the tracked writes are those in the buffers. -/
theorem trackedCandidates_eq (e : Emulator U) : e.trackedCandidates =
    e.trackedReads.flatMap fun read => bufferCandidates (reg e.engine .rip) read.1 read.2 := by
  rw [trackedCandidates, trackedReads, List.filterMap_eq_flatMap_toList, List.flatMap_assoc]
  congr 1
  funext region
  rw [memoryCandidates]
  cases memRead e.engine region.start (min region.size.toNat 0x10000) with
  | none => rfl
  | some buffer => exact (List.append_nil _).symm

theorem scans_iff_region (x : Addr) : e.Scans x ↔ ∃ r ∈ getDirtyRegions e.dirtyPages,
    (x - r.start).toNat < min r.size.toNat 0x10000 ∧
      Mapped e.engine r.start (min r.size.toNat 0x10000) := by
  rw [Scans, trackedReads]
  constructor
  · rintro ⟨read, member, inside⟩
    obtain ⟨r, region, done⟩ := List.mem_filterMap.mp member
    obtain ⟨buffer, read', rfl⟩ := Option.map_eq_some_iff.mp done
    rw [length_of_memRead read'] at inside
    refine ⟨r, region, inside, ?_⟩
    by_contra missing
    rw [memRead_of_not_mapped missing] at read'
    cases read'
  · rintro ⟨r, region, inside, mapped⟩
    refine ⟨(r.start, bytesAt e.engine r.start (min r.size.toNat 0x10000)),
      List.mem_filterMap.mpr ⟨r, region, ?_⟩, ?_⟩
    · rw [memRead_of_mapped mapped, Option.map_some]
    · rwa [length_bytesAt]

/-- The read of a region is the read from the start of its run. -/
theorem readFrom_iff {u : U} {dirty : Finset Addr} {r : DirtyRegion} {x : Addr}
    (within : r.start.toNat + r.size.toNat ≤ 2 ^ 64)
    (run : ∀ y, r.start ≤ y → (r.Contains y ↔ Joins dirty r.start y)) (inside : r.Contains x) :
    (x - r.start).toNat < min r.size.toNat 0x10000 ∧ Mapped u r.start (min r.size.toNat 0x10000) ↔
      ReadFrom u dirty r.start x := by
  constructor
  · rintro ⟨reached, mapped⟩
    refine ⟨(lt_min_iff.mp reached).2, ?_⟩
    intro y near joined
    have read := mapped (y - r.start).toNat (lt_min ((run y joined.1).mpr joined) near)
    rwa [add_offset] at read
  · rintro ⟨near, mapped⟩
    refine ⟨lt_min inside near, ?_⟩
    intro i below
    obtain ⟨short, near'⟩ := lt_min_iff.mp below
    have place := toNat_add_ofNat (a := r.start) (k := i) (by omega)
    have offset := toNat_offset r.start (i := i) (by omega)
    have above : r.start ≤ r.start + BitVec.ofNat 64 i := by
      rw [BitVec.le_def, place]
      omega
    exact mapped _ (by rwa [offset]) ((run _ above).mp (by rwa [DirtyRegion.Contains, offset]))

/-- Only bytes on dirty pages are scanned. -/
theorem dirty_of_scans (pages : PageSet e.dirtyPages) {x : Addr} (scanned : e.Scans x) :
    pageOf x ∈ e.dirtyPages := by
  by_contra clean
  obtain ⟨r, region, reached, -⟩ := (scans_iff_region x).mp scanned
  exact clean (dirty_of_contains pages ⟨pageOf x, dvd_pageOf x, clean⟩ region
    (lt_min_iff.mp reached).1)

/-- A dirty byte is scanned exactly when a page is clean and the read from the start of its
run of dirty bytes reaches it and succeeds. -/
theorem scans_iff (pages : PageSet e.dirtyPages) {x : Addr} (dirtied : pageOf x ∈ e.dirtyPages) :
    e.Scans x ↔ (∃ clean : Addr, 0x1000 ∣ clean.toNat ∧ clean ∉ e.dirtyPages) ∧
      ∀ b, RunStart e.dirtyPages b x → ReadFrom e.engine e.dirtyPages b x := by
  rw [scans_iff_region]
  by_cases proper : ∃ clean : Addr, 0x1000 ∣ clean.toNat ∧ clean ∉ e.dirtyPages
  · obtain ⟨r, region, inside, start, run⟩ := exists_region pages proper dirtied
    have read := readFrom_iff (u := e.engine) (within_of_mem pages proper region) run inside
    rw [and_iff_right proper]
    constructor
    -- The region of `x` is unique, and so is the start of its run.
    · rintro ⟨r', region', reached, mapped⟩ b begins
      obtain rfl : r = r' := eq_of_contains pages proper region region' inside
        (lt_min_iff.mp reached).1
      obtain rfl : r.start = b := start.unique begins
      exact read.mp ⟨reached, mapped⟩
    · intro reads
      exact ⟨r, region, read.mpr (reads r.start start)⟩
  -- Where every page is dirty, the size of the one region has wrapped around to 0.
  · refine iff_of_false ?_ fun both => proper both.1
    rintro ⟨r, region, reached, -⟩
    have size : r.size = 0 := getDirtyRegions_all pages (by
      intro p aligned
      by_contra clean
      exact proper ⟨p, aligned, clean⟩) r region
    rw [size] at reached
    exact Nat.not_lt_zero _ reached

/-- After one more recorded write, a byte that was scanned before is scanned again exactly
when a page is still clean and its run of dirty bytes, which may have grown, begins less than
64 KiB below it and is mapped for 64 KiB or up to its end. -/
theorem scans_recorded_iff (pages : PageSet e.dirtyPages) {address : Addr} {size : BitVec 64}
    {dirty' : Finset Addr} (recorded : recordWrite e.dirtyPages address size = .ok dirty')
    {x : Addr} (scanned : e.Scans x) :
    Scans { e with dirtyPages := dirty' } x ↔
      (∃ clean : Addr, 0x1000 ∣ clean.toNat ∧ clean ∉ dirty') ∧
        ∀ b, RunStart dirty' b x → ReadFrom e.engine dirty' b x := by
  have dirtied := subset_of_recordWrite recorded (dirty_of_scans pages scanned)
  exact scans_iff (e := { e with dirtyPages := dirty' }) (pages.recordWrite recorded) dirtied

end Emulator

/-! ### Bytes that are lost -/

namespace Example

open Emulator

/-- The sixteen pages from 10000h on. -/
def sixteenPages : Finset Addr :=
  (Finset.range 16).image fun k => BitVec.ofNat 64 (0x10000 + 0x1000 * k)

/-- The first two megabytes are mapped. -/
def wideMachine : Machine := Machine.empty.map 0 0x200000

/-- The sixteen pages are mapped and nothing else. -/
def narrowMachine : Machine := Machine.empty.map 0x10000 0x10000

/-- An emulator with sixteen dirty pages. -/
def sixteenDirty (m : Machine) : Emulator Machine :=
  { Emulator.initial m .fresh image decoded false true with dirtyPages := sixteenPages }

theorem mapped_wideMachine {y : Addr} (below : y.toNat < 0x20000) :
    mapped wideMachine y = true := by
  change (false || decide (0 ≤ y.toNat / 0x1000 ∧ y.toNat / 0x1000 < 0 + 0x200000 / 0x1000)) = true
  rw [Bool.false_or, decide_eq_true_iff]
  omega

theorem mapped_narrowMachine {y : Addr} (above : 0x10000 ≤ y.toNat) (below : y.toNat < 0x20000) :
    mapped narrowMachine y = true := by
  change (false || decide (0x10000 / 0x1000 ≤ y.toNat / 0x1000 ∧
    y.toNat / 0x1000 < 0x10000 / 0x1000 + 0x10000 / 0x1000)) = true
  rw [Bool.false_or, decide_eq_true_iff]
  omega

theorem mem_sixteenPages {y : Addr} (above : 0x10000 ≤ y.toNat) (below : y.toNat < 0x20000) :
    pageOf y ∈ sixteenPages := by
  refine Finset.mem_image.mpr ⟨y.toNat / 0x1000 - 16, ?_, BitVec.eq_of_toNat_eq ?_⟩
  · rw [Finset.mem_range]
    omega
  · rw [toNat_pageOf, BitVec.toNat_ofNat]
    omega

theorem of_mem_sixteenPages {p : Addr} (member : p ∈ sixteenPages) :
    0x1000 ∣ p.toNat ∧ 0x10000 ≤ p.toNat ∧ p.toNat < 0x20000 := by
  obtain ⟨k, inside, rfl⟩ := Finset.mem_image.mp member
  rw [Finset.mem_range] at inside
  rw [BitVec.toNat_ofNat]
  omega

theorem pageSet_sixteenPages : PageSet sixteenPages :=
  fun _ member => (of_mem_sixteenPages member).1

/-- Where they are mapped, all sixteen pages are scanned. -/
theorem scans_sixteenDirty {m : Machine}
    (present : ∀ y : Addr, 0x10000 ≤ y.toNat → y.toNat < 0x20000 → mapped m y = true) {x : Addr}
    (above : 0x10000 ≤ x.toNat) (below : x.toNat < 0x20000) : (sixteenDirty m).Scans x := by
  refine (scans_iff (e := sixteenDirty m) pageSet_sixteenPages (mem_sixteenPages above below)).mpr
    ⟨⟨0, by decide, fun zero => absurd (of_mem_sixteenPages zero).2.1 (by decide)⟩, ?_⟩
  intro b start
  have begins : RunStart sixteenPages 0x10000 x := by
    refine ⟨⟨by rwa [BitVec.le_def], fun y above below' => ?_⟩, .inr fun reached => ?_⟩
    · rw [BitVec.le_def] at above below'
      exact mem_sixteenPages above (below'.trans_lt below)
    · exact absurd (of_mem_sixteenPages reached).2.1 (by decide)
  obtain rfl : b = 0x10000 := start.unique begins
  have offset (y : Addr) : (y - (0x10000 : Addr)).toNat = (2 ^ 64 - 0x10000 + y.toNat) % 2 ^ 64 :=
    BitVec.toNat_sub _ _
  refine ⟨by rw [offset]; omega, ?_⟩
  intro y near joined
  have above : 0x10000 ≤ y.toNat := joined.1
  rw [offset] at near
  exact present y above (by omega)

/-- Once the page below them is dirty, a scanned byte is less than 64 KiB above it, and it is
mapped. -/
theorem readFrom_of_scans {m : Machine} {dirty' : Finset Addr}
    (recorded : recordWrite sixteenPages 0xF000 1 = .ok dirty') {x : Addr}
    (above : 0x10000 ≤ x.toNat) (below : x.toNat < 0x20000)
    (scanned : Emulator.Scans { sixteenDirty m with dirtyPages := dirty' } x) :
    (x - 0xF000).toNat < 0x10000 ∧ mapped m 0xF000 = true := by
  have inner : pageOf (0xF000 + 1 - 1) ≠ topPage := by decide
  obtain ⟨dirty'', recorded', members⟩ := recordWrite_eq_ok sixteenPages inner
  obtain rfl : dirty'' = dirty' := Except.ok.inj (recorded'.symm.trans recorded)
  have kept := subset_of_recordWrite recorded
  have added : (0xF000 : Addr) ∈ dirty'' := (members _).mpr (.inr (by decide))
  -- The run of the byte begins one page earlier now.
  have begins : RunStart dirty'' 0xF000 x := by
    refine ⟨⟨BitVec.le_def.mpr ((by decide : _ ≤ 0x10000).trans above), fun y above' below' => ?_⟩,
      .inr fun reached => ?_⟩
    · rw [BitVec.le_def] at above' below'
      simp only [BitVec.reduceToNat] at above'
      by_cases first : y.toNat < 0x10000
      · have same : pageOf y = 0xF000 := by
          apply BitVec.eq_of_toNat_eq
          rw [toNat_pageOf]
          simp only [BitVec.reduceToNat]
          omega
        exact same ▸ added
      · exact kept (mem_sixteenPages (by omega) (by omega))
    · rcases (members _).mp reached with old | ⟨above', -⟩
      · exact absurd (of_mem_sixteenPages old).2.1 (by decide)
      · exact absurd above' (by decide)
  have reads := ((scans_iff (e := { sixteenDirty m with dirtyPages := dirty'' })
    (pageSet_sixteenPages.recordWrite recorded)
    (kept (mem_sixteenPages above below))).mp scanned).2 _ begins
  have joined : Joins dirty'' 0xF000 0xF000 := by
    refine ⟨BitVec.le_refl _, fun y above' below' => ?_⟩
    exact begins.1.2 y above' (BitVec.le_trans below' begins.1.1)
  exact ⟨reads.1, reads.2 0xF000 (by decide) joined⟩

end Example

theorem Emulator.scans_recorded_iff_example :
    PageSet (Example.sixteenDirty Example.wideMachine).dirtyPages ∧
    ∃ dirty', recordWrite (Example.sixteenDirty Example.wideMachine).dirtyPages 0x11000 8 =
        .ok dirty' ∧
      (Example.sixteenDirty Example.wideMachine).Scans 0x1F000 ∧
      (Emulator.Scans { Example.sixteenDirty Example.wideMachine with dirtyPages := dirty' }
          0x1F000 ↔
        (∃ clean : Addr, 0x1000 ∣ clean.toNat ∧ clean ∉ dirty') ∧
          ∀ b, RunStart dirty' b 0x1F000 → ReadFrom Example.wideMachine dirty' b 0x1F000) := by
  have inner : pageOf (0x11000 + 8 - 1) ≠ topPage := by decide
  obtain ⟨dirty', recorded, -⟩ := recordWrite_eq_ok Example.sixteenPages inner
  have scanned : (Example.sixteenDirty Example.wideMachine).Scans 0x1F000 :=
    Example.scans_sixteenDirty (fun _ _ => Example.mapped_wideMachine) (by decide) (by decide)
  exact ⟨Example.pageSet_sixteenPages, dirty', recorded, scanned,
    scans_recorded_iff Example.pageSet_sixteenPages recorded scanned⟩

/-- A store of one byte below a scanned region of 64 KiB. Where its page is not mapped, the
region is not scanned any more; where it is, the last page of the region is not. -/
theorem Emulator.not_scans_recorded : ∃ dirty',
    recordWrite Example.sixteenPages 0xF000 1 = .ok dirty' ∧
      ((Example.sixteenDirty Example.narrowMachine).Scans 0x10000 ∧ ¬ Emulator.Scans
        { Example.sixteenDirty Example.narrowMachine with dirtyPages := dirty' } 0x10000) ∧
      (Example.sixteenDirty Example.wideMachine).Scans 0x1F000 ∧ ¬ Emulator.Scans
        { Example.sixteenDirty Example.wideMachine with dirtyPages := dirty' } 0x1F000 := by
  have inner : pageOf (0xF000 + 1 - 1) ≠ topPage := by decide
  obtain ⟨dirty', recorded, -⟩ := recordWrite_eq_ok Example.sixteenPages inner
  refine ⟨dirty', recorded, ⟨?_, fun scanned => ?_⟩, ?_, fun scanned => ?_⟩
  · exact Example.scans_sixteenDirty (fun _ => Example.mapped_narrowMachine) (by decide)
      (by decide)
  · have reads := Example.readFrom_of_scans recorded (by decide) (by decide) scanned
    exact absurd reads.2 (by decide)
  · exact Example.scans_sixteenDirty (fun _ _ => Example.mapped_wideMachine) (by decide)
      (by decide)
  · have reads := Example.readFrom_of_scans recorded (by decide) (by decide) scanned
    exact absurd reads.1 (by decide)

end Unxorer
