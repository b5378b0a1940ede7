import Unxorer.Emulator.DirtyPages
import Unxorer.Emulator.Provenance
import Unxorer.Tracking.RecordedPages
import Unxorer.Tracking.Regions

/-!
# Texts on the pages of stores

With write tracking a run keeps the set of pages its stores have touched, and scans them at
calls, at returns and at the end of a slice. A text the emulated program has put together there
is found, wherever its bytes came from, if it lies in the part of its region that is read.

## Main definitions

* `StoredOn` — a store of the past has touched a page
* `InScannedRegion` — the part of the tracked pages that is read

## Main results

* `mem_dirtyPages_of_trace` — the tracked pages are those the stores of the run have touched
* `trackedText_found_of_trace` — a text on such pages is found
-/

set_option autoImplicit false

namespace Unxorer

open Unicorn InstructionClassifier Strings TerminatedRuns Transition WriteTracker

variable {U : Type} [Unicorn U]

/-! ### The pages of stores -/

/-- A store of the past has touched the page. -/
def StoredOn (past : Past U) (p : Addr) : Prop :=
  ∃ t address bytes, (t, RunEvent.store address bytes) ∈ past ∧
    Touches address (BitVec.ofNat 64 bytes.length) p

/-- No store of the past reaches beyond the end of the address space. -/
def StoresBounded (past : Past U) : Prop :=
  ∀ t address bytes, (t, RunEvent.store address bytes) ∈ past →
    address.toNat + bytes.length ≤ 2 ^ 64

/-- The tracked pages are those the stores of the past have touched. The topmost page is not
among them: recording a store to it does not return. -/
structure TracksStores (past : Past U) (dirty : Finset Addr) : Prop where
  mem_iff : ∀ p, p ∈ dirty ↔ StoredOn past p
  top : topPage ∉ dirty

namespace TracksStores

variable {past : Past U} {dirty dirty' : Finset Addr} {s : Counters × RunState U}

theorem pageSet (tracks : TracksStores past dirty) : PageSet dirty := by
  intro p member
  obtain ⟨t, address, bytes, -, k, -, rfl⟩ := (tracks.mem_iff p).mp member
  exact dvd_pageOf _

theorem proper (tracks : TracksStores past dirty) :
    ∃ clean : Addr, 0x1000 ∣ clean.toNat ∧ clean ∉ dirty :=
  ⟨topPage, by decide, tracks.top⟩

/-- A step that is no store tracks no page. -/
theorem other (tracks : TracksStores past dirty) {event : RunEvent U}
    (plain : event.isStore = false) : TracksStores ((s, event) :: past) dirty := by
  refine ⟨fun p => (tracks.mem_iff p).trans ?_, tracks.top⟩
  constructor
  · rintro ⟨t, address, bytes, member, touches⟩
    exact ⟨t, address, bytes, List.mem_cons_of_mem _ member, touches⟩
  · rintro ⟨t, address, bytes, member, touches⟩
    rcases List.mem_cons.mp member with same | old
    · cases same
      cases plain
    · exact ⟨t, address, bytes, old, touches⟩

/-- A store tracks the pages it touches. -/
theorem store (tracks : TracksStores past dirty) {address : Addr} {bytes : List Byte}
    (nonempty : bytes ≠ []) (small : bytes.length < 2 ^ 31)
    (room : address.toNat + bytes.length ≤ 2 ^ 64)
    (recorded : recordWrite dirty address (BitVec.ofNat 64 bytes.length) = .ok dirty') :
    TracksStores ((s, .store address bytes) :: past) dirty' := by
  have size : (BitVec.ofNat 64 bytes.length).toNat = bytes.length := by
    rw [BitVec.toNat_ofNat]
    omega
  have positive : 1 ≤ (BitVec.ofNat 64 bytes.length).toNat := by
    rw [size]
    exact List.length_pos_iff.mpr nonempty
  -- Recording has returned, so the store has not reached the topmost page.
  have inner : pageOf (address + BitVec.ofNat 64 bytes.length - 1) ≠ topPage := by
    intro top
    rw [recordWrite_eq_hang top] at recorded
    cases recorded
  obtain ⟨dirty₁, done, members⟩ := recordWrite_eq_ok dirty inner
  cases done.symm.trans recorded
  have touched (p : Addr) : p ∈ dirty' ↔ p ∈ dirty ∨
      Touches address (BitVec.ofNat 64 bytes.length) p := by
    rw [members, touches_iff positive (by rwa [size])]
  refine ⟨fun p => ?_, fun top => ?_⟩
  · rw [touched, tracks.mem_iff]
    constructor
    · rintro (⟨t, a, bs, member, touches⟩ | touches)
      · exact ⟨t, a, bs, List.mem_cons_of_mem _ member, touches⟩
      · exact ⟨s, address, bytes, List.mem_cons_self, touches⟩
    · rintro ⟨t, a, bs, member, touches⟩
      rcases List.mem_cons.mp member with same | old
      · cases same
        exact .inr touches
      · exact .inl ⟨t, a, bs, old, touches⟩
  · rcases (members _).mp top with old | ⟨-, under, -⟩
    · exact tracks.top old
    · have last := dvd_pageOf (address + BitVec.ofNat 64 bytes.length - 1)
      have bound := (pageOf (address + BitVec.ofNat 64 bytes.length - 1)).isLt
      rw [toNat_topPage] at under
      exact inner (BitVec.eq_of_toNat_eq (by rw [toNat_topPage]; omega))

end TracksStores

section Runs

variable [Host] {past : Past U} {event : RunEvent U} {s s' : Counters × RunState U}

/-- Every step tracks the stores of the run. -/
theorem RunStep.tracksStores (step : RunStep event s s')
    (enabled : s.2.emulator.enableWriteTracking = true)
    (bounded : StoresBounded ((s, event) :: past))
    (tracks : TracksStores past s.2.emulator.dirtyPages) :
    TracksStores ((s, event) :: past) s'.2.emulator.dirtyPages := by
  cases stores : event.isStore with
  | false =>
    rw [step.dirtyPages_eq stores]
    exact tracks.other stores
  | true =>
    cases step with
    | @store c r before done e address bytes here nonempty small stored =>
      obtain ⟨e₀, e₁, hooked, maps, result⟩ := Emulator.guestStore_cases stored
      rw [if_pos enabled] at hooked
      obtain ⟨dirtyPages, recorded, rfl⟩ := Emulator.hookMemWrite_cases hooked
      rw [if_pos (List.length_pos_iff.mpr nonempty)] at recorded
      have room := bounded _ _ _ List.mem_cons_self
      have kept := tracks.store (s := (c, r)) nonempty small room recorded
      have same : e₁.dirtyPages = dirtyPages := by rw [maps.same]
      rcases result with ⟨-, rfl⟩ | ⟨-, -, rfl⟩
      · rw [same]
        exact kept
      · rw [same]
        exact kept
    | enter | code | load | execute | leave | interfere => cases stores

theorem tracksStores_of_trace {e : Emulator U} {args : RunArgs} {r : RunState U} {c : Counters}
    (tracking : e.enableWriteTracking = true) (started : e.startRun args = .ok r)
    (trace : Trace RunStep (c, r) past s) (bounded : StoresBounded past) :
    TracksStores past s.2.emulator.dirtyPages := by
  have initial : r.emulator.enableWriteTracking = true ∧ r.emulator.dirtyPages = ∅ := by
    obtain ⟨e', reset, rfl⟩ := Emulator.startRun_cases started
    obtain ⟨u, heap, -, rfl⟩ := Emulator.resetForRun_cases reset
    exact ⟨tracking, rfl⟩
  have invariant := trace.invariant
    (P := fun past s => StoresBounded past → s.2.emulator.enableWriteTracking = true ∧
      TracksStores past s.2.emulator.dirtyPages) ?_ ?_
  · exact (invariant bounded).2
  · intro _
    refine ⟨initial.1, fun p => ?_, ?_⟩
    · rw [initial.2]
      exact ⟨fun member => absurd member (Finset.notMem_empty p),
        fun ⟨_, _, _, member, _⟩ => absurd member List.not_mem_nil⟩
    · rw [initial.2]
      exact Finset.notMem_empty _
  · intro past s event s' holds step bounded
    obtain ⟨enabled, tracks⟩ := holds fun t a bs member => bounded t a bs (.tail _ member)
    exact ⟨(congrArg Emulator.Settings.enableWriteTracking step.settings_eq).trans enabled,
      step.tracksStores enabled bounded tracks⟩

/-- In a run with write tracking the tracked pages are always those that the stores of the run
have touched so far, no more and no fewer, and never the topmost page. -/
theorem mem_dirtyPages_of_trace {e : Emulator U} {args : RunArgs} {r : RunState U} {c : Counters}
    (tracking : e.enableWriteTracking = true) (started : e.startRun args = .ok r)
    (trace : Trace RunStep (c, r) past s) (bounded : StoresBounded past) :
    (∀ p, p ∈ s.2.emulator.dirtyPages ↔ StoredOn past p) ∧ topPage ∉ s.2.emulator.dirtyPages := by
  have tracks := tracksStores_of_trace tracking started trace bounded
  exact ⟨tracks.mem_iff, tracks.top⟩

/-! ### Texts on tracked pages -/

omit [Host] in
/-- A range on pages other than the topmost one does not wrap around. -/
theorem room_of_pages {dirty : Finset Addr} {p : Addr} {n : ℕ} (top : topPage ∉ dirty)
    (pages : ∀ k ≤ n, pageOf (p + BitVec.ofNat 64 k) ∈ dirty) : p.toNat + n < 2 ^ 64 := by
  by_contra wraps
  have bound := p.isLt
  have page := toNat_topPage
  -- The first byte of the range that is not below the topmost page.
  refine top ?_
  have last : pageOf (p + BitVec.ofNat 64 (max p.toNat (2 ^ 64 - 0x1000) - p.toNat)) = topPage := by
    refine BitVec.eq_of_toNat_eq ?_
    rw [toNat_pageOf, toNat_add_ofNat (by omega), page]
    omega
  rw [← last]
  exact pages _ (by omega)

omit [Host] in
/-- The tracked pages up to a byte, read from the start of their region. -/
theorem joins_of_pages {dirty : Finset Addr} {b p : Addr} {n : ℕ} (start : RunStart dirty b p)
    (room : p.toNat + n < 2 ^ 64) (pages : ∀ k ≤ n, pageOf (p + BitVec.ofNat 64 k) ∈ dirty) :
    Joins dirty b (p + BitVec.ofNat 64 n) := by
  obtain ⟨⟨before, joined⟩, -⟩ := start
  have last : (p + BitVec.ofNat 64 n).toNat = p.toNat + n := toNat_add_ofNat room
  rw [BitVec.le_def] at before
  refine ⟨by rw [BitVec.le_def]; omega, fun y above below => ?_⟩
  rw [BitVec.le_def] at below
  by_cases early : y ≤ p
  · exact joined y above early
  · rw [BitVec.not_le, BitVec.lt_def] at early
    -- Behind the first byte of the text the pages are those of its other bytes.
    have place : y = p + BitVec.ofNat 64 (y.toNat - p.toNat) := by
      refine BitVec.eq_of_toNat_eq ?_
      rw [toNat_add_ofNat (by omega)]
      omega
    rw [place]
    exact pages _ (by omega)

/-- The part of the tracked pages that is read: from the start of their region on, up to
`10000h` bytes, all of them mapped. -/
structure InScannedRegion (e : Emulator U) (b p : Addr) (length : ℕ) : Prop where
  start : RunStart e.dirtyPages b p
  inside : (p - b).toNat + length < 0x10000
  readable : ∀ y, Joins e.dirtyPages b y → (y - b).toNat < 0x10000 → mapped e.engine y = true
  first : p = b ∨ isAsciiPrintable (byte e.engine (p - 1)) = false

omit [Host] in
theorem Emulator.mem_trackedCandidates {e : Emulator U} {b p : Addr} {text : List Byte}
    (tracks : TracksStores past e.dirtyPages) (holds : HoldsText e.engine p text)
    (pages : ∀ k ≤ text.length, StoredOn past (pageOf (p + BitVec.ofNat 64 k)))
    (scanned : InScannedRegion e b p text.length) :
    ⟨reg e.engine .rip, p, text⟩ ∈ e.trackedCandidates := by
  have dirty (k : ℕ) (short : k ≤ text.length) : pageOf (p + BitVec.ofNat 64 k) ∈ e.dirtyPages :=
    (tracks.mem_iff _).mpr (pages k short)
  have here : pageOf p ∈ e.dirtyPages := by
    simpa using dirty 0 (Nat.zero_le _)
  obtain ⟨region, member, contains, begins, ends⟩ := exists_region tracks.pageSet tracks.proper here
  obtain rfl := begins.unique scanned.start
  have within := within_of_mem tracks.pageSet tracks.proper member
  have below := begins.1.1
  rw [BitVec.le_def] at below
  have room := room_of_pages tracks.top dirty
  -- The region goes on to the NUL behind the text.
  have last : (p - region.start).toNat + text.length < region.size.toNat := by
    have joined := joins_of_pages begins room dirty
    have inside := (ends _ joined.1).mpr joined
    have offset : (p - region.start).toNat = p.toNat - region.start.toNat :=
      BitVec.toNat_sub_of_le begins.1.1
    rw [DirtyRegion.Contains, BitVec.toNat_sub_of_le joined.1, toNat_add_ofNat room] at inside
    omega
  have readable : Mapped e.engine region.start (min region.size.toNat 0x10000) := by
    intro i small
    have place : (region.start + BitVec.ofNat 64 i).toNat = region.start.toNat + i :=
      toNat_add_ofNat (by omega)
    have offset : (region.start + BitVec.ofNat 64 i - region.start).toNat = i := by
      rw [BitVec.toNat_sub_of_le (by rw [BitVec.le_def]; omega), place]
      omega
    refine scanned.readable _ ((ends _ (by rw [BitVec.le_def]; omega)).mp ?_) (by omega)
    rw [DirtyRegion.Contains, offset]
    omega
  have run := (mem_scanFrom_iff 0 _ _ text).mpr ⟨_, (Nat.zero_add _).symm,
    holds.runAt (lt_min last scanned.inside) scanned.first⟩
  refine List.mem_flatMap.mpr ⟨region, member, ?_⟩
  rw [memoryCandidates, memRead_of_mapped readable]
  simp only [bufferCandidates, List.mem_map, Prod.exists]
  exact ⟨_, text, run, by rw [add_offset]⟩

/-- The tracked pages are scanned in a step. -/
def RunEvent.scansPages (e : Emulator U) : RunEvent U → Prop
  | .code address _ stop => stop = false ∧ ∃ insn, e.tryGetInsn address = some insn ∧
      shouldSkip insn.itype = false ∧ isCallOrRet insn.itype = true
  | .leave _ => True
  | _ => False

/-- With write tracking, a text in guest memory is among the strings a run finds if, when a
call or a return is reached or a slice ends, each of its bytes is on a page that a store of the
run has touched before, and the text is in the part of its region that is read. -/
theorem trackedText_found_of_trace {e : Emulator U} {args : RunArgs} {r : RunState U}
    {c : Counters} {later earlier : Past U} {t : Counters × RunState U} {b p : Addr}
    {text : List Byte} (tracking : e.enableWriteTracking = true)
    (started : e.startRun args = .ok r)
    (trace : Trace RunStep (c, r) (later ++ (t, event) :: earlier) s)
    (bounded : StoresBounded earlier) (scans : event.scansPages t.2.emulator)
    (holds : HoldsText t.2.emulator.engine p text)
    (pages : ∀ k ≤ text.length, StoredOn earlier (pageOf (p + BitVec.ofNat 64 k)))
    (scanned : InScannedRegion t.2.emulator b p text.length) (nonempty : stored text ≠ []) :
    ∃ f ∈ s.2.emulator.stringList, f.data = stored text := by
  have before := trace.of_append
  have tracks := tracksStores_of_trace tracking started before bounded
  have candidate := Emulator.mem_trackedCandidates tracks holds pages scanned
  have enabled : t.2.emulator.enableWriteTracking = true := by
    obtain ⟨e', reset, rfl⟩ := Emulator.startRun_cases started
    obtain ⟨u, heap, -, rfl⟩ := Emulator.resetForRun_cases reset
    injection settings_of_trace before with _ _ _ _ _ same
    exact same.trans tracking
  have law : TextLaw _ s :=
    trace.invariant (textLaw_initial started) fun _ _ _ _ law step => law.step step
  have member : (t, event) ∈ later ++ (t, event) :: earlier :=
    List.mem_append_right _ List.mem_cons_self
  cases event with
  | code address size stop =>
    obtain ⟨rfl, insn, decoded, skip, call⟩ := scans
    have found := law.before t address size insn member decoded skip
    rw [Emulator.candidatesBefore, if_pos enabled, if_pos call] at found
    exact found _ candidate nonempty
  | leave elapsedUs => exact law.leaving t elapsedUs member enabled _ candidate nonempty
  | enter | store | load | execute | interfere => exact scans.elim

/-! ### Scans return -/

/-- A host that can allocate the buffer of one scan gets through all of them. -/
theorem Emulator.exists_dumpRegions (room : 0x10000 ≤ Host.vectorMax) (rip : Addr)
    (regions : List DirtyRegion) (e : Emulator U) : ∃ e', dumpRegions rip regions e = .ok e' := by
  induction regions generalizing e with
  | nil => exact ⟨e, rfl⟩
  | cons region rest ih =>
    have buffer : hostVector (min region.size.toNat 0x10000) = .ok () := if_pos (by omega)
    rw [dumpRegions, buffer]
    cases memRead e.engine region.start (min region.size.toNat 0x10000) with
    | none => exact ih e
    | some bytes => exact ih _

theorem RunState.exists_leaveSlice (room : 0x10000 ≤ Host.vectorMax) (r : RunState U)
    (c : Counters) (before elapsedUs : BitVec 64) :
    ∃ r', r.leaveSlice c before elapsedUs = .ok r' := by
  obtain ⟨e, scanned⟩ : ∃ e, (if r.emulator.enableWriteTracking then
      r.emulator.dumpTrackedWrites else .ok r.emulator) = .ok e := by
    rw [Emulator.dumpTrackedWrites]
    split_ifs
    · exact ⟨r.emulator, rfl⟩
    · exact Emulator.exists_dumpRegions room _ _ r.emulator
    · exact ⟨r.emulator, rfl⟩
  -- The budgets are charged before the scan and are none of its business.
  by_cases instr : r.limitInstr = true <;> by_cases time : r.limitTime = true
  all_goals
    simp only [leaveSlice, instr, time, Bool.false_eq_true, if_true, if_false, scanned]
    exact ⟨_, rfl⟩

end Runs

namespace Example

/-- A run without limits and with write tracking. -/
def trackedRun : RunState Machine := startedOf decoded true ⟨0x140000000, 0, 0, 0, false⟩

/-- The page of the store in the run below. -/
def wordPage : Addr := 0x7FFEF000

theorem exists_storedWord : ∃ earlier s t,
    Trace RunStep (noCounts, trackedRun) ([] ++ (t, .leave 0) :: earlier) s ∧
      StoresBounded earlier ∧ (∃ u, (u, RunEvent.store wordPage word) ∈ earlier) ∧
      t.2.emulator.dirtyPages = {wordPage} ∧ t.2.emulator.engine.mappedPage 0x7FFEF = true ∧
      HoldsText t.2.emulator.engine wordPage [0x61, 0x62, 0x63, 0x64] := by
  obtain ⟨⟨earlier, c, r⟩, performed, here, bounded, stored, dirty, present, holds⟩ :
      ∃ p, Trace.performTrace RunEvent.perform [] (noCounts, trackedRun)
          [.enter false, .store wordPage word] = some p ∧
        p.2.2.phase = .slice 0 ∧ StoresBounded p.1 ∧
        (∃ u, (u, RunEvent.store wordPage word) ∈ p.1) ∧
        p.2.2.emulator.dirtyPages = {wordPage} ∧
        p.2.2.emulator.engine.mappedPage 0x7FFEF = true ∧
        HoldsText p.2.2.emulator.engine wordPage [0x61, 0x62, 0x63, 0x64] := by
    refine ⟨_, rfl, rfl, ?_, ⟨_, List.mem_cons_self⟩, ?_, rfl, ⟨?_, ?_, ?_⟩⟩
    · intro t address bytes member
      rcases List.mem_cons.mp member with same | member
      · cases same
        decide
      · cases List.mem_singleton.mp member
    · decide +kernel
    · decide
    · decide
    · decide +kernel
  obtain ⟨r', left⟩ := r.exists_leaveSlice (by decide) c 0 0
  exact ⟨earlier, (c, r'), (c, r), (RunEvent.trace_of_performTrace performed).snoc
    (.leave 0 here left), bounded, stored, dirty, present, holds⟩

end Example

/-- The page of the store is tracked. -/
theorem mem_dirtyPages_of_trace_word : ∃ past s,
    Trace RunStep (Example.noCounts, Example.trackedRun) past s ∧
      Example.wordPage ∈ s.2.emulator.dirtyPages ∧
      (∀ p, p ∈ s.2.emulator.dirtyPages ↔ StoredOn past p) ∧
      topPage ∉ s.2.emulator.dirtyPages := by
  obtain ⟨earlier, s, t, trace, bounded, -, dirty, -⟩ := Example.exists_storedWord
  have started := Example.startRun_eq_startedOf Example.decoded true ⟨0x140000000, 0, 0, 0, false⟩
  have member : Example.wordPage ∈ t.2.emulator.dirtyPages := by
    rw [dirty]
    exact Finset.mem_singleton_self _
  exact ⟨earlier, t, trace.of_append, member,
    mem_dirtyPages_of_trace rfl started trace.of_append bounded⟩

theorem trackedText_found_of_trace_word : ∃ past s,
    Trace RunStep (Example.noCounts, Example.trackedRun) past s ∧
      ∃ f ∈ s.2.emulator.stringList, f.data = [0x61, 0x62, 0x63, 0x64] := by
  obtain ⟨earlier, s, t, trace, bounded, ⟨u, stored⟩, dirty, present, holds⟩ :=
    Example.exists_storedWord
  have started := Example.startRun_eq_startedOf Example.decoded true ⟨0x140000000, 0, 0, 0, false⟩
  have whole : Strings.stored [0x61, 0x62, 0x63, 0x64] = [0x61, 0x62, 0x63, 0x64] := by decide
  have scanned : InScannedRegion t.2.emulator Example.wordPage Example.wordPage 4 := by
    refine ⟨?_, by decide, fun y joins _ => ?_, .inl rfl⟩
    · rw [dirty]
      refine ⟨⟨BitVec.le_refl _, fun y above below => ?_⟩, .inr (by decide)⟩
      rw [BitVec.le_antisymm below above]
      decide
    · have page := joins.2 y joins.1 (BitVec.le_refl y)
      rw [dirty, Finset.mem_singleton] at page
      have number := congrArg BitVec.toNat page
      rw [toNat_pageOf] at number
      have place : y.toNat / 0x1000 = 0x7FFEF := by
        change y.toNat / 0x1000 * 0x1000 = 0x7FFEF000 at number
        omega
      change t.2.emulator.engine.mappedPage (y.toNat / 0x1000) = true
      rw [place, present]
  have pages : ∀ k ≤ 4, StoredOn earlier (pageOf (Example.wordPage + BitVec.ofNat 64 k)) :=
    fun k short => ⟨u, _, _, stored, k, by change k < 5; omega, rfl⟩
  have found := trackedText_found_of_trace rfl started trace bounded trivial holds pages scanned
    (by decide)
  rw [whole] at found
  exact ⟨_, s, trace, found⟩

end Unxorer
