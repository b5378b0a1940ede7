import Unxorer.Emulator.Refusals
import Unxorer.Emulator.Registers
import Unxorer.Heap.Placement

/-!
# Mapped memory between and during runs

The constructor maps the image, the stack and the heap arena, and the beginning of a run
brings the memory map back to these, whatever the faults of earlier runs have added.

## Main definitions

* `MappingLaw` — the record of the transient pages says exactly what is mapped

## Main results

* `Emulator.create_wellMapped`, `Emulator.startRun_wellMapped` — constructor and reset
* `mappingLaw_of_trace` — the law holds at any time in any run, and the limit flags count
  the refused accesses
-/

set_option autoImplicit false

namespace Unxorer

open Unicorn WriteTracker Transition

section Generic

variable {U : Type} [Unicorn U]

/-! ### The constructor -/

theorem memMap_of_mapBuffer {u u' : U} {a : Addr} {n : ℕ} {contents : ℕ → Byte}
    (done : mapBuffer u a n contents = .ok u') :
    ∃ u₁, memMap u a n = .ok u₁ ∧ u' = storeBytes u₁ a n contents := by
  rw [mapBuffer] at done
  cases mapped : memMap u a n with
  | error fault =>
    rw [mapped] at done
    cases done
  | ok u₁ =>
    rw [mapped] at done
    cases done
    exact ⟨u₁, rfl, rfl⟩

theorem FakeHeap.init_cases (u : U) (base : Addr) :
    (∃ heap, FakeHeap.fresh.init u base = (false, u, heap)) ∨
      ∃ u', memMap u base arenaSize.toNat = .ok u' ∧
        FakeHeap.fresh.init u base = (true, u', ⟨base, base, fun _ => none, true⟩) := by
  cases mapped : memMap u base arenaSize.toNat with
  | error fault => exact .inl ⟨⟨base, base, fun _ => none, false⟩, by simp [init, fresh, mapped]⟩
  | ok u' => exact .inr ⟨u', rfl, FakeHeap.init_of_memMap rfl mapped⟩

/-- A constructor that succeeds has mapped the image and the stack, and the arena if the
emulator has stubs. -/
theorem Emulator.create_cases {opened : U} {image : ImageSnapshot}
    {decoded : InstructionSnapshot} {config : EmulatorConfig} {e : Emulator U}
    (created : Emulator.create opened image decoded config = some e) :
    ∃ u₁ u₂, memMap opened image.mapStart image.mapSize.toNat = .ok u₁ ∧
      memMap (storeBytes u₁ image.mapStart image.mapSize.toNat image.contents)
        (stackBase - stackSize) stackSize.toNat = .ok u₂ ∧
      ((∃ heap, e = .initial (storeBytes u₂ (stackBase - stackSize) stackSize.toNat fun _ => 0)
          heap image decoded false config.enableWriteTracking) ∨
        ∃ base u₃,
          base = FakeHeap.computeBase (image.mapStart + image.mapSize) (stackBase - stackSize)
            stackBase ∧
          memMap (storeBytes u₂ (stackBase - stackSize) stackSize.toNat fun _ => 0) base
            FakeHeap.arenaSize.toNat = .ok u₃ ∧
          e = .initial u₃ ⟨base, base, fun _ => none, true⟩ image decoded true
            config.enableWriteTracking) := by
  simp only [create] at created
  by_cases invalid : image.imageMin = badAddr ∨ image.imageMax = badAddr ∨ image.mapSize = 0 ∨
      image.imageBackup = []
  · rw [if_pos invalid] at created
    cases created
  rw [if_neg invalid] at created
  by_cases short : (image.imageMin - image.mapStart + (image.imageMax - image.imageMin)).toNat >
      image.imageBackup.length
  · rw [if_pos short] at created
    cases created
  rw [if_neg short] at created
  split at created
  · cases created
  rename_i u imageDone
  obtain ⟨u₁, imageMapped, rfl⟩ := memMap_of_mapBuffer imageDone
  split at created
  · cases created
  rename_i u stackDone
  obtain ⟨u₂, stackMapped, rfl⟩ := memMap_of_mapBuffer stackDone
  refine ⟨u₁, u₂, imageMapped, stackMapped, ?_⟩
  by_cases stubs : config.enableHeapStubs = true
  · rw [if_pos stubs] at created
    rcases FakeHeap.init_cases (storeBytes u₂ (stackBase - stackSize) stackSize.toNat fun _ => 0)
      (FakeHeap.computeBase (image.mapStart + image.mapSize) (stackBase - stackSize) stackBase)
      with ⟨heap, failed⟩ | ⟨u₃, arenaMapped, ready⟩
    · rw [failed] at created
      cases created
      exact .inl ⟨heap, rfl⟩
    · rw [ready] at created
      cases created
      exact .inr ⟨_, u₃, rfl, arenaMapped, rfl⟩
  · rw [if_neg stubs] at created
    cases created
    exact .inl ⟨_, rfl⟩

/-- The constructor puts the arena where it is apart from the image and the stack. -/
theorem Emulator.create_placement {opened : U} {image : ImageSnapshot}
    {decoded : InstructionSnapshot} {config : EmulatorConfig} {e : Emulator U}
    (created : Emulator.create opened image decoded config = some e)
    (stubs : e.enableHeapStubs = true)
    (room : (image.mapStart + image.mapSize).toNat ≤ 2 ^ 64 - 2 ^ 25) :
    FakeHeap.Placement (image.mapStart + image.mapSize) (stackBase - stackSize) stackBase
      e.heap.arenaBase := by
  obtain ⟨u₁, u₂, -, -, rest⟩ := create_cases created
  rcases rest with ⟨heap, rfl⟩ | ⟨base, u₃, chosen, -, rfl⟩
  · cases stubs
  · have same : (Emulator.initial u₃ ⟨base, base, fun _ => none, true⟩ image decoded true
        config.enableWriteTracking).heap.arenaBase = base := rfl
    rw [same, chosen]
    have top : stackBase.toNat ≤ 2 ^ 64 - 2 ^ 25 := by decide
    obtain ⟨aligned, behind, whole, apart⟩ :=
      FakeHeap.computeBase_apart (stackBase - stackSize) room top
    exact .of_apart aligned behind whole apart

/-- Mapping a range adds it to what is mapped, and it was free before. -/
theorem mapped_memMap_iff {u u' : U} {a : Addr} {n : ℕ} (done : memMap u a n = .ok u') (x : Addr) :
    (mapped u' x = true ↔ mapped u x = true ∨ (x - a).toNat < n) ∧
      ((x - a).toNat < n → ¬ mapped u x = true) := by
  refine ⟨?_, ?_⟩
  · rw [mapped_memMap u a n u' done x, Bool.or_eq_true, decide_eq_true_eq]
  · intro inside
    rw [(memMap_free u a n u' done).2 x inside]
    exact Bool.false_ne_true

/-- An engine without memory has exactly the core mapped after the constructor. -/
theorem Emulator.create_wellMapped {opened : U} {image : ImageSnapshot}
    {decoded : InstructionSnapshot} {config : EmulatorConfig} {e : Emulator U}
    (created : Emulator.create opened image decoded config = some e)
    (empty : ∀ x, mapped opened x = false) : e.WellMapped := by
  obtain ⟨u₁, u₂, imageMapped, stackMapped, rest⟩ := create_cases created
  have first (x : Addr) : mapped u₁ x = true ↔
      (x - image.mapStart).toNat < image.mapSize.toNat := by
    rw [(mapped_memMap_iff imageMapped x).1, empty x]
    exact or_iff_right Bool.false_ne_true
  have second (x : Addr) : mapped u₂ x = true ↔
      (x - image.mapStart).toNat < image.mapSize.toNat ∨ InStack x := by
    rw [(mapped_memMap_iff stackMapped x).1, mapped_storeBytes, first x]
    rfl
  have image_stack (x : Addr) (inside : (x - image.mapStart).toNat < image.mapSize.toNat) :
      ¬ InStack x := by
    intro both
    apply (mapped_memMap_iff stackMapped x).2 both
    rw [mapped_storeBytes]
    exact (first x).mpr inside
  rcases rest with ⟨heap, rfl⟩ | ⟨base, u₃, -, arenaMapped, rfl⟩
  · -- Without stubs there is no arena.
    have none (x : Addr) : ¬ InArena (.initial (storeBytes u₂ (stackBase - stackSize)
        stackSize.toNat fun _ => 0) heap image decoded false config.enableWriteTracking) x :=
      fun inside => Bool.false_ne_true inside.1
    refine ⟨?_, ?_, image_stack, fun x _ => none x, fun x _ => none x⟩
    · refine cast (congrArg _ ?_) (PageOverlay.Sound.initial pageOf maxTransientRegions _)
      refine congrArg (fun present => PageOverlay.State.mk present []) ?_
      ext x
      change Emulator.InCore _ x ↔ mapped (storeBytes u₂ _ _ _) x = true
      rw [mapped_storeBytes, second x, InCore, or_iff_left (none x)]
      rfl
    · intro stubs
      cases stubs
  · have third (x : Addr) : mapped u₃ x = true ↔
        ((x - image.mapStart).toNat < image.mapSize.toNat ∨ InStack x) ∨
          (x - base).toNat < FakeHeap.arenaSize.toNat := by
      rw [(mapped_memMap_iff arenaMapped x).1, mapped_storeBytes, second x]
    have apart (x : Addr) (inside : (x - image.mapStart).toNat < image.mapSize.toNat ∨ InStack x) :
        ¬ (x - base).toNat < FakeHeap.arenaSize.toNat := by
      intro both
      apply (mapped_memMap_iff arenaMapped x).2 both
      rw [mapped_storeBytes]
      exact (second x).mpr inside
    refine ⟨?_, fun _ => rfl, image_stack, ?_, ?_⟩
    · refine cast (congrArg _ ?_) (PageOverlay.Sound.initial pageOf maxTransientRegions _)
      refine congrArg (fun present => PageOverlay.State.mk present []) ?_
      ext x
      change Emulator.InCore _ x ↔ mapped u₃ x = true
      rw [third x, or_assoc]
      exact or_congr_right (or_congr_right (and_iff_right rfl))
    · exact fun x inside arena => apart x (.inl inside) arena.2
    · exact fun x inside arena => apart x (.inr inside) arena.2

/-! ### The beginning of a run -/

/-- Unmapping a list of mapped pages removes these pages. -/
theorem mapped_foldl_memUnmap (pages : List Addr) (u : U) (aligned : ∀ p ∈ pages, pageOf p = p)
    (nodup : pages.Nodup) (present : ∀ x, pageOf x ∈ pages → mapped u x = true) (x : Addr) :
    mapped (pages.foldl (fun u p => memUnmap u p Emulator.transientMapSize.toNat) u) x = true ↔
      mapped u x = true ∧ pageOf x ∉ pages := by
  have whole : Emulator.transientMapSize.toNat = 0x1000 := rfl
  induction pages generalizing u with
  | nil => simp
  | cons p rest ih =>
    have here : pageOf p = p := aligned p List.mem_cons_self
    obtain ⟨fresh, nodup⟩ := List.nodup_cons.mp nodup
    have removed (y : Addr) : mapped (memUnmap u p Emulator.transientMapSize.toNat) y = true ↔
        mapped u y = true ∧ pageOf y ≠ p := by
      rw [whole, mapped_memUnmap u p 0x1000 (mod_eq_zero_of_aligned here) (by decide)
        (toNat_add_le_of_aligned here) ?_ y]
      · rw [Bool.and_eq_true, Bool.not_eq_true', decide_eq_false_iff_not, offset_lt_iff here]
      · intro z inside
        rw [offset_lt_iff here] at inside
        exact present z (inside ▸ List.mem_cons_self)
    -- The other pages are still mapped after the first one is gone.
    have remaining (y : Addr) (member : pageOf y ∈ rest) :
        mapped (memUnmap u p Emulator.transientMapSize.toNat) y = true := by
      refine (removed y).mpr ⟨present y (List.mem_cons_of_mem p member), ?_⟩
      rintro rfl
      exact fresh member
    have later := ih (memUnmap u p Emulator.transientMapSize.toNat)
      (fun q member => aligned q (List.mem_cons_of_mem p member)) nodup remaining
    rw [List.foldl_cons]
    refine later.trans ?_
    rw [removed x, List.mem_cons, not_or, and_assoc]

namespace Emulator

variable {e e' : Emulator U}

theorem WellMapped.overlay_clear (well : e.WellMapped) :
    e.clearTransientMappings.overlay = e.overlay.clear pageOf := by
  refine congrArg (fun present => PageOverlay.State.mk present []) ?_
  ext x
  apply mapped_foldl_memUnmap e.transientMappings e.engine
  · intro p member
    exact mem_range_pageOf_iff.mp (well.overlay.range p member)
  · exact well.overlay.nodup
  · intro y member
    exact (well.overlay.present y).mpr (.inr member)

/-- Clearing the transient pages leaves the core. -/
theorem WellMapped.mapped_clear (well : e.WellMapped) (x : Addr) :
    mapped e.clearTransientMappings.engine x = true ↔ e.InCore x := by
  have cleared := well.overlay.present_clear
  rw [← well.overlay_clear] at cleared
  exact Set.ext_iff.mp cleared x

end Emulator

theorem mapped_resetRegisters (u : U) : mapped (resetRegisters u) = mapped u := by
  rw [resetRegisters, mapped_regWrite, overwriteAllRegisters]
  generalize Emulator.gprRegisters = rs
  induction rs generalizing u with
  | nil => rfl
  | cons r rest ih => rw [List.foldl_cons, ih, mapped_regWrite]

theorem mapped_restoreMemory (u : U) (image : ImageSnapshot) :
    mapped (restoreMemory u image) = mapped u := by
  rw [restoreMemory, mapped_storeBytes, mapped_storeBytes]

section Reset

variable [Host] {e e' : Emulator U}

theorem FakeHeap.reset_kept {u u' : U} {h h' : FakeHeap} (done : h.reset u = .ok (u', h')) :
    mapped u' = mapped u ∧ h'.arenaBase = h.arenaBase ∧ h'.initialized = h.initialized := by
  rcases reset_cases done with ⟨-, rfl, rfl⟩ | ⟨-, rfl, ⟨-, rfl⟩ | rfl⟩
  · exact ⟨rfl, rfl, rfl⟩
  · exact ⟨rfl, rfl, rfl⟩
  · exact ⟨(HostWrites.memWrite u _ _).mapped_eq, rfl, rfl⟩

/-- The beginning of a run keeps the core and drops the transient pages. -/
theorem Emulator.startRun_sameCore {args : RunArgs} {r : RunState U}
    (started : e.startRun args = .ok r) :
    SameCore e r.emulator ∧ r.emulator.transientMappings = [] := by
  obtain ⟨e', reset, rfl⟩ := startRun_cases started
  obtain ⟨u, heap, heapReset, rfl⟩ := resetForRun_cases reset
  refine ⟨⟨rfl, rfl, ?_⟩, rfl⟩
  split_ifs at heapReset
  · exact (FakeHeap.reset_kept heapReset).2.1
  · cases heapReset
    rfl

/-- A run starts with the core mapped, no transient pages and cleared limit flags. -/
theorem Emulator.startRun_wellMapped {args : RunArgs} {r : RunState U} (well : e.WellMapped)
    (started : e.startRun args = .ok r) :
    r.emulator.WellMapped ∧ r.emulator.LimitFlags 0 := by
  obtain ⟨e', reset, rfl⟩ := startRun_cases started
  obtain ⟨u, heap, heapReset, rfl⟩ := resetForRun_cases reset
  have kept : mapped u = mapped e.clearTransientMappings.engine ∧
      heap.arenaBase = e.heap.arenaBase ∧ heap.initialized = e.heap.initialized := by
    split_ifs at heapReset
    · exact FakeHeap.reset_kept heapReset
    · cases heapReset
      exact ⟨rfl, rfl, rfl⟩
  obtain ⟨mappings, base, ready⟩ := kept
  refine ⟨well.congr rfl rfl base ready ?_, ⟨iff_of_false Bool.false_ne_true (lt_irrefl 0), rfl⟩⟩
  refine cast (congrArg _ ?_) (PageOverlay.Sound.initial pageOf maxTransientRegions _)
  refine congrArg (fun present => PageOverlay.State.mk present []) ?_
  ext x
  change e.InCore x ↔ mapped (resetRegisters (restoreMemory u e.image)) x = true
  rw [mapped_resetRegisters, mapped_restoreMemory, mappings, well.mapped_clear x]

theorem Emulator.wellMapped_of_run {args : RunArgs} {c c' : Counters} {r r' : RunState U}
    (well : e.WellMapped) (started : e.startRun args = .ok r)
    (run : Run RunStep (fun _ _ => True) (c, r) (c', r')) : r'.emulator.WellMapped := by
  apply run.invariant (P := fun s => s.2.emulator.WellMapped) (startRun_wellMapped well started).1
  intro event s s' before _ step
  exact step.wellMapped before

theorem Emulator.FullRun.wellMapped (run : e.FullRun e') (well : e.WellMapped) :
    e'.WellMapped := by
  obtain ⟨args, c, c', r, r', reason, started, steps, finished, rfl⟩ := run
  exact wellMapped_of_run well started steps

/-- Runs keep the core. -/
theorem Emulator.sameCore_of_run {args : RunArgs} {c c' : Counters} {r r' : RunState U}
    (started : e.startRun args = .ok r)
    (run : Run RunStep (fun _ _ => True) (c, r) (c', r')) : SameCore e r'.emulator := by
  apply run.invariant (P := fun s => SameCore e s.2.emulator) (startRun_sameCore started).1
  intro event s s' before _ step
  exact before.trans step.sameCore

theorem Reused.sameCore (e : Reused U) : Emulator.SameCore e.fresh e.emulator := by
  have history := e.history
  generalize e.emulator = e' at history
  induction history with
  | refl => exact .refl _
  | tail _ last ih =>
    obtain ⟨args, c, c', r, r', reason, started, run, finished, rfl⟩ := last
    exact ih.trans (Emulator.sameCore_of_run started run)

/-- An emulator is well mapped between any two of its runs. -/
theorem Reused.wellMapped (e : Reused U) (empty : ∀ x, mapped e.opened x = false) :
    e.emulator.WellMapped := by
  have history := e.history
  generalize e.emulator = e' at history
  induction history with
  | refl => exact Emulator.create_wellMapped e.created empty
  | tail _ last ih => exact last.wellMapped ih

end Reset

/-! ### The law -/

/-- The record of the transient pages says exactly what is mapped beyond the core, and
clearing them leaves the core. -/
structure MappingLaw (e : Emulator U) : Prop where
  aligned : ∀ p ∈ e.transientMappings, 0x1000 ∣ p.toNat
  nodup : e.transientMappings.Nodup
  bounded : e.transientMappings.length ≤ Emulator.maxTransientRegions
  apart : ∀ p ∈ e.transientMappings, ∀ x, pageOf x = p → ¬ e.InCore x
  mapped_iff : ∀ x, mapped e.engine x = true ↔ e.InCore x ∨ pageOf x ∈ e.transientMappings
  cleared : ∀ x, mapped e.clearTransientMappings.engine x = true ↔ e.InCore x

theorem Emulator.WellMapped.law {e : Emulator U} (well : e.WellMapped) : MappingLaw e where
  aligned p member := by
    obtain ⟨a, rfl⟩ := well.overlay.range p member
    exact dvd_pageOf a
  nodup := well.overlay.nodup
  bounded := well.overlay.bounded
  apart p member x same inside := well.overlay.apart x inside (same ▸ member)
  mapped_iff := well.overlay.present
  cleared := well.mapped_clear

/-- On an engine that was opened without memory the law holds between runs and at any time
in a run. The limit flags of a run count its refused accesses, and since fewer are refused than
can be counted, one flag tells the same as the other. -/
theorem mappingLaw_of_trace [Host] (e : Reused U) (empty : ∀ x, mapped e.opened x = false) :
    MappingLaw e.emulator ∧
      ∀ (args : RunArgs) (c₀ c : Counters) (r₀ r : RunState U)
        (past : List ((Counters × RunState U) × RunEvent U)),
        e.emulator.startRun args = .ok r₀ → Trace RunStep (c₀, r₀) past (c, r) →
        MappingLaw r.emulator ∧ r.emulator.LimitFlags (refusals past) ∧
          (r.emulator.transientLimitReached = true ↔ r.emulator.transientLimitHits > 0) := by
  have well := e.wellMapped empty
  refine ⟨well.law, ?_⟩
  intro args c₀ c r₀ r past started trace
  have cleared := (Emulator.startRun_wellMapped well started).2
  have wellNow := Emulator.wellMapped_of_run well started trace.run
  have flags : r.emulator.LimitFlags (refusals past) := limitFlags_of_trace trace cleared
  have few := refusals_lt_of_trace started trace
  refine ⟨wellNow.law, flags, ?_⟩
  rw [flags.reached, flags.hits, gt_iff_lt, BitVec.lt_def, BitVec.toNat_ofNat,
    Nat.mod_eq_of_lt few]
  rfl

/-! ### Accesses of one page -/

namespace Emulator

variable {e : Emulator U} {p : Addr}

theorem inCore_of_isCoreMappedAddress (core : e.isCoreMappedAddress p = true) : e.InCore p := by
  simp only [isCoreMappedAddress] at core
  have inside {a : Addr} {n : BitVec 64} (above : a ≤ p) (below : p < a + n) :
      (p - a).toNat < n.toNat := by
    bv_omega
  by_cases image : p ≥ e.image.mapStart ∧ p < e.image.mapStart + e.image.mapSize
  · exact .inl (inside image.1 image.2)
  · rw [if_neg image, Bool.and_eq_true, decide_eq_true_eq, decide_eq_true_eq] at core
    refine .inr (.inl (inside core.1 ?_))
    rw [sub_add_cancel]
    exact core.2

theorem mapped_one_iff {u : U} : Mapped u p 1 ↔ mapped u p = true := by
  constructor
  · intro present
    have here := present 0 Nat.one_pos
    rwa [BitVec.add_zero] at here
  · intro here i first
    rwa [Nat.lt_one_iff.mp first, BitVec.add_zero]

theorem not_mapped_one {u : U} (missing : mapped u p = false) : ¬ Mapped u p 1 := by
  rw [mapped_one_iff, missing]
  exact Bool.false_ne_true

/-- The fault handler passes over a page that is there. -/
theorem mapPage_of_mapped (present : mapped e.engine p = true) : e.mapPage p = (true, e) := by
  rw [mapPage, memRead_of_mapped (mapped_one_iff.mpr present)]
  split_ifs <;> rfl

/-- The fault handler maps a page that is missing. -/
theorem WellMapped.mapPage_of_missing (well : e.WellMapped)
    (missing : mapped e.engine p = false) (aligned : pageOf p = p) :
    e.mapPage p = e.mapTransientPage p := by
  have absent : ¬ mapped e.engine p = true := by
    rw [missing]
    exact Bool.false_ne_true
  have skip : ¬ (e.isCoreMappedAddress p || e.isTransientMappedAddress p) = true := by
    rw [Bool.or_eq_true, isTransientMappedAddress, decide_eq_true_eq]
    rintro (core | listed)
    · exact absent ((well.overlay.present p).mpr (.inl (inCore_of_isCoreMappedAddress core)))
    · exact absent ((well.overlay.present p).mpr (.inr (aligned.symm ▸ listed)))
  rw [mapPage, if_neg skip, memRead_of_not_mapped (not_mapped_one missing)]

/-- A load of the first byte of a page that is missing maps the page or is refused. -/
theorem WellMapped.guestLoad_of_missing (well : e.WellMapped)
    (missing : mapped e.engine p = false) (aligned : pageOf p = p)
    (room : p.toNat + 0x1000 < 2 ^ 64) : ∃ done,
      e.guestLoad p 1 = .ok (done, (e.mapTransientPage p).2) ∧
        (Mapped (e.mapTransientPage p).2.engine p 1 → (e.mapTransientPage p).1 = true →
          done = true) := by
  have end_eq : (p + (1 - 1) + transientMapSize) &&& transientMapMask = p + transientMapSize := by
    change pageOf (p + (1 - 1) + transientMapSize) = _
    rw [sub_self, add_zero, aligned_next aligned]
  have more : p < p + transientMapSize := by
    rw [BitVec.lt_def, BitVec.toNat_add]
    simp only [transientMapSize, BitVec.reduceToNat]
    omega
  have twice : 2 ^ 52 + 1 = (2 ^ 52 - 1) + 1 + 1 := by decide
  have done : e.hookMem p 1 = .ok (e.mapTransientPage p) := by
    simp only [hookMem, mapFaultRegion, gt_iff_lt, Nat.one_pos, if_true]
    rw [show BitVec.ofNat 64 1 = 1 from rfl, end_eq, show p &&& transientMapMask = p from aligned,
      twice, mapPages, if_pos more, well.mapPage_of_missing missing aligned]
    -- A page that could be mapped is followed by the end of the loop.
    cases result : e.mapTransientPage p with
    | mk retry e' =>
      cases retry with
      | false => rfl
      | true =>
        dsimp only
        rw [mapPages, if_neg (BitVec.lt_irrefl _)]
  rw [guestLoad, if_neg (not_mapped_one missing), done]
  exact ⟨_, rfl, fun present retry => decide_eq_true ⟨retry, present⟩⟩

end Emulator

end Generic

/-! ### A run that uses up the transient pages -/

namespace Example

/-- The emulator of the example before its first run. -/
def unused : Reused Machine :=
  ⟨Machine.empty, image, decoded, ⟨true, true⟩, fresh, create_eq_fresh, fresh, .refl⟩

/-- Pages far above everything the example maps. -/
def spare (i : ℕ) : Addr := BitVec.ofNat 64 (2 ^ 40 + i * 0x1000)

theorem toNat_spare {i : ℕ} (small : i ≤ 2048) : (spare i).toNat = 2 ^ 40 + i * 0x1000 := by
  rw [spare, BitVec.toNat_ofNat]
  omega

theorem pageOf_spare {i : ℕ} (small : i ≤ 2048) : pageOf (spare i) = spare i := by
  apply aligned_of_mod_eq_zero
  rw [toNat_spare small]
  omega

theorem spare_injective {i j : ℕ} (hi : i ≤ 2048) (hj : j ≤ 2048) (same : spare i = spare j) :
    i = j := by
  have equal := congrArg BitVec.toNat same
  rw [toNat_spare hi, toNat_spare hj] at equal
  omega

/-- The example in its first slice, with no access made yet. -/
def inSlice : Counters × RunState Machine :=
  (noCounts, (started 0x140000000).enterSlice noCounts false)

/-- The first slice with the emulator in another state. -/
def inSliceWith (e : Emulator Machine) : Counters × RunState Machine :=
  (noCounts, { inSlice.2 with emulator := e })

theorem trace_inSlice : Trace RunStep (noCounts, started 0x140000000)
    [((noCounts, started 0x140000000), .enter false)] inSlice :=
  Trace.nil.snoc (.enter false rfl)

theorem wellMapped_inSlice : inSlice.2.emulator.WellMapped := by
  have well := unused.wellMapped fun _ => rfl
  have begun := (Emulator.startRun_wellMapped well (startRun_eq_started 0x140000000)).1
  exact begun.of_memoryMap_eq (RunState.enterSlice_memoryMap _ _)

theorem not_inCore_spare {i : ℕ} (small : i ≤ 2048) : ¬ inSlice.2.emulator.InCore (spare i) := by
  have value := toNat_spare small
  intro core
  have apart : ∀ a n : BitVec 64, a.toNat + n.toNat ≤ 2 ^ 40 → ¬ (spare i - a).toNat < n.toNat := by
    intro a n below inside
    rw [BitVec.toNat_sub, value] at inside
    omega
  rcases core with image | stack | ⟨-, arena⟩
  · exact apart 0x140000000 0x1000 (by decide) image
  · exact apart (stackBase - stackSize) stackSize (by decide) stack
  · exact apart 0x140010000 FakeHeap.arenaSize (by decide) arena

/-- The state after a trace of the first slice that has mapped the first `n` spare pages. -/
structure Filled (n : ℕ) (e : Emulator Machine) : Prop where
  reached : ∃ past, Trace RunStep (noCounts, started 0x140000000) past (inSliceWith e)
  wellMapped : e.WellMapped
  pages : e.transientMappings = (List.range n).map spare
  core : ∀ x, e.InCore x ↔ inSlice.2.emulator.InCore x
  limit : e.LimitFlags 0

theorem Filled.missing {n i : ℕ} {e : Emulator Machine} (filled : Filled n e) (later : n ≤ i)
    (small : i ≤ 2048) : mapped e.engine (spare i) = false := by
  rw [← Bool.not_eq_true]
  intro present
  rcases (filled.wellMapped.overlay.present (spare i)).mp present with core | listed
  · exact not_inCore_spare small ((filled.core _).mp core)
  · rw [show e.overlay.pages = (List.range n).map spare from filled.pages,
      pageOf_spare small] at listed
    obtain ⟨j, member, same⟩ := List.mem_map.mp listed
    have below := List.mem_range.mp member
    have equal := spare_injective (by omega) small same
    omega

theorem Filled.length {n : ℕ} {e : Emulator Machine} (filled : Filled n e) :
    e.transientMappings.length = n := by
  rw [filled.pages, List.length_map, List.length_range]

/-- One more page can be mapped as long as there are fewer than 2048. -/
theorem Filled.map {n : ℕ} {e : Emulator Machine} (filled : Filled n e) (room : n < 2048) :
    ∃ e', Filled (n + 1) e' := by
  have missing := filled.missing le_rfl room.le
  have aligned := pageOf_spare room.le
  have value := toNat_spare room.le
  have inside : (spare n).toNat + 0x1000 < 2 ^ 64 := by
    rw [value]
    omega
  have free : memMap e.engine (spare n) Emulator.transientMapSize.toNat =
      .ok (e.engine.map (spare n) 0x1000) := by
    apply Machine.memMap_of_free
    · exact ⟨mod_eq_zero_of_aligned aligned, by decide, inside.le⟩
    · intro i small
      rw [show i = 0 from Nat.lt_one_iff.mp small, Nat.add_zero]
      exact missing
  have result : e.mapTransientPage (spare n) = (true, { e with
      engine := e.engine.map (spare n) 0x1000
      transientMappings := e.transientMappings ++ [spare n] }) := by
    have below : ¬ e.transientMappings.length ≥ Emulator.maxTransientRegions := by
      rw [filled.length]
      exact Nat.not_le.mpr room
    rw [Emulator.mapTransientPage, if_neg below, free]
  obtain ⟨done, loaded, completes⟩ :=
    filled.wellMapped.guestLoad_of_missing missing aligned inside
  rw [result] at loaded completes
  have present : Mapped (e.engine.map (spare n) 0x1000) (spare n) 1 := by
    rw [Emulator.mapped_one_iff, mapped_memMap _ _ _ _ free, sub_self]
    exact Bool.or_true _
  cases completes present rfl
  obtain ⟨past, trace⟩ := filled.reached
  have step := RunStep.load (c := noCounts) (r := (inSliceWith e).2) (spare n) 1 rfl Nat.one_pos
    (by decide) loaded rfl
  refine ⟨_, ⟨_, trace.snoc step⟩, step.wellMapped filled.wellMapped, ?_, filled.core,
    ⟨filled.limit.reached, filled.limit.hits⟩⟩
  rw [List.range_succ, List.map_append, ← filled.pages]
  rfl

theorem exists_filled {n : ℕ} (small : n ≤ 2048) : ∃ e, Filled n e := by
  induction n with
  | zero =>
    refine ⟨_, ⟨_, trace_inSlice⟩, wellMapped_inSlice, rfl, fun _ => Iff.rfl, ?_, rfl⟩
    exact iff_of_false Bool.false_ne_true (lt_irrefl 0)
  | succ n ih =>
    obtain ⟨e, filled⟩ := ih (Nat.le_of_succ_le small)
    exact filled.map small

/-- When all 2048 pages are used, a further fault is refused. -/
theorem exists_refused : ∃ past s, Trace RunStep (noCounts, started 0x140000000) past s ∧
    s.2.emulator.transientMappings.length = 2048 ∧ s.2.emulator.transientLimitReached = true := by
  obtain ⟨e, filled⟩ := exists_filled (n := 2048) le_rfl
  have missing := filled.missing le_rfl le_rfl
  have full : e.transientMappings.length ≥ Emulator.maxTransientRegions := filled.length.ge
  have inside : (spare 2048).toNat + 0x1000 < 2 ^ 64 := by
    rw [toNat_spare le_rfl]
    decide
  obtain ⟨done, loaded, -⟩ :=
    filled.wellMapped.guestLoad_of_missing missing (pageOf_spare le_rfl) inside
  rw [Emulator.mapTransientPage, if_pos full] at loaded
  obtain ⟨past, trace⟩ := filled.reached
  have step : RunStep (.load (spare 2048) 1) (inSliceWith e)
      (noCounts, { inSlice.2 with emulator := e.refuse, faulted := !done }) :=
    .load (spare 2048) 1 rfl Nat.one_pos (by decide) loaded rfl
  exact ⟨_, _, trace.snoc step, filled.length, rfl⟩

end Example

/-- The law in a run of the example that uses up all transient pages and meets a refusal. -/
theorem mappingLaw_of_trace_fault : ∃ (r₀ : RunState Machine) (s : Counters × RunState Machine)
    (past : _), Example.unused.emulator.startRun ⟨0x140000000, 0, 0, 0, true⟩ = .ok r₀ ∧
    Trace RunStep (Example.noCounts, r₀) past s ∧
    s.2.emulator.transientMappings.length = 2048 ∧
    s.2.emulator.transientLimitReached = true ∧ MappingLaw s.2.emulator ∧
    (s.2.emulator.transientLimitReached = true ↔ s.2.emulator.transientLimitHits > 0) := by
  obtain ⟨past, s, trace, length, reached⟩ := Example.exists_refused
  have begun := Example.startRun_eq_started 0x140000000
  obtain ⟨law, -, limit⟩ :=
    (mappingLaw_of_trace Example.unused fun _ => rfl).2 _ _ _ _ _ past begun trace
  exact ⟨_, s, past, begun, trace, length, reached, law, limit⟩

end Unxorer
