import Unxorer.Emulator.DirtyPages
import Unxorer.Heap.Allocation
import Unxorer.Lib.PageOverlay

/-!
# The memory map of an emulator

Memory is mapped by the constructor and by faults. The list of transient pages is the
record of what faults have mapped; no other step of a run touches the map or the record.

## Main definitions

* `Emulator.InCore` — the addresses the constructor maps
* `Emulator.overlay` — the memory map and the record, as pages over a fixed core
* `Emulator.WellMapped` — the record says exactly what is mapped
* `RunEvent.refused` — the accesses that run into the limit on transient pages

## Main results

* `RunStep.wellMapped` — every step of a run keeps the record
* `limitFlags_of_trace` — the limit flags count the refused accesses of a run
-/

set_option autoImplicit false

namespace Unxorer

open Unicorn ApiStubs WriteTracker Transition

variable {U : Type} [Unicorn U]

/-! ### Pages -/

theorem pageOf_pageOf (a : Addr) : pageOf (pageOf a) = pageOf a := by
  apply BitVec.eq_of_toNat_eq
  rw [toNat_pageOf, toNat_pageOf]
  omega

theorem mem_range_pageOf_iff {p : Addr} : p ∈ Set.range pageOf ↔ pageOf p = p := by
  constructor
  · rintro ⟨a, rfl⟩
    exact pageOf_pageOf a
  · intro aligned
    exact ⟨p, aligned⟩

theorem mod_eq_zero_of_aligned {p : Addr} (aligned : pageOf p = p) : p.toNat % 0x1000 = 0 :=
  Nat.mod_eq_zero_of_dvd (aligned ▸ dvd_pageOf p)

theorem aligned_of_mod_eq_zero {p : Addr} (multiple : p.toNat % 0x1000 = 0) : pageOf p = p := by
  apply BitVec.eq_of_toNat_eq
  rw [toNat_pageOf]
  omega

/-- The bytes of a page are those at an offset below the page size. -/
theorem offset_lt_iff {p : Addr} (aligned : pageOf p = p) (x : Addr) :
    (x - p).toNat < 0x1000 ↔ pageOf x = p := by
  have multiple := mod_eq_zero_of_aligned aligned
  have bound := x.isLt
  constructor
  · intro inside
    apply BitVec.eq_of_toNat_eq
    rw [toNat_pageOf]
    rw [BitVec.toNat_sub] at inside
    omega
  · rintro rfl
    rw [BitVec.toNat_sub, toNat_pageOf]
    omega

/-- A page ends inside the address space. -/
theorem toNat_add_le_of_aligned {p : Addr} (aligned : pageOf p = p) :
    p.toNat + 0x1000 ≤ 2 ^ 64 := by
  have multiple := mod_eq_zero_of_aligned aligned
  have bound := p.isLt
  omega

/-! ### The core -/

namespace Emulator

def InImage (e : Emulator U) (x : Addr) : Prop :=
  (x - e.image.mapStart).toNat < e.image.mapSize.toNat

def InStack (x : Addr) : Prop := (x - (stackBase - stackSize)).toNat < stackSize.toNat

def InArena (e : Emulator U) (x : Addr) : Prop :=
  e.enableHeapStubs = true ∧ (x - e.heap.arenaBase).toNat < FakeHeap.arenaSize.toNat

/-- The memory the constructor maps: the image, the stack and, with stubs, the arena. -/
def InCore (e : Emulator U) (x : Addr) : Prop := e.InImage x ∨ InStack x ∨ e.InArena x

instance (e : Emulator U) (x : Addr) : Decidable (e.InImage x) :=
  inferInstanceAs (Decidable (_ < _))

instance (x : Addr) : Decidable (InStack x) := inferInstanceAs (Decidable (_ < _))

instance (e : Emulator U) (x : Addr) : Decidable (e.InArena x) :=
  inferInstanceAs (Decidable (_ ∧ _))

instance (e : Emulator U) (x : Addr) : Decidable (e.InCore x) :=
  inferInstanceAs (Decidable (_ ∨ _ ∨ _))

/-- The memory map and the record of the transient pages. -/
def overlay (e : Emulator U) : PageOverlay.State Addr Addr :=
  ⟨{x | mapped e.engine x = true}, e.transientMappings⟩

/-- What holds of the memory map of an emulator at all times. -/
structure WellMapped (e : Emulator U) : Prop where
  overlay : PageOverlay.Sound pageOf maxTransientRegions {x | e.InCore x} e.overlay
  heapReady : e.enableHeapStubs = true → e.heap.initialized = true
  image_stack : ∀ x, e.InImage x → ¬ InStack x
  image_arena : ∀ x, e.InImage x → ¬ e.InArena x
  stack_arena : ∀ x, InStack x → ¬ e.InArena x

/-- The part of an emulator on which the memory map and its record depend. -/
structure MemoryMap where
  mapped : Addr → Bool
  transientMappings : List Addr
  transientLimitReached : Bool
  transientLimitHits : BitVec 64
  image : ImageSnapshot
  enableHeapStubs : Bool
  arenaBase : Addr
  heapReady : Bool

def memoryMap (e : Emulator U) : MemoryMap :=
  ⟨mapped e.engine, e.transientMappings, e.transientLimitReached, e.transientLimitHits, e.image,
    e.enableHeapStubs, e.heap.arenaBase, e.heap.initialized⟩

variable {e e' e'' : Emulator U}

theorem InCore.congr (image : e'.image = e.image) (stubs : e'.enableHeapStubs = e.enableHeapStubs)
    (base : e'.heap.arenaBase = e.heap.arenaBase) (x : Addr) : e'.InCore x ↔ e.InCore x := by
  unfold InCore InImage InArena
  rw [image, stubs, base]

/-- Two emulators have the same core. -/
structure SameCore (e e' : Emulator U) : Prop where
  image : e'.image = e.image
  stubs : e'.enableHeapStubs = e.enableHeapStubs
  base : e'.heap.arenaBase = e.heap.arenaBase

theorem SameCore.refl (e : Emulator U) : SameCore e e := ⟨rfl, rfl, rfl⟩

theorem SameCore.trans (first : SameCore e e') (second : SameCore e' e'') : SameCore e e'' :=
  ⟨second.image.trans first.image, second.stubs.trans first.stubs, second.base.trans first.base⟩

theorem SameCore.of_memoryMap_eq (same : e'.memoryMap = e.memoryMap) : SameCore e e' :=
  ⟨congrArg MemoryMap.image same, congrArg MemoryMap.enableHeapStubs same,
    congrArg MemoryMap.arenaBase same⟩

/-- The invariant is one of image, arena and overlay. -/
theorem WellMapped.congr (well : e.WellMapped) (image : e'.image = e.image)
    (stubs : e'.enableHeapStubs = e.enableHeapStubs)
    (base : e'.heap.arenaBase = e.heap.arenaBase)
    (ready : e'.heap.initialized = e.heap.initialized)
    (overlay : PageOverlay.Sound pageOf maxTransientRegions {x | e.InCore x} e'.overlay) :
    e'.WellMapped := by
  have core : {x | e'.InCore x} = {x | e.InCore x} := by
    ext x
    exact InCore.congr image stubs base x
  have arena : e'.InArena = e.InArena := by
    unfold InArena
    rw [stubs, base]
  have inImage : e'.InImage = e.InImage := by
    unfold InImage
    rw [image]
  refine ⟨core ▸ overlay, ?_, ?_, ?_, ?_⟩
  · rw [stubs, ready]
    exact well.heapReady
  · rw [inImage]
    exact well.image_stack
  · rw [inImage, arena]
    exact well.image_arena
  · rw [arena]
    exact well.stack_arena

theorem WellMapped.of_memoryMap_eq (well : e.WellMapped) (same : e'.memoryMap = e.memoryMap) :
    e'.WellMapped := by
  have overlay : e'.overlay = e.overlay := congrArg (fun map : MemoryMap =>
    PageOverlay.State.mk {x | map.mapped x = true} map.transientMappings) same
  apply well.congr (congrArg MemoryMap.image same) (congrArg MemoryMap.enableHeapStubs same)
    (congrArg MemoryMap.arenaBase same) (congrArg MemoryMap.heapReady same)
  rw [overlay]
  exact well.overlay

/-! ### Faults -/

/-- A fault that finds the limit on transient pages reached. -/
def refuse (e : Emulator U) : Emulator U :=
  { e with
    transientLimitReached := true
    transientLimitHits := e.transientLimitHits + 1 }

/-- A fault maps one page and records it. -/
inductive MapsPage (e : Emulator U) : Emulator U → Prop
  | mk (p : Addr) (u : U) (aligned : pageOf p = p)
      (room : e.transientMappings.length < maxTransientRegions)
      (done : memMap e.engine p transientMapSize.toNat = .ok u) :
      MapsPage e { e with engine := u, transientMappings := e.transientMappings ++ [p] }

/-- Handling a fault maps some pages, and may then be refused for the limit. -/
inductive Faults (e : Emulator U) : Bool → Emulator U → Prop
  | maps {e' : Emulator U} (pages : Relation.ReflTransGen MapsPage e e') : Faults e false e'
  | refused {e' : Emulator U} (pages : Relation.ReflTransGen MapsPage e e')
      (full : maxTransientRegions ≤ e'.transientMappings.length) : Faults e true e'.refuse

/-- The loop of `map_fault_region` goes from page to page. -/
theorem aligned_next {page : Addr} (aligned : pageOf page = page) :
    pageOf (page + transientMapSize) = page + transientMapSize := by
  have multiple := mod_eq_zero_of_aligned aligned
  apply aligned_of_mod_eq_zero
  rw [BitVec.toNat_add]
  simp only [transientMapSize, BitVec.reduceToNat]
  omega

/-- A round of the loop keeps the emulator, maps the page or is refused. A round that fails
in another way has not reached the limit. -/
theorem mapPage_cases (e : Emulator U) {page : Addr} (aligned : pageOf page = page) :
    (e.mapPage page = (true, e)) ∨
      (e.transientMappings.length < maxTransientRegions ∧ e.mapPage page = (false, e)) ∨
      (∃ e', e.MapsPage e' ∧ e.mapPage page = (true, e')) ∨
      (maxTransientRegions ≤ e.transientMappings.length ∧ e.mapPage page = (false, e.refuse)) := by
  rw [mapPage]
  split_ifs
  · exact .inl rfl
  split
  · exact .inl rfl
  rw [mapTransientPage]
  by_cases full : e.transientMappings.length ≥ maxTransientRegions
  · rw [if_pos full]
    exact .inr (.inr (.inr ⟨full, rfl⟩))
  rw [if_neg full]
  have room := Nat.lt_of_not_le full
  split
  · exact .inl rfl
  · exact .inr (.inl ⟨room, rfl⟩)
  · rename_i u done
    exact .inr (.inr (.inl ⟨_, .mk page u aligned room done, rfl⟩))

/-- The loop ends without a refusal, or with one. -/
theorem mapPages_faults {last : Addr} {fuel : ℕ} {page : Addr} {retry : Bool}
    (aligned : pageOf page = page) (done : mapPages last fuel page e = .ok (retry, e')) :
    e.Faults (!retry && decide (maxTransientRegions ≤ e'.transientMappings.length)) e' := by
  induction fuel generalizing page e with
  | zero => cases done
  | succ fuel ih =>
    rw [mapPages] at done
    by_cases more : page < last
    · rw [if_pos more] at done
      have next := aligned_next aligned
      rcases e.mapPage_cases aligned with kept | ⟨room, failed⟩ | ⟨e₁, maps, mapped⟩ |
        ⟨full, refused⟩
      · rw [kept] at done
        exact ih next done
      · rw [failed] at done
        cases done
        rw [decide_eq_false (Nat.not_le.mpr room), Bool.and_false]
        exact .maps .refl
      · rw [mapped] at done
        have later := ih next done
        generalize (!retry && decide (maxTransientRegions ≤ e'.transientMappings.length)) = refused
          at later ⊢
        -- What the later rounds do comes after the page mapped here.
        cases later with
        | maps pages => exact .maps (.head maps pages)
        | refused pages full => exact .refused (.head maps pages) full
      · rw [refused] at done
        cases done
        have reached : maxTransientRegions ≤ e.refuse.transientMappings.length := full
        rw [decide_eq_true reached, Bool.not_false, Bool.true_and]
        exact .refused .refl full
    · rw [if_neg more] at done
      cases done
      exact .maps .refl

/-- An access to memory that is not mapped throughout is refused for the limit. -/
def refuses (e : Emulator U) (address : Addr) (size : ℕ) : Bool :=
  !decide (Mapped e.engine address size) &&
    match e.hookMem address size with
    | .ok (retry, e') => !retry && decide (maxTransientRegions ≤ e'.transientMappings.length)
    | .error _ => false

theorem refuses_of_mapped {address : Addr} {size : ℕ} (present : Mapped e.engine address size) :
    e.refuses address size = false := by
  rw [refuses, decide_eq_true present, Bool.not_true, Bool.false_and]

theorem hookMem_faults {address : Addr} {size : ℕ} {retry : Bool}
    (missing : ¬ Mapped e.engine address size) (done : e.hookMem address size = .ok (retry, e')) :
    e.Faults (e.refuses address size) e' := by
  rw [refuses, decide_eq_false missing, done, Bool.not_false, Bool.true_and]
  exact mapPages_faults (pageOf_pageOf address) done

/-- An access that is refused is not tried again. -/
theorem retry_of_refuses {address : Addr} {size : ℕ} {retry : Bool}
    (done : e.hookMem address size = .ok (retry, e')) (refused : e.refuses address size = true) :
    retry = false := by
  rw [refuses, done, Bool.and_eq_true, Bool.and_eq_true, Bool.not_eq_true', Bool.not_eq_true']
    at refused
  exact refused.2.1

/-- A load maps memory, or is refused. -/
theorem guestLoad_faults {done : Bool} {address : Addr} {size : ℕ}
    (loaded : e.guestLoad address size = .ok (done, e')) :
    e.Faults (e.refuses address size) e' ∧ (e.refuses address size = true → done = false) := by
  rw [guestLoad] at loaded
  by_cases present : Mapped e.engine address size
  · rw [if_pos present] at loaded
    cases loaded
    rw [refuses_of_mapped present]
    exact ⟨.maps .refl, fun refused => absurd refused Bool.false_ne_true⟩
  · rw [if_neg present] at loaded
    obtain ⟨⟨retry, e₁⟩, faulted, returned⟩ := exists_of_bind_ok loaded
    cases returned
    refine ⟨hookMem_faults present faulted, fun refused => ?_⟩
    simp [retry_of_refuses faulted refused]

/-- The write hook of a store, where there is one. -/
def beforeStore (e : Emulator U) (address : Addr) (size : ℕ) : Except HostFault (Emulator U) :=
  if e.enableWriteTracking then e.hookMemWrite address size else .ok e

theorem beforeStore_cases {address : Addr} {size : ℕ}
    (hooked : e.beforeStore address size = .ok e') :
    ∃ dirtyPages, e' = { e with dirtyPages } := by
  rw [beforeStore] at hooked
  split_ifs at hooked
  · obtain ⟨dirtyPages, -, rfl⟩ := hookMemWrite_cases hooked
    exact ⟨dirtyPages, rfl⟩
  · cases hooked
    exact ⟨e.dirtyPages, rfl⟩

/-- A store maps memory or is refused before its bytes are stored, if they are. -/
theorem guestStore_faults {done : Bool} {address : Addr} {bytes : List Byte}
    (stored : e.guestStore address bytes = .ok (done, e')) :
    ∃ e₀ e₁, e.beforeStore address bytes.length = .ok e₀ ∧
      e₀.Faults (e₀.refuses address bytes.length) e₁ ∧
      (e₀.refuses address bytes.length = true → done = false) ∧
      (e' = e₁ ∨ e' = { e₁ with engine := store e₁.engine address bytes }) := by
  obtain ⟨e₀, hooked, rest⟩ := exists_of_bind_ok stored
  by_cases present : Mapped e₀.engine address bytes.length
  · rw [if_pos present] at rest
    cases rest
    refine ⟨e₀, e₀, hooked, ?_, ?_, .inr rfl⟩
    · rw [refuses_of_mapped present]
      exact .maps .refl
    · rw [refuses_of_mapped present]
      exact fun refused => absurd refused Bool.false_ne_true
  rw [if_neg present] at rest
  obtain ⟨⟨retry, e₁⟩, faulted, rest⟩ := exists_of_bind_ok rest
  refine ⟨e₀, e₁, hooked, hookMem_faults present faulted, ?_⟩
  by_cases again : retry = true ∧ Mapped e₁.engine address bytes.length
  · simp only [if_pos again] at rest
    cases rest
    refine ⟨fun refused => ?_, .inr rfl⟩
    have stopped := retry_of_refuses faulted refused
    rw [again.1] at stopped
    cases stopped
  · simp only [if_neg again] at rest
    cases rest
    exact ⟨fun _ => rfl, .inl rfl⟩

/-! ### What a fault does to the memory map -/

theorem MapsPage.overlay_step (maps : e.MapsPage e') :
    PageOverlay.Step pageOf maxTransientRegions e.overlay e'.overlay := by
  obtain ⟨p, u, aligned, room, done⟩ := maps
  have whole : transientMapSize.toNat = 0x1000 := rfl
  have free := (memMap_free _ _ _ _ done).2
  have added : Emulator.overlay { e with
      engine := u
      transientMappings := e.transientMappings ++ [p] } =
      ⟨e.overlay.present ∪ {x | pageOf x = p}, e.overlay.pages ++ [p]⟩ := by
    refine congrArg (fun present => PageOverlay.State.mk present _) ?_
    ext x
    change mapped u x = true ↔ mapped e.engine x = true ∨ pageOf x = p
    rw [mapped_memMap _ _ _ _ done x, whole, Bool.or_eq_true, decide_eq_true_eq,
      offset_lt_iff aligned]
  rw [added]
  apply PageOverlay.Step.add p room (mem_range_pageOf_iff.mpr aligned)
  intro x present same
  have unmapped := free x (by rwa [whole, offset_lt_iff aligned])
  rw [show mapped e.engine x = true from present] at unmapped
  cases unmapped

theorem MapsPage.wellMapped (maps : e.MapsPage e') (well : e.WellMapped) : e'.WellMapped := by
  have overlay := well.overlay.step maps.overlay_step
  obtain ⟨p, u, aligned, room, done⟩ := maps
  exact well.congr rfl rfl rfl rfl overlay

theorem wellMapped_of_mapsPages (pages : Relation.ReflTransGen MapsPage e e')
    (well : e.WellMapped) : e'.WellMapped := by
  induction pages with
  | refl => exact well
  | tail _ last ih => exact last.wellMapped ih

/-- The limit flags of an emulator after a number of refused accesses. -/
structure LimitFlags (e : Emulator U) (refusals : ℕ) : Prop where
  reached : e.transientLimitReached = true ↔ 0 < refusals
  hits : e.transientLimitHits = BitVec.ofNat 64 refusals

theorem LimitFlags.of_memoryMap_eq {refusals : ℕ} (flags : e.LimitFlags refusals)
    (same : e'.memoryMap = e.memoryMap) : e'.LimitFlags refusals := by
  have reached : e'.transientLimitReached = e.transientLimitReached :=
    congrArg MemoryMap.transientLimitReached same
  have hits : e'.transientLimitHits = e.transientLimitHits :=
    congrArg MemoryMap.transientLimitHits same
  exact ⟨by rw [reached]; exact flags.reached, hits.trans flags.hits⟩

theorem MapsPage.limitFlags {refusals : ℕ} (pages : Relation.ReflTransGen MapsPage e e')
    (flags : e.LimitFlags refusals) : e'.LimitFlags refusals := by
  induction pages with
  | refl => exact flags
  | tail _ last ih =>
    obtain ⟨p, u, aligned, room, done⟩ := last
    exact ⟨ih.reached, ih.hits⟩

theorem MapsPage.sameCore (pages : Relation.ReflTransGen MapsPage e e') : SameCore e e' := by
  induction pages with
  | refl => exact .refl e
  | tail _ last ih =>
    obtain ⟨p, u, aligned, room, done⟩ := last
    exact ⟨ih.image, ih.stubs, ih.base⟩

theorem Faults.sameCore {refused : Bool} (faults : e.Faults refused e') : SameCore e e' := by
  cases faults with
  | maps pages => exact MapsPage.sameCore pages
  | refused pages full =>
    have same := MapsPage.sameCore pages
    exact ⟨same.image, same.stubs, same.base⟩

theorem Faults.wellMapped {refused : Bool} (faults : e.Faults refused e') (well : e.WellMapped) :
    e'.WellMapped := by
  cases faults with
  | maps pages => exact wellMapped_of_mapsPages pages well
  | refused pages full =>
    have later := wellMapped_of_mapsPages pages well
    exact later.congr rfl rfl rfl rfl later.overlay

theorem Faults.limitFlags {refused : Bool} {refusals : ℕ} (faults : e.Faults refused e')
    (flags : e.LimitFlags refusals) : e'.LimitFlags (refusals + refused.toNat) := by
  cases faults with
  | maps pages => exact MapsPage.limitFlags pages flags
  | @refused e₁ pages full =>
    have later := MapsPage.limitFlags pages flags
    refine ⟨iff_of_true rfl (Nat.succ_pos _), ?_⟩
    change e₁.transientLimitHits + 1 = _
    rw [later.hits, Bool.toNat_true, BitVec.ofNat_add]
    rfl

end Emulator

/-! ### What leaves the memory map alone -/

section Stubs

variable [Host] {u u' : U} {heap heap' : FakeHeap}

/-- A stub changes the heap by at most one request for memory. -/
theorem Stub.run_heap {stub : Stub} (ran : stub.run u heap = .ok (u', heap')) :
    ∃ n, heap' = (heap.alloc n).2 := by
  -- A request for no bytes stands for no request.
  have unchanged : ∃ n, heap = (heap.alloc n).2 := ⟨0, by rw [FakeHeap.alloc_zero]⟩
  have filled {result : Except HostFault U} {finish : U → U}
      (done : (do let u ← result; return (finish u, heap)) =
        (.ok (u', heap') : Except HostFault (U × FakeHeap))) :
      ∃ n, heap' = (heap.alloc n).2 := by
    obtain ⟨u₁, -, returned⟩ := exists_of_bind_ok done
    cases returned
    exact unchanged
  have zeroed {n : BitVec 64} {zeroed : Bool}
      (done : allocZeroed u heap n zeroed = .ok (u', heap')) : ∃ n, heap' = (heap.alloc n).2 :=
    ⟨n, congrArg Prod.snd (allocZeroed_eq_alloc done)⟩
  cases stub with
  | malloc =>
    cases ran
    exact ⟨_, rfl⟩
  | calloc =>
    obtain ⟨⟨ptr, u₁, heap₁⟩, done, returned⟩ := exists_of_bind_ok ran
    cases returned
    simp only [FakeHeap.callocAlloc] at done
    split_ifs at done
    · obtain ⟨u₂, -, returned⟩ := exists_of_bind_ok done
      cases returned
      exact ⟨_, rfl⟩
    · cases done
      exact ⟨_, rfl⟩
  | realloc | heapRealloc =>
    obtain ⟨⟨ptr, u₁, heap₁⟩, done, returned⟩ := exists_of_bind_ok ran
    cases returned
    exact ⟨_, congrArg Prod.snd (reallocAlloc_eq_alloc done)⟩
  | heapAlloc | virtualAlloc | localAlloc => exact zeroed ran
  | free | getProcessHeap | strlen | wcslen | strcpy | wcscpy | strcat | wcscat | strncpy
  | wcsncpy =>
    cases ran
    exact unchanged
  | memset => exact filled ran
  | rtlZeroMemory | rtlFillMemory => exact filled ran
  | memcpy =>
    rw [Stub.run, stubMemcpy] at ran
    split_ifs at ran
    · obtain ⟨-, -, returned⟩ := exists_of_bind_ok ran
      split at returned
      · cases returned
        exact unchanged
      · cases returned
        exact unchanged
    · cases ran
      exact unchanged
  | memcmp =>
    rw [Stub.run, stubMemcmp] at ran
    split_ifs at ran
    · obtain ⟨-, -, ran⟩ := exists_of_bind_ok ran
      obtain ⟨-, -, returned⟩ := exists_of_bind_ok ran
      cases returned
      exact unchanged
    · cases ran
      exact unchanged

end Stubs

/-- A request keeps the arena where it is. -/
theorem FakeHeap.alloc_arena (h : FakeHeap) (n : BitVec 64) :
    (h.alloc n).2.arenaBase = h.arenaBase ∧ (h.alloc n).2.initialized = h.initialized := by
  rcases h.alloc_cases n with ⟨refused, -⟩ | ⟨-, -, -, served⟩
  · rw [refused]
    exact ⟨rfl, rfl⟩
  · rw [served]
    exact ⟨rfl, rfl⟩

namespace Emulator

variable {e e' : Emulator U}

/-- The memory map is determined by the fields that may change in a slice. -/
theorem memoryMap_eq_of_mapped {u : U} {h : FakeHeap} (mappings : mapped u = mapped e.engine)
    (base : h.arenaBase = e.heap.arenaBase) (ready : h.initialized = e.heap.initialized) :
    memoryMap { e with engine := u, heap := h } = e.memoryMap := by
  simp only [memoryMap, mappings, base, ready]

theorem SameButStrings.memoryMap_eq (same : SameButStrings e e') : e'.memoryMap = e.memoryMap := by
  rw [same]
  rfl

theorem ExploreStep.memoryMap_eq {address : Addr} {s s' : Emulator U × Counters}
    (step : ExploreStep address s s') : s'.1.memoryMap = s.1.memoryMap := by
  cases step with
  | @schedule e c target =>
    obtain ⟨branches, c', -, result, -⟩ := e.scheduleBranch_cases c address target
    rw [result]
    rfl
  | adjust u counts memory mappings => exact memoryMap_eq_of_mapped mappings rfl rfl

section Hooks

variable [Host] {c c' : Counters} {address : Addr} {size : BitVec 32} {insn : Insn}

/-- The instruction hook neither maps nor unmaps memory. -/
theorem Executed.memoryMap_eq (executed : e.Executed c address size insn e' c') :
    e'.memoryMap = e.memoryMap := by
  have mappings := executed.hostWrites.1.mapped_eq
  cases executed with
  | skipped => exact memoryMap_eq_of_mapped mappings rfl rfl
  | handled skip scanned handle =>
    obtain ⟨found, rfl⟩ := scanned.exists_stringList
    exact memoryMap_eq_of_mapped mappings rfl rfl
  | @called e₁ _ _ stub skip scanned handle call =>
    obtain ⟨found, rfl⟩ := scanned.exists_stringList
    obtain ⟨u, heap, ran, result, -⟩ := handleCall_cases call
    obtain ⟨found', rfl⟩ := result.exists_stringList
    cases stub with
    | none =>
      obtain ⟨-, rfl⟩ := ran
      exact memoryMap_eq_of_mapped mappings rfl rfl
    | some stub =>
      obtain ⟨n, rfl⟩ := Stub.run_heap ran
      obtain ⟨base, ready⟩ := e.heap.alloc_arena n
      exact memoryMap_eq_of_mapped mappings base ready
  | explored skip scanned handle call explore =>
    obtain ⟨found, rfl⟩ := scanned.exists_stringList
    exact exploreBranches_invariant (P := fun s => s.1.memoryMap = e.memoryMap) explore rfl
      fun _ _ before step => step.memoryMap_eq.trans before

theorem hookCode_memoryMap {stop : Bool} (hook : e.hookCode c address size stop = .ok (e', c')) :
    e'.memoryMap = e.memoryMap := by
  rcases hookCode_cases hook with ⟨-, rfl, -⟩ | ⟨insn, -, -, executed⟩
  · rfl
  · exact executed.memoryMap_eq

end Hooks

end Emulator

namespace RunState

variable {r r' : RunState U}

theorem enterSlice_memoryMap (c : Counters) (stop : Bool) :
    (r.enterSlice c stop).emulator.memoryMap = r.emulator.memoryMap := by
  rw [enterSlice]
  split_ifs
  · rfl
  · rfl
  · exact Emulator.memoryMap_eq_of_mapped (mapped_regWrite _ _ _) rfl rfl

theorem Continues.memoryMap_eq (continues : Continues r r') :
    r'.emulator.memoryMap = r.emulator.memoryMap := by
  cases continues with
  | nothingPending => rfl
  | restoreFailed => rfl
  | resumed taken restored =>
    have mappings := (contextRestore_memory _ _ _ restored).2
    exact Emulator.memoryMap_eq_of_mapped (e := r.emulator) mappings rfl rfl

end RunState

/-! ### Runs -/

/-- The access of the event is refused because of the limit on transient pages. -/
def RunEvent.refused (s : Counters × RunState U) : RunEvent U → Bool
  | .store address bytes =>
    match s.2.emulator.beforeStore address bytes.length with
    | .ok e => e.refuses address bytes.length
    | .error _ => false
  | .load address size => s.2.emulator.refuses address size
  | _ => false

/-- The number of refused accesses of a trace. -/
def refusals (past : List ((Counters × RunState U) × RunEvent U)) : ℕ :=
  past.countP fun x => x.2.refused x.1

section Runs

variable [Host] {s s' : Counters × RunState U} {event : RunEvent U}

/-- Only accesses change the memory map, and they do it by faults. -/
theorem RunStep.memoryMap_cases (step : RunStep event s s') :
    (event.refused s = false ∧ s'.2.emulator.memoryMap = s.2.emulator.memoryMap) ∨
      ∃ e₀ e₁ : Emulator U, e₀.memoryMap = s.2.emulator.memoryMap ∧
        e₀.Faults (event.refused s) e₁ ∧ s'.2.emulator.memoryMap = e₁.memoryMap := by
  cases step with
  | enter stop => exact .inl ⟨rfl, RunState.enterSlice_memoryMap _ stop⟩
  | code address size stop here hook => exact .inl ⟨rfl, Emulator.hookCode_memoryMap hook⟩
  | @store c r before done e address bytes here nonempty small stored =>
    obtain ⟨e₀, e₁, hooked, faults, -, result⟩ := Emulator.guestStore_faults stored
    have refused : (RunEvent.store (U := U) address bytes).refused (c, r) =
        e₀.refuses address bytes.length := by
      simp only [RunEvent.refused, hooked]
    have kept : e₀.memoryMap = r.emulator.memoryMap := by
      obtain ⟨dirtyPages, rfl⟩ := Emulator.beforeStore_cases hooked
      rfl
    refine .inr ⟨e₀, e₁, kept, refused ▸ faults, ?_⟩
    rcases result with rfl | rfl
    · rfl
    · exact Emulator.memoryMap_eq_of_mapped (mapped_store _ _ _) rfl rfl
  | load address size here nonempty small loaded =>
    exact .inr ⟨_, _, rfl, (Emulator.guestLoad_faults loaded).1, rfl⟩
  | execute u here memory mappings =>
    exact .inl ⟨rfl, Emulator.memoryMap_eq_of_mapped mappings rfl rfl⟩
  | leave elapsedUs here left =>
    obtain ⟨e₁, scanned, continues⟩ := RunState.leaveSlice_cases left
    exact .inl ⟨rfl, continues.memoryMap_eq.trans scanned.memoryMap_eq⟩
  | interfere => exact .inl ⟨rfl, rfl⟩

theorem RunStep.wellMapped (step : RunStep event s s') (well : s.2.emulator.WellMapped) :
    s'.2.emulator.WellMapped := by
  rcases step.memoryMap_cases with ⟨-, same⟩ | ⟨e₀, e₁, before, faults, after⟩
  · exact well.of_memoryMap_eq same
  · exact (faults.wellMapped (well.of_memoryMap_eq before)).of_memoryMap_eq after

theorem RunStep.sameCore (step : RunStep event s s') :
    Emulator.SameCore s.2.emulator s'.2.emulator := by
  rcases step.memoryMap_cases with ⟨-, same⟩ | ⟨e₀, e₁, before, faults, after⟩
  · exact .of_memoryMap_eq same
  · exact ((Emulator.SameCore.of_memoryMap_eq before).trans faults.sameCore).trans
      (.of_memoryMap_eq after)

theorem RunStep.limitFlags {n : ℕ} (step : RunStep event s s')
    (flags : s.2.emulator.LimitFlags n) :
    s'.2.emulator.LimitFlags (n + (event.refused s).toNat) := by
  rcases step.memoryMap_cases with ⟨refused, same⟩ | ⟨e₀, e₁, before, faults, after⟩
  · rw [refused]
    exact flags.of_memoryMap_eq same
  · exact (faults.limitFlags (flags.of_memoryMap_eq before)).of_memoryMap_eq after

theorem limitFlags_of_trace {past : List ((Counters × RunState U) × RunEvent U)}
    (trace : Trace RunStep s past s') (flags : s.2.emulator.LimitFlags 0) :
    s'.2.emulator.LimitFlags (refusals past) := by
  apply trace.invariant (P := fun past s => s.2.emulator.LimitFlags (refusals past)) flags
  intro past s event s' before step
  have after := step.limitFlags before
  rw [refusals, List.countP_cons]
  cases refused : event.refused s with
  | false =>
    rw [refused] at after
    exact after
  | true =>
    rw [refused] at after
    exact after

end Runs

end Unxorer
