import Unxorer.Emulator.Mappings
import Unxorer.Vector.Mmx

/-!
# Vector stores to unmapped memory

A store that Unicorn executes itself to memory that is not mapped calls the fault hook,
which maps the missing pages, and is then repeated. A vector store that the handler
carries out goes through `uc_mem_write`, which fails on such memory and calls no hook.

## Main definitions

* `PagedMaps` — `uc_mem_map` works on whole pages
* `VectorStore` — an instruction that stores a vector register
* `FirstMissing` — the first page of an access that is not mapped
* `WritesNothingNew` — the handler, wherever it writes, changes no byte

## Main results

* `handle_eq_native_iff` — when the handler leaves the memory that the native store leaves
-/

set_option autoImplicit false

namespace Unxorer

open Unicorn VectorOperations RegisterMapper WriteTracker Transition Mmx

section Generic

variable {U : Type} [Unicorn U]

/-- `uc_mem_map` maps whole pages, and reports a mapped page only where one is. -/
structure PagedMaps (U : Type) [Unicorn U] : Prop where
  whole : ∀ (u : U) a n u', memMap u a n = .ok u' → a.toNat % 0x1000 = 0 ∧ n % 0x1000 = 0
  taken : ∀ (u : U) a n, memMap u a n = .error .map → ∃ x, (x - a).toNat < n ∧ mapped u x = true

/-! ### Mapped pages -/

/-- A range of whole pages holds an address exactly when it holds the page. -/
theorem offset_pageOf_lt_iff {a : Addr} {n : ℕ} (aligned : a.toNat % 0x1000 = 0)
    (whole : n % 0x1000 = 0) (x : Addr) : (pageOf x - a).toNat < n ↔ (x - a).toNat < n := by
  have page := toNat_pageOf x
  have bound := x.isLt
  rw [BitVec.toNat_sub, BitVec.toNat_sub, page]
  omega

/-- Whether an address is mapped depends on its page. -/
def Granular (u : U) : Prop := ∀ x, mapped u (pageOf x) = mapped u x

namespace Emulator

variable {e e' : Emulator U}

/-- The three regions of the core are ranges of whole pages. -/
structure WholeCore (e : Emulator U) : Prop where
  image : e.image.mapStart.toNat % 0x1000 = 0 ∧ e.image.mapSize.toNat % 0x1000 = 0
  arena : e.enableHeapStubs = true → e.heap.arenaBase.toNat % 0x1000 = 0

theorem create_wholeCore (paged : PagedMaps U) {opened : U} {image : ImageSnapshot}
    {decoded : InstructionSnapshot} {config : EmulatorConfig}
    (created : Emulator.create opened image decoded config = some e) : e.WholeCore := by
  obtain ⟨u₁, u₂, imageMapped, -, rest⟩ := create_cases created
  have whole := paged.whole _ _ _ _ imageMapped
  rcases rest with ⟨heap, rfl⟩ | ⟨base, u₃, -, arenaMapped, rfl⟩
  · exact ⟨whole, fun stubs => absurd stubs Bool.false_ne_true⟩
  · exact ⟨whole, fun _ => (paged.whole _ _ _ _ arenaMapped).1⟩

theorem SameCore.wholeCore (same : SameCore e e') (whole : e.WholeCore) : e'.WholeCore := by
  refine ⟨?_, ?_⟩
  · rw [same.image]
    exact whole.image
  · rw [same.stubs, same.base]
    exact whole.arena

theorem WellMapped.granular (well : e.WellMapped) (whole : e.WholeCore) : Granular e.engine := by
  intro x
  have core : e.InCore (pageOf x) ↔ e.InCore x := by
    refine or_congr ?_ (or_congr ?_ ?_)
    · exact offset_pageOf_lt_iff whole.image.1 whole.image.2 x
    · exact offset_pageOf_lt_iff (by decide) (by decide) x
    · exact and_congr_right fun stubs => offset_pageOf_lt_iff (whole.arena stubs) (by decide) x
  have same : mapped e.engine (pageOf x) = true ↔ mapped e.engine x = true := by
    rw [well.law.mapped_iff, well.law.mapped_iff, core, pageOf_pageOf]
  exact Bool.eq_iff_iff.mpr same

/-! ### What a fault maps -/

/-- Memory that was mapped before a fault is mapped after it, with the same contents. -/
theorem MapsMemory.kept (maps : MapsMemory e e') {x : Addr} (present : mapped e.engine x = true) :
    mapped e'.engine x = true ∧ byte e'.engine x = byte e.engine x := by
  have steps := maps.engine
  generalize e'.engine = u at steps
  induction steps with
  | refl => exact ⟨present, rfl⟩
  | tail _ last ih =>
    obtain ⟨a, n, done⟩ := last
    have outside : ¬ (x - a).toNat < n := by
      intro inside
      rw [(memMap_free _ _ _ _ done).2 x inside] at ih
      exact Bool.false_ne_true ih.1
    refine ⟨?_, ?_⟩
    · rw [mapped_memMap _ _ _ _ done x, ih.1, Bool.true_or]
    · rw [byte_memMap _ _ _ _ done x, if_neg outside, ih.2]

/-- The pages from `first` up to `last` hold one that is not mapped, and `p` is the first. -/
structure FirstMissingFrom (u : U) (first last p : Addr) : Prop where
  aligned : pageOf p = p
  lower : first ≤ p
  upper : p < last
  missing : mapped u p = false
  before : ∀ q, pageOf q = q → first ≤ q → q < p → mapped u q = true

/-- A page is the next one or lies beyond it. -/
theorem page_le_cases {page p : Addr} (aligned : pageOf page = page) (alignedP : pageOf p = p)
    (le : page ≤ p) : p = page ∨ page + transientMapSize ≤ p := by
  have multiple := mod_eq_zero_of_aligned aligned
  have multipleP := mod_eq_zero_of_aligned alignedP
  by_cases same : p = page
  · exact .inl same
  · have apart : p.toNat ≠ page.toNat := fun equal => same (BitVec.eq_of_toNat_eq equal)
    rw [BitVec.le_def] at le
    refine .inr ?_
    rw [BitVec.le_def, BitVec.toNat_add]
    simp only [transientMapSize, BitVec.reduceToNat]
    omega

/-- A page that is mapped does not change which page is the first missing one. -/
theorem firstMissingFrom_next {u : U} {page last p : Addr} (aligned : pageOf page = page)
    (alignedLast : pageOf last = last) (more : page < last) (present : mapped u page = true) :
    FirstMissingFrom u page last p ↔ FirstMissingFrom u (page + transientMapSize) last p := by
  have multiple := mod_eq_zero_of_aligned aligned
  have multipleLast := mod_eq_zero_of_aligned alignedLast
  have bound := last.isLt
  rw [BitVec.lt_def] at more
  have next : (page + transientMapSize).toNat = page.toNat + 0x1000 := by
    rw [BitVec.toNat_add]
    simp only [transientMapSize, BitVec.reduceToNat]
    omega
  have onward : page ≤ page + transientMapSize := by
    rw [BitVec.le_def, next]
    omega
  constructor
  · intro first
    have other : p ≠ page := by
      rintro rfl
      rw [first.missing] at present
      exact Bool.false_ne_true present
    refine ⟨first.aligned, ?_, first.upper, first.missing, ?_⟩
    · exact (page_le_cases aligned first.aligned first.lower).resolve_left other
    · intro q alignedQ above below
      exact first.before q alignedQ (BitVec.le_trans onward above) below
  · intro first
    refine ⟨first.aligned, BitVec.le_trans onward first.lower, first.upper, first.missing, ?_⟩
    intro q alignedQ above below
    rcases page_le_cases aligned alignedQ above with rfl | beyond
    · exact present
    · exact first.before q alignedQ beyond below

/-- The fault handler maps nothing exactly when the first missing page of its walk cannot be
mapped, or there is none. -/
theorem mapPages_unchanged_iff (paged : PagedMaps U) (well : e.WellMapped)
    (granular : Granular e.engine) (room : e.transientMappings.length < maxTransientRegions)
    {last : Addr} {fuel : ℕ} {page : Addr} {retry : Bool} (aligned : pageOf page = page)
    (alignedLast : pageOf last = last) (done : mapPages last fuel page e = .ok (retry, e')) :
    mapped e'.engine = mapped e.engine ↔
      ∀ p, FirstMissingFrom e.engine page last p →
        ∀ u, memMap e.engine p transientMapSize.toNat ≠ .ok u := by
  induction fuel generalizing page with
  | zero => cases done
  | succ fuel ih =>
    rw [mapPages] at done
    by_cases more : page < last
    · rw [if_pos more] at done
      cases present : mapped e.engine page with
      | true =>
        rw [mapPage_of_mapped present] at done
        rw [ih (aligned_next aligned) done]
        exact forall_congr' fun p => imp_congr_left
          (firstMissingFrom_next aligned alignedLast more present).symm
      | false =>
        rw [well.mapPage_of_missing present aligned, mapTransientPage,
          if_neg (Nat.not_le.mpr room)] at done
        have isFirst : FirstMissingFrom e.engine page last page := by
          refine ⟨aligned, BitVec.le_refl page, more, present, ?_⟩
          intro q _ above below
          exact absurd above (BitVec.not_le.mpr below)
        have only {p : Addr} (first : FirstMissingFrom e.engine page last p) : page = p := by
          by_contra other
          have earlier := first.before page aligned (BitVec.le_refl page)
            (BitVec.lt_of_le_ne first.lower other)
          rw [present] at earlier
          cases earlier
        cases result : memMap e.engine page transientMapSize.toNat with
        | error fault =>
          rw [result] at done
          cases fault with
          | map =>
            -- No part of the page is mapped.
            obtain ⟨x, inside, taken⟩ := paged.taken _ _ _ result
            rw [show transientMapSize.toNat = 0x1000 from rfl, offset_lt_iff aligned] at inside
            rw [← granular x, inside, present] at taken
            cases taken
          | other =>
            cases done
            refine iff_of_true rfl ?_
            intro p first u mapped
            rw [← only first, result] at mapped
            cases mapped
        | ok u =>
          rw [result] at done
          refine iff_of_false ?_ ?_
          · intro same
            have here : mapped u page = true := by
              rw [mapped_memMap _ _ _ _ result, decide_eq_true, Bool.or_true]
              exact (offset_lt_iff aligned page).mpr aligned
            have later := ((MapsMemory.pages done).kept here).1
            rw [same, present] at later
            exact Bool.false_ne_true later
          · intro never
            exact never page isFirst u result
    · rw [if_neg more] at done
      cases done
      refine iff_of_true rfl ?_
      intro p first
      have lower := BitVec.le_def.mp first.lower
      have upper := BitVec.lt_def.mp first.upper
      exact absurd (BitVec.lt_def.mpr (lower.trans_lt upper)) more

/-- The first page of an access that is not mapped, among the pages the fault handler walks
through: an access that touches the topmost page or wraps around has none. -/
def FirstMissing (e : Emulator U) (address : Addr) (size : ℕ) (p : Addr) : Prop :=
  FirstMissingFrom e.engine (pageOf address)
    (pageOf (address + (BitVec.ofNat 64 size - 1) + transientMapSize)) p

theorem hookMem_unchanged_iff (paged : PagedMaps U) (well : e.WellMapped)
    (granular : Granular e.engine) (room : e.transientMappings.length < maxTransientRegions)
    {address : Addr} {size : ℕ} {retry : Bool} (positive : 0 < size)
    (done : e.hookMem address size = .ok (retry, e')) :
    mapped e'.engine = mapped e.engine ↔
      ∀ p, e.FirstMissing address size p →
        ∀ u, memMap e.engine p transientMapSize.toNat ≠ .ok u := by
  simp only [hookMem, gt_iff_lt, positive, if_true] at done
  exact mapPages_unchanged_iff paged well granular room (pageOf_pageOf _) (pageOf_pageOf _) done

/-- A fault that maps nothing leaves guest memory as it is. -/
theorem MapsMemory.guestByte_eq_iff (maps : MapsMemory e e') :
    (∀ x, guestByte e.engine x = guestByte e'.engine x) ↔
      mapped e'.engine = mapped e.engine := by
  constructor
  · intro same
    ext x
    exact (mapped_eq_of_guestByte_eq (same x)).symm
  · intro same x
    rw [guestByte, guestByte, same]
    by_cases present : mapped e.engine x = true
    · rw [if_pos present, if_pos present, (maps.kept present).2]
    · rw [if_neg present, if_neg present]

end Emulator

/-! ### The two paths of a store -/

/-- The instruction stores a vector register to memory: a whole XMM or YMM register, or the
front of a vector or MMX register. No operand in memory has a vector register as its base. -/
structure VectorStore (insn : Insn) : Prop where
  move : Handler.isMove insn.itype = true
  inMemory : isInMemory insn.op1 = true
  general : vectorRegSize insn.op1.reg = 0
  type : insn.op2.type = .reg
  source : (vectorNumber insn.op2.reg).isSome = true ∨ (mmNumber insn.op2.reg).isSome = true

/-- The bytes the instruction stores. -/
def storedBytes [Mmx U] (u : U) (insn : Insn) : List Byte :=
  match vectorNumber insn.op2.reg with
  | some i => (ymm u i).take (Handler.moveSize insn)
  | none => ((mmNumber insn.op2.reg).map fun i => (mm u i).take (Handler.moveSize insn)).getD []

/-- The handler, which can take the operand for memory elsewhere, writes nothing new there:
the read of the register fails, the operand is of the kind `phrase`, not all of the memory is
mapped, or the bytes are in it already. -/
def WritesNothingNew [Mmx U] (u : U) (insn : Insn) : Prop :=
  ∀ i < (Handler.destination u insn).size,
    (storedBytes u insn)[i]? = some (byte u ((Handler.destination u insn).start + .ofNat 64 i))

theorem Handler.moveSize_pos (insn : Insn) : 0 < moveSize insn := by
  simp only [moveSize]
  split_ifs <;> omega

theorem Handler.moveSize_le (insn : Insn) : moveSize insn ≤ 32 := by
  have width (r : ℕ) : vectorRegSize r ≤ 32 := by
    rw [vectorRegSize]
    split_ifs <;> decide
  have first := width insn.op1.reg
  have second := width insn.op2.reg
  simp only [moveSize]
  split_ifs <;> omega

namespace VectorStore

variable [Mmx U] {u : U} {insn : Insn} (store : VectorStore insn)
include store

theorem length_storedBytes : (storedBytes u insn).length = Handler.moveSize insn := by
  rw [storedBytes]
  cases vector : vectorNumber insn.op2.reg with
  | some i => exact Buf.length_take _ _
  | none =>
    cases number : mmNumber insn.op2.reg with
    | some i => exact Buf.length_take _ _
    | none =>
      have source := store.source
      rw [vector, number] at source
      simp at source

/-- What the handler can read of the register is what the instruction stores. -/
theorem take_of_readOperand {buf : Buf 32}
    (read : readOperand u insn.op2 (Buf.zero 32) (Handler.moveSize insn) = some buf) :
    buf.take (Handler.moveSize insn) = storedBytes u insn := by
  rw [storedBytes]
  cases vector : vectorNumber insn.op2.reg with
  | some i =>
    have register : IsRegister insn.op2 (vectorRegSize insn.op2.reg) i :=
      ⟨store.type, rfl, vector, vectorRegSize_pos vector⟩
    have whole : Handler.moveSize insn = vectorRegSize insn.op2.reg := by
      by_contra other
      have short : Handler.moveSize insn < vectorRegSize insn.op2.reg := by
        have wide := register.size_eq
        revert other
        simp only [Handler.moveSize, store.general, if_true]
        split_ifs <;> omega
      rw [readOperand_of_short register u _ short] at read
      cases read
    rw [whole] at read ⊢
    rw [readOperand_register u _ register, copy_zero] at read
    cases read
    rw [Buf.take, resize_resize _ register.size_le]
    rfl
  | none =>
    -- The handlers know no MMX register.
    have number := store.source.resolve_left (by rw [vector]; exact Bool.false_ne_true)
    have mmx : isMm insn.op2 = true := by
      rw [isMm, store.type, number]
      rfl
    rw [readOperand_of_isMm _ mmx] at read
    cases read

/-- The handler leaves guest memory as it is exactly when it writes nothing new. -/
theorem guestByte_handle_iff (address : Addr) (size : BitVec 32) :
    (∀ x, guestByte u x = guestByte (Handler.handle u address size insn) x) ↔
      WritesNothingNew u insn := by
  have advanced (x : Addr) : guestByte u x = guestByte (updateRip u address size) x := by
    rw [guestByte, guestByte, mapped_updateRip, byte_updateRip]
  -- Where the handler has no destination, nothing is written.
  have idle (nowhere : Handler.destination u insn = .nowhere)
      (same : Handler.handle u address size insn = updateRip u address size) :
      (∀ x, guestByte u x = guestByte (Handler.handle u address size insn) x) ↔
        WritesNothingNew u insn := by
    rw [WritesNothingNew, nowhere, same]
    exact iff_of_true advanced fun i none => absurd none (Nat.not_lt_zero i)
  by_cases fails : Handler.moveFails u insn = true
  · exact idle (if_pos fails) (Handler.handle_of_moveFails fails address size)
  have handled := Handler.handle_move u address size store.move
  obtain ⟨buf, read⟩ : ∃ buf, readOperand u insn.op2 (Buf.zero 32) (Handler.moveSize insn) =
      some buf := by
    rw [Handler.moveFails, store.move, Bool.true_and, Option.isNone_iff_eq_none] at fails
    exact Option.ne_none_iff_exists'.mp fails
  rw [Handler.handleMove, readOperand_updateRip, read] at handled
  by_cases memory : isMemoryOperand insn.op1 = true
  swap
  · have phrase : insn.op1.type = .phrase := by
      have inMemory := store.inMemory
      rw [isInMemory, Bool.or_eq_true, decide_eq_true_eq] at inMemory
      exact inMemory.resolve_left memory
    refine idle ((if_neg fails).trans (if_neg memory)) (handled.trans ?_)
    simp only [writeOperand, phrase, Option.getD_none]
  simp only [writeOperand_of_isMemoryOperand _ memory, store.take_of_readOperand read,
    calculateEffectiveAddress_updateRip, memWrite_getD, range_mapped_updateRip,
    store.length_storedBytes] at handled
  have destination : Handler.destination u insn =
      .block u (calculateEffectiveAddress u insn.op1) (Handler.moveSize insn) := by
    rw [Handler.destination, if_neg fails, if_pos memory, Handler.writeSize, if_pos store.move]
  by_cases present : Mapped u (calculateEffectiveAddress u insn.op1) (Handler.moveSize insn)
  swap
  · refine idle (destination.trans (if_neg present)) (handled.trans ?_)
    rw [if_neg present]
  rw [if_pos present] at handled
  rw [Destination.block, if_pos present] at destination
  have length := store.length_storedBytes (u := u)
  have room : (storedBytes u insn).length ≤ 2 ^ 64 :=
    length.trans_le ((Handler.moveSize_le insn).trans (by decide))
  rw [← range_mapped_updateRip u address size, ← length] at present
  rw [WritesNothingNew, destination, handled, ← length]
  simp only [advanced, guestByte_store_eq_iff present room, byte_updateRip]

end VectorStore

/-- For a vector store to memory that is not mapped throughout, in any state of any run with
room for a transient page and wherever the handler takes that memory to be, the handler leaves
the guest memory a native store leaves exactly when the fault handler has nothing to map or
Unicorn refuses to map it, and the handler writes nothing new elsewhere. -/
theorem handle_eq_native_iff [Host] [Mmx U] (paged : PagedMaps U) (e : Reused U)
    (empty : ∀ x, mapped e.opened x = false) {args : RunArgs} {c₀ c : Counters}
    {r₀ r : RunState U} (started : e.emulator.startRun args = .ok r₀)
    (run : Run RunStep (fun _ _ => True) (c₀, r₀) (c, r)) {insn : Insn}
    (store : VectorStore insn) {dest address : Addr} {size : BitVec 32}
    (missing : ¬ Mapped r.emulator.engine dest (Handler.moveSize insn))
    (room : r.emulator.transientMappings.length < Emulator.maxTransientRegions)
    {done : Bool} {e' : Emulator U}
    (native : r.emulator.guestStore dest (storedBytes r.emulator.engine insn) = .ok (done, e')) :
    (∀ x, guestByte (Handler.handle r.emulator.engine address size insn) x =
        guestByte e'.engine x) ↔
      (∀ p, r.emulator.FirstMissing dest (Handler.moveSize insn) p →
        ∀ u, memMap r.emulator.engine p Emulator.transientMapSize.toNat ≠ .ok u) ∧
      WritesNothingNew r.emulator.engine insn := by
  have well := Emulator.wellMapped_of_run (e.wellMapped empty) started run
  have whole := ((e.sameCore.trans (Emulator.sameCore_of_run started run)).wholeCore
    (Emulator.create_wholeCore paged e.created))
  have length := store.length_storedBytes (u := r.emulator.engine)
  have positive : 0 < (storedBytes r.emulator.engine insn).length := by
    rw [length]
    exact Handler.moveSize_pos insn
  rw [← length] at missing ⊢
  rw [← store.guestByte_handle_iff address size]
  obtain ⟨e₀, hooked, rest⟩ := exists_of_bind_ok native
  obtain ⟨dirtyPages, rfl⟩ := Emulator.beforeStore_cases hooked
  rw [if_neg (show ¬ Mapped r.emulator.engine dest _ from missing)] at rest
  obtain ⟨⟨retry, e₁⟩, faulted, rest⟩ := exists_of_bind_ok rest
  dsimp only at rest
  have maps := Emulator.MapsMemory.region faulted
  have recorded : Emulator.WellMapped { r.emulator with dirtyPages } := well.of_memoryMap_eq rfl
  have unchanged := Emulator.hookMem_unchanged_iff paged recorded (well.granular whole) room
    positive faulted
  have mappings : mapped e'.engine = mapped e₁.engine := by
    split_ifs at rest
    · cases rest
      exact mapped_store _ _ _
    · cases rest
      rfl
  -- The bytes are stored only where the fault has mapped something.
  have untouched (same : mapped e₁.engine = mapped r.emulator.engine) (x : Addr) :
      guestByte r.emulator.engine x = guestByte e'.engine x := by
    split_ifs at rest with stored
    · exact absurd ((mapped_congr same dest _).mp stored.2) missing
    · cases rest
      exact maps.guestByte_eq_iff.mpr same x
  constructor
  · intro same
    have nothing : mapped e₁.engine = mapped r.emulator.engine := by
      rw [← mappings, ← (Handler.handle_hostWrites r.emulator.engine address size insn).mapped_eq]
      exact funext fun x => (mapped_eq_of_guestByte_eq (same x)).symm
    exact ⟨unchanged.mp nothing, fun x => (untouched nothing x).trans (same x).symm⟩
  · rintro ⟨nothing, kept⟩ x
    rw [← kept x]
    exact untouched (unchanged.mpr nothing) x

end Generic

/-! ### A store to a page that is not mapped -/

namespace Example

/-- `movdqu [rbx+10h], xmm0`. -/
def farStoreInsn : Insn := ⟨.movdqu, 8, ⟨.displ, 3, 0x10, 0⟩, ⟨.reg, 64, 0, 0⟩, .none⟩

theorem pagedMaps : PagedMaps Machine where
  whole u a n u' done := by
    simp only [memMap] at done
    split_ifs at done with whole free
    exact ⟨whole.1, whole.2.1⟩
  taken u a n done := by
    simp only [memMap] at done
    by_cases whole : Machine.WholePages a n
    swap
    · rw [if_neg whole] at done
      cases done
    rw [if_pos whole] at done
    split_ifs at done with free
    rw [not_forall] at free
    obtain ⟨i, free⟩ := free
    rw [Classical.not_imp, Bool.not_eq_false] at free
    obtain ⟨inside, taken⟩ := free
    have page : (BitVec.ofNat 64 (a.toNat + i * 0x1000)).toNat = a.toNat + i * 0x1000 := by
      obtain ⟨-, -, bounded⟩ := whole
      rw [BitVec.toNat_ofNat]
      omega
    refine ⟨BitVec.ofNat 64 (a.toNat + i * 0x1000), ?_, ?_⟩
    · rw [whole.mem_iff, page]
      omega
    · change u.mappedPage _ = true
      rw [page, Nat.add_mul_div_right _ _ (by decide)]
      exact taken

/-- The first slice of the example without write tracking, in which RBX is 2000h. -/
def farSlice : RunState Machine :=
  (startedOf ∅ false ⟨0x140000000, 0, 0, 0, true⟩).enterSlice noCounts false

def unusedOf : Reused Machine :=
  ⟨Machine.empty, image, ∅, ⟨true, false⟩, freshOf ∅ false, create_eq_freshOf ∅ false,
    freshOf ∅ false, .refl⟩

theorem run_farSlice : Run RunStep (fun _ _ => True)
    (noCounts, startedOf ∅ false ⟨0x140000000, 0, 0, 0, true⟩) (noCounts, farSlice) :=
  Run.refl.tail trivial (.enter false rfl)

theorem vectorStore_far : VectorStore farStoreInsn := ⟨rfl, rfl, rfl, rfl, .inl rfl⟩

theorem missing_far : ¬ Mapped farSlice.emulator.engine 0x2010 16 := by
  decide +kernel

/-- The native store maps the page at 2000h. -/
theorem native_far : ∃ e', farSlice.emulator.guestStore 0x2010
    (storedBytes farSlice.emulator.engine farStoreInsn) = .ok (true, e') ∧
    guestByte e'.engine 0x2010 = some 0 := ⟨_, rfl, by decide +kernel⟩

end Example

theorem handle_eq_native_iff_far : ∃ e' : Emulator Machine,
    Example.farSlice.emulator.guestStore 0x2010
      (storedBytes Example.farSlice.emulator.engine Example.farStoreInsn) = .ok (true, e') ∧
    ((∀ x, guestByte (Handler.handle Example.farSlice.emulator.engine 0x140000000 8
        Example.farStoreInsn) x = guestByte e'.engine x) ↔
      (∀ p, Example.farSlice.emulator.FirstMissing 0x2010 16 p →
        ∀ u, memMap Example.farSlice.emulator.engine p 0x1000 ≠ .ok u) ∧
      WritesNothingNew Example.farSlice.emulator.engine Example.farStoreInsn) := by
  obtain ⟨e', native, -⟩ := Example.native_far
  exact ⟨e', native, handle_eq_native_iff Example.pagedMaps Example.unusedOf (fun _ => rfl)
    (Example.startRun_eq_startedOf ∅ false _) Example.run_farSlice Example.vectorStore_far
    Example.missing_far (by decide) native⟩

/-- `movdqu [rbx+10h], xmm0` with 2000h in RBX: the native store maps the page and leaves
zeros there, after the handler nothing is mapped. -/
theorem handler_store_is_lost : ∃ e' : Emulator Machine,
    VectorStore Example.farStoreInsn ∧
    Example.farSlice.emulator.guestStore 0x2010
      (storedBytes Example.farSlice.emulator.engine Example.farStoreInsn) = .ok (true, e') ∧
    guestByte e'.engine 0x2010 = some 0 ∧
    guestByte (Handler.handle Example.farSlice.emulator.engine 0x140000000 8
      Example.farStoreInsn) 0x2010 = none := by
  obtain ⟨e', native, stored⟩ := Example.native_far
  exact ⟨e', Example.vectorStore_far, native, stored, by decide +kernel⟩

end Unxorer
