import Unxorer.Heap.Ledger

/-!
# Moved blocks

`realloc_alloc` takes a new block, copies the old contents into its front and leaves the old
block as it is. How much it copies depends on the rounded size the heap has recorded for the
old block and on the unrounded new one.

## Main definitions

* `Moved`, `ReallocLaw` — a block is moved into a fresh one, or nothing happens
* `FakeHeap.NoWrap` — where an arena has to lie for the bound check of `alloc` not to wrap
  around

## Main results

* `reallocLaw_of_run` — the law holds of requests of at most the arena's size, in such arenas
* `not_reallocLaw_of_wrap` — every other arena breaks it
-/

set_option autoImplicit false

namespace Unxorer

open Unicorn FakeHeap Transition

section Realloc

variable {U : Type} [Unicorn U] [Host]

/-! ### The law -/

/-- The block of the request `old` has been moved to `newSize` bytes at `q`. -/
structure Moved (s : Ledger U) (old : Grant) (newSize : BitVec 64) (q : Addr) (u' : U) : Prop where
  fresh : ∀ g ∈ s.grants, g.ptr ≠ 0 →
    Disjoint (Destination.mk q newSize.toNat).addresses (Destination.mk g.ptr g.size).addresses
  copied : ∀ i < min old.size newSize.toNat, ∃ b,
    guestByte s.engine (old.ptr + BitVec.ofNat 64 i) = some b ∧
      guestByte u' (q + BitVec.ofNat 64 i) = some b
  frame : ∀ x ∉ (Destination.mk q newSize.toNat).addresses, guestByte u' x = guestByte s.engine x

/-- What a caller expects of `realloc_alloc` on the block of an earlier request. -/
structure ReallocLaw (s : Ledger U) (old : Grant) (newSize : BitVec 64) : Prop where
  moved : ∀ (q : Addr) (u' : U) (h' : FakeHeap),
    s.heap.reallocAlloc s.engine old.ptr newSize = .ok (q, u', h') → q ≠ 0 →
      Moved s old newSize q u'
  refused : ∀ (u' : U) (h' : FakeHeap),
    s.heap.reallocAlloc s.engine old.ptr newSize = .ok (0, u', h') →
      (∀ x, guestByte u' x = guestByte s.engine x) ∧ h'.cursor = s.heap.cursor ∧
        h'.allocSizes = s.heap.allocSizes

/-- Either a whole arena fits behind the arena, or the arena reaches the last address. -/
def FakeHeap.NoWrap (base : Addr) : Prop :=
  base.toNat + 2 * arenaSize.toNat < 2 ^ 64 ∨ 2 ^ 64 ≤ base.toNat + arenaSize.toNat

/-! ### What `realloc_alloc` does -/

section Calls

variable {u u' : U} {h h' : FakeHeap} {oldPtr q : Addr} {newSize size : BitVec 64}

theorem reallocAlloc_of_refused (block : oldPtr ≠ 0) (refused : h.alloc newSize = (0, h)) :
    h.reallocAlloc u oldPtr newSize = .ok (0, u, h) := by
  rw [reallocAlloc, if_neg block]
  by_cases empty : newSize = 0
  · rw [if_pos empty]
    rfl
  · simp only [if_neg empty, refused, if_true]
    rfl

/-- The contents of a block whose size is known are moved. -/
theorem reallocAlloc_of_served (block : oldPtr ≠ 0) (nonzero : newSize ≠ 0)
    (served : (h.alloc newSize).1 ≠ 0) (recorded : h.allocSizes oldPtr = some size)
    (positive : size > 0) :
    h.reallocAlloc u oldPtr newSize =
      moveBlock u oldPtr (h.alloc newSize).1 (if newSize < size then newSize else size) >>=
        fun u => .ok ((h.alloc newSize).1, u, (h.alloc newSize).2) := by
  rw [reallocAlloc, if_neg block, if_neg nonzero]
  simp only [if_neg served, recorded, Option.getD_some, if_pos positive]
  rfl

theorem moveBlock_of_reallocAlloc (block : oldPtr ≠ 0) (nonzero : newSize ≠ 0)
    (served : (h.alloc newSize).1 ≠ 0) (recorded : h.allocSizes oldPtr = some size)
    (positive : size > 0) (done : h.reallocAlloc u oldPtr newSize = .ok (q, u', h')) :
    moveBlock u oldPtr q (if newSize < size then newSize else size) = .ok u' := by
  rw [reallocAlloc_of_served block nonzero served recorded positive] at done
  obtain ⟨engine, moved, returned⟩ := exists_of_bind_ok done
  cases returned
  exact moved

/-- A block that is not mapped is left alone. -/
theorem moveBlock_of_not_mapped (short : size.toNat ≤ Host.vectorMax)
    (missing : ¬ Mapped u q size.toNat) : moveBlock u oldPtr q size = .ok u := by
  rw [moveBlock, hostVector, if_pos short]
  cases read : memRead u oldPtr size.toNat with
  | none => rfl
  | some buf =>
    have unwritten : (memWrite u q buf).getD u = u := by
      rw [memWrite_getD, length_of_memRead read, if_neg missing]
    exact congrArg Except.ok unwritten

theorem moveBlock_eq_store (readable : Mapped u oldPtr size.toNat)
    (writable : Mapped u q size.toNat) (moved : moveBlock u oldPtr q size = .ok u') :
    u' = store u q (bytesAt u oldPtr size.toNat) := by
  obtain ⟨-, -, returned⟩ := exists_of_bind_ok moved
  rw [memRead_of_mapped readable] at returned
  cases returned
  rw [memWrite_of_mapped (by rwa [length_bytesAt]), Option.getD_some]

end Calls

/-! ### Requests of at most the arena's size -/

omit [Unicorn U] [Host] in
/-- A request of at most the arena's size counts right in an arena where nothing wraps. -/
theorem Ledger.Books.countsRight {s : Ledger U} {pos n : ℕ} (books : s.Books pos)
    (bounded : s.heap.arenaBase.toNat + arenaSize.toNat ≤ 2 ^ 64)
    (place : NoWrap s.heap.arenaBase) (short : n ≤ arenaSize.toNat) : s.heap.CountsRight n := by
  have lower : s.heap.arenaBase.toNat ≤ pos := books.sound.lower
  have upper : pos ≤ s.heap.arenaBase.toNat + arenaSize.toNat := books.sound.upper
  have arena : arenaSize.toNat = 16 * 0x100000 := rfl
  have reserved : roundUp n ≤ arenaSize.toNat := arena ▸ roundUp_le (arena ▸ short)
  by_cases exceeds : s.heap.exceedsArena (roundSize (BitVec.ofNat 64 n)) = true
  · exact .inr (.inr (.inl exceeds))
  refine .inr (.inr (.inr ?_))
  rcases (upper.trans bounded).lt_or_eq with inside | edge
  -- The sum in the bound check does not wrap around, or wraps exactly to the end of the arena.
  · have cursor := books.toNat_cursor inside
    rw [exceedsArena_iff, roundSize_ofNat (by omega), BitVec.toNat_add, BitVec.toNat_add, cursor,
      BitVec.toNat_ofNat, Nat.mod_eq_of_lt (by omega : roundUp n < 2 ^ 64)] at exceeds
    rw [NoWrap] at place
    omega
  · have cursor : s.heap.cursor = 0 := by
      rw [books.cursor, edge]
      rfl
    rw [cursor]
    exact (Nat.zero_add _).trans_le (reserved.trans (Nat.le_add_left _ _))

omit [Unicorn U] [Host] in
/-- Such a request is served at the position of the books, and its end lies in the arena. -/
theorem Ledger.Books.served_inside {s : Ledger U} {pos : ℕ} (books : s.Books pos)
    (bounded : s.heap.arenaBase.toNat + arenaSize.toNat ≤ 2 ^ 64)
    (place : NoWrap s.heap.arenaBase) (opened : s.heap.initialized = true) {size : BitVec 64}
    (nonzero : size ≠ 0) (short : size.toNat ≤ arenaSize.toNat)
    (room : s.heap.exceedsArena (roundSize size) = false) :
    s.heap.cursor.toNat = pos ∧
      pos + size.toNat ≤ s.heap.arenaBase.toNat + arenaSize.toNat := by
  have reserved := le_roundUp size.toNat
  have cursor : s.heap.cursor.toNat = pos := by
    rcases (books.sound.upper.trans bounded).lt_or_eq with inside | edge
    · exact books.toNat_cursor inside
    · have arena : arenaSize.toNat = 0x1000000 := rfl
      have rounded := toNat_roundSize_of_lt (n := size) (by rw [roundUp]; omega)
      have positive := toNat_pos_of_ne_zero nonzero
      subst edge
      rw [(books.roundSize_eq_zero bounded room).2] at rounded
      change 0 = roundUp size.toNat at rounded
      omega
  refine ⟨cursor, ?_⟩
  have word : BitVec.ofNat 64 size.toNat = size := by
    rw [BitVec.ofNat_toNat, BitVec.setWidth_eq]
  have fits := (books.countsRight bounded place short).fits opened (word.symm ▸ nonzero)
    (word.symm ▸ room)
  omega

/-- The requests since the last reset are of at most the arena's size, and the arena lies where
nothing wraps. -/
def Ledger.Modest (s : Ledger U) : Prop :=
  NoWrap s.heap.arenaBase ∧ ∀ g ∈ s.grants, g.size ≤ arenaSize.toNat

/-- Between resets the requests only get more. -/
theorem modest_before {e : LedgerEvent U} {s t : Ledger U} (step : LedgerStep e s t)
    (modest : t.Modest) (label : e ≠ .call .reset) (opened : s.heap.initialized = true) :
    s.Modest := by
  obtain ⟨place, small⟩ := modest
  cases ledgerStep_cases step with
  | quiet label heap grants =>
    rw [heap] at place
    rw [grants] at small
    exact ⟨place, small⟩
  | request label asks served grants =>
    rename_i c n ptr mappings
    rw [grants] at small
    refine ⟨?_, fun g member => small g (List.mem_cons_of_mem _ member)⟩
    rcases s.heap.alloc_cases (BitVec.ofNat 64 n) with ⟨refused, -⟩ | ⟨-, -, -, accepted⟩
    · rwa [(Prod.mk.inj (served.trans refused)).2] at place
    · rwa [(Prod.mk.inj (served.trans accepted)).2] at place
  | reset reset => exact absurd reset label
  | init base label done grants =>
    rw [grants] at small
    rcases cases_of_init done with ⟨-, -, heap⟩ | ⟨closed, -⟩ | ⟨closed, -⟩
    · rw [heap] at place
      exact ⟨place, small⟩
    · rw [opened] at closed
      cases closed
    · rw [opened] at closed
      cases closed

theorem bytes_le_of_modest {c : HeapCall} {n : ℕ} {s t : Ledger U}
    (step : LedgerStep (.call c) s t) (modest : t.Modest) (asks : c.bytes s.engine = some n) :
    n ≤ arenaSize.toNat := by
  cases step with
  | call done =>
    rename_i ptr u h
    refine modest.2 ⟨n, ptr⟩ ?_
    rw [c.record_of_bytes asks]
    exact List.mem_cons_self

/-- The books agree with the heap whenever the requests since the last reset are modest,
whatever was requested before it. -/
theorem kept_of_modest {u : U} {s : Ledger U} (run : Run LedgerStep (fun _ _ => True) (.start u) s)
    (modest : s.Modest) : s.Kept := by
  have both : s.Ready ∧ (s.Modest → s.Kept) := by
    refine run.invariant (P := fun a => a.Ready ∧ (a.Modest → a.Kept)) ⟨.start u, ?_⟩ ?_
    · exact fun _ initialized => by cases initialized
    · intro e a b inv _ step
      obtain ⟨ready, kept⟩ := inv
      refine ⟨ready_step ready step, fun modest => ?_⟩
      -- Only a reset forgets requests, and after it the books start anew.
      have before : e ≠ .call .reset → a.Kept := fun label opened =>
        kept (modest_before step modest label opened) opened
      refine kept_step ready before ?_ step
      rintro c n rfl asks
      by_cases opened : a.heap.initialized = true
      · have label : LedgerEvent.call c ≠ (.call .reset : LedgerEvent U) := by
          rintro same
          cases same
          cases asks
        obtain ⟨pos, books⟩ := before label opened
        exact books.countsRight (ready.bounded opened)
          (modest_before step modest label opened).1 (bytes_le_of_modest step modest asks)
      · exact .inl (Bool.not_eq_true _ ▸ opened)
  exact both.2 modest

/-! ### A block and its copy -/

section Copies

variable {s : Ledger U} {old : Grant} {newSize : BitVec 64} {pos : ℕ}

omit [Host] in
/-- What is copied of a block whose recorded size is rounded up. -/
theorem toNat_copySize (newSize : BitVec 64) {size : ℕ} (short : roundUp size < 2 ^ 64) :
    (if newSize < BitVec.ofNat 64 (roundUp size) then newSize
      else BitVec.ofNat 64 (roundUp size)).toNat = min newSize.toNat (roundUp size) := by
  have recorded : (BitVec.ofNat 64 (roundUp size)).toNat = roundUp size := by
    rw [BitVec.toNat_ofNat, Nat.mod_eq_of_lt short]
  by_cases smaller : newSize < BitVec.ofNat 64 (roundUp size)
  · rw [if_pos smaller]
    rw [BitVec.lt_def, recorded] at smaller
    exact (Nat.min_eq_left smaller.le).symm
  · rw [if_neg smaller, recorded]
    rw [BitVec.lt_def, recorded, Nat.not_lt] at smaller
    exact (Nat.min_eq_right smaller).symm

omit [Unicorn U] [Host] in
/-- A block that starts where all others have ended is apart from them. -/
theorem disjoint_of_block_le (books : s.Books pos) {q : Addr} (start : q.toNat = pos)
    (inside : pos + newSize.toNat ≤ 2 ^ 64) {g : Grant} (member : g ∈ s.grants)
    (block : g.ptr ≠ 0) :
    Disjoint (Destination.mk q newSize.toNat).addresses
      (Destination.mk g.ptr g.size).addresses := by
  obtain ⟨-, below, -⟩ := books.block_le member block
  have reserved := le_roundUp g.size
  exact (Destination.disjoint_of_le (by omega) (start.symm ▸ inside)).symm

/-- A block that is served right behind the others has the old contents moved into it. -/
theorem moved_of_served (ready : s.Ready) (books : s.Books pos)
    (opened : s.heap.initialized = true) (start : s.heap.cursor.toNat = pos)
    (member : old ∈ s.grants) (block : old.ptr ≠ 0) (nonzero : newSize ≠ 0)
    (served : (s.heap.alloc newSize).1 = s.heap.cursor) (cursor : s.heap.cursor ≠ 0)
    (fits : pos + newSize.toNat ≤ s.heap.arenaBase.toNat + arenaSize.toNat) {u' : U}
    {h' : FakeHeap}
    (done : s.heap.reallocAlloc s.engine old.ptr newSize = .ok (s.heap.cursor, u', h')) :
    Moved s old newSize s.heap.cursor u' := by
  have bounded := ready.bounded opened
  have arena : arenaSize.toNat = 0x1000000 := rfl
  obtain ⟨above, below, -⟩ := books.block_le member block
  obtain ⟨some, recorded⟩ := books.sizes old member block
  have reserved := le_roundUp old.size
  have length := toNat_copySize newSize (by omega : roundUp old.size < 2 ^ 64)
  have positive : BitVec.ofNat 64 (roundUp old.size) > 0 := by
    rw [gt_iff_lt, BitVec.lt_def, BitVec.toNat_ofNat, Nat.mod_eq_of_lt (by omega)]
    exact some.trans_le reserved
  have moved :=
    moveBlock_of_reallocAlloc block nonzero (served.symm ▸ cursor) recorded positive done
  have present := ready.present opened
  have readable : Mapped s.engine old.ptr (min newSize.toNat (roundUp old.size)) :=
    mapped_part present above (by omega)
  have writable : Mapped s.engine s.heap.cursor (min newSize.toNat (roundUp old.size)) :=
    mapped_part present (by omega) (by omega)
  have after := moveBlock_eq_store (length ▸ readable) (length ▸ writable) moved
  rw [length] at after
  have copy : (bytesAt s.engine old.ptr (min newSize.toNat (roundUp old.size))).length =
      min newSize.toNat (roundUp old.size) := length_bytesAt _ _ _
  refine ⟨fun g earlier pointer => ?_, fun i inside => ?_, fun x outside => ?_⟩
  · exact disjoint_of_block_le books start (fits.trans bounded) earlier pointer
  -- The rounded size is at least the requested one, so all that was asked for is copied.
  · have short : i < min newSize.toNat (roundUp old.size) := by omega
    refine ⟨byte s.engine (old.ptr + BitVec.ofNat 64 i), ?_, ?_⟩
    · rw [guestByte, if_pos (readable i short)]
    · rw [after, guestByte_store_of_lt (copy.symm ▸ writable) (copy.symm ▸ short) (by omega)]
      simp only [bytesAt, List.getElem_ofFn]
  · rw [after]
    refine guestByte_store_of_ne fun i inside same => outside ⟨i, ?_, same⟩
    rw [copy] at inside
    exact inside.trans_le (Nat.min_le_left _ _)

end Copies

/-- In every state of every history, as long as the requests since the last reset are of at most
the arena's size and the arena lies where nothing wraps, `realloc_alloc` moves the block of any
of them, or does nothing. -/
theorem reallocLaw_of_run {u : U} {s : Ledger U}
    (run : Run LedgerStep (fun _ _ => True) (.start u) s) (place : NoWrap s.heap.arenaBase)
    (small : ∀ g ∈ s.grants, g.size ≤ arenaSize.toNat) {old : Grant} (member : old ∈ s.grants)
    (block : old.ptr ≠ 0) {newSize : BitVec 64} (nonzero : 1 ≤ newSize.toNat)
    (short : newSize.toNat ≤ arenaSize.toNat) : ReallocLaw s old newSize := by
  have ready := ready_of_run run
  have size : newSize ≠ 0 := by
    rintro rfl
    exact absurd nonzero (by decide)
  rcases s.heap.alloc_cases newSize with ⟨refused, -⟩ | ⟨opened, -, room, accepted⟩
  · have answer := reallocAlloc_of_refused (u := s.engine) block refused
    refine ⟨fun q u' h' done pointer => ?_, fun u' h' done => ?_⟩
    · have same := answer.symm.trans done
      cases same
      exact absurd rfl pointer
    · have same := answer.symm.trans done
      cases same
      exact ⟨fun _ => rfl, rfl, rfl⟩
  · obtain ⟨pos, books⟩ := kept_of_modest run ⟨place, small⟩ opened
    obtain ⟨start, fits⟩ := books.served_inside (ready.bounded opened) place opened size short room
    have cursor : s.heap.cursor ≠ 0 := by
      intro zero
      obtain ⟨-, below, -⟩ := books.block_le member block
      have first := toNat_pos_of_ne_zero block
      rw [zero] at start
      change 0 = pos at start
      omega
    refine ⟨fun q u' h' done _ => ?_, fun u' h' done => ?_⟩
    · obtain rfl : q = s.heap.cursor :=
        congrArg Prod.fst ((reallocAlloc_eq_alloc done).trans accepted)
      exact moved_of_served ready books opened start member block size
        (congrArg Prod.fst accepted) cursor fits done
    · have null := congrArg Prod.fst ((reallocAlloc_eq_alloc done).trans accepted)
      exact absurd null.symm cursor

/-! ### Arenas where the bound check wraps -/

/-- The heap after a first block as long as the arena. -/
def FakeHeap.full (base : Addr) : FakeHeap :=
  ⟨base, base + arenaSize, Function.update (fun _ => none) base (some arenaSize), true⟩

section Full

omit [Unicorn U] [Host]

variable (base : Addr)

@[simp] theorem FakeHeap.full_arenaBase : (full base).arenaBase = base := rfl

@[simp] theorem FakeHeap.full_cursor : (full base).cursor = base + arenaSize := rfl

theorem FakeHeap.full_allocSizes : (full base).allocSizes base = some arenaSize := by
  simp only [full, Function.update_self]

end Full

omit [Unicorn U] [Host] in
theorem FakeHeap.roundSize_arenaSize : roundSize arenaSize = arenaSize := by decide

omit [Unicorn U] [Host] in
theorem FakeHeap.alloc_whole (base : Addr) :
    (FakeHeap.mk base base (fun _ => none) true).alloc arenaSize = (base, full base) := by
  rcases alloc_cases ⟨base, base, fun _ => none, true⟩ arenaSize with
    ⟨-, closed | zero | exceeds⟩ | ⟨-, -, -, accepted⟩
  · cases closed
  · exact absurd zero (by decide)
  · rw [roundSize_arenaSize, exceedsArena, decide_eq_true_iff] at exceeds
    exact absurd exceeds (BitVec.lt_irrefl (base + arenaSize))
  · rw [roundSize_arenaSize] at accepted
    exact accepted

omit [Unicorn U] [Host] in
/-- Where the bound check wraps around, there is a second block behind the arena. -/
theorem FakeHeap.alloc_full {base : Addr} (wraps : ¬ NoWrap base) :
    ((full base).alloc arenaSize).1 = base + arenaSize := by
  rw [NoWrap, not_or, Nat.not_lt, Nat.not_le] at wraps
  rcases alloc_cases (full base) arenaSize with
    ⟨-, closed | zero | exceeds⟩ | ⟨-, -, -, accepted⟩
  · cases closed
  · exact absurd zero (by decide)
  · rw [roundSize_arenaSize, exceedsArena_iff, full_arenaBase, full_cursor, BitVec.toNat_add,
      BitVec.toNat_add _ arenaSize, BitVec.toNat_add] at exceeds
    have arena : arenaSize.toNat = 0x1000000 := rfl
    exfalso
    omega
  · rw [accepted, full_cursor]

/-- The second block is not mapped, and nothing is copied into it. -/
theorem FakeHeap.reallocAlloc_full {u : U} {base : Addr} (wide : arenaSize.toNat ≤ Host.vectorMax)
    (wraps : ¬ NoWrap base) (behind : mapped u (base + arenaSize) = false) (nonzero : base ≠ 0)
    (pointer : base + arenaSize ≠ 0) :
    ∃ h', (full base).reallocAlloc u base arenaSize = .ok (base + arenaSize, u, h') := by
  have missing : ¬ Mapped u (base + arenaSize) arenaSize.toNat := by
    intro present
    have first := present 0 (toNat_pos_of_ne_zero (by decide))
    rw [BitVec.add_zero, behind] at first
    cases first
  have served := alloc_full wraps
  have moves := reallocAlloc_of_served (u := u) nonzero (by decide : arenaSize ≠ 0)
    (served.symm ▸ pointer) (full_allocSizes base) (by decide)
  rw [served, ite_self, moveBlock_of_not_mapped wide missing] at moves
  exact ⟨_, moves⟩

/-- Wherever else an arena is mapped with nothing behind it, the law fails after one request. -/
theorem not_reallocLaw_of_wrap {u u' : U} {base : Addr} (wide : arenaSize.toNat ≤ Host.vectorMax)
    (placed : memMap u base arenaSize.toNat = .ok u') (wraps : ¬ NoWrap base)
    (behind : mapped u (base + arenaSize) = false) :
    ∃ s : Ledger U, Run LedgerStep (fun _ _ => True) (.start u) s ∧ s.heap = full base ∧
      s.grants = [⟨arenaSize.toNat, base⟩] ∧ base ≠ 0 ∧
      ¬ ReallocLaw s ⟨arenaSize.toNat, base⟩ arenaSize := by
  have nonzero : base ≠ 0 := by
    rintro rfl
    exact wraps (by unfold NoWrap; decide)
  have pointer : base + arenaSize ≠ 0 := by
    rw [NoWrap, not_or, Nat.not_le] at wraps
    have sum : (base + arenaSize).toNat = base.toNat + arenaSize.toNat := by
      rw [BitVec.toNat_add, Nat.mod_eq_of_lt wraps.2]
    intro zero
    rw [zero] at sum
    exact absurd (Nat.add_eq_zero_iff.mp sum.symm).2 (by decide)
  have after : mapped u' (base + arenaSize) = false := by
    rw [mapped_memMap _ _ _ _ placed, behind, add_sub_cancel_left]
    simp
  have opened : LedgerStep (.call (.init base)) (.start u)
      ⟨u', ⟨base, base, fun _ => none, true⟩, []⟩ := by
    have done : (HeapCall.init base).run u .fresh =
        .ok (0, u', ⟨base, base, fun _ => none, true⟩) := by
      rw [HeapCall.run, init_of_memMap rfl placed]
      rfl
    exact .call done
  have filled : LedgerStep (.call (.alloc arenaSize))
      ⟨u', ⟨base, base, fun _ => none, true⟩, []⟩
      ⟨u', full base, [⟨arenaSize.toNat, base⟩]⟩ := by
    have done : (HeapCall.alloc arenaSize).run u' ⟨base, base, fun _ => none, true⟩ =
        .ok (base, u', full base) := by
      rw [HeapCall.run, alloc_whole]
    exact .call done
  refine ⟨_, (Run.refl.tail trivial opened).tail trivial filled, rfl, rfl, nonzero, fun law => ?_⟩
  obtain ⟨h', done⟩ := reallocAlloc_full wide wraps after nonzero pointer
  have some : 0 < arenaSize.toNat := by decide
  obtain ⟨b, -, copied⟩ := (law.moved _ _ _ done pointer).copied 0 (lt_min some some)
  rw [BitVec.add_zero, guestByte, after] at copied
  cases copied

end Realloc

/-! ### Two arenas -/

/-- A block of 24 bytes at the start of the arena. -/
def exampleBlock : Ledger Machine :=
  ⟨exampleLedger.engine, (exampleHeap.alloc 24).2, [⟨24, 0x10000⟩]⟩

theorem exampleBlock_step : LedgerStep (.call (.alloc 24)) exampleLedger exampleBlock :=
  LedgerStep.call (c := .alloc 24) rfl

/-- `realloc` of that block to 40 bytes. -/
theorem reallocLaw_of_run_block : ReallocLaw exampleBlock ⟨24, 0x10000⟩ 40 :=
  reallocLaw_of_run (u := Machine.empty)
    ((Run.refl.tail trivial exampleLedger_step).tail trivial exampleBlock_step)
    (.inl (by decide)) (by decide) List.mem_cons_self (by decide) (by decide) (by decide)

/-- An arena that ends 64 KiB below the last address, taken up by one block, serves another
block of its own size behind it. -/
theorem not_reallocLaw_top :
    ¬ ∀ (u : Machine) (s : Ledger Machine), Run LedgerStep (fun _ _ => True) (.start u) s →
      (∀ g ∈ s.grants, g.size ≤ arenaSize.toNat) →
      ∀ old ∈ s.grants, old.ptr ≠ 0 → ∀ newSize : BitVec 64, 1 ≤ newSize.toNat →
        newSize.toNat ≤ arenaSize.toNat → ReallocLaw s old newSize := by
  intro always
  have placed : memMap Machine.empty 0xFFFFFFFFFEFF0000 arenaSize.toNat = .ok _ :=
    Machine.memMap_of_free (by decide) fun _ _ => rfl
  obtain ⟨s, run, -, grants, nonzero, broken⟩ :=
    not_reallocLaw_of_wrap (by decide) placed (by unfold NoWrap; decide) rfl
  refine broken (always _ s run ?_ _ (by rw [grants]; exact List.mem_cons_self) nonzero _ ?_ ?_)
  · simp [grants]
  · decide
  · exact le_rfl

end Unxorer
