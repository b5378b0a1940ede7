import Unxorer.Heap.HostBuffers
import Unxorer.Stubs.Destination

/-!
# The ledger of a heap

The fake heap together with the engine it works on and the requests it has answered since the
last reset. A request is known by the bytes it stands for, which for `calloc` are the product
of its arguments and not what is left of it modulo `2 ^ 64`. As long as `alloc` refuses a
request or has room for it, the blocks it hands out are those of a bump arena, and the size the
heap records for each is the requested one rounded up.

## Main definitions

* `HeapCall` — the operations of the heap and the stubs, on the engine of the ledger
* `Ledger`, `LedgerStep` — engine, heap and requests, and how they change
* `FakeHeap.CountsRight` — `alloc` refuses a number of bytes or has room for them
* `Ledger.Ready`, `Ledger.Books` — the arena is mapped; the requests agree with the heap

## Main results

* `ledgerStep_cases` — what a step can do
* `ready_of_run`, `books_of_run` — both invariants hold along runs
-/

set_option autoImplicit false

namespace Unxorer

open Unicorn FakeHeap ApiStubs BumpArena Transition

variable {U : Type} [Unicorn U]

/-! ### Calls -/

/-- An operation of the heap, or a stub. -/
inductive HeapCall
  | init (baseAddress : Addr)
  | alloc (size : BitVec 64)
  | calloc (count elemSize : BitVec 64)
  | realloc (oldPtr : Addr) (newSize : BitVec 64)
  | free (ptr : Addr)
  | reset
  | stub (s : Stub)

namespace HeapCall

/-- The bytes a request stands for; `none` for a call that requests nothing. -/
def bytes (u : U) : HeapCall → Option ℕ
  | alloc size => some size.toNat
  | calloc count elemSize => some (count.toNat * elemSize.toNat)
  | realloc _ newSize => some newSize.toNat
  | stub .calloc => some ((readArg u 0).toNat * (readArg u 1).toNat)
  | stub .malloc => some (stubRequest u .malloc).toNat
  | stub .realloc => some (stubRequest u .realloc).toNat
  | stub .heapAlloc => some (stubRequest u .heapAlloc).toNat
  | stub .heapRealloc => some (stubRequest u .heapRealloc).toNat
  | stub .virtualAlloc => some (stubRequest u .virtualAlloc).toNat
  | stub .localAlloc => some (stubRequest u .localAlloc).toNat
  | _ => none

variable [Host]

/-- The pointer a call returns, with the engine and the heap after it. -/
def run (u : U) (h : FakeHeap) : HeapCall → Except HostFault (Addr × U × FakeHeap)
  | init baseAddress => .ok (0, (h.init u baseAddress).2)
  | alloc size => .ok ((h.alloc size).1, u, (h.alloc size).2)
  | calloc count elemSize => h.callocAlloc u count elemSize
  | realloc oldPtr newSize => h.reallocAlloc u oldPtr newSize
  | free ptr => .ok (0, u, h.freeAlloc ptr)
  | reset => do
    let (u, h) ← h.reset u
    return (0, u, h)
  | stub s => Request.fromRax (s.run u h)

end HeapCall

/-- A request and its answer. -/
structure Grant where
  size : ℕ
  ptr : Addr
deriving DecidableEq

/-- Engine and heap, with the requests since the last reset. -/
structure Ledger (U : Type) where
  engine : U
  heap : FakeHeap
  grants : List Grant

/-- The requests after a call that returned `ptr`. -/
def HeapCall.record (u : U) (ptr : Addr) (grants : List Grant) : HeapCall → List Grant
  | .reset => []
  | c => match c.bytes u with
    | some size => ⟨size, ptr⟩ :: grants
    | none => grants

/-- What happens to a ledger: a call, or whatever else the engine does. -/
inductive LedgerEvent (U : Type)
  | call (c : HeapCall)
  | other (u : U)

/-- One step of a ledger. Between the calls registers and memory may change freely, but no part
of the arena is unmapped. -/
inductive LedgerStep [Host] : LedgerEvent U → Ledger U → Ledger U → Prop
  | call {s : Ledger U} {c : HeapCall} {ptr : Addr} {u : U} {h : FakeHeap}
      (done : c.run s.engine s.heap = .ok (ptr, u, h)) :
      LedgerStep (.call c) s ⟨u, h, c.record s.engine ptr s.grants⟩
  | other {s : Ledger U} (u : U)
      (kept : Mapped s.engine s.heap.arenaBase arenaSize.toNat →
        Mapped u s.heap.arenaBase arenaSize.toNat) :
      LedgerStep (.other u) s { s with engine := u }

/-- Before `init`. -/
def Ledger.start (u : U) : Ledger U := ⟨u, .fresh, []⟩

/-! ### What a step can do -/

/-- The product modulo `2 ^ 64`. -/
theorem ofNat_mul_toNat (a b : BitVec 64) : BitVec.ofNat 64 (a.toNat * b.toNat) = a * b := by
  apply BitVec.eq_of_toNat_eq
  rw [BitVec.toNat_ofNat, BitVec.toNat_mul]

section Steps

variable [Host]

/-- A request takes its block from `alloc`, with its bytes modulo `2 ^ 64`. -/
theorem HeapCall.run_eq_alloc {u u' : U} {h h' : FakeHeap} {ptr : Addr} {n : ℕ} {c : HeapCall}
    (asks : c.bytes u = some n) (done : c.run u h = .ok (ptr, u', h')) :
    (ptr, h') = h.alloc (BitVec.ofNat 64 n) := by
  have size : ∀ {v : BitVec 64}, some v.toNat = some n → BitVec.ofNat 64 n = v := by
    intro v same
    rw [← Option.some.inj same, BitVec.ofNat_toNat, BitVec.setWidth_eq]
  have product : ∀ {a b : BitVec 64}, some (a.toNat * b.toNat) = some n →
      BitVec.ofNat 64 n = a * b := by
    intro a b same
    rw [← Option.some.inj same, ofNat_mul_toNat]
  cases c with
  | init | free | reset => cases asks
  | alloc m =>
    cases done
    rw [size asks]
  | calloc count elemSize =>
    rw [product asks]
    exact callocAlloc_eq_alloc done
  | realloc oldPtr m =>
    rw [size asks]
    exact reallocAlloc_eq_alloc done
  | stub s =>
    cases s with
    | free | getProcessHeap | memcpy | memset | memcmp | strlen | wcslen | strcpy | strncpy
    | wcscpy | wcsncpy | strcat | wcscat | rtlZeroMemory | rtlFillMemory => cases asks
    | calloc =>
      rw [product asks]
      obtain ⟨⟨engine, heap⟩, ran, returned⟩ := exists_of_bind_ok done
      obtain ⟨⟨p, engine', heap'⟩, served, wrote⟩ := exists_of_bind_ok ran
      cases wrote
      cases returned
      rw [rax_writeRet]
      exact callocAlloc_eq_alloc served
    | malloc =>
      rw [size asks]
      exact serve_eq_alloc .malloc done
    | realloc =>
      rw [size asks]
      exact serve_eq_alloc .stubRealloc done
    | heapAlloc =>
      rw [size asks]
      exact serve_eq_alloc .heapAlloc done
    | heapRealloc =>
      rw [size asks]
      exact serve_eq_alloc .heapReAlloc done
    | virtualAlloc =>
      rw [size asks]
      exact serve_eq_alloc .virtualAlloc done
    | localAlloc =>
      rw [size asks]
      exact serve_eq_alloc .localAlloc done

/-- What a call does that is no request, `init` and `reset` apart: nothing to the heap. -/
theorem HeapCall.run_heap {u u' : U} {h h' : FakeHeap} {ptr : Addr} {s : Stub}
    (asks : (HeapCall.stub s).bytes u = none)
    (done : (HeapCall.stub s).run u h = .ok (ptr, u', h')) : h' = h := by
  obtain ⟨⟨engine, heap⟩, ran, returned⟩ := exists_of_bind_ok done
  cases returned
  have request : stubRequest u s = 0 := by cases s <;> first | rfl | cases asks
  have after := stub_heap ran
  rwa [request, alloc_zero] at after

/-- No call but `init` changes what is mapped. -/
theorem HeapCall.run_mapped {u u' : U} {h h' : FakeHeap} {ptr : Addr} {c : HeapCall}
    (mapping : ∀ base, c ≠ .init base) (done : c.run u h = .ok (ptr, u', h')) :
    mapped u' = mapped u := by
  cases c with
  | init base => exact absurd rfl (mapping base)
  | alloc | free =>
    cases done
    rfl
  | calloc => exact (callocAlloc_hostWrites done).mapped_eq
  | realloc => exact (reallocAlloc_hostWrites done).mapped_eq
  | reset =>
    obtain ⟨⟨engine, heap⟩, cleared, returned⟩ := exists_of_bind_ok done
    cases returned
    rcases reset_cases cleared with ⟨-, rfl, -⟩ | ⟨-, -, ⟨-, rfl⟩ | rfl⟩
    · rfl
    · rfl
    · exact (HostWrites.memWrite _ _ _).mapped_eq
  | stub s =>
    obtain ⟨⟨engine, heap⟩, ran, returned⟩ := exists_of_bind_ok done
    cases returned
    exact (Stub.run_hostWrites ran).mapped_eq

omit [Host] in
theorem HeapCall.record_of_bytes {u : U} {ptr : Addr} {grants : List Grant} {n : ℕ} {c : HeapCall}
    (asks : c.bytes u = some n) : c.record u ptr grants = ⟨n, ptr⟩ :: grants := by
  cases c with
  | reset => cases asks
  | init | alloc | calloc | realloc | free | stub => simp only [record, asks]

/-- What a step does to a ledger, by kind. -/
inductive LedgerMove (e : LedgerEvent U) (s t : Ledger U) : Prop
  | quiet (label : e ≠ .call .reset) (heap : t.heap = s.heap) (grants : t.grants = s.grants)
      (kept : Mapped s.engine s.heap.arenaBase arenaSize.toNat →
        Mapped t.engine s.heap.arenaBase arenaSize.toNat)
  | request {c : HeapCall} {n : ℕ} {ptr : Addr} (label : e = .call c)
      (asks : c.bytes s.engine = some n)
      (served : (ptr, t.heap) = s.heap.alloc (BitVec.ofNat 64 n))
      (grants : t.grants = ⟨n, ptr⟩ :: s.grants) (mappings : mapped t.engine = mapped s.engine)
  | reset (label : e = .call .reset) (done : s.heap.reset s.engine = .ok (t.engine, t.heap))
      (grants : t.grants = []) (mappings : mapped t.engine = mapped s.engine)
  | init (base : Addr) (label : e ≠ .call .reset)
      (done : (s.heap.init s.engine base).2 = (t.engine, t.heap))
      (grants : t.grants = s.grants)

theorem ledgerStep_cases {e : LedgerEvent U} {s t : Ledger U} (step : LedgerStep e s t) :
    LedgerMove e s t := by
  cases step with
  | other u kept => exact .quiet (fun same => by cases same) rfl rfl kept
  | call done =>
    rename_i c ptr u h
    cases asks : c.bytes s.engine with
    -- Whichever call it is, its answer is that of `alloc`.
    | some n =>
      have mapping : ∀ base, c ≠ .init base := by
        rintro base rfl
        cases asks
      exact .request rfl asks (c.run_eq_alloc asks done) (c.record_of_bytes asks)
        (c.run_mapped mapping done)
    | none =>
      cases c with
      | init base =>
        have result := congrArg Prod.snd (Except.ok.inj done)
        exact .init base (fun same => by cases same) result rfl
      | alloc | calloc | realloc => cases asks
      | free =>
        cases done
        exact .quiet (fun same => by cases same) rfl rfl id
      | reset =>
        have mappings := HeapCall.run_mapped (fun base same => by cases same) done
        obtain ⟨⟨engine, heap⟩, cleared, returned⟩ := exists_of_bind_ok done
        cases returned
        exact .reset rfl cleared rfl mappings
      | stub stub =>
        have mappings := HeapCall.run_mapped (fun base same => by cases same) done
        refine .quiet (fun same => by cases same) (HeapCall.run_heap asks done) ?_
          (mapped_congr mappings _ _).mpr
        simp only [HeapCall.record, asks]

end Steps

/-! ### The arena -/

/-- The arena is mapped and does not wrap around; before `init` no request is served. -/
structure Ledger.Ready (s : Ledger U) : Prop where
  bounded : s.heap.initialized = true → s.heap.arenaBase.toNat + arenaSize.toNat ≤ 2 ^ 64
  present : s.heap.initialized = true → Mapped s.engine s.heap.arenaBase arenaSize.toNat
  closed : s.heap.initialized = false → ∀ g ∈ s.grants, g.ptr = 0

/-- What `init` leaves: the heap as it was, a heap with an empty arena, or one without. -/
theorem FakeHeap.cases_of_init {u u' : U} {h h' : FakeHeap} {base : Addr}
    (done : (h.init u base).2 = (u', h')) :
    (h.initialized = true ∧ u' = u ∧ h' = h) ∨
      (h.initialized = false ∧ memMap u base arenaSize.toNat = .ok u' ∧
        h' = ⟨base, base, h.allocSizes, true⟩) ∨
      h.initialized = false ∧ h'.initialized = false := by
  by_cases ready : h.initialized = true
  · rw [FakeHeap.init, if_pos ready] at done
    cases done
    exact .inl ⟨ready, rfl, rfl⟩
  · rw [FakeHeap.init, if_neg ready] at done
    rw [Bool.not_eq_true] at ready
    cases result : memMap u base arenaSize.toNat with
    | ok engine =>
      simp only [result] at done
      cases done
      exact .inr (.inl ⟨ready, rfl, rfl⟩)
    | error cause =>
      simp only [result] at done
      cases done
      exact .inr (.inr ⟨ready, ready⟩)

/-- A ledger stays ready as long as the arena stays where it is. -/
theorem Ledger.Ready.keep {s t : Ledger U} (ready : s.Ready)
    (initialized : t.heap.initialized = s.heap.initialized)
    (base : t.heap.arenaBase = s.heap.arenaBase)
    (kept : Mapped s.engine s.heap.arenaBase arenaSize.toNat →
      Mapped t.engine s.heap.arenaBase arenaSize.toNat)
    (closed : s.heap.initialized = false → ∀ g ∈ t.grants, g.ptr = 0) : t.Ready where
  bounded := by
    rw [initialized, base]
    exact ready.bounded
  present := by
    rw [initialized, base]
    exact fun opened => kept (ready.present opened)
  closed := by
    rw [initialized]
    exact closed

theorem Ledger.Ready.start (u : U) : (Ledger.start u).Ready where
  bounded same := by cases same
  present same := by cases same
  closed _ g member := by cases member

section Invariants

variable [Host] {e : LedgerEvent U} {s t : Ledger U}

theorem ready_step (ready : s.Ready) (step : LedgerStep e s t) : t.Ready := by
  have keep {u u' : U} (mappings : mapped u' = mapped u) :
      Mapped u s.heap.arenaBase arenaSize.toNat → Mapped u' s.heap.arenaBase arenaSize.toNat :=
    (mapped_congr mappings _ _).mpr
  cases ledgerStep_cases step with
  | quiet label heap grants kept =>
    refine ready.keep (by rw [heap]) (by rw [heap]) kept ?_
    rw [grants]
    exact ready.closed
  | request label asks served grants mappings =>
    rename_i c n ptr
    rcases s.heap.alloc_cases (BitVec.ofNat 64 n) with ⟨refused, -⟩ | ⟨opened, -, -, accepted⟩
    · obtain ⟨null, heap⟩ := Prod.mk.inj (served.trans refused)
      refine ready.keep (by rw [heap]) (by rw [heap]) (keep mappings) ?_
      rw [grants]
      intro closed g member
      rcases List.mem_cons.mp member with rfl | old
      · exact null
      · exact ready.closed closed g old
    · obtain ⟨-, heap⟩ := Prod.mk.inj (served.trans accepted)
      refine ready.keep (by rw [heap]) (by rw [heap]) (keep mappings) ?_
      rw [opened]
      exact fun same => by cases same
  | reset label done grants mappings =>
    have forgotten : s.heap.initialized = false → ∀ g ∈ t.grants, g.ptr = 0 := by simp [grants]
    rcases reset_cases done with ⟨-, -, heap⟩ | ⟨-, heap, -⟩
    · exact ready.keep (by rw [heap]) (by rw [heap]) (keep mappings) forgotten
    · exact ready.keep (by rw [heap]) (by rw [heap]) (keep mappings) forgotten
  | init base label done grants =>
    rcases cases_of_init done with ⟨-, engine, heap⟩ | ⟨-, placed, heap⟩ | ⟨closed, still⟩
    · refine ready.keep (by rw [heap]) (by rw [heap]) (keep (by rw [engine])) ?_
      rw [grants]
      exact ready.closed
    · obtain ⟨bounded, -⟩ := memMap_free _ _ _ _ placed
      refine ⟨?_, ?_, ?_⟩
      · rw [heap]
        exact fun _ => bounded
      · rw [heap]
        intro _ i inside
        have offset : (base + BitVec.ofNat 64 i - base).toNat < arenaSize.toNat := by
          rwa [toNat_offset base (inside.trans (by decide))]
        rw [mapped_memMap _ _ _ _ placed, decide_eq_true offset, Bool.or_true]
      · rw [heap]
        exact fun same => by cases same
    -- Without an arena nothing has been served so far.
    · refine ⟨?_, ?_, ?_⟩
      · rw [still]
        exact fun same => by cases same
      · rw [still]
        exact fun same => by cases same
      · rw [grants]
        exact fun _ => ready.closed closed

/-- Whatever is requested, the arena stays mapped. -/
theorem ready_of_run {allowed : Ledger U → LedgerEvent U → Prop} {u : U}
    (run : Run LedgerStep allowed (.start u) s) : s.Ready := by
  refine run.invariant (P := Ledger.Ready) (.start u) ?_
  exact fun _ _ _ ready _ step => ready_step ready step

end Invariants

/-! ### The books -/

/-- `alloc` refuses `n` bytes or has room for them. -/
def FakeHeap.CountsRight (h : FakeHeap) (n : ℕ) : Prop :=
  h.initialized = false ∨ BitVec.ofNat 64 n = 0 ∨
    h.exceedsArena (roundSize (BitVec.ofNat 64 n)) = true ∨
    h.cursor.toNat + roundUp n ≤ h.arenaBase.toNat + arenaSize.toNat

/-- A request that `alloc` serves has room when it counts right. -/
theorem FakeHeap.CountsRight.fits {h : FakeHeap} {n : ℕ} (counts : h.CountsRight n)
    (opened : h.initialized = true) (nonzero : BitVec.ofNat 64 n ≠ 0)
    (room : h.exceedsArena (roundSize (BitVec.ofNat 64 n)) = false) :
    h.cursor.toNat + roundUp n ≤ h.arenaBase.toNat + arenaSize.toNat := by
  rcases counts with closed | zero | exceeds | fits
  · rw [opened] at closed
    cases closed
  · exact absurd zero nonzero
  · rw [room] at exceeds
    cases exceeds
  · exact fits

theorem FakeHeap.roundSize_ofNat {n : ℕ} (small : roundUp n < 2 ^ 64) :
    roundSize (BitVec.ofNat 64 n) = BitVec.ofNat 64 (roundUp n) := by
  have size : (BitVec.ofNat 64 n).toNat = n := by
    rw [BitVec.toNat_ofNat, Nat.mod_eq_of_lt ((le_roundUp n).trans_lt small)]
  apply BitVec.eq_of_toNat_eq
  rw [toNat_roundSize_of_lt (size.symm ▸ small), size, BitVec.toNat_ofNat, Nat.mod_eq_of_lt small]

theorem FakeHeap.exceedsArena_iff {h : FakeHeap} {size : BitVec 64} :
    h.exceedsArena size = true ↔
      (h.arenaBase + arenaSize).toNat < (h.cursor + size).toNat := by
  rw [exceedsArena, decide_eq_true_iff, gt_iff_lt, BitVec.lt_def]

/-- An arena that reaches the last address ends at 0. -/
theorem FakeHeap.arenaEnd_eq_zero {base : Addr} (top : base.toNat + arenaSize.toNat = 2 ^ 64) :
    base + arenaSize = 0 := by
  apply BitVec.eq_of_toNat_eq
  rw [BitVec.toNat_add, top]
  rfl

namespace Ledger

omit [Unicorn U]

/-- What the requests have reserved. A pointer 0 is no block. -/
def blocks (s : Ledger U) : List Block :=
  (s.grants.filter fun g => g.ptr ≠ 0).map fun g => ⟨g.ptr.toNat, roundUp g.size⟩

/-- The requests agree with the heap, and the next block starts at `pos`. Behind the last byte
of the address space the cursor is 0. -/
structure Books (s : Ledger U) (pos : ℕ) : Prop where
  cursor : s.heap.cursor = BitVec.ofNat 64 pos
  sound : Sound s.heap.arenaBase.toNat (s.heap.arenaBase.toNat + arenaSize.toNat) 16
    ⟨pos, s.blocks⟩
  sizes : ∀ g ∈ s.grants, g.ptr ≠ 0 →
    0 < g.size ∧ s.heap.allocSizes g.ptr = some (BitVec.ofNat 64 (roundUp g.size))

theorem mem_blocks {s : Ledger U} {g : Grant} (member : g ∈ s.grants) (block : g.ptr ≠ 0) :
    ⟨g.ptr.toNat, roundUp g.size⟩ ∈ s.blocks :=
  List.mem_map.mpr ⟨g, List.mem_filter.mpr ⟨member, by simpa using block⟩, rfl⟩

theorem blocks_cons_null {s t : Ledger U} {n : ℕ} (grants : t.grants = ⟨n, 0⟩ :: s.grants) :
    t.blocks = s.blocks := by
  simp [blocks, grants]

theorem blocks_cons {s t : Ledger U} {g : Grant} (grants : t.grants = g :: s.grants)
    (block : g.ptr ≠ 0) : t.blocks = ⟨g.ptr.toNat, roundUp g.size⟩ :: s.blocks := by
  have kept : (decide (g.ptr ≠ 0)) = true := decide_eq_true block
  simp only [blocks, grants, List.filter_cons, if_pos kept, List.map_cons]

namespace Books

variable {s t : Ledger U} {pos n : ℕ}

/-- A block ends before the next one starts. -/
theorem block_le (books : s.Books pos) {g : Grant} (member : g ∈ s.grants) (block : g.ptr ≠ 0) :
    s.heap.arenaBase.toNat ≤ g.ptr.toNat ∧ g.ptr.toNat + roundUp g.size ≤ pos ∧
      16 ∣ g.ptr.toNat - s.heap.arenaBase.toNat :=
  books.sound.inside _ (mem_blocks member block)

/-- The position is the cursor, unless the arena has been used up to the last address. -/
theorem toNat_cursor (books : s.Books pos) (inside : pos < 2 ^ 64) :
    s.heap.cursor.toNat = pos := by
  rw [books.cursor, BitVec.toNat_ofNat, Nat.mod_eq_of_lt inside]

theorem toNat_cursor_of_ne_zero (books : s.Books pos)
    (bounded : s.heap.arenaBase.toNat + arenaSize.toNat ≤ 2 ^ 64) (nonzero : s.heap.cursor ≠ 0) :
    s.heap.cursor.toNat = pos := by
  have upper : pos ≤ 2 ^ 64 := books.sound.upper.trans bounded
  rcases upper.lt_or_eq with below | edge
  · exact books.toNat_cursor below
  · rw [books.cursor, edge] at nonzero
    exact absurd rfl nonzero

theorem congr (books : s.Books pos) (heap : t.heap = s.heap) (grants : t.grants = s.grants) :
    t.Books pos := by
  have blocks : t.blocks = s.blocks := by rw [Ledger.blocks, grants, Ledger.blocks]
  refine ⟨?_, ?_, ?_⟩
  · rw [heap]
    exact books.cursor
  · rw [heap, blocks]
    exact books.sound
  · rw [heap, grants]
    exact books.sizes

/-- No block starts at the cursor. -/
theorem ptr_ne_cursor (books : s.Books pos) {g : Grant} (member : g ∈ s.grants)
    (block : g.ptr ≠ 0) (bounded : pos ≤ 2 ^ 64) : g.ptr ≠ s.heap.cursor := by
  intro same
  obtain ⟨positive, -⟩ := books.sizes g member block
  obtain ⟨-, below, -⟩ := books.block_le member block
  have reserved := le_roundUp g.size
  rcases bounded.lt_or_eq with inside | edge
  · have cursor := books.toNat_cursor inside
    rw [← same] at cursor
    omega
  · rw [same, books.cursor, edge] at block
    exact block (by decide)

/-- Behind the last address only a size that rounds to 0 passes the bound check. -/
theorem roundSize_eq_zero (books : s.Books (2 ^ 64))
    (bounded : s.heap.arenaBase.toNat + arenaSize.toNat ≤ 2 ^ 64) {size : BitVec 64}
    (room : s.heap.exceedsArena (roundSize size) = false) :
    s.heap.cursor = 0 ∧ roundSize size = 0 := by
  have cursor : s.heap.cursor = 0 := books.cursor
  have top := arenaEnd_eq_zero (Nat.le_antisymm bounded books.sound.upper)
  rw [exceedsArena, cursor, top, zero_add, decide_eq_false_iff_not] at room
  exact ⟨cursor, BitVec.le_zero_iff.mp (BitVec.not_lt.mp room)⟩

theorem refuse (books : s.Books pos) (heap : t.heap = s.heap)
    (grants : t.grants = ⟨n, 0⟩ :: s.grants) : t.Books pos := by
  refine ⟨?_, ?_, ?_⟩
  · rw [heap]
    exact books.cursor
  · rw [heap, blocks_cons_null grants]
    exact books.sound
  · rw [heap, grants]
    intro g member block
    rcases List.mem_cons.mp member with rfl | old
    · exact absurd rfl block
    · exact books.sizes g old block

/-- A served request that counts right takes the books to the next position. -/
theorem serve (books : s.Books pos) {ptr : Addr}
    (bounded : s.heap.arenaBase.toNat + arenaSize.toNat ≤ 2 ^ 64)
    (opened : s.heap.initialized = true) (counts : s.heap.CountsRight n)
    (nonzero : BitVec.ofNat 64 n ≠ 0)
    (room : s.heap.exceedsArena (roundSize (BitVec.ofNat 64 n)) = false)
    (served : ptr = s.heap.cursor)
    (heap : t.heap = { s.heap with
      cursor := s.heap.cursor + roundSize (BitVec.ofNat 64 n)
      allocSizes := Function.update s.heap.allocSizes s.heap.cursor
        (some (roundSize (BitVec.ofNat 64 n))) })
    (grants : t.grants = ⟨n, ptr⟩ :: s.grants) : ∃ pos, t.Books pos := by
  have upper : pos ≤ 2 ^ 64 := books.sound.upper.trans bounded
  have recorded : ∀ g ∈ s.grants, g.ptr ≠ 0 →
      0 < g.size ∧ t.heap.allocSizes g.ptr = some (BitVec.ofNat 64 (roundUp g.size)) := by
    intro g member block
    obtain ⟨positive, size⟩ := books.sizes g member block
    refine ⟨positive, ?_⟩
    rw [heap]
    exact (Function.update_of_ne (books.ptr_ne_cursor member block upper) _ _).trans size
  rcases upper.lt_or_eq with inside | edge
  -- The block starts at the position of the books, and the next one right behind it.
  · have cursor := books.toNat_cursor inside
    have fits := counts.fits opened nonzero room
    rw [cursor] at fits
    have rounded : roundSize (BitVec.ofNat 64 n) = BitVec.ofNat 64 (roundUp n) := by
      have lower : s.heap.arenaBase.toNat ≤ pos := books.sound.lower
      have arena : arenaSize.toNat = 0x1000000 := rfl
      exact roundSize_ofNat (by omega)
    have next : Sound s.heap.arenaBase.toNat (s.heap.arenaBase.toNat + arenaSize.toNat) 16
        ⟨pos + roundUp n, ⟨pos, roundUp n⟩ :: s.blocks⟩ :=
      books.sound.step (.serve (roundUp n) (roundUp n) le_rfl (Nat.dvd_mul_left 16 _) fits)
    refine ⟨pos + roundUp n, ?_, ?_, ?_⟩
    · rw [heap, rounded, books.cursor, BitVec.ofNat_add]
    · by_cases null : ptr = 0
      · rw [heap, blocks_cons_null (null ▸ grants)]
        exact next.tail
      · rw [heap, blocks_cons grants null, served, cursor]
        exact next
    · intro g member block
      rw [grants] at member
      rcases List.mem_cons.mp member with rfl | old
      · refine ⟨Nat.pos_of_ne_zero fun zero => nonzero (congrArg (BitVec.ofNat 64) zero), ?_⟩
        rw [heap, served, ← rounded]
        exact Function.update_self _ _ _
      · exact recorded g old block
  -- Behind the last address the pointer is 0, so nothing is entered.
  · obtain ⟨cursor, rounded⟩ := (edge ▸ books).roundSize_eq_zero bounded room
    have null : ptr = 0 := served.trans cursor
    refine ⟨pos, ?_, ?_, ?_⟩
    · rw [heap, rounded, add_zero]
      exact books.cursor
    · rw [heap, blocks_cons_null (null ▸ grants)]
      exact books.sound
    · intro g member block
      rw [grants] at member
      rcases List.mem_cons.mp member with rfl | old
      · exact absurd null block
      · exact recorded g old block

end Books

/-- A heap with its arena has books that agree with it. -/
def Kept (s : Ledger U) : Prop := s.heap.initialized = true → ∃ pos, s.Books pos

/-- The books of an arena from which nothing has been taken. -/
theorem books_empty {s : Ledger U} (cursor : s.heap.cursor = s.heap.arenaBase)
    (empty : s.blocks = []) (none : ∀ g ∈ s.grants, g.ptr = 0) :
    s.Books s.heap.arenaBase.toNat where
  cursor := by rw [cursor, BitVec.ofNat_toNat, BitVec.setWidth_eq]
  sound := by
    rw [empty]
    exact .initial (Nat.le_add_right _ _)
  sizes g member block := absurd (none g member) block

theorem blocks_eq_nil {s : Ledger U} (none : ∀ g ∈ s.grants, g.ptr = 0) : s.blocks = [] := by
  have dropped : (s.grants.filter fun g => g.ptr ≠ 0) = [] :=
    List.filter_eq_nil_iff.mpr fun g member => by simp [none g member]
  rw [blocks, dropped, List.map_nil]

end Ledger

section Books

variable [Host] {e : LedgerEvent U} {s t : Ledger U}

/-- A step keeps the books when its request counts right. A reset starts them anew, whatever
they were. -/
theorem kept_step (ready : s.Ready) (kept : e ≠ .call .reset → s.Kept)
    (counts : ∀ c n, e = .call c → c.bytes s.engine = some n → s.heap.CountsRight n)
    (step : LedgerStep e s t) : t.Kept := by
  cases ledgerStep_cases step with
  | quiet label heap grants =>
    intro initialized
    rw [heap] at initialized
    obtain ⟨pos, books⟩ := kept label initialized
    exact ⟨pos, books.congr heap grants⟩
  | request label asks served grants mappings =>
    rename_i c n ptr
    have asked : e ≠ .call .reset := by
      rintro rfl
      cases label
      cases asks
    rcases s.heap.alloc_cases (BitVec.ofNat 64 n) with
      ⟨refused, -⟩ | ⟨opened, nonzero, room, accepted⟩
    · obtain ⟨rfl, heap⟩ := Prod.mk.inj (served.trans refused)
      intro initialized
      rw [heap] at initialized
      obtain ⟨pos, books⟩ := kept asked initialized
      exact ⟨pos, books.refuse heap grants⟩
    · obtain ⟨cursor, heap⟩ := Prod.mk.inj (served.trans accepted)
      obtain ⟨pos, books⟩ := kept asked opened
      exact fun _ => books.serve (ready.bounded opened) opened (counts c n label asks) nonzero room
        cursor heap grants
  -- The books before a reset do not matter.
  | reset label done grants =>
    have none : ∀ g ∈ t.grants, g.ptr = 0 := by simp [grants]
    intro initialized
    rcases reset_cases done with ⟨closed, -, heap⟩ | ⟨-, heap, -⟩
    · rw [heap, closed] at initialized
      cases initialized
    · exact ⟨_, Ledger.books_empty (by rw [heap]) (Ledger.blocks_eq_nil none) none⟩
  | init base label done grants =>
    intro initialized
    rcases cases_of_init done with ⟨opened, -, heap⟩ | ⟨closed, -, heap⟩ | ⟨-, still⟩
    · obtain ⟨pos, books⟩ := kept label opened
      exact ⟨pos, books.congr heap grants⟩
    · have none : ∀ g ∈ t.grants, g.ptr = 0 := by
        rw [grants]
        exact ready.closed closed
      exact ⟨_, Ledger.books_empty (by rw [heap]) (Ledger.blocks_eq_nil none) none⟩
    · rw [still] at initialized
      cases initialized

/-- Every request is one that `alloc` refuses or has room for. -/
def RequestsCount (s : Ledger U) : LedgerEvent U → Prop
  | .call c => ∀ n, c.bytes s.engine = some n → s.heap.CountsRight n
  | .other _ => True

/-- Along a run whose requests count right the books agree with the heap. -/
theorem kept_of_run {u : U} (run : Run LedgerStep RequestsCount (.start u) s) : s.Kept := by
  have both : s.Ready ∧ s.Kept := by
    refine run.invariant (P := fun a => a.Ready ∧ a.Kept) ⟨.start u, ?_⟩ ?_
    · exact fun initialized => by cases initialized
    · intro e a b inv allowed step
      refine ⟨ready_step inv.1 step, kept_step inv.1 (fun _ => inv.2) ?_ step⟩
      rintro c n rfl asks
      exact allowed n asks
  exact both.2

end Books

/-! ### A ledger with nothing in it -/

/-- An arena at 0x10000 on an engine without other memory. -/
def exampleLedger : Ledger Machine := ⟨Machine.empty.map 0x10000 arenaSize.toNat, exampleHeap, []⟩

theorem exampleLedger_step :
    LedgerStep (.call (.init 0x10000)) (.start Machine.empty) exampleLedger := by
  have placed : (HeapCall.init 0x10000).run Machine.empty .fresh =
      .ok (0, exampleLedger.engine, exampleHeap) := by
    rw [HeapCall.run, init_exampleHeap]
    rfl
  exact .call placed

end Unxorer
