import Unxorer.Heap.Allocation

/-!
# Host buffers

The stubs and the heap pass bytes through buffers on the host, as long as the guest asks for.
The counts of the memory functions are checked against a limit of their own; the other buffers
are as long as a block the heap has just served, or as all it has handed out. A size that wraps
around in `alloc` is served as well, and a buffer of that size cannot be allocated.

## Main definitions

* `AllocatesAtMost` — no buffer of an operation is longer than a bound
* `HeapOp` — the operations of the heap and the stubs

## Main results

* `HeapOp.perform_inArena` — operations whose sizes fit keep the cursor in the arena
* `allocatesAtMost_of_run` — in every state they reach, no buffer is longer than the arena
-/

set_option autoImplicit false

namespace Unxorer

open Unicorn FakeHeap ApiStubs Transition

variable {U : Type} [Unicorn U]

/-! ### Buffers -/

/-- The operation returns. -/
def Completes {α : Type} (x : Except HostFault α) : Prop := ∃ a, x = .ok a

/-- A host that can allocate `n` bytes completes the operation, so none of its buffers is
longer. -/
def AllocatesAtMost {α : Type} (n : ℕ) (op : [Host] → Except HostFault α) : Prop :=
  ∀ host : Host, n ≤ host.vectorMax → Completes (@op host)

namespace Completes

variable {α β : Type} {x : Except HostFault α}

theorem ok (a : α) : Completes (.ok a) := ⟨a, rfl⟩

theorem bind {f : α → Except HostFault β} (first : Completes x) (rest : ∀ a, Completes (f a)) :
    Completes (x >>= f) := by
  obtain ⟨a, rfl⟩ := first
  exact rest a

theorem map (f : α → β) (first : Completes x) : Completes (f <$> x) := by
  obtain ⟨a, rfl⟩ := first
  exact ⟨f a, rfl⟩

end Completes

/-! ### The cursor -/

namespace FakeHeap

/-- The cursor of a heap that has its arena lies in the arena. -/
def InArena (h : FakeHeap) : Prop :=
  h.initialized = true → h.arenaBase.toNat ≤ h.cursor.toNat ∧
    h.cursor.toNat ≤ h.arenaBase.toNat + arenaSize.toNat

theorem InArena.init {h : FakeHeap} (inside : h.InArena) (u : U) (base : Addr) :
    (h.init u base).2.2.InArena := by
  simp only [FakeHeap.init]
  split_ifs with ready
  · exact inside
  · cases memMap u base arenaSize.toNat with
    | ok engine => exact fun _ => ⟨le_rfl, Nat.le_add_right _ _⟩
    | error cause => exact fun initialized => absurd initialized ready

/-- A request that fits moves the cursor up, but not out of the arena. -/
theorem InArena.alloc {h : FakeHeap} (inside : h.InArena) {n : BitVec 64} (fits : h.Fits n) :
    (h.alloc n).2.InArena := by
  rcases h.alloc_cases n with ⟨refused, -⟩ | ⟨ready, nonzero, room, accepted⟩
  · rw [refused]
    exact inside
  · obtain ⟨cursor, bound⟩ := served_of_fits fits nonzero room
    rw [accepted]
    intro _
    change h.arenaBase.toNat ≤ (h.cursor + roundSize n).toNat ∧
      (h.cursor + roundSize n).toNat ≤ h.arenaBase.toNat + arenaSize.toNat
    rw [cursor]
    exact ⟨(inside ready).1.trans (Nat.le_add_right _ _), bound⟩

theorem InArena.reset [Host] {h h' : FakeHeap} {u u' : U} (inside : h.InArena)
    (done : h.reset u = .ok (u', h')) : h'.InArena := by
  rcases reset_cases done with ⟨-, -, rfl⟩ | ⟨-, rfl, -⟩
  · exact inside
  · exact fun _ => ⟨le_rfl, Nat.le_add_right _ _⟩

/-- A block of a size that fits is no longer than the arena. -/
theorem InArena.size_le {h : FakeHeap} (inside : h.InArena) {n : BitVec 64} (fits : h.Fits n)
    (served : (h.alloc n).1 ≠ 0) : n.toNat ≤ arenaSize.toNat := by
  rcases h.alloc_cases n with ⟨refused, -⟩ | ⟨ready, nonzero, room, -⟩
  · rw [refused] at served
    exact absurd rfl served
  · have bound := (served_of_fits fits nonzero room).2
    have lower := (inside ready).1
    have reserved := le_roundUp n.toNat
    omega

/-- What a reset clears is no longer than the arena. -/
theorem InArena.used_le {h : FakeHeap} (inside : h.InArena) (ready : h.initialized = true) :
    (h.cursor - h.arenaBase).toNat ≤ arenaSize.toNat := by
  obtain ⟨lower, upper⟩ := inside ready
  rw [BitVec.toNat_sub_of_le lower]
  omega

end FakeHeap

/-! ### The buffers of the operations -/

section Buffers

variable [Host] (wide : arenaSize.toNat ≤ Host.vectorMax) (u : U)
include wide

theorem completes_hostVector {length : ℕ} (short : length ≤ arenaSize.toNat) :
    Completes (hostVector length) :=
  ⟨(), if_pos (short.trans wide)⟩

/-- The stubs with a count of their own accept at most 1 MiB. -/
theorem completes_hostVector_count {count : BitVec 64} (accepted : acceptsCount count = true) :
    Completes (hostVector count.toNat) := by
  refine completes_hostVector wide ?_
  have limit : maxBuffer ≤ arenaSize.toNat := by decide
  rw [acceptsCount, Bool.and_eq_true, decide_eq_true_iff, decide_eq_true_iff] at accepted
  exact accepted.2.trans limit

theorem completes_zeroFill (ptr : Addr) {size : BitVec 64} (short : size.toNat ≤ arenaSize.toNat) :
    Completes (zeroFill u ptr size) :=
  (completes_hostVector wide short).bind fun _ => .ok _

theorem completes_moveBlock (oldPtr newPtr : Addr) {size : BitVec 64}
    (short : size.toNat ≤ arenaSize.toNat) : Completes (moveBlock u oldPtr newPtr size) := by
  refine (completes_hostVector wide short).bind fun _ => ?_
  cases memRead u oldPtr size.toNat with
  | none => exact .ok _
  | some buf => exact .ok _

theorem completes_fill (dest : Addr) (byte : Byte) (count : BitVec 64) :
    Completes (fill u dest byte count) := by
  rw [fill]
  split_ifs with accepted
  · exact (completes_hostVector_count wide accepted).bind fun _ => .ok _
  · exact .ok _

theorem completes_memcpy (heap : FakeHeap) : Completes (stubMemcpy u heap) := by
  rw [stubMemcpy]
  split_ifs with accepted
  · refine (completes_hostVector_count wide accepted).bind fun _ => ?_
    cases memRead u (readArg u 1) (readArg u 2).toNat with
    | none => exact .ok _
    | some buf => exact .ok _
  · exact .ok _

theorem completes_memcmp (heap : FakeHeap) : Completes (stubMemcmp u heap) := by
  rw [stubMemcmp]
  split_ifs with accepted
  · have buffer := completes_hostVector_count wide accepted
    exact buffer.bind fun _ => buffer.bind fun _ => .ok _
  · exact .ok _

section Requests

variable {h : FakeHeap} (inside : h.InArena)
include inside

theorem completes_callocAlloc {count elemSize : BitVec 64} (fits : h.Fits (count * elemSize)) :
    Completes (h.callocAlloc u count elemSize) := by
  simp only [callocAlloc]
  split_ifs with served
  · have short := inside.size_le fits served
    exact (completes_zeroFill wide u _ short).bind fun _ => .ok _
  · exact .ok _

theorem completes_reallocAlloc (oldPtr : Addr) {newSize : BitVec 64} (fits : h.Fits newSize) :
    Completes (h.reallocAlloc u oldPtr newSize) := by
  simp only [reallocAlloc]
  split_ifs with absent empty refused known smaller
  · exact .ok _
  · exact .ok _
  · exact .ok _
  -- At most the new block is copied, whatever the size of the old one.
  · have short := inside.size_le fits refused
    exact (completes_moveBlock wide u _ _ short).bind fun _ => .ok _
  · have short := inside.size_le fits refused
    have shorter := (BitVec.le_def.mp (BitVec.not_lt.mp smaller)).trans short
    exact (completes_moveBlock wide u _ _ shorter).bind fun _ => .ok _
  · exact .ok _

theorem completes_allocZeroed {size : BitVec 64} (zeroed : Bool) (fits : h.Fits size) :
    Completes (allocZeroed u h size zeroed) := by
  simp only [allocZeroed]
  split_ifs with zeroing
  · have short := inside.size_le fits zeroing.1
    exact (completes_zeroFill wide u _ short).bind fun _ => .ok _
  · exact .ok _

theorem completes_reset : Completes (h.reset u) := by
  simp only [FakeHeap.reset]
  split_ifs with closed used
  · exact .ok _
  · have ready : h.initialized = true := by simpa using closed
    exact (completes_zeroFill wide u _ (inside.used_le ready)).bind fun _ => .ok _
  · exact (Completes.ok u).bind fun _ => .ok _

end Requests

end Buffers

/-! ### Operations -/

/-- An operation of the heap, or a stub. The engine of each is arbitrary. -/
inductive HeapOp (U : Type)
  | init (u : U) (baseAddress : Addr)
  | alloc (size : BitVec 64)
  | calloc (u : U) (count elemSize : BitVec 64)
  | realloc (u : U) (oldPtr : Addr) (newSize : BitVec 64)
  | free (ptr : Addr)
  | reset (u : U)
  | stub (s : Stub) (u : U)

/-- The size a stub requests of the heap. -/
def stubRequest (u : U) : Stub → BitVec 64
  | .malloc => readArg u 0
  | .calloc => readArg u 0 * readArg u 1
  | .realloc => readArg u 1
  | .heapAlloc => readArg u 2
  | .heapRealloc => readArg u 3
  | .virtualAlloc => readArg u 1
  | .localAlloc => readArg u 1
  | _ => 0

namespace HeapOp

/-- The size an operation requests of the heap, 0 where it requests none. A product of two
64-bit words is one again. -/
def requested : HeapOp U → BitVec 64
  | alloc size => size
  | calloc _ count elemSize => count * elemSize
  | realloc _ _ newSize => newSize
  | stub s u => stubRequest u s
  | _ => 0

variable [Host]

/-- The heap after an operation. -/
def perform (h : FakeHeap) : HeapOp U → Except HostFault FakeHeap
  | init u baseAddress => .ok (h.init u baseAddress).2.2
  | alloc size => .ok (h.alloc size).2
  | calloc u count elemSize => (fun r => r.2.2) <$> h.callocAlloc u count elemSize
  | realloc u oldPtr newSize => (fun r => r.2.2) <$> h.reallocAlloc u oldPtr newSize
  | free ptr => .ok (h.freeAlloc ptr)
  | reset u => (fun r => r.2) <$> h.reset u
  | stub s u => (fun r => r.2) <$> s.run u h

end HeapOp

/-- Every stub of `stub_table` returns when the size it requests fits. -/
theorem completes_stub [Host] (wide : arenaSize.toNat ≤ Host.vectorMax) (u : U) {h : FakeHeap}
    (inside : h.InArena) {s : Stub} (fits : h.Fits (stubRequest u s)) :
    Completes (s.run u h) := by
  cases s with
  | malloc | free | getProcessHeap | strlen | wcslen | strcpy | strncpy | wcscpy | wcsncpy | strcat
  | wcscat => exact .ok _
  | calloc => exact (completes_callocAlloc wide u inside fits).bind fun _ => .ok _
  | realloc | heapRealloc => exact (completes_reallocAlloc wide u inside _ fits).bind fun _ => .ok _
  | heapAlloc | virtualAlloc | localAlloc => exact completes_allocZeroed wide u inside _ fits
  | memcpy => exact completes_memcpy wide u h
  | memcmp => exact completes_memcmp wide u h
  | memset | rtlZeroMemory | rtlFillMemory =>
    exact (completes_fill wide u _ _ _).bind fun _ => .ok _

theorem HeapOp.completes [Host] (wide : arenaSize.toNat ≤ Host.vectorMax) {h : FakeHeap}
    (inside : h.InArena) {op : HeapOp U} (fits : h.Fits op.requested) :
    Completes (op.perform h) := by
  cases op with
  | init | alloc | free => exact .ok _
  | calloc u count elemSize => exact (completes_callocAlloc wide u inside fits).map _
  | realloc u oldPtr newSize => exact (completes_reallocAlloc wide u inside oldPtr fits).map _
  | reset u => exact (completes_reset wide u inside).map _
  | stub s u => exact (completes_stub wide u inside fits).map _

/-! ### The heap after an operation -/

theorem exists_of_map_ok {α β : Type} {x : Except HostFault α} {f : α → β} {b : β}
    (returned : f <$> x = .ok b) : ∃ a, x = .ok a ∧ f a = b := by
  cases x with
  | error fault => cases returned
  | ok a =>
    cases returned
    exact ⟨a, rfl, rfl⟩

section After

variable [Host]

theorem callocAlloc_eq_alloc {u u' : U} {h h' : FakeHeap} {p : Addr} {count elemSize : BitVec 64}
    (served : h.callocAlloc u count elemSize = .ok (p, u', h')) :
    (p, h') = h.alloc (count * elemSize) := by
  simp only [callocAlloc] at served
  split_ifs at served
  · obtain ⟨engine, -, returned⟩ := exists_of_bind_ok served
    cases returned
    rfl
  · cases served
    rfl

/-- A stub leaves the heap after the request it makes. -/
theorem stub_heap {u u' : U} {h h' : FakeHeap} {s : Stub} (done : s.run u h = .ok (u', h')) :
    h' = (h.alloc (stubRequest u s)).2 := by
  have untouched : h = (h.alloc 0).2 := by rw [alloc_zero]
  cases s with
  | malloc =>
    cases done
    rfl
  | free | getProcessHeap | strlen | wcslen | strcpy | strncpy | wcscpy | wcsncpy | strcat
  | wcscat =>
    cases done
    exact untouched
  | calloc =>
    obtain ⟨⟨p, engine, heap⟩, served, returned⟩ := exists_of_bind_ok done
    cases returned
    exact congrArg Prod.snd (callocAlloc_eq_alloc served)
  | realloc | heapRealloc =>
    obtain ⟨⟨p, engine, heap⟩, served, returned⟩ := exists_of_bind_ok done
    cases returned
    exact congrArg Prod.snd (reallocAlloc_eq_alloc served)
  | heapAlloc | virtualAlloc | localAlloc =>
    exact congrArg Prod.snd (allocZeroed_eq_alloc done)
  | memset | rtlZeroMemory | rtlFillMemory =>
    obtain ⟨engine, -, returned⟩ := exists_of_bind_ok done
    cases returned
    exact untouched
  | memcpy =>
    simp only [Stub.run, stubMemcpy] at done
    split_ifs at done
    · obtain ⟨-, -, copied⟩ := exists_of_bind_ok done
      cases read : memRead u (readArg u 1) (readArg u 2).toNat with
      | none =>
        rw [read] at copied
        cases copied
        exact untouched
      | some buf =>
        rw [read] at copied
        cases copied
        exact untouched
    · cases done
      exact untouched
  | memcmp =>
    simp only [Stub.run, stubMemcmp] at done
    split_ifs at done
    · obtain ⟨-, -, allocated⟩ := exists_of_bind_ok done
      obtain ⟨-, -, compared⟩ := exists_of_bind_ok allocated
      cases compared
      exact untouched
    · cases done
      exact untouched

/-- An operation whose size fits keeps the cursor in the arena. -/
theorem HeapOp.perform_inArena {h h' : FakeHeap} {op : HeapOp U} (inside : h.InArena)
    (fits : h.Fits op.requested) (done : op.perform h = .ok h') : h'.InArena := by
  cases op with
  | init u base =>
    cases done
    exact inside.init u base
  | alloc n =>
    cases done
    exact inside.alloc fits
  | calloc u count elemSize =>
    obtain ⟨⟨p, engine, heap⟩, served, rfl⟩ := exists_of_map_ok done
    have after : heap = (h.alloc (count * elemSize)).2 :=
      congrArg Prod.snd (callocAlloc_eq_alloc served)
    exact after ▸ inside.alloc fits
  | realloc u oldPtr newSize =>
    obtain ⟨⟨p, engine, heap⟩, served, rfl⟩ := exists_of_map_ok done
    have after : heap = (h.alloc newSize).2 := congrArg Prod.snd (reallocAlloc_eq_alloc served)
    exact after ▸ inside.alloc fits
  | free ptr =>
    cases done
    exact inside
  | reset u =>
    obtain ⟨⟨engine, heap⟩, cleared, rfl⟩ := exists_of_map_ok done
    exact inside.reset cleared
  | stub s u =>
    obtain ⟨⟨engine, heap⟩, ran, rfl⟩ := exists_of_map_ok done
    have after : heap = (h.alloc (stubRequest u s)).2 := stub_heap ran
    exact after ▸ inside.alloc fits

/-- In every state that operations whose sizes fit reach, none of the buffers of such an
operation is longer than the arena. -/
theorem allocatesAtMost_of_run {h : FakeHeap}
    (run : Run (fun (op : HeapOp U) h h' => op.perform h = .ok h')
      (fun h op => h.Fits op.requested) FakeHeap.fresh h)
    {op : HeapOp U} (fits : h.Fits op.requested) :
    AllocatesAtMost arenaSize.toNat (op.perform h) := by
  have inside : h.InArena := by
    refine run.invariant (P := FakeHeap.InArena) ?_ ?_
    · exact fun initialized => absurd initialized Bool.false_ne_true
    · exact fun e a b inv ok step => HeapOp.perform_inArena inv ok step
  exact fun host wide => HeapOp.completes wide inside fits

end After

/-- `init` on the empty machine and, in the state it leaves, `calloc(3, 8)`. -/
theorem allocatesAtMost_of_run_calloc :
    AllocatesAtMost arenaSize.toNat
      ((HeapOp.calloc (Machine.empty.map 0x10000 arenaSize.toNat) 3 8).perform exampleHeap) := by
  have step : (HeapOp.init Machine.empty 0x10000).perform FakeHeap.fresh = .ok exampleHeap := by
    rw [HeapOp.perform, init_exampleHeap]
  exact allocatesAtMost_of_run (Run.refl.tail (.inl rfl) step) (.inr (.inr (by decide)))

/-- `VirtualAlloc` of `2 ^ 64 - 1` bytes is served on a fresh arena, and its buffer of zeros is
as long. -/
theorem virtualAlloc_max_buffer :
    ¬ ∀ (_ : Host) (h : FakeHeap),
      Run (fun (op : HeapOp Machine) h h' => op.perform h = .ok h') (fun _ _ => True)
        FakeHeap.fresh h →
      ∀ op : HeapOp Machine, AllocatesAtMost arenaSize.toNat (op.perform h) := by
  intro always
  let host : Host := ⟨2 ^ 63 - 1, 2 ^ 63 - 1, by decide⟩
  have step : (HeapOp.init Machine.empty 0x10000).perform FakeHeap.fresh = .ok exampleHeap := by
    rw [HeapOp.perform, init_exampleHeap]
  have run : Run (fun (op : HeapOp Machine) h h' => op.perform h = .ok h') (fun _ _ => True)
      FakeHeap.fresh exampleHeap := Run.refl.tail trivial step
  obtain ⟨heap, done⟩ :=
    always host exampleHeap run (.stub .virtualAlloc (callWith (-1))) host (by decide)
  obtain ⟨⟨engine, heap⟩, ran, -⟩ := exists_of_map_ok done
  -- The rounded size is 0, so the block is served at the base.
  have served : (exampleHeap.alloc (-1)).1 ≠ 0 ∧ True := ⟨by decide, trivial⟩
  have size : readArg (callWith (-1)) 1 = -1 := rfl
  simp only [Stub.run, stubVirtualAlloc, allocZeroed, size] at ran
  rw [if_pos served] at ran
  obtain ⟨cleared, filled, -⟩ := exists_of_bind_ok ran
  obtain ⟨_, allocated, -⟩ := exists_of_bind_ok filled
  have tooLong : ¬ (-1 : BitVec 64).toNat ≤ host.vectorMax := by decide
  have failed : hostVector (-1 : BitVec 64).toNat = .error .allocation := if_neg tooLong
  rw [failed] at allocated
  cases allocated

end Unxorer
