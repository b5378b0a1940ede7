import Unxorer.Machine.Host
import Unxorer.Machine.Unicorn

/-!
# The fake heap

A bump allocator over one arena of guest memory: requests are rounded up to 16 bytes and
served at the cursor until the arena is used up, nothing is ever given back, and a reset
zeroes what was handed out. All arithmetic is that of 64-bit words.

## Main definitions

* `FakeHeap` — the allocator's state
* `FakeHeap.init`, `alloc`, `callocAlloc`, `reallocAlloc`, `reset` — its operations
-/

set_option autoImplicit false

namespace Unxorer

open Unicorn

/-- The fields of `fake_heap`; `allocSizes` is the map from block to rounded size. -/
structure FakeHeap where
  arenaBase : Addr
  cursor : Addr
  allocSizes : Addr → Option (BitVec 64)
  initialized : Bool

namespace FakeHeap

def arenaSize : BitVec 64 := 0x01000000

def allocAlignment : BitVec 64 := 16

/-- A `fake_heap` before `init`. -/
def fresh : FakeHeap := ⟨0, 0, fun _ => none, false⟩

variable {U : Type} [Unicorn U]

/-- `init`, with its result and the engine and heap it leaves. -/
def init (h : FakeHeap) (u : U) (baseAddress : Addr) : Bool × U × FakeHeap :=
  if h.initialized then (true, u, h)
  else
    let h := { h with arenaBase := baseAddress, cursor := baseAddress }
    match memMap u h.arenaBase arenaSize.toNat with
    | .ok u => (true, u, { h with initialized := true })
    | .error _ => (false, u, h)

theorem init_of_memMap {u u' : U} {h : FakeHeap} {baseAddress : Addr}
    (fresh : h.initialized = false) (mapped : memMap u baseAddress arenaSize.toNat = .ok u') :
    h.init u baseAddress = (true, u',
      { h with arenaBase := baseAddress, cursor := baseAddress, initialized := true }) := by
  simp only [init, fresh, Bool.false_eq_true, if_false, mapped]

/-- The rounding of `alloc`, in 64-bit arithmetic. -/
def roundSize (size : BitVec 64) : BitVec 64 :=
  (size + allocAlignment - 1) &&& ~~~(allocAlignment - 1)

/-- The bound check of `alloc` on a rounded size. -/
def exceedsArena (h : FakeHeap) (size : BitVec 64) : Bool :=
  h.cursor + size > h.arenaBase + arenaSize

/-- `alloc`: the pointer, 0 where the request is refused, and the heap after it. -/
def alloc (h : FakeHeap) (size : BitVec 64) : Addr × FakeHeap :=
  if !h.initialized || size == 0 then (0, h)
  else
    let size := roundSize size
    if h.exceedsArena size then (0, h)
    else (h.cursor, { h with
      cursor := h.cursor + size
      allocSizes := Function.update h.allocSizes h.cursor (some size) })

/-- A request for no bytes is refused. -/
theorem alloc_zero (h : FakeHeap) : h.alloc 0 = (0, h) := by simp [alloc]

/-- Zeros written from the host to the front of a block, through a buffer of that length. -/
def zeroFill [Host] (u : U) (ptr : Addr) (size : BitVec 64) : Except HostFault U := do
  hostVector size.toNat
  return (memWrite u ptr (List.replicate size.toNat 0)).getD u

def callocAlloc [Host] (u : U) (h : FakeHeap) (count elemSize : BitVec 64) :
    Except HostFault (Addr × U × FakeHeap) := do
  -- The product is not checked and may wrap around.
  let total := count * elemSize
  let (ptr, h) := h.alloc total
  if ptr ≠ 0 then
    let u ← zeroFill u ptr total
    return (ptr, u, h)
  else return (ptr, u, h)

/-- The copy of the old contents at the end of `realloc_alloc`. -/
def moveBlock [Host] (u : U) (oldPtr newPtr : Addr) (copySize : BitVec 64) :
    Except HostFault U := do
  hostVector copySize.toNat
  match memRead u oldPtr copySize.toNat with
  | some buf => return (memWrite u newPtr buf).getD u
  | none => return u

def reallocAlloc [Host] (u : U) (h : FakeHeap) (oldPtr : Addr) (newSize : BitVec 64) :
    Except HostFault (Addr × U × FakeHeap) := do
  if oldPtr = 0 then
    let (ptr, h) := h.alloc newSize
    return (ptr, u, h)
  else if newSize = 0 then return (0, u, h)
  else
    -- A pointer the heap has not handed out has no known size, and nothing is copied.
    let oldSize := (h.allocSizes oldPtr).getD 0
    let (newPtr, h) := h.alloc newSize
    if newPtr = 0 then return (0, u, h)
    else if oldSize > 0 then
      let u ← moveBlock u oldPtr newPtr (if newSize < oldSize then newSize else oldSize)
      return (newPtr, u, h)
    else return (newPtr, u, h)

/-- `free_alloc`, which does nothing. -/
def freeAlloc (h : FakeHeap) (_ptr : Addr) : FakeHeap := h

def reset [Host] (u : U) (h : FakeHeap) : Except HostFault (U × FakeHeap) :=
  if !h.initialized then .ok (u, h)
  else do
    -- Beyond the cursor the arena has not been handed out and is not cleared.
    let used := h.cursor - h.arenaBase
    let u ← (if used > 0 then zeroFill u h.arenaBase used else .ok u)
    return (u, { h with cursor := h.arenaBase, allocSizes := fun _ => none })

/-- A reset that returns has done nothing to a heap without its arena. Otherwise it has emptied
the heap and written zeros to what was handed out. -/
theorem reset_cases [Host] {u u' : U} {h h' : FakeHeap} (done : h.reset u = .ok (u', h')) :
    (h.initialized = false ∧ u' = u ∧ h' = h) ∨
      h.initialized = true ∧
        h' = { h with cursor := h.arenaBase, allocSizes := fun _ => none } ∧
        (h.cursor - h.arenaBase = 0 ∧ u' = u ∨
          u' = (memWrite u h.arenaBase
            (List.replicate (h.cursor - h.arenaBase).toNat 0)).getD u) := by
  rw [reset] at done
  by_cases pending : (!h.initialized) = true
  · rw [if_pos pending] at done
    cases done
    exact .inl ⟨by simpa using pending, rfl, rfl⟩
  · rw [if_neg pending] at done
    obtain ⟨engine, zeroed, returned⟩ := exists_of_bind_ok done
    cases returned
    refine .inr ⟨by simpa using pending, rfl, ?_⟩
    by_cases used : h.cursor - h.arenaBase > 0
    · rw [if_pos used] at zeroed
      obtain ⟨-, -, filled⟩ := exists_of_bind_ok zeroed
      cases filled
      exact .inr rfl
    · rw [if_neg used] at zeroed
      cases zeroed
      exact .inl ⟨by simpa using used, rfl⟩

/-- A reset that returns has emptied the heap. -/
theorem reset_ok [Host] {u u' : U} {h h' : FakeHeap} (ready : h.initialized = true)
    (done : h.reset u = .ok (u', h')) :
    h' = { h with cursor := h.arenaBase, allocSizes := fun _ => none } := by
  rcases reset_cases done with ⟨closed, -⟩ | ⟨-, emptied, -⟩
  · rw [ready] at closed
    cases closed
  · exact emptied

/-- A reset of a heap that has handed nothing out changes nothing. -/
theorem reset_unused [Host] (u : U) (base : Addr) :
    (FakeHeap.mk base base (fun _ => none) true).reset u =
      .ok (u, ⟨base, base, fun _ => none, true⟩) := by
  have unused : ¬ base - base > 0 := by simp
  simp only [reset, Bool.not_true, Bool.false_eq_true, if_false, if_neg unused]
  rfl

/-- A heap is reset where the host can allocate as much as was handed out. -/
theorem exists_reset [Host] (u : U) {h : FakeHeap}
    (room : (h.cursor - h.arenaBase).toNat ≤ Host.vectorMax) :
    ∃ result, h.reset u = .ok result := by
  rw [reset]
  cases h.initialized with
  | false => exact ⟨_, rfl⟩
  | true =>
    simp only [Bool.not_true, Bool.false_eq_true, if_false]
    by_cases used : h.cursor - h.arenaBase > 0
    · rw [if_pos used, zeroFill, hostVector, if_pos room]
      exact ⟨_, rfl⟩
    · rw [if_neg used]
      exact ⟨_, rfl⟩

def computeBase (imageMapEnd stackStart stackEnd : BitVec 64) : BitVec 64 :=
  let pageAlign : BitVec 64 := 0x10000
  let candidate := (imageMapEnd + pageAlign - 1) &&& ~~~(pageAlign - 1)
  if candidate + arenaSize > stackStart ∧ candidate < stackEnd then
    (stackEnd + pageAlign - 1) &&& ~~~(pageAlign - 1)
  else candidate

end FakeHeap

end Unxorer
