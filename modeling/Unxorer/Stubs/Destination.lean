import Unxorer.Machine.HostWrites
import Unxorer.Stubs.ApiStubs

/-!
# What the API stubs write

Every stub that writes guest memory writes one range, which follows from its arguments,
the heap and the memory before it runs.

## Main definitions

* `Stub.destination` — the range a stub writes

## Main results

* `Stub.run_hostWrites` — a stub changes no other memory
-/

set_option autoImplicit false

namespace Unxorer

open Unicorn

variable {U : Type} [Unicorn U]

/-! ### Destinations -/

namespace FakeHeap

/-- The zeros in front of a block, where there is a block. -/
def zeroDestination (u : U) (ptr : Addr) (size : BitVec 64) : Destination :=
  if ptr ≠ 0 then .block u ptr size.toNat else .nowhere

/-- The copy of the old contents into a new block. -/
def moveDestination (u : U) (oldPtr newPtr : Addr) (copySize : BitVec 64) : Destination :=
  if Mapped u oldPtr copySize.toNat then .block u newPtr copySize.toNat else .nowhere

def reallocDestination (u : U) (h : FakeHeap) (oldPtr : Addr) (newSize : BitVec 64) :
    Destination :=
  let oldSize := (h.allocSizes oldPtr).getD 0
  let newPtr := (h.alloc newSize).1
  if oldPtr = 0 ∨ newSize = 0 ∨ newPtr = 0 ∨ ¬ oldSize > 0 then .nowhere
  else moveDestination u oldPtr newPtr (if newSize < oldSize then newSize else oldSize)

end FakeHeap

namespace ApiStubs

/-- The block of a stub that accepts the count. -/
def countDestination (u : U) (dest : Addr) (count : BitVec 64) : Destination :=
  if acceptsCount count then .block u dest count.toNat else .nowhere

/-- The range a stub writes. The string functions write whole characters: as many as they
copy, or as many as they are told to. -/
def Stub.destination (u : U) (heap : FakeHeap) : Stub → Destination
  | calloc =>
    let total := readArg u 0 * readArg u 1
    FakeHeap.zeroDestination u (heap.alloc total).1 total
  | realloc => heap.reallocDestination u (readArg u 0) (readArg u 1)
  | heapRealloc => heap.reallocDestination u (readArg u 2) (readArg u 3)
  | heapAlloc =>
    if (readArg u 1).setWidth 32 &&& 0x00000008 ≠ 0#32 then
      FakeHeap.zeroDestination u (heap.alloc (readArg u 2)).1 (readArg u 2)
    else .nowhere
  | virtualAlloc => FakeHeap.zeroDestination u (heap.alloc (readArg u 1)).1 (readArg u 1)
  | localAlloc =>
    if (readArg u 0).setWidth 32 &&& 0x0040 ≠ 0#32 then
      FakeHeap.zeroDestination u (heap.alloc (readArg u 1)).1 (readArg u 1)
    else .nowhere
  | memcpy =>
    if Mapped u (readArg u 1) (readArg u 2).toNat then
      countDestination u (readArg u 0) (readArg u 2)
    else .nowhere
  | memset => countDestination u (readArg u 0) (readArg u 2)
  | rtlZeroMemory => countDestination u (readArg u 0) (readArg u 1)
  | rtlFillMemory => countDestination u (readArg u 0) (readArg u 1)
  | strcpy => copyDestination 1
  | wcscpy => copyDestination 2
  | strncpy => copyNDestination 1
  | wcsncpy => copyNDestination 2
  | strcat => concatDestination 1
  | wcscat => concatDestination 2
  | _ => .nowhere
where
  copyDestination (w : ℕ) : Destination :=
    ⟨readArg u 0, (copyLoop w (readArg u 1) (readArg u 0) maxBuffer 0 u).2 * w⟩
  copyNDestination (w : ℕ) : Destination :=
    ⟨readArg u 0, min (readArg u 2).toNat maxBuffer * w⟩
  concatDestination (w : ℕ) : Destination :=
    let destLen := scanLength w u (readArg u 0) maxBuffer 0
    let dest := charAddr w (readArg u 0) destLen
    ⟨dest, (copyLoop w (readArg u 1) dest (maxBuffer - destLen) 0 u).2 * w⟩

end ApiStubs

/-! ### Blocks -/

namespace FakeHeap

section Blocks

variable [Host] {u u' : U} {h h' : FakeHeap} {ptr newPtr : Addr} {size : BitVec 64}

theorem zeroFill_hostWrites (filled : zeroFill u ptr size = .ok u') :
    HostWrites (Destination.block u ptr size.toNat).addresses u u' := by
  obtain ⟨-, -, returned⟩ := exists_of_bind_ok filled
  cases returned
  exact .memWrite_of_length u ptr List.length_replicate

theorem moveBlock_hostWrites (moved : moveBlock u ptr newPtr size = .ok u') :
    HostWrites (moveDestination u ptr newPtr size).addresses u u' := by
  obtain ⟨-, -, returned⟩ := exists_of_bind_ok moved
  rw [moveDestination]
  by_cases readable : Mapped u ptr size.toNat
  · rw [memRead_of_mapped readable] at returned
    cases returned
    rw [if_pos readable]
    exact .memWrite_of_length u newPtr (length_bytesAt u ptr size.toNat)
  · rw [memRead_of_not_mapped readable] at returned
    cases returned
    exact .refl u

theorem callocAlloc_hostWrites {count elemSize : BitVec 64}
    (done : h.callocAlloc u count elemSize = .ok (ptr, u', h')) :
    HostWrites (zeroDestination u (h.alloc (count * elemSize)).1 (count * elemSize)).addresses
      u u' := by
  rw [callocAlloc] at done
  by_cases block : (h.alloc (count * elemSize)).1 ≠ 0
  · simp only [if_pos block] at done
    obtain ⟨u₁, filled, returned⟩ := exists_of_bind_ok done
    cases returned
    rw [zeroDestination, if_pos block]
    exact zeroFill_hostWrites filled
  · simp only [if_neg block] at done
    cases done
    exact .refl u

theorem reallocAlloc_hostWrites {oldPtr : Addr} {newSize : BitVec 64}
    (done : h.reallocAlloc u oldPtr newSize = .ok (ptr, u', h')) :
    HostWrites (h.reallocDestination u oldPtr newSize).addresses u u' := by
  rw [reallocAlloc] at done
  rw [reallocDestination]
  by_cases first : oldPtr = 0
  · rw [if_pos first] at done
    cases done
    exact .refl u
  rw [if_neg first] at done
  by_cases empty : newSize = 0
  · rw [if_pos empty] at done
    cases done
    exact .refl u
  rw [if_neg empty] at done
  by_cases refused : (h.alloc newSize).1 = 0
  · simp only [if_pos refused] at done
    cases done
    exact .refl u
  simp only [if_neg refused] at done
  by_cases known : (h.allocSizes oldPtr).getD 0 > 0
  · rw [if_pos known] at done
    obtain ⟨u₁, moved, returned⟩ := exists_of_bind_ok done
    cases returned
    have moves : ¬ (oldPtr = 0 ∨ newSize = 0 ∨ (h.alloc newSize).1 = 0 ∨
        ¬ (h.allocSizes oldPtr).getD 0 > 0) := by
      rintro (zero | zero | zero | unknown)
      exacts [first zero, empty zero, refused zero, unknown known]
    simp only [if_neg moves]
    exact moveBlock_hostWrites moved
  · rw [if_neg known] at done
    cases done
    exact .refl u

end Blocks

end FakeHeap

namespace ApiStubs

/-! ### Loops over characters -/

section Loops

theorem char_offset_lt {w i n k : ℕ} (before : i < n) (inside : k < w) : i * w + k < n * w :=
  calc i * w + k < i * w + w := Nat.add_lt_add_left inside _
    _ = (i + 1) * w := (Nat.succ_mul i w).symm
    _ ≤ n * w := Nat.mul_le_mul_right w before

omit [Unicorn U] in
/-- A character before character `n` lies in the first `n` characters. -/
theorem char_addresses_subset {w i n : ℕ} {str : Addr} (before : i < n) :
    (Destination.mk (charAddr w str i) w).addresses ⊆ (Destination.mk str (n * w)).addresses := by
  rintro x ⟨k, inside, rfl⟩
  refine ⟨i * w + k, char_offset_lt before inside, ?_⟩
  simp only [charAddr, BitVec.ofNat_add, add_assoc]

theorem char_subset {w : ℕ} {dest : Addr} (u : U) {ch : List Byte} {i n : ℕ}
    (width : ch.length = w) (before : i < n) :
    (Destination.block u (charAddr w dest i) ch.length).addresses ⊆
      (Destination.mk dest (n * w)).addresses := by
  intro x mem
  rw [Destination.block] at mem
  split_ifs at mem
  · rw [width] at mem
    exact char_addresses_subset before mem
  · exact absurd mem (Destination.not_mem_nowhere x)

theorem copyLoop_hostWrites (w : ℕ) (src dest : Addr) (fuel i : ℕ) (u : U) :
    i ≤ (copyLoop w src dest fuel i u).2 ∧
      HostWrites (Destination.mk dest ((copyLoop w src dest fuel i u).2 * w)).addresses u
        (copyLoop w src dest fuel i u).1 := by
  -- The count only grows, so what was written earlier lies in the range of the final count.
  induction fuel generalizing i u with
  | zero => exact ⟨le_refl i, .refl u⟩
  | succ fuel ih =>
    rw [copyLoop]
    cases read : memRead u (charAddr w src i) w with
    | none => exact ⟨le_refl i, .refl u⟩
    | some ch =>
      have width := length_of_memRead read
      have written := HostWrites.memWrite u (charAddr w dest i) ch
      dsimp only
      by_cases last : ch = nul w
      · simp only [if_pos last]
        exact ⟨Nat.le_succ i, written.mono (char_subset u width (Nat.lt_succ_self i))⟩
      · simp only [if_neg last]
        obtain ⟨le, rest⟩ := ih (i + 1) ((memWrite u (charAddr w dest i) ch).getD u)
        exact ⟨Nat.le_of_succ_le le, (written.mono (char_subset u width le)).trans rest⟩

theorem copyNLoop_hostWrites (w : ℕ) (src dest : Addr) (n i : ℕ) (hitNull : Bool) (u : U) :
    HostWrites (Destination.mk dest ((i + n) * w)).addresses u
      (copyNLoop w src dest n i hitNull u) := by
  induction n generalizing i hitNull u with
  | zero => exact .refl u
  | succ n ih =>
    -- Each round writes one character, whichever branch it takes.
    have step (ch : List Byte) (width : ch.length = w) (hitNull : Bool) :
        HostWrites (Destination.mk dest ((i + (n + 1)) * w)).addresses u
          (copyNLoop w src dest n (i + 1) hitNull
            ((memWrite u (charAddr w dest i) ch).getD u)) := by
      have written := HostWrites.memWrite u (charAddr w dest i) ch
      have rest := ih (i + 1) hitNull ((memWrite u (charAddr w dest i) ch).getD u)
      rw [Nat.add_right_comm, Nat.add_assoc i n 1] at rest
      exact (written.mono (char_subset u width (by omega))).trans rest
    have zeros : (nul w).length = w := List.length_replicate
    unfold copyNLoop
    dsimp only
    cases read : if hitNull = true then none else memRead u (charAddr w src i) w with
    | none => exact step _ zeros _
    | some ch =>
      dsimp only
      by_cases last : ch = nul w
      · rw [if_pos last]
        exact step _ zeros _
      · rw [if_neg last]
        exact step _ (length_of_memRead (Option.ite_none_left_eq_some.mp read).2) _

end Loops

/-! ### Stubs -/

section Stubs

variable [Host] {u u' : U} {heap heap' : FakeHeap}

theorem fill_hostWrites {dest : Addr} {byte : Byte} {count : BitVec 64}
    (filled : fill u dest byte count = .ok u') :
    HostWrites (countDestination u dest count).addresses u u' := by
  rw [fill] at filled
  rw [countDestination]
  by_cases accepted : acceptsCount count = true
  · rw [if_pos accepted] at filled ⊢
    obtain ⟨-, -, returned⟩ := exists_of_bind_ok filled
    cases returned
    exact .memWrite_of_length u dest List.length_replicate
  · rw [if_neg accepted] at filled
    cases filled
    exact .refl u

theorem stubMemcpy_hostWrites (ran : stubMemcpy u heap = .ok (u', heap')) :
    HostWrites (Stub.memcpy.destination u heap).addresses u u' := by
  rw [stubMemcpy] at ran
  simp only [Stub.destination, countDestination]
  by_cases accepted : acceptsCount (readArg u 2) = true
  · simp only [if_pos accepted] at ran ⊢
    obtain ⟨-, -, returned⟩ := exists_of_bind_ok ran
    by_cases readable : Mapped u (readArg u 1) (readArg u 2).toNat
    · rw [memRead_of_mapped readable] at returned
      cases returned
      rw [if_pos readable]
      have writes := HostWrites.memWrite_of_length u (readArg u 0)
        (length_bytesAt u (readArg u 1) (readArg u 2).toNat)
      exact writes.regWrite _ _
    · rw [memRead_of_not_mapped readable] at returned
      cases returned
      exact (HostWrites.refl u).regWrite _ _
  · simp only [if_neg accepted] at ran
    cases ran
    exact (HostWrites.refl u).regWrite _ _

theorem stubMemcmp_hostWrites {range : Set Addr} (ran : stubMemcmp u heap = .ok (u', heap')) :
    HostWrites range u u' := by
  rw [stubMemcmp] at ran
  by_cases accepted : acceptsCount (readArg u 2) = true
  · simp only [if_pos accepted] at ran
    obtain ⟨-, -, rest⟩ := exists_of_bind_ok ran
    obtain ⟨-, -, returned⟩ := exists_of_bind_ok rest
    cases returned
    exact (HostWrites.refl u).regWrite _ _
  · simp only [if_neg accepted] at ran
    cases ran
    exact (HostWrites.refl u).regWrite _ _

theorem allocZeroed_hostWrites {size : BitVec 64} {zeroed : Bool}
    (ran : allocZeroed u heap size zeroed = .ok (u', heap')) :
    HostWrites (if zeroed then FakeHeap.zeroDestination u (heap.alloc size).1 size
      else .nowhere).addresses u u' := by
  rw [allocZeroed] at ran
  by_cases fills : (heap.alloc size).1 ≠ 0 ∧ zeroed = true
  · simp only [if_pos fills] at ran
    obtain ⟨u₁, filled, returned⟩ := exists_of_bind_ok ran
    cases returned
    rw [if_pos fills.2, FakeHeap.zeroDestination, if_pos fills.1]
    exact (FakeHeap.zeroFill_hostWrites filled).regWrite _ _
  · simp only [if_neg fills] at ran
    cases ran
    exact (HostWrites.refl u).regWrite _ _

omit [Host] in
theorem stubCopyN_hostWrites {w : ℕ} (ran : stubCopyN u heap w = .ok (u', heap')) :
    HostWrites (Stub.destination.copyNDestination u w).addresses u u' := by
  cases ran
  have writes := copyNLoop_hostWrites w (readArg u 1) (readArg u 0)
    (min (readArg u 2).toNat maxBuffer) 0 false u
  rw [Nat.zero_add] at writes
  exact writes.regWrite _ _

/-- A stub changes no memory outside its destination. -/
theorem Stub.run_hostWrites {stub : Stub} (ran : stub.run u heap = .ok (u', heap')) :
    HostWrites (stub.destination u heap).addresses u u' := by
  cases stub with
  | malloc | free | getProcessHeap | strlen | wcslen =>
    cases ran
    exact (HostWrites.refl u).regWrite _ _
  | calloc =>
    obtain ⟨⟨ptr, u₁, heap₁⟩, done, returned⟩ := exists_of_bind_ok ran
    cases returned
    exact (FakeHeap.callocAlloc_hostWrites done).regWrite _ _
  | realloc | heapRealloc =>
    obtain ⟨⟨ptr, u₁, heap₁⟩, done, returned⟩ := exists_of_bind_ok ran
    cases returned
    exact (FakeHeap.reallocAlloc_hostWrites done).regWrite _ _
  | virtualAlloc => exact allocZeroed_hostWrites ran
  | heapAlloc | localAlloc =>
    have writes := allocZeroed_hostWrites ran
    simp only [decide_eq_true_eq] at writes
    exact writes
  | memcpy => exact stubMemcpy_hostWrites ran
  | memcmp => exact stubMemcmp_hostWrites ran
  | memset =>
    obtain ⟨u₁, filled, returned⟩ := exists_of_bind_ok ran
    cases returned
    exact (fill_hostWrites filled).regWrite _ _
  | rtlZeroMemory | rtlFillMemory =>
    obtain ⟨u₁, filled, returned⟩ := exists_of_bind_ok ran
    cases returned
    exact fill_hostWrites filled
  | strcpy | wcscpy =>
    cases ran
    exact (copyLoop_hostWrites _ _ _ _ _ u).2.regWrite _ _
  | strcat | wcscat =>
    cases ran
    exact (copyLoop_hostWrites _ _ _ _ _ u).2.regWrite _ _
  | strncpy | wcsncpy => exact stubCopyN_hostWrites ran

end Stubs

end ApiStubs

end Unxorer
