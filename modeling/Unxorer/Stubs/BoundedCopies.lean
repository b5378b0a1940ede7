import Unxorer.Machine.Reference
import Unxorer.Stubs.Destination

/-!
# Bounded copies

`strncpy` and `wcsncpy` write exactly as many characters as they are told to: the source up to
its end, and NULs from there on. The same stubs are bound to `lstrcpynA` and `lstrcpynW`, which
promise a NUL among those characters.

## Main definitions

* `ApiStubs.SourceText` — a source as the copy loop sees it
* `ApiStubs.padded` — the characters the loop puts down
* `ApiStubs.BoundedCopy` — what a run leaves at the destination
* `ApiStubs.LstrcpynContract` — what a caller of `lstrcpyn` relies on

## Main results

* `ApiStubs.memRead_copyNLoop` — what the loop leaves in each character
* `ApiStubs.boundedCopies_run` — `strncpy` and `wcsncpy` do so of every source
* `ApiStubs.lstrcpyn_iff` — the contract holds exactly of the strings shorter than the limit
-/

set_option autoImplicit false

namespace Unxorer.ApiStubs

open Unicorn

variable {U : Type} [Unicorn U]

/-! ### Characters -/

section Characters

variable {w n i j : ℕ} {str : Addr}

/-- A character ends before a later one begins. -/
theorem char_disjoint_of_lt (room : n * w ≤ 2 ^ 64) (before : i < j) (inside : j < n) :
    Disjoint (Destination.mk (charAddr w str i) w).addresses
      (Destination.mk (charAddr w str j) w).addresses := by
  have next : i * w + w ≤ j * w := Nat.succ_mul i w ▸ Nat.mul_le_mul_right w before
  have last : j * w + w ≤ n * w := Nat.succ_mul j w ▸ Nat.mul_le_mul_right w inside
  exact Destination.disjoint_of_offsets next (last.trans room)

/-- Two characters of a range that does not wrap around have no byte in common. -/
theorem char_disjoint (room : n * w ≤ 2 ^ 64) (first : i < n) (second : j < n)
    (differ : i ≠ j) :
    Disjoint (Destination.mk (charAddr w str i) w).addresses
      (Destination.mk (charAddr w str j) w).addresses := by
  rcases Nat.lt_or_gt_of_ne differ with less | greater
  · exact char_disjoint_of_lt room less second
  · exact (char_disjoint_of_lt room greater first).symm

theorem mapped_char {u : U} (present : Mapped u str (n * w)) (inside : i < n) :
    Mapped u (charAddr w str i) w := by
  intro k below
  have read := present _ (char_offset_lt inside below)
  rwa [BitVec.ofNat_add, ← add_assoc] at read

end Characters

/-! ### The copy loop -/

/-- The character the loop puts down at position `i`: the text up to `len`, then NULs. -/
def padded (w : ℕ) (text : ℕ → List Byte) (len i : ℕ) : List Byte :=
  if i < len then text i else nul w

/-- The first `n` positions of a source as the loop sees them: `text` up to `len`, where there is
a NUL or nothing to read. -/
structure SourceText (w : ℕ) (u : U) (src : Addr) (text : ℕ → List Byte) (len n : ℕ) :
    Prop where
  chars : ∀ i < n, i < len → memRead u (charAddr w src i) w = some (text i) ∧ text i ≠ nul w
  stop : len < n → memRead u (charAddr w src len) w = none ∨
    memRead u (charAddr w src len) w = some (nul w)

section Loop

variable {w : ℕ} {u : U} {src dest : Addr} {text : ℕ → List Byte} {len n i : ℕ}

theorem SourceText.le_length {text' : ℕ → List Byte} {len' : ℕ}
    (source : SourceText w u src text len n) (source' : SourceText w u src text' len' n)
    (inside : len' ≤ n) : len' ≤ len := by
  by_contra longer
  have before : len < len' := Nat.not_le.mp longer
  obtain ⟨read, differs⟩ := source'.chars len (before.trans_le inside) before
  rcases source.stop (before.trans_le inside) with missing | ended
  · exact absurd (read.symm.trans missing) (Option.some_ne_none _)
  · exact differs (Option.some.inj (read.symm.trans ended))

/-- A source has one end. -/
theorem SourceText.length_unique {text' : ℕ → List Byte} {len' : ℕ}
    (source : SourceText w u src text len n) (source' : SourceText w u src text' len' n)
    (inside : len ≤ n) (inside' : len' ≤ n) : len = len' :=
  le_antisymm (source'.le_length source inside) (source.le_length source' inside')

theorem SourceText.length_padded (source : SourceText w u src text len n) (inside : i < n) :
    (padded w text len i).length = w := by
  rw [padded]
  split_ifs with before
  · exact length_of_memRead (source.chars i inside before).1
  · exact List.length_replicate

/-- Writing somewhere else does not change the source. -/
theorem SourceText.of_hostWrites (source : SourceText w u src text len n) {u' : U}
    {range : Set Addr} (writes : HostWrites range u u')
    (apart : Disjoint (Destination.mk src (min (len + 1) n * w)).addresses range) :
    SourceText w u' src text len n := by
  have same {k : ℕ} (inside : k < n) (before : k < len + 1) :
      memRead u' (charAddr w src k) w = memRead u (charAddr w src k) w :=
    writes.memRead_eq (apart.mono_left (char_addresses_subset (lt_min before inside)))
  refine ⟨fun k inside before => ?_, fun inside => ?_⟩
  · rw [same inside (before.trans (Nat.lt_succ_self len))]
    exact source.chars k inside before
  · rw [same inside (Nat.lt_succ_self len)]
    exact source.stop inside

/-- One round of the loop, which has met the end of the source or not. -/
theorem copyNLoop_succ (source : SourceText w u src text len n) (inside : i < n) (k : ℕ) :
    copyNLoop w src dest (k + 1) i (decide (len < i)) u =
      copyNLoop w src dest k (i + 1) (decide (len < i + 1))
        ((memWrite u (charAddr w dest i) (padded w text len i)).getD u) := by
  rw [copyNLoop, padded]
  -- Before the end of the source, at its end, and behind it.
  rcases lt_trichotomy i len with before | rfl | behind
  · obtain ⟨read, differs⟩ := source.chars i inside before
    have going : decide (len < i) = false := decide_eq_false (by omega)
    have going' : decide (len < i + 1) = false := decide_eq_false (by omega)
    simp only [going, going', read, if_neg differs, if_pos before, Bool.false_eq_true, if_false]
  · have stopped : decide (i < i + 1) = true := decide_eq_true (Nat.lt_succ_self i)
    rcases source.stop inside with missing | ended
    · simp only [stopped, missing, lt_irrefl, decide_false, Bool.false_eq_true, if_false]
    · simp only [stopped, ended, lt_irrefl, decide_false, Bool.false_eq_true, if_false, if_true]
  · have stopped : decide (len < i) = true := decide_eq_true behind
    have stopped' : decide (len < i + 1) = true := decide_eq_true (by omega)
    simp only [stopped, stopped', if_true, if_neg (by omega : ¬ i < len)]

/-- What the loop leaves in each of the `n` characters, from position `i` on. -/
theorem memRead_copyNLoop (room : n * w ≤ 2 ^ 64) (rounds : ℕ)
    (source : SourceText w u src text len n)
    (apart : Disjoint (Destination.mk src (min (len + 1) n * w)).addresses
      (Destination.mk dest (n * w)).addresses)
    (present : Mapped u dest (n * w)) (sum : i + rounds = n) :
    ∀ j < n, memRead (copyNLoop w src dest rounds i (decide (len < i)) u) (charAddr w dest j) w =
      if j < i then memRead u (charAddr w dest j) w else some (padded w text len j) := by
  induction rounds generalizing i u with
  | zero =>
    intro j inside
    rw [copyNLoop, if_pos (by omega)]
  | succ rounds ih =>
    intro j inside
    have here : i < n := by omega
    have length := source.length_padded here
    have writable : Mapped u (charAddr w dest i) (padded w text len i).length :=
      length.symm ▸ mapped_char present here
    have writes := (HostWrites.memWrite u (charAddr w dest i) (padded w text len i)).mono
      (char_subset u length here)
    have present' := (mapped_congr writes.mapped_eq dest (n * w)).mpr present
    have source' := source.of_hostWrites writes apart
    rw [copyNLoop_succ source here, ih source' present' (by omega) j inside,
      memWrite_of_mapped writable, Option.getD_some]
    -- This round writes character `i`; the others are left as they are or still to be written.
    rcases lt_trichotomy j i with before | rfl | behind
    · rw [if_pos (by omega), if_pos before]
      exact memRead_store_of_disjoint
        (length.symm ▸ char_disjoint room inside here (Nat.ne_of_lt before))
    · rw [if_pos (Nat.lt_succ_self j), if_neg (lt_irrefl j)]
      have short : w ≤ 2 ^ 64 := (Nat.le_mul_of_pos_left w (by omega)).trans room
      have written := memRead_store_self writable (length.symm ▸ short)
      rwa [length] at written
    · rw [if_neg (by omega), if_neg (by omega)]

end Loop

/-! ### The end of a source -/

/-- The length loop, behind `len` characters that are no NUL, stops at the end of the text. -/
theorem sourceText_scanLength_of_before {w : ℕ} {u : U} {src : Addr} (fuel : ℕ) {len : ℕ}
    (before : ∀ i < len, memRead u (charAddr w src i) w = some (bytesAt u (charAddr w src i) w) ∧
      bytesAt u (charAddr w src i) w ≠ nul w) :
    scanLength w u src fuel len ≤ len + fuel ∧
      SourceText w u src (fun i => bytesAt u (charAddr w src i) w) (scanLength w u src fuel len)
        (len + fuel) := by
  induction fuel generalizing len with
  | zero => exact ⟨le_refl len, fun i _ => before i, fun inside => absurd inside (lt_irrefl len)⟩
  | succ fuel ih =>
    rw [scanLength]
    cases read : memRead u (charAddr w src len) w with
    | none => exact ⟨Nat.le_add_right _ _, fun i _ => before i, fun _ => .inl read⟩
    | some ch =>
      dsimp only
      by_cases last : ch = nul w
      · rw [if_pos last]
        rw [last] at read
        exact ⟨Nat.le_add_right _ _, fun i _ => before i, fun _ => .inr read⟩
      · rw [if_neg last, ← Nat.add_assoc, Nat.add_right_comm]
        refine ih fun i inside => ?_
        rcases Nat.lt_succ_iff_lt_or_eq.mp inside with earlier | rfl
        · exact before i earlier
        · have bytes := bytesAt_of_memRead read
          exact ⟨bytes.symm ▸ read, bytes.symm ▸ last⟩

/-- Memory from `src` on is a source; its text ends where the length loop stops. -/
theorem sourceText_scanLength (w : ℕ) (u : U) (src : Addr) (n : ℕ) :
    scanLength w u src n 0 ≤ n ∧
      SourceText w u src (fun i => bytesAt u (charAddr w src i) w) (scanLength w u src n 0) n := by
  have scanned : scanLength w u src n 0 ≤ 0 + n ∧ SourceText w u src _ _ (0 + n) :=
    sourceText_scanLength_of_before n fun i inside => absurd inside (Nat.not_lt_zero i)
  rwa [Nat.zero_add] at scanned

/-! ### The bounded copies -/

/-- The stubs that copy up to a limit, with the bytes of a character. -/
def boundedCopies : List (Stub × ℕ) := [(.strncpy, 1), (.wcsncpy, 2)]

/-- The `n` characters at `dest` are those of the text up to `len` and NULs from there on, and
nothing else has changed. -/
structure BoundedCopy (w : ℕ) (u u' : U) (dest : Addr) (text : ℕ → List Byte) (len n : ℕ) :
    Prop where
  written : ∀ i < n, memRead u' (charAddr w dest i) w = some (padded w text len i)
  frame : ∀ x ∉ (Destination.mk dest (n * w)).addresses, guestByte u' x = guestByte u x

/-- A stub's result is left in a register and changes no memory. -/
theorem guestByte_writeRet (u : U) (value : BitVec 64) (x : Addr) :
    guestByte (writeRet u value) x = guestByte u x := by
  rw [guestByte, guestByte, writeRet, mapped_regWrite, byte_regWrite]

theorem memRead_writeRet (u : U) (value : BitVec 64) (a : Addr) (n : ℕ) :
    memRead (writeRet u value) a n = memRead u a n :=
  memRead_of_guestByte_eq (guestByte_writeRet u value) a n

/-- The text of the source is copied up to its end or the limit. -/
theorem stubCopyN_boundedCopy {w n : ℕ} {u : U} (heap : FakeHeap) {text : ℕ → List Byte}
    {len : ℕ} (width : w ≤ 2) (count : min (readArg u 2).toNat maxBuffer = n)
    (source : SourceText w u (readArg u 1) text len n)
    (present : Mapped u (readArg u 0) (n * w))
    (apart : Disjoint (Destination.mk (readArg u 1) (min (len + 1) n * w)).addresses
      (Destination.mk (readArg u 0) (n * w)).addresses) :
    ∃ u', stubCopyN u heap w = .ok (u', heap) ∧
      BoundedCopy w u u' (readArg u 0) text len n := by
  have limit : n ≤ maxBuffer := count ▸ Nat.min_le_right _ _
  have room : n * w ≤ 2 ^ 64 := (Nat.mul_le_mul limit width).trans (by decide)
  have ran : stubCopyN u heap w = .ok
      (writeRet (copyNLoop w (readArg u 1) (readArg u 0) n 0 false u) (readArg u 0), heap) := by
    simp only [stubCopyN, count]
  have writes := stubCopyN_hostWrites ran
  rw [Stub.destination.copyNDestination, count] at writes
  have loop := memRead_copyNLoop room n source apart present (Nat.zero_add n)
  refine ⟨_, ran, fun i inside => ?_, fun x => writes.guestByte_eq⟩
  rw [memRead_writeRet]
  exact (loop i inside).trans (if_neg (Nat.not_lt_zero i))

/-- Whatever the source, its readable characters in front of the first NUL are copied, as many
of them as the limit allows, and NULs are written from there up to the limit. -/
theorem boundedCopies_run [Host] {stub : Stub} {w : ℕ} (bounded : (stub, w) ∈ boundedCopies)
    (u : U) (heap : FakeHeap) {n : ℕ} (count : min (readArg u 2).toNat maxBuffer = n) :
    ∃ text len, len ≤ n ∧ SourceText w u (readArg u 1) text len n ∧
      (Mapped u (readArg u 0) (n * w) →
        Disjoint (Destination.mk (readArg u 1) (min (len + 1) n * w)).addresses
          (Destination.mk (readArg u 0) (n * w)).addresses →
        ∃ u', stub.run u heap = .ok (u', heap) ∧
          BoundedCopy w u u' (readArg u 0) text len n) := by
  have ran : stub.run u heap = stubCopyN u heap w ∧ w ≤ 2 := by
    simp only [boundedCopies, List.mem_cons, Prod.mk.injEq, List.not_mem_nil, or_false] at bounded
    rcases bounded with ⟨rfl, rfl⟩ | ⟨rfl, rfl⟩
    · exact ⟨rfl, by decide⟩
    · exact ⟨rfl, le_refl 2⟩
  obtain ⟨inside, source⟩ := sourceText_scanLength w u (readArg u 1) n
  refine ⟨_, _, inside, source, fun present apart => ?_⟩
  rw [ran.1]
  exact stubCopyN_boundedCopy heap ran.2 count source present apart

/-- A call with the string "AB" at 0x2000, the destination 0x2100 behind it and a limit. -/
def exampleCopy (n : BitVec 64) : Machine where
  reg
    | .rcx => 0x2100
    | .rdx => 0x2000
    | .r8 => n
    | _ => 0
  ymm _ := Buf.zero 32
  byte x := if x = 0x2000 then 0x41 else if x = 0x2001 then 0x42 else 0
  mappedPage p := p == 2

theorem exampleCopy_disjoint {m n : ℕ} (short : m ≤ 0x100) (short' : n ≤ 0x100) :
    Disjoint (Destination.mk 0x2000 m).addresses (Destination.mk 0x2100 n).addresses :=
  Destination.disjoint_of_le (Nat.add_le_add_left short 0x2000)
    ((Nat.add_le_add_left short' 0x2100).trans (by decide))

/-- A copy of "AB" with a limit of 4 characters. -/
theorem boundedCopies_run_four :
    ∃ u', Stub.strncpy.run (exampleCopy 4) .fresh = .ok (u', .fresh) ∧
      ∃ text len, len ≤ 4 ∧ SourceText 1 (exampleCopy 4) 0x2000 text len 4 ∧
        BoundedCopy 1 (exampleCopy 4) u' 0x2100 text len 4 := by
  have bounded : (Stub.strncpy, 1) ∈ boundedCopies := by decide
  obtain ⟨text, len, inside, source, copied⟩ :=
    boundedCopies_run bounded (exampleCopy 4) .fresh (n := 4) (by decide)
  have short : min (len + 1) 4 * 1 ≤ 0x100 := by omega
  obtain ⟨u', ran, left⟩ := copied (by decide) (exampleCopy_disjoint short (by decide))
  exact ⟨u', ran, text, len, inside, source, left⟩

/-! ### `lstrcpyn` -/

/-- A string of `len` characters at `src`, mapped as far as the first `n` characters go. -/
structure StringAt (w : ℕ) (u : U) (src : Addr) (len n : ℕ) : Prop where
  present : Mapped u src (min (len + 1) n * w)
  chars : ∀ i < len, bytesAt u (charAddr w src i) w ≠ nul w
  terminated : bytesAt u (charAddr w src len) w = nul w

theorem StringAt.sourceText {w : ℕ} {u : U} {src : Addr} {len n : ℕ}
    (string : StringAt w u src len n) :
    SourceText w u src (fun i => bytesAt u (charAddr w src i) w) len n where
  chars i inside before := by
    have within : i < min (len + 1) n := lt_min (before.trans (Nat.lt_succ_self len)) inside
    exact ⟨memRead_of_mapped (mapped_char string.present within), string.chars i before⟩
  stop inside := by
    have within : len < min (len + 1) n := lt_min (Nat.lt_succ_self len) inside
    rw [memRead_of_mapped (mapped_char string.present within), string.terminated]
    exact .inr rfl

/-- The imports bound to the bounded copies of kernel32, with the bytes of a character. -/
def lstrcpyn : List (String × ℕ) := [("lstrcpynA", 1), ("lstrcpynW", 2)]

/-- What a caller of `lstrcpyn` relies on: as many characters of the string as leave room for a
NUL, the NUL, and nothing behind the limit. -/
structure LstrcpynContract (w : ℕ) (u u' : U) (src dest : Addr) (len n : ℕ) : Prop where
  copied : ∀ i < min len (n - 1), ∃ ch, memRead u (charAddr w src i) w = some ch ∧
    memRead u' (charAddr w dest i) w = some ch
  terminated : memRead u' (charAddr w dest (min len (n - 1))) w = some (nul w)
  frame : ∀ x ∉ (Destination.mk dest (n * w)).addresses, guestByte u' x = guestByte u x

theorem tryDispatch_lstrcpyn [Host] {name : String} {w : ℕ} (api : (name, w) ∈ lstrcpyn) (u : U)
    (heap : FakeHeap) : (tryDispatch u name heap).2 = stubCopyN u heap w := by
  have narrow : resolveStub "lstrcpynA" = some .strncpy := by decide
  have wide : resolveStub "lstrcpynW" = some .wcsncpy := by decide
  simp only [lstrcpyn, List.mem_cons, Prod.mk.injEq, List.not_mem_nil, or_false] at api
  rcases api with ⟨rfl, rfl⟩ | ⟨rfl, rfl⟩
  · simp only [tryDispatch, narrow, Stub.run]
  · simp only [tryDispatch, wide, Stub.run]

/-- Padding with NULs meets the contract when there is any, that is when the string ends before
the limit. -/
theorem lstrcpynContract_iff {w : ℕ} {u u' : U} {src dest : Addr} {len n : ℕ} (positive : 1 ≤ n)
    (string : StringAt w u src len n)
    (after : ∀ j < n, memRead u' (charAddr w dest j) w =
      some (padded w (fun i => bytesAt u (charAddr w src i) w) len j))
    (frame : ∀ x ∉ (Destination.mk dest (n * w)).addresses, guestByte u' x = guestByte u x) :
    LstrcpynContract w u u' src dest len n ↔ len < n := by
  constructor
  · intro contract
    by_contra long
    -- The last character of the limit is one of the string.
    have last : min len (n - 1) = n - 1 := by omega
    have ended := contract.terminated
    rw [last, after (n - 1) (by omega), padded, if_pos (by omega)] at ended
    exact string.chars (n - 1) (by omega) (Option.some.inj ended)
  · intro short
    have all : min len (n - 1) = len := by omega
    refine ⟨fun i before => ?_, ?_, frame⟩
    · rw [all] at before
      have read := string.sourceText.chars i (before.trans short) before
      refine ⟨_, read.1, ?_⟩
      rw [after i (before.trans short), padded, if_pos before]
    · rw [all, after len short, padded, if_neg (lt_irrefl len)]

/-- Every string, whatever its length, is copied up to its end or the limit; the NUL the contract
promises is there exactly when the end comes first. -/
theorem lstrcpyn_iff [Host] {name : String} {w : ℕ} (api : (name, w) ∈ lstrcpyn) {u : U}
    (heap : FakeHeap) {len : ℕ} (positive : 1 ≤ (readArg u 2).toNat)
    (limit : (readArg u 2).toNat ≤ maxBuffer)
    (string : StringAt w u (readArg u 1) len (readArg u 2).toNat)
    (present : Mapped u (readArg u 0) ((readArg u 2).toNat * w))
    (apart : Disjoint
      (Destination.mk (readArg u 1) (min (len + 1) (readArg u 2).toNat * w)).addresses
      (Destination.mk (readArg u 0) ((readArg u 2).toNat * w)).addresses) :
    ∃ u', (tryDispatch u name heap).2 = .ok (u', heap) ∧
      (LstrcpynContract w u u' (readArg u 1) (readArg u 0) len (readArg u 2).toNat ↔
        len < (readArg u 2).toNat) := by
  have width : w ≤ 2 := by
    simp only [lstrcpyn, List.mem_cons, Prod.mk.injEq, List.not_mem_nil, or_false] at api
    omega
  obtain ⟨u', ran, copied⟩ := stubCopyN_boundedCopy heap width (Nat.min_eq_left limit)
    string.sourceText present apart
  exact ⟨u', (tryDispatch_lstrcpyn api u heap).trans ran,
    lstrcpynContract_iff positive string copied.written copied.frame⟩

/-- With a limit of 4 characters there is room for the NUL. -/
theorem lstrcpyn_iff_four :
    ∃ u', (tryDispatch (exampleCopy 4) "lstrcpynA" .fresh).2 = .ok (u', .fresh) ∧
      (LstrcpynContract 1 (exampleCopy 4) u' 0x2000 0x2100 2 4 ↔ 2 < 4) :=
  lstrcpyn_iff (w := 1) (by decide) .fresh (by decide) (by decide)
    ⟨by decide, by decide, by decide⟩ (by decide) (exampleCopy_disjoint (by decide) (by decide))

/-- With a limit of 2 characters there is none. -/
theorem not_lstrcpynContract_two :
    ¬ ∀ (u : Machine) (heap : FakeHeap) (name : String) (w len : ℕ), (name, w) ∈ lstrcpyn →
      1 ≤ (readArg u 2).toNat → (readArg u 2).toNat ≤ maxBuffer →
      StringAt w u (readArg u 1) len (readArg u 2).toNat →
      Mapped u (readArg u 1) ((len + 1) * w) →
      Mapped u (readArg u 0) ((readArg u 2).toNat * w) →
      Disjoint (Destination.mk (readArg u 1) ((len + 1) * w)).addresses
        (Destination.mk (readArg u 0) ((readArg u 2).toNat * w)).addresses →
      ∃ u', (tryDispatch u name heap).2 = .ok (u', heap) ∧
        LstrcpynContract w u u' (readArg u 1) (readArg u 0) len (readArg u 2).toNat := by
  intro always
  have api : ("lstrcpynA", 1) ∈ lstrcpyn := by decide
  obtain ⟨u', ran, contract⟩ := always (exampleCopy 2) .fresh "lstrcpynA" 1 2 api (by decide)
    (by decide) ⟨by decide, by decide, by decide⟩ (by decide) (by decide)
    (exampleCopy_disjoint (by decide) (by decide))
  rw [tryDispatch_lstrcpyn api] at ran
  cases ran
  exact absurd contract.terminated (by decide)

end Unxorer.ApiStubs
