import Unxorer.Stubs.BoundedCopies

/-!
# Copies of whole strings

`strcpy`, `strcat` and `strlen` work on strings that end with a NUL, and so do their wide
variants. A copy loop tests a character after it has written it, so the NUL of the source is the
last character it writes.

## Main definitions

* `ApiStubs.CString` — a string in guest memory
* `ApiStubs.StringFunctions` — the three stubs of one width of characters
* `ApiStubs.LeavesString` — what a call leaves behind

## Main results

* `ApiStubs.CString.copyLoop_eq` — the copy of a string is a bounded copy up to its NUL
* `ApiStubs.stringFunctions_run` — copies, concatenations and their lengths
-/

set_option autoImplicit false

namespace Unxorer.ApiStubs

open Unicorn

variable {U : Type} [Unicorn U]

/-! ### Strings -/

/-- The range of a string of `n` characters, its NUL included. -/
def stringRange (w : ℕ) (str : Addr) (n : ℕ) : Destination := ⟨str, (n + 1) * w⟩

/-- Guest memory holds the characters `s` and a NUL behind them from `str` on. -/
structure CString (w : ℕ) (u : U) (str : Addr) (s : List (List Byte)) : Prop where
  image : ∀ i < s.length + 1, memRead u (charAddr w str i) w = (s ++ [nul w])[i]?
  nonzero : nul w ∉ s

omit [Unicorn U] in
theorem charAddr_add (w : ℕ) (str : Addr) (m n : ℕ) :
    charAddr w str (m + n) = charAddr w (charAddr w str m) n := by
  simp only [charAddr, Nat.add_mul, BitVec.ofNat_add, add_assoc]

namespace CString

variable {w : ℕ} {u u' : U} {str src dest : Addr} {s d : List (List Byte)} {i : ℕ}

theorem char (string : CString w u str s) (inside : i < s.length) :
    memRead u (charAddr w str i) w = some s[i] ∧ s[i] ≠ nul w := by
  constructor
  · rw [string.image i (Nat.lt_succ_of_lt inside), List.getElem?_append_left inside,
      List.getElem?_eq_getElem inside]
  · intro zero
    exact string.nonzero (zero ▸ List.getElem_mem inside)

theorem ended (string : CString w u str s) :
    memRead u (charAddr w str s.length) w = some (nul w) := by
  rw [string.image s.length (Nat.lt_succ_self _), List.getElem?_concat_length]

/-- A string is still there after a write to other addresses. -/
theorem of_hostWrites (string : CString w u str s) {range : Set Addr}
    (writes : HostWrites range u u')
    (apart : Disjoint (stringRange w str s.length).addresses range) : CString w u' str s where
  image i inside :=
    (writes.memRead_eq (apart.mono_left (char_addresses_subset inside))).trans
      (string.image i inside)
  nonzero := string.nonzero

theorem congr (string : CString w u str s) (same : ∀ x, guestByte u' x = guestByte u x) :
    CString w u' str s where
  image i inside := (memRead_of_guestByte_eq same _ _).trans (string.image i inside)
  nonzero := string.nonzero

/-- A string is a source that ends at its NUL, whatever the limit. -/
theorem sourceText (string : CString w u str s) (n : ℕ) :
    SourceText w u str (fun i => s.getD i (nul w)) s.length n where
  chars i _ before := by
    rw [List.getD_eq_getElem _ _ before]
    exact string.char before
  stop _ := .inr string.ended

/-- The length loop counts the characters of a string. -/
theorem scanLength_eq (string : CString w u str s) {fuel : ℕ} (short : s.length ≤ fuel) :
    scanLength w u str fuel 0 = s.length := by
  obtain ⟨inside, source⟩ := sourceText_scanLength w u str fuel
  exact source.length_unique (string.sourceText fuel) inside short

/-! ### Copies -/

/-- The copy of a string is the bounded copy of its remaining characters and its NUL, however
many rounds would be left. -/
theorem copyLoop_eq (apart : Disjoint (stringRange w src s.length).addresses
      (stringRange w dest s.length).addresses) (spare rounds : ℕ)
    (string : CString w u src s) (sum : i + rounds = s.length) :
    copyLoop w src dest (spare + rounds + 1) i u =
      (copyNLoop w src dest (rounds + 1) i false u, s.length + 1) := by
  induction rounds generalizing i u with
  | zero =>
    obtain rfl : i = s.length := sum
    simp only [copyLoop, copyNLoop, string.ended, Bool.false_eq_true, if_false, if_true]
  | succ rounds ih =>
    have here : i < s.length := by omega
    obtain ⟨read, differs⟩ := string.char here
    have writes := (HostWrites.memWrite u (charAddr w dest i) s[i]).mono
      (char_subset u (length_of_memRead read) (Nat.lt_succ_of_lt here))
    rw [copyLoop, copyNLoop]
    simp only [read, if_neg differs, Bool.false_eq_true, if_false]
    -- What this round has written is not part of the source.
    exact ih (string.of_hostWrites writes apart) (by omega)

/-- The copy is the same string, and nothing else has changed. -/
theorem copied (string : CString w u src s) (room : (s.length + 1) * w ≤ 2 ^ 64)
    (present : Mapped u dest ((s.length + 1) * w))
    (apart : Disjoint (stringRange w src s.length).addresses
      (stringRange w dest s.length).addresses) {fuel : ℕ} (enough : s.length < fuel) :
    CString w (copyLoop w src dest fuel 0 u).1 dest s ∧
      HostWrites (stringRange w dest s.length).addresses u (copyLoop w src dest fuel 0 u).1 := by
  obtain ⟨spare, rfl⟩ : ∃ spare, fuel = spare + s.length + 1 := ⟨fuel - (s.length + 1), by omega⟩
  rw [copyLoop_eq apart spare s.length string (Nat.zero_add _)]
  have apart' : Disjoint
      (Destination.mk src (min (s.length + 1) (s.length + 1) * w)).addresses
      (Destination.mk dest ((s.length + 1) * w)).addresses := by
    rwa [Nat.min_self]
  have loop := memRead_copyNLoop room (s.length + 1) (string.sourceText _) apart' present
    (Nat.zero_add _)
  have writes := copyNLoop_hostWrites w src dest (s.length + 1) 0 false u
  rw [Nat.zero_add] at writes
  refine ⟨⟨fun i inside => ?_, string.nonzero⟩, writes⟩
  refine ((loop i inside).trans (if_neg (Nat.not_lt_zero i))).trans ?_
  rw [padded]
  split_ifs with before
  · rw [List.getElem?_append_left before, List.getElem?_eq_getElem before,
      List.getD_eq_getElem _ _ before]
  · obtain rfl : i = s.length := by omega
    rw [List.getElem?_concat_length]

/-- A string whose NUL is replaced by another string goes on with that one. -/
theorem append (first : CString w u dest d)
    (room : (d.length + (s.length + 1)) * w ≤ 2 ^ 64)
    (writes : HostWrites (stringRange w (charAddr w dest d.length) s.length).addresses u u')
    (second : CString w u' (charAddr w dest d.length) s) : CString w u' dest (d ++ s) where
  image i inside := by
    rw [List.append_assoc]
    rcases Nat.lt_or_ge i d.length with before | behind
    · have next : i * w + w ≤ d.length * w :=
        Nat.succ_mul i w ▸ Nat.mul_le_mul_right w before
      rw [Nat.add_mul] at room
      have apart : Disjoint (Destination.mk (charAddr w dest i) w).addresses
          (stringRange w (charAddr w dest d.length) s.length).addresses :=
        Destination.disjoint_of_offsets next room
      rw [writes.memRead_eq apart, first.image i (Nat.lt_succ_of_lt before),
        List.getElem?_append_left before, List.getElem?_append_left before]
    · obtain ⟨j, rfl⟩ := Nat.exists_eq_add_of_le behind
      rw [List.length_append] at inside
      rw [charAddr_add, second.image j (by omega),
        List.getElem?_append_right (Nat.le_add_right _ _), Nat.add_sub_cancel_left]
  nonzero member := (List.mem_append.mp member).elim first.nonzero second.nonzero

end CString

/-! ### The string functions -/

/-- The stubs for the strings of one width of characters. -/
structure StringFunctions where
  length : Stub
  copy : Stub
  concat : Stub
  width : ℕ

def narrow : StringFunctions := ⟨.strlen, .strcpy, .strcat, 1⟩

def wide : StringFunctions := ⟨.wcslen, .wcscpy, .wcscat, 2⟩

def stringFunctions : List StringFunctions := [narrow, wide]

/-- A call on `u` has left the string `s` at `dest` and has changed no memory but `range`. It
returns `dest`, and whoever asks for the length of `dest` as long as memory stays like this gets
the length of `s`. -/
structure LeavesString [Host] (f : StringFunctions) (u u' : U) (dest : Addr)
    (s : List (List Byte)) (range : Destination) : Prop where
  string : CString f.width u' dest s
  returned : reg u' .rax = dest
  frame : ∀ x ∉ range.addresses, guestByte u' x = guestByte u x
  measured : ∀ (v : U) (heap : FakeHeap), (∀ x, guestByte v x = guestByte u' x) →
    readArg v 0 = dest → ∃ v', f.length.run v heap = .ok (v', heap) ∧
      reg v' .rax = BitVec.ofNat 64 s.length ∧ ∀ x, guestByte v' x = guestByte v x

section StringFunctions

variable [Host] {f : StringFunctions}

theorem run_stringFunctions (known : f ∈ stringFunctions) (u : U) (heap : FakeHeap) :
    f.length.run u heap = stubLength u heap f.width ∧
      f.copy.run u heap = stubCopy u heap f.width ∧
        f.concat.run u heap = stubConcat u heap f.width := by
  simp only [stringFunctions, List.mem_cons, List.not_mem_nil, or_false] at known
  rcases known with rfl | rfl
  · exact ⟨rfl, rfl, rfl⟩
  · exact ⟨rfl, rfl, rfl⟩

omit [Host] in
theorem room_of_lt_maxBuffer (known : f ∈ stringFunctions) {n : ℕ} (short : n < maxBuffer) :
    (n + 1) * f.width ≤ 2 ^ 64 := by
  have width : f.width ≤ 2 := by
    simp only [stringFunctions, List.mem_cons, List.not_mem_nil, or_false] at known
    rcases known with rfl | rfl <;> decide
  exact (Nat.mul_le_mul short width).trans (by decide)

/-- A call that has written a string ends with its address in RAX. -/
theorem leavesString_writeRet (known : f ∈ stringFunctions) {u u' : U} {dest : Addr}
    {s : List (List Byte)} {range : Destination} (string : CString f.width u' dest s)
    (short : s.length < maxBuffer) (writes : HostWrites range.addresses u u') :
    LeavesString f u (writeRet u' dest) dest s range where
  string := string.congr (guestByte_writeRet u' dest)
  returned := rax_writeRet u' dest
  frame x outside := (writes.regWrite .rax dest).guestByte_eq outside
  measured v heap same argument := by
    have there : CString f.width v dest s :=
      string.congr fun x => (same x).trans (guestByte_writeRet u' dest x)
    refine ⟨_, (run_stringFunctions known v heap).1, ?_, guestByte_writeRet v _⟩
    rw [rax_writeRet, argument, there.scanLength_eq (Nat.le_of_lt short)]

/-- A string whose copy or concatenation is shorter than the limit is copied, or appended, with
its NUL. -/
theorem stringFunctions_run (known : f ∈ stringFunctions) {u : U} (heap : FakeHeap)
    {s : List (List Byte)} (source : CString f.width u (readArg u 1) s) :
    (s.length < maxBuffer →
      Mapped u (readArg u 0) ((s.length + 1) * f.width) →
      Disjoint (stringRange f.width (readArg u 1) s.length).addresses
        (stringRange f.width (readArg u 0) s.length).addresses →
      ∃ u', f.copy.run u heap = .ok (u', heap) ∧
        LeavesString f u u' (readArg u 0) s (stringRange f.width (readArg u 0) s.length)) ∧
    ∀ d : List (List Byte), CString f.width u (readArg u 0) d →
      d.length + s.length < maxBuffer →
      Mapped u (charAddr f.width (readArg u 0) d.length) ((s.length + 1) * f.width) →
      Disjoint (stringRange f.width (readArg u 1) s.length).addresses
        (stringRange f.width (charAddr f.width (readArg u 0) d.length) s.length).addresses →
      ∃ u', f.concat.run u heap = .ok (u', heap) ∧
        LeavesString f u u' (readArg u 0) (d ++ s)
          (stringRange f.width (charAddr f.width (readArg u 0) d.length) s.length) := by
  obtain ⟨-, copies, concats⟩ := run_stringFunctions known u heap
  constructor
  · intro short present apart
    have room := room_of_lt_maxBuffer known short
    obtain ⟨string, writes⟩ := source.copied room present apart short
    exact ⟨_, copies, leavesString_writeRet known string short writes⟩
  · intro d first short present apart
    have room := room_of_lt_maxBuffer known short
    have room' : (s.length + 1) * f.width ≤ 2 ^ 64 :=
      (Nat.mul_le_mul_right _ (by omega)).trans room
    have rest : s.length < maxBuffer - d.length := by omega
    obtain ⟨second, writes⟩ := source.copied room' present apart rest
    have string := first.append room writes second
    have short' : (d ++ s).length < maxBuffer := by rwa [List.length_append]
    rw [stubConcat, first.scanLength_eq (by omega)] at concats
    exact ⟨_, concats, leavesString_writeRet known string short' writes⟩

end StringFunctions

/-- A call with the string "AB" at 0x2000 and the destination 0x2100, where there is a "C". -/
def exampleStrings : Machine where
  reg
    | .rcx => 0x2100
    | .rdx => 0x2000
    | _ => 0
  ymm _ := Buf.zero 32
  byte x :=
    if x = 0x2000 then 0x41 else if x = 0x2001 then 0x42 else if x = 0x2100 then 0x43 else 0
  mappedPage p := p == 2

theorem stringFunctions_run_narrow :
    (∃ u', Stub.strcpy.run exampleStrings .fresh = .ok (u', .fresh) ∧
      LeavesString narrow exampleStrings u' 0x2100 [[0x41], [0x42]] (stringRange 1 0x2100 2)) ∧
    ∃ u', Stub.strcat.run exampleStrings .fresh = .ok (u', .fresh) ∧
      LeavesString narrow exampleStrings u' 0x2100 [[0x43], [0x41], [0x42]]
        (stringRange 1 0x2101 2) := by
  have known : narrow ∈ stringFunctions := List.mem_cons_self
  have source : CString narrow.width exampleStrings (readArg exampleStrings 1)
      [[0x41], [0x42]] := ⟨by decide, by decide⟩
  have first : CString narrow.width exampleStrings (readArg exampleStrings 0) [[0x43]] :=
    ⟨by decide, by decide⟩
  obtain ⟨copied, appended⟩ := stringFunctions_run known .fresh source
  have apart (b : Addr) (behind : 0x2003 ≤ b.toNat) (bounded : b.toNat + 3 ≤ 2 ^ 64) :
      Disjoint (stringRange 1 0x2000 2).addresses (stringRange 1 b 2).addresses :=
    Destination.disjoint_of_le behind bounded
  exact ⟨copied (by decide) (by decide) (apart _ (by decide) (by decide)),
    appended _ first (by decide) (by decide) (apart _ (by decide) (by decide))⟩

end Unxorer.ApiStubs
