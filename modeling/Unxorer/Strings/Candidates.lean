import Unxorer.Lib.FirstByKey
import Unxorer.Strings.Strings

/-!
# Candidates and found strings

A scan hands candidates to `push_string`, which escapes and trims them before they go into
the set of found strings. The scanner's alphabet has three characters that are not
printable; escaping removes them, so what is stored is printable.

## Main definitions

* `Strings.stored` — what is stored for a candidate
* `Candidate`, `Candidate.entry` — a call of `push_string` and the element it makes

## Main results

* `Strings.printable_stored`, `Strings.ends_trim` — what is stored is printable and trimmed
* `Strings.printable_scanFrom` — a scan yields candidates over the scanner's alphabet
-/

set_option autoImplicit false

namespace Unxorer

namespace Strings

/-- What `push_string` stores for a candidate, unless it is empty. -/
def stored (s : List Byte) : List Byte := trim (escapeControlChars s)

/-! ### Trimming -/

theorem mem_of_mem_trim {s : List Byte} {c : Byte} (member : c ∈ trim s) : c ∈ s := by
  rw [trim, List.mem_reverse] at member
  have inner := (List.dropWhile_sublist isTrimSpace).subset member
  rw [List.mem_reverse] at inner
  exact (List.dropWhile_sublist isTrimSpace).subset inner

/-- A list without its leading elements of a kind does not begin with one. -/
theorem head?_dropWhile_ne {p : Byte → Bool} {l : List Byte} {c : Byte}
    (first : (l.dropWhile p).head? = some c) : p c = false := by
  have all := List.head?_dropWhile_not p l
  rw [first] at all
  simpa using all

/-- A trimmed string neither begins nor ends with white space. -/
theorem ends_trim {s : List Byte} {c : Byte} :
    ((trim s).head? = some c → isTrimSpace c = false) ∧
      ((trim s).getLast? = some c → isTrimSpace c = false) := by
  constructor
  · intro first
    -- The front of the result is the front of what the first pass has left.
    have shorter : trim s <+: s.dropWhile isTrimSpace := by
      rw [trim, ← List.reverse_suffix, List.reverse_reverse]
      exact List.dropWhile_suffix isTrimSpace
    obtain ⟨rest, whole⟩ := shorter
    apply head?_dropWhile_ne (l := s)
    rw [← whole, List.head?_append, first, Option.some_or]
  · intro last
    rw [trim, List.getLast?_reverse] at last
    exact head?_dropWhile_ne last

/-! ### The alphabet -/

/-- The characters of stored strings. -/
def IsPrintable (c : Byte) : Prop := 0x20 ≤ c ∧ c ≤ 0x7E

instance (c : Byte) : Decidable (IsPrintable c) := inferInstanceAs (Decidable (_ ∧ _))

/-- Escaping a character of the scanner's alphabet makes printable characters. -/
theorem printable_escapeChar {c d : Byte} (alphabet : isAsciiPrintable c = true)
    (member : d ∈ escapeChar c) : IsPrintable d := by
  have pair {letter : Byte} (printable : IsPrintable letter) (inside : d ∈ [0x5C, letter]) :
      IsPrintable d := by
    rcases List.mem_cons.mp inside with rfl | inside
    · decide
    · rwa [List.mem_singleton.mp inside]
  rw [escapeChar] at member
  split_ifs at member with newline return_ tab
  · exact pair (by decide) member
  · exact pair (by decide) member
  · exact pair (by decide) member
  · exact pair (by decide) member
  · exact pair (by decide) member
  · exact pair (by decide) member
  · exact pair (by decide) member
  · -- The three control characters of the alphabet have been escaped.
    rw [List.mem_singleton.mp member]
    simp only [isAsciiPrintable, Bool.or_eq_true, Bool.and_eq_true, decide_eq_true_eq,
      beq_iff_eq] at alphabet
    rcases alphabet with ((printable | same) | same) | same
    · exact printable
    · exact absurd same tab
    · exact absurd same newline
    · exact absurd same return_

/-- What is stored for a candidate over the scanner's alphabet is printable. -/
theorem printable_stored {s : List Byte} (alphabet : ∀ c ∈ s, isAsciiPrintable c = true)
    {d : Byte} (member : d ∈ stored s) : IsPrintable d := by
  have escaped := mem_of_mem_trim member
  rw [escapeControlChars, List.mem_flatMap] at escaped
  obtain ⟨c, inside, made⟩ := escaped
  exact printable_escapeChar (alphabet c inside) made

theorem toNat_readU16le (lo hi : Byte) : (readU16le lo hi).toNat = hi.toNat * 256 + lo.toNat := by
  rw [readU16le, BitVec.toNat_append, ← Nat.shiftLeft_add_eq_or_of_lt lo.isLt, Nat.shiftLeft_eq]

/-- A printable code unit is a printable byte with a zero above it. -/
theorem bytes_of_isUtf16Printable {lo hi : Byte}
    (wide : isUtf16Printable (readU16le lo hi) = true) :
    isAsciiPrintable lo = true ∧ hi = 0 := by
  have bound := lo.isLt
  simp only [isUtf16Printable, isAsciiPrintable, Bool.or_eq_true, Bool.and_eq_true,
    decide_eq_true_eq, beq_iff_eq, BitVec.le_def, ← BitVec.toNat_inj, BitVec.reduceToNat,
    BitVec.ofNat_eq_ofNat, toNat_readU16le] at wide ⊢
  omega

/-- The low bytes of a run of printable code units belong to the scanner's alphabet. -/
theorem printable_utf16leToAscii (l : List Byte) {chars : ℕ} (run : 2 * chars ≤ utf16Run l) :
    ∀ c ∈ utf16leToAscii l chars, isAsciiPrintable c = true := by
  induction chars generalizing l with
  | zero =>
    intro c member
    match l with
    | [] | [_] | _ :: _ :: _ => exact absurd member List.not_mem_nil
  | succ chars ih =>
    match l with
    | [] | [_] =>
      intro c member
      exact absurd member List.not_mem_nil
    | lo :: hi :: rest =>
      rw [utf16Run] at run
      split_ifs at run with printable
      · intro c member
        rcases List.mem_cons.mp member with rfl | later
        · exact (bytes_of_isUtf16Printable printable).1
        · exact ih rest (by omega) c later
      · omega

/-- Every candidate of a scan is over the scanner's alphabet. -/
theorem printable_scanFrom (i : ℕ) (rest : List Byte) :
    ∀ c ∈ scanFrom i rest, ∀ b ∈ c.2, isAsciiPrintable b = true := by
  induction i, rest using scanFrom.induct with
  | case1 i =>
    intro c member
    rw [scanFrom] at member
    exact absurd member List.not_mem_nil
  | case2 i c tail ascii run ih =>
    intro found member b inside
    rw [scanFrom, if_pos ascii] at member
    rcases List.mem_append.mp member with here | later
    · split_ifs at here
      · rw [List.mem_singleton.mp here] at inside
        exact List.mem_takeWhile_imp inside
      · exact absurd here List.not_mem_nil
    · exact ih found later b inside
  | case3 i c tail ascii wide n ih =>
    intro found member b inside
    rw [scanFrom, if_neg ascii, if_pos wide] at member
    rcases List.mem_append.mp member with here | later
    · split_ifs at here
      · rw [List.mem_singleton.mp here] at inside
        exact printable_utf16leToAscii (c :: tail) (Nat.mul_div_le _ _) b inside
      · exact absurd here List.not_mem_nil
    · exact ih found later b inside
  | case4 i c tail ascii wide ih =>
    intro found member
    rw [scanFrom, if_neg ascii, if_neg wide] at member
    exact ih found member

end Strings

/-- A call of `push_string`. -/
structure Candidate where
  rip : Addr
  ptr : Addr
  bytes : List Byte
deriving DecidableEq

namespace Candidate

/-- The element that goes into the set of found strings for a candidate. -/
def entry (c : Candidate) : Option FoundString :=
  if Strings.stored c.bytes = [] then none
  else some ⟨c.rip, c.ptr, Strings.hashString (Strings.stored c.bytes), Strings.stored c.bytes⟩

/-- An element is made by a candidate exactly if it has the candidate's string, which is not
empty, together with its addresses and the hash. -/
theorem entry_eq_some_iff {c : Candidate} {s : FoundString} :
    c.entry = some s ↔ s.data ≠ [] ∧ Strings.stored c.bytes = s.data ∧ s.rip = c.rip ∧
      s.ptr = c.ptr ∧ s.hash = Strings.hashString s.data := by
  rw [entry]
  constructor
  · intro made
    split_ifs at made with empty
    cases made
    exact ⟨empty, rfl, rfl, rfl, rfl⟩
  · rintro ⟨nonempty, data, rip, ptr, hash⟩
    rw [data, if_neg nonempty, ← rip, ← ptr, ← hash]

end Candidate

end Unxorer
