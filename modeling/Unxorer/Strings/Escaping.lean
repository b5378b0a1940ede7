import Unxorer.Emulator.FoundStrings
import Unxorer.Lib.Escapes

/-!
# Strings that are stored alike

What is stored of a candidate is its escaped text, and the set of found strings goes by what is
stored. The backslash that marks a control character is not escaped itself, so a candidate with a
control character and one with a backslash and a letter can be stored alike; the set keeps the
first of them only.

## Main definitions

* `Strings.controlChars` — the escaping of `escape_control_chars`
* `Strings.IsCandidate` — a candidate that trimming leaves alone
* `RecordedApart` — two candidates have left two entries

## Main results

* `recordedApart_iff` — the candidates that leave two entries
-/

set_option autoImplicit false

namespace Unxorer

namespace Strings

/-! ### The escaping -/

/-- The control characters `escape_control_chars` knows, with their letters. -/
def letters : List (Byte × Byte) :=
  [(0x0A, 0x6E), (0x0D, 0x72), (0x09, 0x74), (0x0B, 0x76), (0x0C, 0x66), (0x07, 0x61), (0x08, 0x62)]

theorem mem_letters {c l : Byte} (known : letters.lookup c = some l) : (c, l) ∈ letters := by
  obtain ⟨front, back, same, -⟩ := List.lookup_eq_some_iff.mp known
  rw [same]
  exact List.mem_append_right front List.mem_cons_self

/-- A letter belongs to one control character, and is neither one itself nor the backslash. -/
theorem lookup_letters : ∀ p ∈ letters,
    (letters.map Prod.swap).lookup p.2 = some p.1 ∧ letters.lookup p.2 = none ∧ p.2 ≠ 0x5C := by
  rw [← List.forall_iff_forall_mem]
  decide

def controlChars : Escapes.Scheme Byte where
  mark := 0x5C
  letter c := letters.lookup c
  injective c d l first second := by
    have back := (lookup_letters _ (mem_letters first)).1
    exact Option.some.inj (back.symm.trans (lookup_letters _ (mem_letters second)).1)
  plain_mark := by decide
  plain_letter c l known := (lookup_letters _ (mem_letters known)).2.1
  letter_ne_mark c l known := (lookup_letters _ (mem_letters known)).2.2

theorem escapeChar_letters : ∀ p ∈ letters, escapeChar p.1 = [0x5C, p.2] := by
  rw [← List.forall_iff_forall_mem]
  decide

/-- The comparisons of the source are a lookup among the letters. -/
theorem escapeChar_eq (c : Byte) : escapeChar c = controlChars.escape c := by
  simp only [Escapes.Scheme.escape, controlChars]
  cases known : letters.lookup c with
  | some l => exact escapeChar_letters _ (mem_letters known)
  | none =>
    have differs := List.lookup_eq_none_iff.mp known
    simp only [letters, List.forall_mem_cons, bne_iff_ne] at differs
    obtain ⟨lf, cr, tab, vt, ff, bel, bs, -⟩ := differs
    simp only [escapeChar, if_neg lf, if_neg cr, if_neg tab, if_neg vt, if_neg ff, if_neg bel,
      if_neg bs]

theorem escapeControlChars_eq (s : List Byte) : escapeControlChars s = controlChars.encode s :=
  congrArg s.flatMap (funext escapeChar_eq)

/-! ### Candidates that are not trimmed -/

/-- A string over the scanner's alphabet that neither begins nor ends with a space. -/
structure IsCandidate (s : List Byte) : Prop where
  nonempty : s ≠ []
  alphabet : ∀ c ∈ s, isAsciiPrintable c = true
  first : s.head? ≠ some 0x20
  last : s.getLast? ≠ some 0x20

theorem isTrimSpace_letters : ∀ p ∈ letters, isTrimSpace p.2 = false := by
  rw [← List.forall_iff_forall_mem]
  decide

/-- White space other than the space is escaped to what is no white space. -/
theorem isTrimSpace_escapeChar {c d : Byte} (black : c ≠ 0x20) (member : d ∈ escapeChar c) :
    isTrimSpace d = false := by
  rw [escapeChar_eq] at member
  simp only [Escapes.Scheme.escape, controlChars] at member
  cases known : letters.lookup c with
  | some l =>
    rw [known] at member
    rcases List.mem_cons.mp member with rfl | member
    · decide
    · rw [List.mem_singleton.mp member]
      exact isTrimSpace_letters _ (mem_letters known)
  | none =>
    rw [known] at member
    rw [List.mem_singleton.mp member, Bool.eq_false_iff]
    intro space
    simp only [isTrimSpace, List.elem_eq_mem, decide_eq_true_eq, List.mem_cons,
      List.not_mem_nil, or_false] at space
    rcases space with rfl | rfl | rfl | rfl | rfl | rfl
    · exact black rfl
    all_goals exact absurd known (by decide)

theorem dropWhile_eq_self {s : List Byte} {p : Byte → Bool} (first : ∀ c ∈ s.head?, p c = false) :
    s.dropWhile p = s := by
  cases s with
  | nil => rfl
  | cons c s => rw [List.dropWhile_cons, first c rfl, if_neg Bool.false_ne_true]

/-- Nothing is trimmed off a string that neither begins nor ends with white space. -/
theorem trim_eq_self {s : List Byte} (first : ∀ c ∈ s.head?, isTrimSpace c = false)
    (last : ∀ c ∈ s.getLast?, isTrimSpace c = false) : trim s = s := by
  have ends : ∀ c ∈ s.reverse.head?, isTrimSpace c = false := by
    rwa [List.head?_reverse]
  rw [trim, dropWhile_eq_self first, dropWhile_eq_self ends, List.reverse_reverse]

theorem escapeChar_ne_nil (c : Byte) : escapeChar c ≠ [] := by
  rw [escapeChar_eq, Escapes.Scheme.escape]
  split <;> exact List.cons_ne_nil _ _

/-- A candidate is stored as it is escaped. -/
theorem IsCandidate.stored_eq {s : List Byte} (candidate : IsCandidate s) :
    stored s = escapeControlChars s := by
  refine trim_eq_self (fun d front => ?_) fun d back => ?_
  · obtain ⟨c, rest, rfl⟩ := List.exists_cons_of_ne_nil candidate.nonempty
    have ne : c ≠ 0x20 := fun space => candidate.first (congrArg some space)
    rw [escapeControlChars, List.flatMap_cons,
      List.head?_append_of_ne_nil _ (escapeChar_ne_nil c)] at front
    exact isTrimSpace_escapeChar ne (List.mem_of_mem_head? front)
  · obtain ⟨rest, c, rfl⟩ := List.eq_nil_or_concat' s |>.resolve_left candidate.nonempty
    have ne : c ≠ 0x20 := fun space => candidate.last (by rw [List.getLast?_concat, space])
    rw [escapeControlChars, List.flatMap_append, List.flatMap_singleton,
      List.getLast?_append_of_ne_nil _ (escapeChar_ne_nil c)] at back
    exact isTrimSpace_escapeChar ne (List.mem_of_getLast? back)

/-- Two candidates are stored alike exactly if they differ in the spelling of control
characters. -/
theorem IsCandidate.stored_eq_iff {s t : List Byte} (first : IsCandidate s)
    (second : IsCandidate t) : stored s = stored t ↔ controlChars.Alike s t := by
  rw [first.stored_eq, second.stored_eq, escapeControlChars_eq, escapeControlChars_eq,
    Escapes.Scheme.encode_eq_iff]

theorem IsCandidate.stored_ne_nil {s : List Byte} (candidate : IsCandidate s) :
    stored s ≠ [] := by
  rw [candidate.stored_eq, escapeControlChars_eq]
  exact fun empty => candidate.nonempty (Escapes.Scheme.encode_eq_nil empty)

end Strings

/-! ### Entries -/

/-- Both strings are among the found ones, each with an entry of its own. -/
def RecordedApart (found : List FoundString) (s t : List Byte) : Prop :=
  ∃ x ∈ found, ∃ y ∈ found, x.data = Strings.stored s ∧ y.data = Strings.stored t ∧ x ≠ y

/-- The entry a candidate has left. -/
theorem exists_recorded {cs : List Candidate} {c : Candidate} (member : c ∈ cs)
    (candidate : Strings.IsCandidate c.bytes) :
    ∃ x ∈ pushAll cs [], x.data = Strings.stored c.bytes := by
  have entry : c.entry = some ⟨c.rip, c.ptr, Strings.hashString (Strings.stored c.bytes),
      Strings.stored c.bytes⟩ := if_neg candidate.stored_ne_nil
  have complete := (collects_pushAll cs).complete _ (List.mem_filterMap.mpr ⟨c, member, entry⟩)
  exact List.mem_map.mp complete

/-- Two entries with the same text are the same entry. -/
theorem recordedApart_pushAll_iff {cs : List Candidate} {c d : Candidate} (first : c ∈ cs)
    (second : d ∈ cs) (candidate : Strings.IsCandidate c.bytes)
    (candidate' : Strings.IsCandidate d.bytes) :
    RecordedApart (pushAll cs []) c.bytes d.bytes ↔
      Strings.stored c.bytes ≠ Strings.stored d.bytes := by
  constructor
  · rintro ⟨x, inside, y, inside', data, data', differ⟩ same
    have equal := List.inj_on_of_nodup_map (collects_pushAll cs).nodup inside inside'
      (data.trans (same.trans data'.symm))
    exact differ equal
  · intro differ
    obtain ⟨x, inside, data⟩ := exists_recorded first candidate
    obtain ⟨y, inside', data'⟩ := exists_recorded second candidate'
    refine ⟨x, inside, y, inside', data, data', ?_⟩
    rintro rfl
    exact differ (data.symm.trans data')

/-- After any sequence of candidates two of them have entries of their own, unless they differ
only in that one has a control character where the other has a backslash and its letter. -/
theorem recordedApart_iff {cs : List Candidate} {c d : Candidate} (first : c ∈ cs)
    (second : d ∈ cs) (candidate : Strings.IsCandidate c.bytes)
    (candidate' : Strings.IsCandidate d.bytes) :
    RecordedApart (pushAll cs []) c.bytes d.bytes ↔
      ¬ Strings.controlChars.Alike c.bytes d.bytes := by
  rw [recordedApart_pushAll_iff first second candidate candidate', ne_eq,
    candidate.stored_eq_iff candidate']

/-! ### Two strings -/

namespace Example

/-- The characters `ab`, a newline and `cd`. -/
def withNewline : Candidate := ⟨0x140001000, 0x2000, [0x61, 0x62, 0x0A, 0x63, 0x64]⟩

/-- The characters `ab`, a backslash and `ncd`. -/
def withBackslash : Candidate := ⟨0x140001000, 0x3000, [0x61, 0x62, 0x5C, 0x6E, 0x63, 0x64]⟩

/-- The characters `ab`, a tab and `cd`. -/
def withTab : Candidate := ⟨0x140001000, 0x4000, [0x61, 0x62, 0x09, 0x63, 0x64]⟩

theorem isCandidate_withNewline : Strings.IsCandidate withNewline.bytes :=
  ⟨by decide, by decide, by decide, by decide⟩

end Example

theorem recordedApart_iff_tab :
    RecordedApart (pushAll [Example.withNewline, Example.withTab] []) Example.withNewline.bytes
        Example.withTab.bytes ↔
      ¬ Strings.controlChars.Alike Example.withNewline.bytes Example.withTab.bytes :=
  recordedApart_iff (by decide) (by decide) Example.isCandidate_withNewline
    ⟨by decide, by decide, by decide, by decide⟩

/-- The backslash and the `n` of one string are taken for the newline of the other. -/
theorem not_recordedApart_backslash : ¬ ∀ (cs : List Candidate) (c d : Candidate), c ∈ cs →
    d ∈ cs → Strings.IsCandidate c.bytes → Strings.IsCandidate d.bytes → c.bytes ≠ d.bytes →
      RecordedApart (pushAll cs []) c.bytes d.bytes := by
  intro always
  have first : Example.withNewline ∈ [Example.withNewline, Example.withBackslash] := by decide
  have second : Example.withBackslash ∈ [Example.withNewline, Example.withBackslash] := by decide
  have candidate : Strings.IsCandidate Example.withBackslash.bytes :=
    ⟨by decide, by decide, by decide, by decide⟩
  have apart := always _ _ _ first second Example.isCandidate_withNewline candidate (by decide)
  rw [recordedApart_pushAll_iff first second Example.isCandidate_withNewline candidate] at apart
  exact apart (by decide)

end Unxorer
