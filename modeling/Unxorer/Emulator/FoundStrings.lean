import Unxorer.Emulator.Run
import Unxorer.Strings.Candidates

/-!
# The found strings

The three scans differ in where they look. Each passes candidates to `push_string`, one
after the other, and does nothing else, so the found strings are what the candidates of all
the scans have left, the first candidate counting for each string.

## Main definitions

* `Emulator.stackCandidates`, `registerCandidates`, `trackedCandidates` — the candidates of
  a scan
* `Emulator.Scanned` — a sequence of scans with their candidates
* `FoundLaw` — what holds of the found strings

## Main results

* `Emulator.foundLaw_of_scanned` — the law holds after every sequence of scans
-/

set_option autoImplicit false

namespace Unxorer

open Unicorn WriteTracker

/-! ### The candidates of a scan -/

/-- The set of found strings after a sequence of calls of `push_string`. -/
def pushAll (cs : List Candidate) (found : List FoundString) : List FoundString :=
  cs.foldl (fun found c => Emulator.pushString c.rip c.ptr c.bytes found) found

theorem pushAll_append (cs cs' : List Candidate) (found : List FoundString) :
    pushAll (cs ++ cs') found = pushAll cs' (pushAll cs found) :=
  List.foldl_append

/-- The candidates in a buffer. -/
def bufferCandidates (rip base : Addr) (buffer : List Byte) : List Candidate :=
  (Strings.scanFrom 0 buffer).map fun c => ⟨rip, base + BitVec.ofNat 64 c.1, c.2⟩

namespace Emulator

variable {U : Type} [Unicorn U]

/-- The candidates in a part of guest memory, if it can be read. -/
def memoryCandidates (u : U) (rip base : Addr) (size : ℕ) : List Candidate :=
  match memRead u base size with
  | none => []
  | some buffer => bufferCandidates rip base buffer

def stackCandidates (e : Emulator U) : List Candidate :=
  let rsp := reg e.engine .rsp
  if rsp < stackBase - stackSize ∨ rsp ≥ stackBase then []
  else
    bufferCandidates (reg e.engine .rip) rsp
      (bytesAt e.engine rsp (min (stackBase - rsp).toNat 0x8000))

/-- The candidates behind the remaining registers, with the pointers scanned so far. -/
def candidatesBehind (u : U) (rip : Addr) : List Reg → List Addr → List Candidate
  | [], _ => []
  | r :: rest, scanned =>
    if r = .rsp ∨ reg u r = 0 ∨ scanned.contains (reg u r) then candidatesBehind u rip rest scanned
    else
      memoryCandidates u rip (reg u r) 0x200 ++ candidatesBehind u rip rest (reg u r :: scanned)

def registerCandidates (e : Emulator U) : List Candidate :=
  candidatesBehind e.engine (reg e.engine .rip) gprRegisters []

/-- The candidates in the dirty regions. -/
def trackedCandidates (e : Emulator U) : List Candidate :=
  (getDirtyRegions e.dirtyPages).flatMap fun region =>
    memoryCandidates e.engine (reg e.engine .rip) region.start (min region.size.toNat 0x10000)

/-- The emulator after a sequence of calls of `push_string`. -/
def push (e : Emulator U) (cs : List Candidate) : Emulator U :=
  { e with stringList := pushAll cs e.stringList }

@[simp] theorem engine_push (e : Emulator U) (cs : List Candidate) :
    (e.push cs).engine = e.engine := rfl

theorem push_append (e : Emulator U) (cs cs' : List Candidate) :
    e.push (cs ++ cs') = (e.push cs).push cs' := by
  simp only [push, pushAll_append]

/-! ### A scan pushes its candidates -/

theorem scanBufferForStrings_eq_push (e : Emulator U) (rip base : Addr) (buffer : List Byte) :
    e.scanBufferForStrings rip base buffer = e.push (bufferCandidates rip base buffer) := by
  rw [scanBufferForStrings, push, pushAll, bufferCandidates, List.foldl_map]

theorem dumpStackStrings_eq_push (e : Emulator U) :
    e.dumpStackStrings = e.push e.stackCandidates := by
  simp only [dumpStackStrings, stackCandidates]
  split_ifs
  · rfl
  · exact e.scanBufferForStrings_eq_push _ _ _

/-- What is left of the loop of `dump_register_strings` pushes the remaining candidates. -/
theorem foldl_dumpRegister (rip : Addr) (rs : List Reg) (e : Emulator U) (scanned : List Addr) :
    (rs.foldl (dumpRegister rip) (e, scanned)).1 =
      e.push (candidatesBehind e.engine rip rs scanned) := by
  induction rs generalizing e scanned with
  | nil => rfl
  | cons r rest ih =>
    rw [List.foldl_cons, candidatesBehind]
    simp only [List.contains_iff_mem]
    by_cases passed : r = .rsp ∨ reg e.engine r = 0 ∨ reg e.engine r ∈ scanned
    · have round : dumpRegister rip (e, scanned) r = (e, scanned) := by
        rw [dumpRegister]
        exact if_pos passed
      rw [round, if_pos passed, ih]
    · rw [if_neg passed, push_append]
      have round : dumpRegister rip (e, scanned) r =
          (e.push (memoryCandidates e.engine rip (reg e.engine r) 0x200),
            reg e.engine r :: scanned) := by
        rw [dumpRegister, if_neg passed, memoryCandidates]
        cases memRead e.engine (reg e.engine r) 0x200 with
        | none => rfl
        | some buffer => exact congrArg (·, _) (e.scanBufferForStrings_eq_push _ _ _)
      -- Pushing leaves the registers and the memory for the next rounds alone.
      rw [round, ih, engine_push]

theorem dumpRegisterStrings_eq_push (e : Emulator U) :
    e.dumpRegisterStrings = e.push e.registerCandidates :=
  foldl_dumpRegister _ _ _ _

/-- What is left of the loop of `dump_tracked_writes` pushes the remaining candidates. -/
theorem dumpRegions_eq_push [Host] {rip : Addr} {regions : List DirtyRegion} {e e' : Emulator U}
    (done : dumpRegions rip regions e = .ok e') :
    e' = e.push (regions.flatMap fun region =>
      memoryCandidates e.engine rip region.start (min region.size.toNat 0x10000)) := by
  induction regions generalizing e with
  | nil =>
    cases done
    rfl
  | cons region rest ih =>
    rw [dumpRegions] at done
    obtain ⟨-, -, returned⟩ := exists_of_bind_ok done
    rw [List.flatMap_cons, push_append, memoryCandidates]
    cases readable : memRead e.engine region.start (min region.size.toNat 0x10000) with
    | none =>
      simp only [readable] at returned ⊢
      exact ih returned
    | some buffer =>
      simp only [readable, scanBufferForStrings_eq_push] at returned ⊢
      exact ih returned

theorem dumpTrackedWrites_eq_push [Host] {e e' : Emulator U} (done : e.dumpTrackedWrites = .ok e') :
    e' = e.push e.trackedCandidates := by
  rw [dumpTrackedWrites] at done
  split_ifs at done with clean
  · cases done
    -- Without dirty pages there are no regions.
    have none : e.dirtyPages = ∅ := by simpa [hasDirty] using clean
    rw [trackedCandidates, none, getDirtyRegions, Finset.sort_empty]
    rfl
  · exact dumpRegions_eq_push done

/-! ### Sequences of scans -/

/-- The emulator after a sequence of scans that began with no strings, with the candidates
of all the scans. Between two scans all may change but the found strings. -/
inductive Scanned [Host] : List Candidate → Emulator U → Prop
  | start {e : Emulator U} (empty : e.stringList = []) : Scanned [] e
  | between {cs : List Candidate} {e e' : Emulator U} (scanned : Scanned cs e)
      (kept : e'.stringList = e.stringList) : Scanned cs e'
  | stack {cs : List Candidate} {e : Emulator U} (scanned : Scanned cs e) :
      Scanned (cs ++ e.stackCandidates) e.dumpStackStrings
  | registers {cs : List Candidate} {e : Emulator U} (scanned : Scanned cs e) :
      Scanned (cs ++ e.registerCandidates) e.dumpRegisterStrings
  | tracked {cs : List Candidate} {e e' : Emulator U} (scanned : Scanned cs e)
      (done : e.dumpTrackedWrites = .ok e') : Scanned (cs ++ e.trackedCandidates) e'

/-- All candidates are over the scanner's alphabet. -/
def OverAlphabet (cs : List Candidate) : Prop :=
  ∀ c ∈ cs, ∀ b ∈ c.bytes, Strings.isAsciiPrintable b = true

theorem overAlphabet_nil : OverAlphabet [] := by
  intro c member
  exact absurd member List.not_mem_nil

theorem OverAlphabet.append {cs cs' : List Candidate} (first : OverAlphabet cs)
    (second : OverAlphabet cs') : OverAlphabet (cs ++ cs') := by
  intro c member
  rcases List.mem_append.mp member with old | new
  · exact first c old
  · exact second c new

theorem overAlphabet_buffer (rip base : Addr) (buffer : List Byte) :
    OverAlphabet (bufferCandidates rip base buffer) := by
  intro c member
  obtain ⟨found, inside, rfl⟩ := List.mem_map.mp member
  exact Strings.printable_scanFrom 0 buffer found inside

theorem overAlphabet_memory (u : U) (rip base : Addr) (size : ℕ) :
    OverAlphabet (memoryCandidates u rip base size) := by
  rw [memoryCandidates]
  split
  · exact overAlphabet_nil
  · exact overAlphabet_buffer _ _ _

theorem overAlphabet_stack (e : Emulator U) : OverAlphabet e.stackCandidates := by
  simp only [stackCandidates]
  split_ifs
  · exact overAlphabet_nil
  · exact overAlphabet_buffer _ _ _

theorem overAlphabet_behind (u : U) (rip : Addr) (rs : List Reg) (scanned : List Addr) :
    OverAlphabet (candidatesBehind u rip rs scanned) := by
  induction rs generalizing scanned with
  | nil => exact overAlphabet_nil
  | cons r rest ih =>
    rw [candidatesBehind]
    simp only [List.contains_iff_mem]
    by_cases passed : r = .rsp ∨ reg u r = 0 ∨ reg u r ∈ scanned
    · rw [if_pos passed]
      exact ih scanned
    · rw [if_neg passed]
      exact (overAlphabet_memory _ _ _ _).append (ih _)

theorem overAlphabet_tracked (e : Emulator U) : OverAlphabet e.trackedCandidates := by
  intro c member
  obtain ⟨region, -, inside⟩ := List.mem_flatMap.mp member
  exact overAlphabet_memory _ _ _ _ c inside

/-- The found strings after a sequence of scans are those its candidates leave. -/
theorem Scanned.stringList_eq [Host] {cs : List Candidate} {e : Emulator U}
    (scanned : Scanned cs e) : e.stringList = pushAll cs [] := by
  induction scanned with
  | start empty => exact empty
  | between _ kept ih => rw [kept, ih]
  | stack _ ih => rw [dumpStackStrings_eq_push, push, ih, pushAll_append]
  | registers _ ih => rw [dumpRegisterStrings_eq_push, push, ih, pushAll_append]
  | tracked _ done ih => rw [dumpTrackedWrites_eq_push done, push, ih, pushAll_append]

theorem Scanned.overAlphabet [Host] {cs : List Candidate} {e : Emulator U}
    (scanned : Scanned cs e) : OverAlphabet cs := by
  induction scanned with
  | start => exact overAlphabet_nil
  | between _ _ ih => exact ih
  | stack _ ih => exact ih.append (overAlphabet_stack _)
  | registers _ ih => exact ih.append (overAlphabet_behind _ _ _ _)
  | tracked _ _ ih => exact ih.append (overAlphabet_tracked _)

end Emulator

/-! ### What the candidates leave -/

/-- Where every hash belongs to its string, only the strings decide about an insertion. -/
theorem FoundString.emplace_eq_insert {found : List FoundString} {s : FoundString}
    (hashes : ∀ t ∈ found, t.hash = Strings.hashString t.data)
    (hash : s.hash = Strings.hashString s.data) :
    emplace found s = FirstByKey.insert FoundString.data found s := by
  have present : (found.any fun t => t.hash == s.hash && t.data == s.data) = true ↔
      s.data ∈ found.map FoundString.data := by
    rw [List.any_eq_true, List.mem_map]
    constructor
    · rintro ⟨t, member, same⟩
      rw [Bool.and_eq_true, beq_iff_eq, beq_iff_eq] at same
      exact ⟨t, member, same.2⟩
    · rintro ⟨t, member, same⟩
      refine ⟨t, member, ?_⟩
      rw [Bool.and_eq_true, beq_iff_eq, beq_iff_eq, hashes t member, hash, same]
      exact ⟨rfl, rfl⟩
  rw [emplace, FirstByKey.insert]
  by_cases known : s.data ∈ found.map FoundString.data
  · rw [if_pos known, if_pos (present.mpr known)]
  · rw [if_neg known, if_neg (mt present.mp known)]

/-- `push_string` inserts the element that belongs to the candidate, if there is one. -/
theorem pushString_eq (c : Candidate) (found : List FoundString) :
    Emulator.pushString c.rip c.ptr c.bytes found =
      c.entry.elim found (FoundString.emplace found) := by
  rw [Emulator.pushString, Candidate.entry]
  by_cases empty : Strings.stored c.bytes = []
  · rw [if_pos empty, Option.elim_none]
    split_ifs
    · rfl
    · exact if_pos empty
  · have nonempty : c.bytes ≠ [] := by
      intro none
      rw [none] at empty
      exact empty rfl
    rw [if_neg empty, Option.elim_some, if_neg nonempty]
    exact if_neg empty

/-- One call of `push_string` keeps the set up with the candidates. -/
theorem collects_pushString {cs : List Candidate} {found : List FoundString}
    (collects : FirstByKey.Collects FoundString.data (cs.filterMap Candidate.entry) found)
    (c : Candidate) :
    FirstByKey.Collects FoundString.data ((cs ++ [c]).filterMap Candidate.entry)
      (Emulator.pushString c.rip c.ptr c.bytes found) := by
  have hashes : ∀ t ∈ found, t.hash = Strings.hashString t.data := by
    intro t member
    obtain ⟨c', -, made⟩ := List.mem_filterMap.mp (collects.mem_of_mem member)
    exact (Candidate.entry_eq_some_iff.mp made).2.2.2.2
  rw [List.filterMap_append, pushString_eq]
  cases entry : c.entry with
  | none => simpa [entry] using collects
  | some s =>
    have last : [c].filterMap Candidate.entry = [s] := by simp [entry]
    have hash := (Candidate.entry_eq_some_iff.mp entry).2.2.2.2
    rw [last, Option.elim_some, FoundString.emplace_eq_insert hashes hash]
    exact collects.snoc s

theorem collects_pushAll (cs : List Candidate) :
    FirstByKey.Collects FoundString.data (cs.filterMap Candidate.entry) (pushAll cs []) := by
  induction cs using List.reverseRecOn with
  | nil => exact .nil
  | append_singleton cs c ih =>
    rw [pushAll_append]
    exact collects_pushString ih c

/-- What holds of the found strings after a sequence of candidates. -/
structure FoundLaw (cs : List Candidate) (found : List FoundString) : Prop where
  hash : ∀ s ∈ found, s.hash = Strings.hashString s.data
  nonempty : ∀ s ∈ found, s.data ≠ []
  printable : ∀ s ∈ found, ∀ b ∈ s.data, Strings.IsPrintable b
  trimmed : ∀ s ∈ found, s.data.head? ≠ some 0x20 ∧ s.data.getLast? ≠ some 0x20
  distinct : (found.map FoundString.data).Nodup
  /-- The strings are those the candidates make. -/
  strings : ∀ data, data ∈ found.map FoundString.data ↔
    data ≠ [] ∧ ∃ c ∈ cs, Strings.trim (Strings.escapeControlChars c.bytes) = data
  /-- The addresses are those of the first candidate that makes the string. -/
  first : ∀ s ∈ found, ∃ c,
    cs.find? (fun c => Strings.trim (Strings.escapeControlChars c.bytes) = s.data) = some c ∧
      s.rip = c.rip ∧ s.ptr = c.ptr

/-- The first element with a string that is not empty is made by the first candidate that
makes the string. -/
theorem find?_filterMap_entry {cs : List Candidate} {s : FoundString}
    (found : (cs.filterMap Candidate.entry).find? (fun t => t.data = s.data) = some s) :
    ∃ c, cs.find? (fun c => Strings.stored c.bytes = s.data) = some c ∧ c.entry = some s := by
  rw [List.find?_filterMap, Option.bind_eq_some_iff] at found
  obtain ⟨c, first, made⟩ := found
  refine ⟨c, ?_, made⟩
  have nonempty := (Candidate.entry_eq_some_iff.mp made).1
  rw [← first]
  congr 1
  funext c'
  -- A candidate that makes no element does not make this string.
  rw [Candidate.entry]
  by_cases empty : Strings.stored c'.bytes = []
  · rw [if_pos empty, empty]
    simpa using nonempty.symm
  · rw [if_neg empty]
    rfl

/-- The found strings are exactly the strings the candidates make, each of them printable
and trimmed and with the addresses of its first candidate. -/
theorem Emulator.foundLaw_of_scanned {U : Type} [Unicorn U] [Host] {cs : List Candidate}
    {e : Emulator U} (scanned : Scanned cs e) : FoundLaw cs e.stringList := by
  rw [scanned.stringList_eq]
  have collects := collects_pushAll cs
  have made : ∀ s ∈ pushAll cs [], ∃ c ∈ cs, c.entry = some s := by
    intro s member
    exact List.mem_filterMap.mp (collects.mem_of_mem member)
  refine ⟨?_, ?_, ?_, ?_, collects.nodup, ?_, ?_⟩
  · intro s member
    obtain ⟨c, -, entry⟩ := made s member
    exact (Candidate.entry_eq_some_iff.mp entry).2.2.2.2
  · intro s member
    obtain ⟨c, -, entry⟩ := made s member
    exact (Candidate.entry_eq_some_iff.mp entry).1
  · intro s member b inside
    obtain ⟨c, candidate, entry⟩ := made s member
    rw [← (Candidate.entry_eq_some_iff.mp entry).2.1] at inside
    exact Strings.printable_stored (scanned.overAlphabet c candidate) inside
  · intro s member
    obtain ⟨c, -, entry⟩ := made s member
    rw [← (Candidate.entry_eq_some_iff.mp entry).2.1]
    have ends := @Strings.ends_trim (Strings.escapeControlChars c.bytes) 0x20
    constructor
    · intro space
      exact absurd (ends.1 space) (by decide)
    · intro space
      exact absurd (ends.2 space) (by decide)
  · intro data
    rw [collects.key_mem_iff, List.mem_map]
    constructor
    · rintro ⟨s, member, rfl⟩
      obtain ⟨c, candidate, entry⟩ := List.mem_filterMap.mp member
      obtain ⟨nonempty, same, -⟩ := Candidate.entry_eq_some_iff.mp entry
      exact ⟨nonempty, c, candidate, same⟩
    · rintro ⟨nonempty, c, candidate, rfl⟩
      refine ⟨⟨c.rip, c.ptr, Strings.hashString (Strings.stored c.bytes),
        Strings.stored c.bytes⟩, List.mem_filterMap.mpr ⟨c, candidate, ?_⟩, rfl⟩
      exact if_neg nonempty
  · intro s member
    obtain ⟨c, first, entry⟩ := find?_filterMap_entry (collects.first s member)
    obtain ⟨-, -, rip, ptr, -⟩ := Candidate.entry_eq_some_iff.mp entry
    exact ⟨c, first, rip, ptr⟩

namespace Example

/-- The characters ` abc`, a newline and a NUL at the top of the stack. -/
def text : List Byte := [0x20, 0x61, 0x62, 0x63, 0x0A, 0]

/-- An emulator with the text on its stack. -/
def withText : Emulator Machine :=
  .initial (store (regWrite Machine.empty .rsp (stackBase - 6)) (stackBase - 6) text) .fresh image
    decoded false false

theorem stackCandidates_withText : withText.stackCandidates =
    [⟨0, stackBase - 6, [0x20, 0x61, 0x62, 0x63, 0x0A]⟩] := by
  have read : withText.stackCandidates = bufferCandidates 0 (stackBase - 6) text := by
    decide +kernel
  rw [read, bufferCandidates]
  simp [text, Strings.scanFrom, Strings.isAsciiPrintable]

end Example

theorem Emulator.foundLaw_of_scanned_text :
    Example.withText.stackCandidates = [⟨0, stackBase - 6, [0x20, 0x61, 0x62, 0x63, 0x0A]⟩] ∧
      FoundLaw Example.withText.stackCandidates Example.withText.dumpStackStrings.stringList := by
  have start : Scanned [] Example.withText := .start rfl
  exact ⟨Example.stackCandidates_withText, foundLaw_of_scanned start.stack⟩

end Unxorer
