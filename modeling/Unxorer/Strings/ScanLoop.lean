import Unxorer.Strings.Candidates
import Unxorer.Lib.TerminatedRuns

/-!
# The loop of the string scanner

`scan_buffer_for_strings` walks through a buffer by index. It is modelled here with every
read of the buffer checked, so that a read at or behind the end of the scan would show. The
loop does the scan that `Strings.scanFrom` describes on the rest of the buffer, and finds
exactly the maximal runs of printable bytes with a NUL behind them.

## Main definitions

* `Strings.ScanFault`, `Strings.readAt` — a read of a byte of the buffer
* `Strings.scanLoop` — the loops of `scan_buffer_for_strings`
* `Strings.TextRun` — a maximal run of printable bytes with a NUL behind it

## Main results

* `Strings.scanLoop_eq_scanFrom` — the loop reads inside the buffer, ends, and is the scan
* `Strings.mem_scanFrom_iff` — the scan finds exactly the runs
-/

set_option autoImplicit false

namespace Unxorer.Strings

/-! ### The loops -/

/-- The ways in which a scan can go wrong. -/
inductive ScanFault
  /-- A read at or behind the end of the scan. -/
  | outside (i : ℕ)
  | hang
deriving DecidableEq

/-- `buffer[i]` in a scan of `scanSize` bytes. -/
def readAt (buffer : List Byte) (scanSize i : ℕ) : Except ScanFault Byte :=
  match (buffer.take scanSize)[i]? with
  | some c => .ok c
  | none => .error (.outside i)

/-- `read_u16le(buffer + i)`. -/
def readU16At (buffer : List Byte) (scanSize i : ℕ) : Except ScanFault (BitVec 16) := do
  let lo ← readAt buffer scanSize i
  let hi ← readAt buffer scanSize (i + 1)
  return readU16le lo hi

/-- `std::string(buffer + i, length)`. -/
def readText (buffer : List Byte) (scanSize i : ℕ) : ℕ → Except ScanFault (List Byte)
  | 0 => return []
  | length + 1 => do
    let c ← readAt buffer scanSize i
    let rest ← readText buffer scanSize (i + 1) length
    return c :: rest

/-- `utf16le_to_ascii(buffer + i, chars)`. -/
def readWideText (buffer : List Byte) (scanSize i : ℕ) : ℕ → Except ScanFault (List Byte)
  | 0 => return []
  | chars + 1 => do
    let c ← readAt buffer scanSize i
    let rest ← readWideText buffer scanSize (i + 2) chars
    return c :: rest

/-- The inner loop over printable bytes, for at most `fuel` tests of its condition. -/
def asciiEnd (buffer : List Byte) (scanSize : ℕ) : ℕ → ℕ → Except ScanFault ℕ
  | 0, _ => .error .hang
  | fuel + 1, stop =>
    if stop < scanSize then do
      let c ← readAt buffer scanSize stop
      if isAsciiPrintable c then asciiEnd buffer scanSize fuel (stop + 1) else return stop
    else return stop

/-- The inner loop over printable code units. -/
def utf16End (buffer : List Byte) (scanSize : ℕ) : ℕ → ℕ → Except ScanFault ℕ
  | 0, _ => .error .hang
  | fuel + 1, stop =>
    if stop + 1 < scanSize then do
      let w ← readU16At buffer scanSize stop
      if isUtf16Printable w then utf16End buffer scanSize fuel (stop + 2) else return stop
    else return stop

/-- The candidate of a run of printable bytes from `i` up to `stop`, if it is one. -/
def asciiCandidate (buffer : List Byte) (scanSize i stop : ℕ) :
    Except ScanFault (List (ℕ × List Byte)) :=
  if stop - i ≥ 4 ∧ stop < scanSize then do
    let last ← readAt buffer scanSize stop
    if last = 0 then do
      let candidate ← readText buffer scanSize i (stop - i)
      return [(i, candidate)]
    else return []
  else return []

/-- The candidate of a run of printable code units from `i` up to `stop`, if it is one. -/
def utf16Candidate (buffer : List Byte) (scanSize i stop : ℕ) :
    Except ScanFault (List (ℕ × List Byte)) :=
  if (stop - i) / 2 ≥ 4 ∧ stop + 1 < scanSize then do
    let low ← readAt buffer scanSize stop
    if low = 0 then do
      let high ← readAt buffer scanSize (stop + 1)
      if high = 0 then do
        let candidate ← readWideText buffer scanSize i ((stop - i) / 2)
        return [(i, candidate)]
      else return []
    else return []
  else return []

/-- The second condition of the loop: a printable code unit at `i`. -/
def wideAt (buffer : List Byte) (scanSize i : ℕ) : Except ScanFault Bool :=
  if i + 1 < scanSize then do
    let w ← readU16At buffer scanSize i
    return isUtf16Printable w
  else return false

/-- The loop of `scan_buffer_for_strings` from index `i` on, for at most `fuel` tests of its
condition: what it passes to `push_string`, each string with its index. -/
def scanLoop (buffer : List Byte) (scanSize : ℕ) :
    ℕ → ℕ → Except ScanFault (List (ℕ × List Byte))
  | 0, _ => .error .hang
  | fuel + 1, i =>
    if i < scanSize then do
      let c ← readAt buffer scanSize i
      if isAsciiPrintable c then do
        let stop ← asciiEnd buffer scanSize (scanSize + 1) i
        let found ← asciiCandidate buffer scanSize i stop
        let later ← scanLoop buffer scanSize fuel (stop + 1)
        return found ++ later
      else do
        let wide ← wideAt buffer scanSize i
        if wide then do
          let stop ← utf16End buffer scanSize (scanSize + 1) i
          let found ← utf16Candidate buffer scanSize i stop
          let later ← scanLoop buffer scanSize fuel (stop + 2)
          return found ++ later
        else scanLoop buffer scanSize fuel (i + 1)
    else return []

/-- The whole loop. -/
def scanBuffer (buffer : List Byte) (scanSize : ℕ) : Except ScanFault (List (ℕ × List Byte)) :=
  scanLoop buffer scanSize (scanSize + 1) 0

/-! ### Reads inside the scan -/

variable {buffer : List Byte} {scanSize : ℕ}

theorem readAt_of_getElem? {i : ℕ} {c : Byte} (here : (buffer.take scanSize)[i]? = some c) :
    readAt buffer scanSize i = .ok c := by
  rw [readAt, here]

/-- Inside the scan a read returns the next byte of the rest. -/
theorem exists_readAt (enough : scanSize ≤ buffer.length) {i : ℕ} (inside : i < scanSize) :
    ∃ c, readAt buffer scanSize i = .ok c ∧
      (buffer.take scanSize).drop i = c :: (buffer.take scanSize).drop (i + 1) := by
  have bound : i < (buffer.take scanSize).length := by
    rw [List.length_take]
    omega
  exact ⟨_, readAt_of_getElem? (List.getElem?_eq_getElem bound), List.drop_eq_getElem_cons bound⟩

theorem drop_eq_nil (enough : scanSize ≤ buffer.length) {i : ℕ} (outside : ¬ i < scanSize) :
    (buffer.take scanSize).drop i = [] := by
  refine List.drop_eq_nil_of_le ?_
  rw [List.length_take]
  omega

/-! ### The scan by cases -/

/-- A code unit whose low byte is not printable is not printable. -/
theorem isUtf16Printable_eq_false {c : Byte} (hi : Byte) (ascii : isAsciiPrintable c ≠ true) :
    isUtf16Printable (readU16le c hi) = false := by
  by_contra wide
  exact ascii (bytes_of_isUtf16Printable (Bool.eq_true_of_not_eq_false wide)).1

/-- At a printable byte the scan goes on behind the byte that ends the run. -/
theorem scanFrom_of_ascii (i : ℕ) {c : Byte} {tail run : List Byte}
    (ascii : isAsciiPrintable c = true) (collected : (c :: tail).takeWhile isAsciiPrintable = run) :
    scanFrom i (c :: tail) =
      (if run.length ≥ 4 ∧ (c :: tail)[run.length]? = some 0 then [(i, run)] else []) ++
        scanFrom (i + run.length + 1) ((c :: tail).drop (run.length + 1)) := by
  subst collected
  rw [scanFrom, if_pos ascii]
  rfl

/-- At any other byte the scan goes on with the next one: no code unit begins there. -/
theorem scanFrom_of_not_ascii (i : ℕ) {c : Byte} (tail : List Byte)
    (ascii : isAsciiPrintable c ≠ true) : scanFrom i (c :: tail) = scanFrom (i + 1) tail := by
  have narrow : startsUtf16 (c :: tail) = false := by
    cases tail with
    | nil => rfl
    | cons hi rest => exact isUtf16Printable_eq_false hi ascii
  rw [scanFrom, if_neg ascii, narrow, if_neg Bool.false_ne_true]

/-! ### The loop is the scan -/

theorem ok_bind {α β : Type} (a : α) (f : α → Except ScanFault β) :
    (Except.ok a >>= f) = f a := rfl

/-- The inner loop stops behind the run of printable bytes. -/
theorem asciiEnd_eq (enough : scanSize ≤ buffer.length) (fuel : ℕ) {stop : ℕ}
    (within : stop ≤ scanSize) (fueled : scanSize < stop + fuel) :
    asciiEnd buffer scanSize fuel stop =
      .ok (stop + (((buffer.take scanSize).drop stop).takeWhile isAsciiPrintable).length) := by
  induction fuel generalizing stop with
  | zero => exact absurd within (Nat.not_le.mpr fueled)
  | succ fuel ih =>
    rw [asciiEnd]
    by_cases inside : stop < scanSize
    · obtain ⟨c, read, split⟩ := exists_readAt enough inside
      rw [if_pos inside, read, split, List.takeWhile_cons]
      by_cases printable : isAsciiPrintable c = true
      · have rest := ih (Nat.succ_le_of_lt inside) (by omega)
        rw [if_pos printable, List.length_cons, ← Nat.add_assoc, Nat.add_right_comm]
        exact (if_pos printable).trans rest
      · rw [if_neg printable]
        exact if_neg printable
    · rw [if_neg inside, drop_eq_nil enough inside]
      rfl

/-- The text of a candidate lies inside the scan. -/
theorem readText_eq (enough : scanSize ≤ buffer.length) (length : ℕ) {i : ℕ}
    (inside : i + length ≤ scanSize) :
    readText buffer scanSize i length = .ok (((buffer.take scanSize).drop i).take length) := by
  induction length generalizing i with
  | zero => rfl
  | succ length ih =>
    obtain ⟨c, read, split⟩ := exists_readAt (i := i) enough (by omega)
    have rest := ih (i := i + 1) (by omega)
    rw [readText, read, split, List.take_succ_cons]
    change (readText buffer scanSize (i + 1) length >>= fun rest => .ok (c :: rest)) = _
    rw [rest]
    rfl

/-- A run of printable bytes becomes a candidate as in the scan. -/
theorem asciiCandidate_eq (enough : scanSize ≤ buffer.length) {i : ℕ} {rest run : List Byte}
    (behind : (buffer.take scanSize).drop i = rest)
    (collected : rest.takeWhile isAsciiPrintable = run) (inside : i < scanSize) :
    asciiCandidate buffer scanSize i (i + run.length) =
      .ok (if run.length ≥ 4 ∧ rest[run.length]? = some 0 then [(i, run)] else []) := by
  have length : rest.length = scanSize - i := by
    rw [← behind, List.length_drop, List.length_take, Nat.min_eq_left enough]
  have front : run <+: rest := collected ▸ List.takeWhile_prefix _
  have short := front.length_le
  have text : readText buffer scanSize i run.length = .ok run := by
    rw [readText_eq enough run.length (by omega), behind, ← List.prefix_iff_eq_take.mp front]
  rw [asciiCandidate, Nat.add_sub_cancel_left]
  by_cases closed : i + run.length < scanSize
  · obtain ⟨last, read, split⟩ := exists_readAt enough closed
    have ends : rest[run.length]? = some 0 ↔ last = 0 := by
      rw [← behind, List.getElem?_drop, ← List.head?_drop, split, List.head?_cons, Option.some_inj]
    by_cases long : run.length ≥ 4
    · rw [if_pos ⟨long, closed⟩, read]
      by_cases nul : last = 0
      · rw [if_pos ⟨long, ends.mpr nul⟩]
        refine (if_pos nul).trans ?_
        rw [text]
        rfl
      · rw [if_neg fun both => nul (ends.mp both.2)]
        exact if_neg nul
    · rw [if_neg fun both => long both.1, if_neg fun both => long both.1]
      rfl
  -- A run that reaches the end of the scan has no byte behind it.
  · have ends : rest[run.length]? = none := by
      rw [List.getElem?_eq_none_iff]
      omega
    rw [if_neg fun both => closed both.2, if_neg fun both => absurd both.2 (by rw [ends]; simp)]
    rfl

theorem wideAt_eq_false (enough : scanSize ≤ buffer.length) {i : ℕ} {c : Byte}
    (read : readAt buffer scanSize i = .ok c) (ascii : isAsciiPrintable c ≠ true) :
    wideAt buffer scanSize i = .ok false := by
  rw [wideAt]
  by_cases room : i + 1 < scanSize
  · obtain ⟨hi, read', -⟩ := exists_readAt enough room
    rw [if_pos room, readU16At, read, read']
    exact congrArg Except.ok (isUtf16Printable_eq_false hi ascii)
  · rw [if_neg room]
    rfl

/-- The loop reads only inside the scan, ends, and finds what the scan of the rest finds. -/
theorem scanLoop_eq_scanFrom (enough : scanSize ≤ buffer.length) (fuel : ℕ) {i : ℕ}
    (fueled : 0 < fuel ∧ scanSize < i + fuel) :
    scanLoop buffer scanSize fuel i = .ok (scanFrom i ((buffer.take scanSize).drop i)) := by
  induction fuel generalizing i with
  | zero => exact absurd fueled.1 (Nat.lt_irrefl 0)
  | succ fuel ih =>
    rw [scanLoop]
    by_cases inside : i < scanSize
    · obtain ⟨c, read, split⟩ := exists_readAt enough inside
      rw [if_pos inside, read, ok_bind]
      by_cases ascii : isAsciiPrintable c = true
      · obtain ⟨run, collected⟩ : ∃ run, ((buffer.take scanSize).drop i).takeWhile
          isAsciiPrintable = run := ⟨_, rfl⟩
        have ends := asciiEnd_eq enough (scanSize + 1) inside.le (by omega)
        rw [collected] at ends
        have positive : 0 < run.length := by
          rw [← collected, split, List.takeWhile_cons, if_pos ascii, List.length_cons]
          omega
        -- What is behind the byte that ends the run is scanned next.
        have later := ih (i := i + run.length + 1) (by omega)
        rw [if_pos ascii, ends, ok_bind, asciiCandidate_eq enough split (split ▸ collected) inside,
          ok_bind, later, ok_bind, split, scanFrom_of_ascii i ascii (split ▸ collected), ← split,
          List.drop_drop]
        rfl
      -- No printable code unit begins with a byte that is not printable.
      · rw [if_neg ascii, wideAt_eq_false enough read ascii, ok_bind, if_neg Bool.false_ne_true,
          ih (by omega), split, scanFrom_of_not_ascii i _ ascii]
    · rw [if_neg inside, drop_eq_nil enough inside, scanFrom]
      rfl

/-! ### What the scan finds -/

open TerminatedRuns

/-- A maximal run of at least four printable bytes from `i` up to `stop`, with a NUL there. -/
abbrev TextRun (buffer : List Byte) (i stop : ℕ) : Prop :=
  Run isAsciiPrintable (0 : Byte) 4 buffer i stop

/-- Nothing is found where every byte is printable: the run has no NUL behind it. -/
theorem scanFrom_of_all (i : ℕ) {rest : List Byte} (all : ∀ c ∈ rest, isAsciiPrintable c = true) :
    scanFrom i rest = [] := by
  cases rest with
  | nil => rw [scanFrom]
  | cons c tail =>
    have whole : (c :: tail).takeWhile isAsciiPrintable = c :: tail :=
      List.takeWhile_eq_self_iff.mpr all
    rw [scanFrom_of_ascii i (all c List.mem_cons_self) whole, List.getElem?_eq_none le_rfl,
      List.drop_eq_nil_of_le (Nat.le_succ _), scanFrom]
    simp

/-- Otherwise the front is looked at up to the first byte that is not printable, and the
scan goes on behind that byte. -/
theorem scanFrom_append (i : ℕ) {pre rest : List Byte} {d : Byte}
    (all : ∀ c ∈ pre, isAsciiPrintable c = true) (separates : isAsciiPrintable d = false) :
    scanFrom i (pre ++ d :: rest) =
      (if pre.length ≥ 4 ∧ d = 0 then [(i, pre)] else []) ++
        scanFrom (i + pre.length + 1) rest := by
  cases pre with
  | nil =>
    rw [List.nil_append, scanFrom_of_not_ascii i rest (ne_true_of_eq_false separates)]
    rfl
  | cons c tail =>
    have collected : (c :: (tail ++ d :: rest)).takeWhile isAsciiPrintable = c :: tail :=
      takeWhile_append_cons all separates
    rw [List.cons_append, scanFrom_of_ascii i (all c List.mem_cons_self) collected,
      ← List.cons_append, List.getElem?_append_right le_rfl, List.drop_append,
      List.drop_eq_nil_of_le (Nat.le_succ _)]
    simp

/-- The positions of what is found increase. -/
theorem scanFrom_increasing (i : ℕ) (rest : List Byte) :
    (scanFrom i rest).Pairwise (fun c c' => c.1 < c'.1) ∧ ∀ c ∈ scanFrom i rest, i ≤ c.1 := by
  induction length : rest.length using Nat.strong_induction_on generalizing i rest with
  | _ n ih =>
    subst length
    rcases all_or_separated isAsciiPrintable rest with all | ⟨pre, d, behind, rfl, all, separates⟩
    · rw [scanFrom_of_all i all]
      exact ⟨.nil, by simp⟩
    · obtain ⟨increasing, above⟩ :=
        ih behind.length (by simp; omega) (i + pre.length + 1) behind rfl
      rw [scanFrom_append i all separates]
      split_ifs
      · rw [List.singleton_append, List.pairwise_cons, List.forall_mem_cons]
        refine ⟨⟨fun c member => ?_, increasing⟩, le_rfl, fun c member => ?_⟩
        · have later := above c member
          change i < c.1
          omega
        · have later := above c member
          omega
      · refine ⟨increasing, fun c member => ?_⟩
        have later := above c member
        omega

/-- The scan finds the runs, each with its position and its text. -/
theorem mem_scanFrom_iff (i : ℕ) (rest : List Byte) (j : ℕ) (text : List Byte) :
    (j, text) ∈ scanFrom i rest ↔
      ∃ k, j = i + k ∧ RunAt isAsciiPrintable (0 : Byte) 4 rest k text := by
  have nul : isAsciiPrintable 0 = false := by decide
  induction length : rest.length using Nat.strong_induction_on generalizing i rest with
  | _ n ih =>
    subst length
    rcases all_or_separated isAsciiPrintable rest with all | ⟨pre, d, behind, rfl, all, separates⟩
    · rw [scanFrom_of_all i all]
      refine iff_of_false List.not_mem_nil ?_
      rintro ⟨k, -, run⟩
      exact not_runAt_of_all all nul run
    · have first : (j, text) ∈ (if pre.length ≥ 4 ∧ d = 0 then [(i, pre)] else []) ↔
          j = i ∧ text = pre ∧ 4 ≤ pre.length ∧ d = 0 := by
        split_ifs with both
        · simp [both]
        · exact iff_of_false List.not_mem_nil fun here => both here.2.2
      have later := ih behind.length (by simp; omega) (i + pre.length + 1) behind rfl
      rw [scanFrom_append i all separates, List.mem_append]
      refine (or_congr first later).trans ?_
      simp only [runAt_append_iff all separates nul]
      constructor
      · rintro (⟨rfl, here⟩ | ⟨k, rfl, run⟩)
        · exact ⟨0, rfl, .inl ⟨rfl, here⟩⟩
        · exact ⟨pre.length + 1 + k, by omega, .inr ⟨k, rfl, run⟩⟩
      · rintro ⟨k, rfl, ⟨rfl, here⟩ | ⟨m, rfl, run⟩⟩
        · exact .inl ⟨rfl, here⟩
        · exact .inr ⟨m, by omega, run⟩

/-- A scan of the first `scanSize` bytes of a buffer reads nothing else, ends, and finds the
runs that end among them, in increasing order and each once. -/
theorem scanBuffer_spec (enough : scanSize ≤ buffer.length) :
    scanBuffer buffer scanSize = .ok (scanFrom 0 (buffer.take scanSize)) ∧
      (scanFrom 0 (buffer.take scanSize)).Pairwise (fun c c' => c.1 < c'.1) ∧
      ∀ i text, (i, text) ∈ scanFrom 0 (buffer.take scanSize) ↔
        ∃ stop < scanSize, TextRun buffer i stop ∧ text = (buffer.drop i).take (stop - i) := by
  refine ⟨scanLoop_eq_scanFrom enough _ (by omega), (scanFrom_increasing 0 _).1, ?_⟩
  intro i text
  rw [mem_scanFrom_iff]
  simp only [Nat.zero_add, exists_eq_left', RunAt, run_take_iff, and_assoc]
  refine exists_congr fun stop => and_congr_right fun front => and_congr_right fun run => ?_
  rw [List.drop_take, List.take_take, Nat.min_eq_left (by omega)]

end Unxorer.Strings
