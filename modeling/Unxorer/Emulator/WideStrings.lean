import Unxorer.Emulator.FoundStrings

/-!
# Wide strings

The scanner has a second mode for strings of UTF-16 code units. A code unit that this mode
accepts has a printable low byte and a zero above it, and a printable byte sends the scanner
into its first mode, where the zero ends the run after one character. The second mode is
never entered.

## Main definitions

* `WideRun` — a run of printable code units with a NUL behind it

## Main results

* `Strings.mem_scanFrom` — every candidate is a run of printable bytes
* `wideRuns_pushed_iff` — no run of code units is passed on
-/

set_option autoImplicit false

namespace Unxorer

namespace Strings

/-- The code unit at an offset of a buffer. -/
def unitAt (buffer : List Byte) (i : ℕ) : Option (BitVec 16) := do
  let lo ← buffer[i]?
  let hi ← buffer[i + 1]?
  return readU16le lo hi

/-- A maximal run of `n` printable code units from offset `i` on, with a NUL behind it. -/
structure WideRun (buffer : List Byte) (i n : ℕ) : Prop where
  long : 4 ≤ n
  printable : ∀ k < n, ∃ w, unitAt buffer (i + 2 * k) = some w ∧ isUtf16Printable w = true
  terminated : unitAt buffer (i + 2 * n) = some 0
  maximal : ∀ w, 2 ≤ i → unitAt buffer (i - 2) = some w → isUtf16Printable w = false

/-- Every candidate of a scan is the run of printable bytes at its position. -/
theorem mem_scanFrom (i : ℕ) (rest : List Byte) :
    ∀ found ∈ scanFrom i rest, ∃ k, found.1 = i + k ∧
      found.2 = (rest.drop k).takeWhile isAsciiPrintable ∧ 4 ≤ found.2.length := by
  induction i, rest using scanFrom.induct with
  | case1 i =>
    intro found member
    rw [scanFrom] at member
    exact absurd member List.not_mem_nil
  | case2 i c tail ascii run ih =>
    intro found member
    rw [scanFrom, if_pos ascii] at member
    rcases List.mem_append.mp member with here | later
    · split_ifs at here with long
      · rw [List.mem_singleton.mp here]
        exact ⟨0, rfl, rfl, long.1⟩
      · exact absurd here List.not_mem_nil
    · obtain ⟨k, position, bytes, long⟩ := ih found later
      refine ⟨run.length + 1 + k, by omega, ?_, long⟩
      rw [bytes, List.drop_drop, Nat.add_right_comm, List.drop_succ_cons]
  | case3 i c tail ascii wide n ih =>
    -- The low byte of a printable code unit is printable itself.
    cases tail with
    | nil => exact absurd wide Bool.false_ne_true
    | cons hi rest => exact absurd (bytes_of_isUtf16Printable wide).1 ascii
  | case4 i c tail ascii wide ih =>
    intro found member
    rw [scanFrom, if_neg ascii, if_neg wide] at member
    obtain ⟨k, position, bytes, long⟩ := ih found member
    refine ⟨k + 1, by omega, ?_, long⟩
    rw [bytes, List.drop_succ_cons]

/-- Behind the first byte of a printable code unit there is no run of printable bytes. -/
theorem length_takeWhile_of_isUtf16Printable {buffer : List Byte} {i : ℕ} {w : BitVec 16}
    (unit : unitAt buffer i = some w) (wide : isUtf16Printable w = true) :
    ((buffer.drop i).takeWhile isAsciiPrintable).length ≤ 1 := by
  obtain ⟨lo, first, rest⟩ := Option.bind_eq_some_iff.mp unit
  obtain ⟨hi, second, value⟩ := Option.bind_eq_some_iff.mp rest
  cases value
  have zero : hi = 0 := (bytes_of_isUtf16Printable wide).2
  obtain ⟨inside, rfl⟩ := List.getElem?_eq_some_iff.mp first
  obtain ⟨within, rfl⟩ := List.getElem?_eq_some_iff.mp second
  have stop : isAsciiPrintable buffer[i + 1] = false := by
    rw [zero]
    decide
  rw [List.drop_eq_getElem_cons inside, List.drop_eq_getElem_cons within, List.takeWhile_cons,
    List.takeWhile_cons, stop, if_neg Bool.false_ne_true]
  split_ifs
  · exact le_rfl
  · exact Nat.zero_le 1

end Strings

open Strings

/-- No scan passes a string on from a position where a run of code units starts. -/
theorem Strings.WideRun.ptr_ne {buffer : List Byte} {i n : ℕ} (run : WideRun buffer i n)
    (addressable : buffer.length < 2 ^ 64) (rip base : Addr) :
    ∀ c ∈ bufferCandidates rip base buffer, c.ptr ≠ base + BitVec.ofNat 64 i := by
  intro c member same
  obtain ⟨found, scanned, rfl⟩ := List.mem_map.mp member
  obtain ⟨k, position, bytes, long⟩ := mem_scanFrom 0 buffer found scanned
  obtain ⟨w, unit, wide⟩ := run.printable 0 (by have := run.long; omega)
  have inside : k < buffer.length := by
    by_contra outside
    rw [List.drop_eq_nil_of_le (Nat.not_lt.mp outside), List.takeWhile_nil] at bytes
    rw [bytes] at long
    exact absurd long (by decide)
  have start : i < buffer.length := by
    obtain ⟨lo, first, -⟩ := Option.bind_eq_some_iff.mp unit
    exact (List.getElem?_eq_some_iff.mp first).1
  -- Inside the buffer different positions have different addresses.
  have here : k = i := by
    have offsets := congrArg BitVec.toNat (add_left_cancel same)
    rw [position, Nat.zero_add, BitVec.toNat_ofNat, BitVec.toNat_ofNat,
      Nat.mod_eq_of_lt (inside.trans addressable), Nat.mod_eq_of_lt (start.trans addressable)]
      at offsets
    exact offsets
  have short := length_takeWhile_of_isUtf16Printable unit wide
  rw [here] at bytes
  rw [bytes] at long
  exact absurd (long.trans short) (by decide)

/-- A scan passes on all the runs of code units of a buffer, as narrowed strings with their
addresses, exactly when there are none in the buffer. -/
theorem wideRuns_pushed_iff (rip base : Addr) {buffer : List Byte}
    (addressable : buffer.length < 2 ^ 64) :
    (∀ i n, WideRun buffer i n →
      ⟨rip, base + BitVec.ofNat 64 i, utf16leToAscii (buffer.drop i) n⟩ ∈
        bufferCandidates rip base buffer) ↔
      ∀ i n, ¬ WideRun buffer i n := by
  constructor
  · intro pushed i n run
    exact run.ptr_ne addressable rip base _ (pushed i n run) rfl
  · intro none i n run
    exact absurd run (none i n)

/-- `abcd` as a string of code units. -/
def wideText : List Byte := [0x61, 0, 0x62, 0, 0x63, 0, 0x64, 0, 0, 0]

theorem wideRun_wideText : WideRun wideText 0 4 where
  long := le_rfl
  printable := by
    intro k inside
    interval_cases k
    · exact ⟨0x61, rfl, rfl⟩
    · exact ⟨0x62, rfl, rfl⟩
    · exact ⟨0x63, rfl, rfl⟩
    · exact ⟨0x64, rfl, rfl⟩
  terminated := rfl
  maximal _ inside := absurd inside (by decide)

theorem wideRuns_pushed_iff_wideText :
    (∀ i n, WideRun wideText i n →
      ⟨0, 0x2000 + BitVec.ofNat 64 i, utf16leToAscii (wideText.drop i) n⟩ ∈
        bufferCandidates 0 0x2000 wideText) ↔
      ∀ i n, ¬ WideRun wideText i n :=
  wideRuns_pushed_iff 0 0x2000 (by decide)

/-- The string is not among the candidates of a scan. -/
theorem wideText_not_pushed : WideRun wideText 0 4 ∧
    ⟨0, 0x2000, [0x61, 0x62, 0x63, 0x64]⟩ ∉ bufferCandidates 0 0x2000 wideText :=
  ⟨wideRun_wideText, fun pushed => wideRun_wideText.ptr_ne (by decide) 0 0x2000 _ pushed rfl⟩

end Unxorer
