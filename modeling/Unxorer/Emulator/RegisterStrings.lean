import Unxorer.Emulator.FoundStrings
import Unxorer.Emulator.Hooks
import Unxorer.Strings.ScanLoop

/-!
# Strings behind registers

A scan of a buffer passes the runs of printable bytes in it to `push_string`. Behind each
general register the scanner reads 512 bytes with one `uc_mem_read`, which fails as a whole
where the mapped memory ends earlier. A string in front of such an end is then found only if
another register points somewhere before it.

## Main definitions

* `Emulator.ScanLaw` — what a scan of a buffer does
* `PointsToText` — a string of printable bytes at an address
* `Emulator.ReadOver` — a read behind some register holds a string and its NUL

## Main results

* `Emulator.scanLaw` — every scan obeys the law
* `Emulator.registerString_pushed_iff` — exactly the strings found behind registers
-/

set_option autoImplicit false

namespace Unxorer

open Unicorn Strings TerminatedRuns

variable {U : Type} [Unicorn U]

/-! ### Scans of a buffer -/

/-- What `scan_buffer_for_strings` does with the first `scanSize` bytes of a buffer: it ends,
it reads none of the other bytes, and it passes exactly the runs to `push_string`, in
increasing order and each once, with their addresses and their bytes. -/
def Emulator.ScanLaw (e : Emulator U) (rip base : Addr) (buffer : List Byte) (scanSize : ℕ) :
    Prop :=
  ∃ found, scanBuffer buffer scanSize = .ok found ∧
    e.scanBufferForStrings rip base (buffer.take scanSize) =
      e.push (found.map fun c => ⟨rip, base + BitVec.ofNat 64 c.1, c.2⟩) ∧
    found.Pairwise (fun c c' => c.1 < c'.1) ∧
    ∀ i text, (i, text) ∈ found ↔
      ∃ stop < scanSize, TextRun buffer i stop ∧ text = (buffer.drop i).take (stop - i)

/-- A scan of no more bytes than the buffer has obeys the law. -/
theorem Emulator.scanLaw (e : Emulator U) (rip base : Addr) {buffer : List Byte} {scanSize : ℕ}
    (enough : scanSize ≤ buffer.length) : e.ScanLaw rip base buffer scanSize := by
  obtain ⟨done, increasing, runs⟩ := scanBuffer_spec enough
  exact ⟨_, done, e.scanBufferForStrings_eq_push rip base _, increasing, runs⟩

/-- Two strings in ten bytes; the second has its NUL as the last byte. -/
def Example.twoTexts : List Byte := [0x61, 0x62, 0x63, 0x64, 0, 0x65, 0x66, 0x67, 0x68, 0]

/-- A scan that ends inside the second string. -/
theorem Emulator.scanLaw_twoTexts : 7 ≤ Example.twoTexts.length ∧
    Example.withText.ScanLaw 0 0x2000 Example.twoTexts 7 :=
  ⟨by decide, Example.withText.scanLaw 0 0x2000 (by decide)⟩

/-! ### Strings in memory -/

/-- At `p` there are `n` printable bytes with a NUL behind them, all of them mapped. -/
structure PointsToText (u : U) (p : Addr) (n : ℕ) : Prop where
  long : 4 ≤ n
  short : n < 0x200
  mapped : Mapped u p (n + 1)
  printable : ∀ k < n, isAsciiPrintable (byte u (p + BitVec.ofNat 64 k)) = true
  terminated : byte u (p + BitVec.ofNat 64 n) = 0

/-- A run in the bytes read from `q`, in terms of the memory. -/
theorem textRun_bytesAt_iff {u : U} {q : Addr} {size i n : ℕ} (long : 4 ≤ n)
    (printable : ∀ k < n, isAsciiPrintable (byte u (q + BitVec.ofNat 64 (i + k))) = true)
    (terminated : byte u (q + BitVec.ofNat 64 (i + n)) = 0) :
    TextRun (bytesAt u q size) i (i + n) ↔ i + n < size ∧
      (i = 0 ∨ isAsciiPrintable (byte u (q + BitVec.ofNat 64 (i - 1))) = false) := by
  constructor
  · intro run
    have front := run.lt_length
    rw [length_bytesAt] at front
    refine ⟨front, run.maximal.imp_right ?_⟩
    rintro ⟨a, before, stops⟩
    rw [getElem?_bytesAt (by omega)] at before
    rwa [Option.some.inj before]
  · rintro ⟨front, first⟩
    refine ⟨by omega, fun k above below => ?_, ?_, first.imp_right fun stops => ?_⟩
    · have satisfies := printable (k - i) (by omega)
      rw [Nat.add_sub_cancel' above] at satisfies
      exact ⟨_, getElem?_bytesAt (by omega), satisfies⟩
    · rw [getElem?_bytesAt front, terminated]
    · exact ⟨_, getElem?_bytesAt (by omega), stops⟩

/-- A part of the bytes of a range. -/
theorem take_drop_bytesAt {u : U} {q : Addr} {size i n : ℕ} (inside : i + n ≤ size) :
    ((bytesAt u q size).drop i).take n = bytesAt u (q + BitVec.ofNat 64 i) n := by
  refine List.ext_getElem? fun k => ?_
  by_cases short : k < n
  · rw [List.getElem?_take_of_lt short, List.getElem?_drop, getElem?_bytesAt (by omega),
      getElem?_bytesAt short, BitVec.ofNat_add, add_assoc]
  · rw [List.getElem?_eq_none (by simp; omega), List.getElem?_eq_none (by simp; omega)]

/-! ### The registers -/

namespace Emulator

/-- The read of 512 bytes behind some general register other than RSP succeeds and holds the
`n` bytes at `p` with their NUL. It starts at `p`, or the byte before `p` is not printable. -/
def ReadOver (e : Emulator U) (p : Addr) (n : ℕ) : Prop :=
  ∃ r ∈ gprRegisters, r ≠ .rsp ∧ reg e.engine r ≠ 0 ∧ Mapped e.engine (reg e.engine r) 0x200 ∧
    (p - reg e.engine r).toNat + n < 0x200 ∧
    (p = reg e.engine r ∨ isAsciiPrintable (byte e.engine (p - 1)) = false)

/-- What is found behind the remaining registers is what is behind those of them that point
somewhere new. -/
theorem mem_candidatesBehind_iff (u : U) (rip : Addr) (rs : List Reg) (scanned : List Addr)
    (c : Candidate) : c ∈ candidatesBehind u rip rs scanned ↔
      ∃ r ∈ rs, r ≠ .rsp ∧ reg u r ≠ 0 ∧ reg u r ∉ scanned ∧
        c ∈ memoryCandidates u rip (reg u r) 0x200 := by
  induction rs generalizing scanned with
  | nil => exact iff_of_false List.not_mem_nil (by simp)
  | cons r rest ih =>
    rw [candidatesBehind, List.exists_mem_cons_iff]
    simp only [List.contains_iff_mem]
    by_cases passed : r = .rsp ∨ reg u r = 0 ∨ reg u r ∈ scanned
    · rw [if_pos passed, ih, or_iff_right]
      rintro ⟨general, nonzero, fresh, -⟩
      rcases passed with stack | zero | old
      · exact general stack
      · exact nonzero zero
      · exact fresh old
    · rw [if_neg passed, List.mem_append, ih]
      rw [not_or, not_or] at passed
      obtain ⟨general, nonzero, fresh⟩ := passed
      constructor
      · rintro (here | ⟨r', member, general', nonzero', fresh', later⟩)
        · exact .inl ⟨general, nonzero, fresh, here⟩
        · exact .inr ⟨r', member, general', nonzero',
            fun old => fresh' (List.mem_cons_of_mem _ old), later⟩
      · rintro (⟨-, -, -, here⟩ | ⟨r', member, general', nonzero', fresh', later⟩)
        · exact .inl here
        · -- A register with the same pointer has the same strings behind it.
          by_cases same : reg u r' = reg u r
          · exact .inl (same ▸ later)
          · refine .inr ⟨r', member, general', nonzero', ?_, later⟩
            intro known
            rcases List.mem_cons.mp known with here | old
            · exact same here
            · exact fresh' old

/-- A candidate of a range that can be read is a run in its bytes. -/
theorem mem_memoryCandidates {u : U} {rip q p : Addr} {size : ℕ} {bytes : List Byte} :
    ⟨rip, p, bytes⟩ ∈ memoryCandidates u rip q size ↔ Mapped u q size ∧
      ∃ i, q + BitVec.ofNat 64 i = p ∧
        RunAt isAsciiPrintable (0 : Byte) 4 (bytesAt u q size) i bytes := by
  rw [memoryCandidates]
  by_cases present : Mapped u q size
  · rw [memRead_of_mapped present, and_iff_right present]
    simp only [bufferCandidates, List.mem_map, Prod.exists, Candidate.mk.injEq, true_and,
      mem_scanFrom_iff, Nat.zero_add, exists_eq_left']
    constructor
    · rintro ⟨i, text, run, place, rfl⟩
      exact ⟨i, place, run⟩
    · rintro ⟨i, place, run⟩
      exact ⟨i, bytes, run, place, rfl⟩
  · rw [memRead_of_not_mapped present]
    exact iff_of_false List.not_mem_nil fun both => present both.1

/-- The bytes read from `q` give the text at `p` exactly if they hold it with its NUL and its
run begins with it. -/
theorem mem_memoryCandidates_iff {u : U} {p : Addr} {n : ℕ} (text : PointsToText u p n)
    (rip q : Addr) : ⟨rip, p, bytesAt u p n⟩ ∈ memoryCandidates u rip q 0x200 ↔
      Mapped u q 0x200 ∧ (p - q).toNat + n < 0x200 ∧
        (p = q ∨ isAsciiPrintable (byte u (p - 1)) = false) := by
  have long := text.long
  rw [mem_memoryCandidates]
  refine and_congr_right fun _ => ?_
  -- The run at the offset of `p` is the text, if it is a run.
  have run_iff {i : ℕ} (place : q + BitVec.ofNat 64 i = p) :
      TextRun (bytesAt u q 0x200) i (i + n) ↔ i + n < 0x200 ∧
        (i = 0 ∨ isAsciiPrintable (byte u (q + BitVec.ofNat 64 (i - 1))) = false) := by
    refine textRun_bytesAt_iff long (fun k short => ?_) ?_
    · rw [BitVec.ofNat_add, ← add_assoc, place]
      exact text.printable k short
    · rw [BitVec.ofNat_add, ← add_assoc, place]
      exact text.terminated
  have before {i : ℕ} (place : q + BitVec.ofNat 64 i = p) (later : i ≠ 0) :
      q + BitVec.ofNat 64 (i - 1) = p - 1 := by
    obtain ⟨j, rfl⟩ : ∃ j, i = j + 1 := ⟨i - 1, by omega⟩
    rw [← place, Nat.add_sub_cancel, BitVec.ofNat_add, ← add_assoc]
    exact (add_sub_cancel_right _ _).symm
  constructor
  · rintro ⟨i, place, stop, run, bytes⟩
    have front := run.lt_length
    have ordered := run.long
    rw [length_bytesAt] at front
    -- The run is as long as the text.
    have same : stop = i + n := by
      have length := congrArg List.length bytes
      simp only [length_bytesAt, List.length_take, List.length_drop] at length
      omega
    subst same
    obtain ⟨inside, first⟩ := (run_iff place).mp run
    have offset : (p - q).toNat = i := by
      rw [← place, add_sub_cancel_left, BitVec.toNat_ofNat, Nat.mod_eq_of_lt (by omega)]
    refine ⟨by omega, ?_⟩
    by_cases start : i = 0
    · refine .inl ?_
      rw [← place, start]
      exact BitVec.add_zero q
    · rw [← before place start]
      exact .inr (first.resolve_left start)
  · rintro ⟨inside, first⟩
    have place := add_offset q p
    refine ⟨(p - q).toNat, place, (p - q).toNat + n, (run_iff place).mpr ⟨inside, ?_⟩, ?_⟩
    · by_cases start : (p - q).toNat = 0
      · exact .inl start
      · rw [before place start]
        refine .inr (first.resolve_left ?_)
        rintro rfl
        exact start (by rw [sub_self]; rfl)
    · rw [Nat.add_sub_cancel_left, take_drop_bytesAt (by omega), place]

/-- Of the strings in memory, `dump_register_strings` passes on exactly those that the read
behind some register holds from their start. It does so for a string to which a register
points if 512 bytes can be read there. -/
theorem registerString_pushed_iff (e : Emulator U) {p : Addr} {n : ℕ}
    (text : PointsToText e.engine p n) :
    ⟨reg e.engine .rip, p, bytesAt e.engine p n⟩ ∈ e.registerCandidates ↔ e.ReadOver p n := by
  rw [registerCandidates, mem_candidatesBehind_iff]
  refine exists_congr fun r => and_congr_right fun _ => and_congr_right fun _ =>
    and_congr_right fun _ => ?_
  rw [mem_memoryCandidates_iff text]
  exact and_iff_right List.not_mem_nil

end Emulator

namespace Example

/-- RAX points to `abcd` and a NUL, in the only page that is mapped. -/
def pointing (p : Addr) : Emulator Machine :=
  .initial (regWrite (store (Machine.empty.map 0x1000 0x1000) p [0x61, 0x62, 0x63, 0x64, 0]) .rax p)
    .fresh image decoded false false

theorem pointsToText_start : PointsToText (pointing 0x1100).engine 0x1100 4 where
  long := le_rfl
  short := by decide
  mapped := by decide +kernel
  printable := by decide +kernel
  terminated := by decide +kernel

theorem pointsToText_end : PointsToText (pointing 0x1FF0).engine 0x1FF0 4 where
  long := le_rfl
  short := by decide
  mapped := by decide +kernel
  printable := by decide +kernel
  terminated := by decide +kernel

/-- The read of 512 bytes reaches behind the mapped page. -/
theorem not_mapped_end : ¬ Mapped (pointing 0x1FF0).engine 0x1FF0 0x200 := by
  intro present
  have behind := present 16 (by decide)
  revert behind
  decide +kernel

end Example

theorem Emulator.registerString_pushed_iff_start :
    PointsToText (Example.pointing 0x1100).engine 0x1100 4 ∧
      (⟨0, 0x1100, bytesAt (Example.pointing 0x1100).engine 0x1100 4⟩ ∈
        (Example.pointing 0x1100).registerCandidates ↔
          (Example.pointing 0x1100).ReadOver 0x1100 4) :=
  ⟨Example.pointsToText_start,
    registerString_pushed_iff (Example.pointing 0x1100) Example.pointsToText_start⟩

/-- A string sixteen bytes before the end of the mapped memory, with RAX pointing to it, is not
passed on. -/
theorem Emulator.registerString_lost : .rax ∈ gprRegisters ∧
    reg (Example.pointing 0x1FF0).engine .rax = 0x1FF0 ∧
    PointsToText (Example.pointing 0x1FF0).engine 0x1FF0 4 ∧
    ⟨0, 0x1FF0, bytesAt (Example.pointing 0x1FF0).engine 0x1FF0 4⟩ ∉
      (Example.pointing 0x1FF0).registerCandidates := by
  refine ⟨by decide, by decide +kernel, Example.pointsToText_end, fun pushed => ?_⟩
  obtain ⟨r, -, -, nonzero, -, found⟩ := (mem_candidatesBehind_iff _ _ _ _ _).mp pushed
  have present := (mem_memoryCandidates.mp found).1
  -- RAX is the only register that is not zero.
  have only : reg (Example.pointing 0x1FF0).engine r = 0x1FF0 := by
    revert nonzero
    cases r <;> decide +kernel
  rw [only] at present
  exact Example.not_mapped_end present

end Unxorer
