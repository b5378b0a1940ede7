import Unxorer.Emulator.Run
import Unxorer.Lib.LinearSweep
import Unxorer.Machine.HostWrites

/-!
# The table of decoded instructions

Before anything is emulated the image is swept once, from its first address to its last, and every
instruction the decoder finds at the position of the sweep goes into a table. The hooks look up
instructions in this table only.

## Main definitions

* `captureInstructionSnapshot` — the sweep
* `Reaches` — the addresses a round of the loop begins at
* `SnapshotLaw` — what holds of the table

## Main results

* `snapshotLaw` — the sweep ends, with a table for which the law holds
-/

set_option autoImplicit false

namespace Unxorer

/-! ### The sweep -/

section Sweep

-- IDA's `decode_insn`: the instruction at an address, or `none` where it returns zero.
variable (decodeInsn : Addr → Option Insn)

/-- `emplace` on the map of decoded instructions, which leaves an entry that is there. -/
def InstructionSnapshot.emplace (decoded : InstructionSnapshot) (ea : Addr) (insn : Insn) :
    InstructionSnapshot :=
  if ea ∈ decoded then decoded else decoded.insert ea insn

/-- One round of the loop, with the address of the next round. -/
def sweepRound (ea : Addr) (decoded : InstructionSnapshot) : Addr × InstructionSnapshot :=
  match decodeInsn ea with
  | none => (ea + 1, decoded)
  | some insn =>
    if insn.size = 0 then (ea + 1, decoded)
    else (ea + insn.size.setWidth 64, decoded.emplace ea insn)

/-- The loop from an address on; `none` if it goes on after `fuel` rounds. -/
def sweep (imageMax : Addr) : ℕ → Addr → InstructionSnapshot → Option InstructionSnapshot
  | 0, _, _ => none
  | fuel + 1, ea, decoded =>
    if ea < imageMax then
      sweep imageMax fuel (sweepRound decodeInsn ea decoded).1 (sweepRound decodeInsn ea decoded).2
    else some decoded

/-- `capture_instruction_snapshot`, with at most `fuel` rounds of its loop. -/
def captureInstructionSnapshot (imageMin imageMax : Addr) (fuel : ℕ) :
    Option (Option InstructionSnapshot) :=
  if imageMin = badAddr ∨ imageMax = badAddr ∨ imageMax ≤ imageMin then some none
  else (sweep decodeInsn imageMax fuel imageMin ∅).map some

/-- The loop comes to an address with these instructions in the table. -/
inductive Reaches (imageMin imageMax : Addr) : Addr → InstructionSnapshot → Prop
  | start : Reaches imageMin imageMax imageMin ∅
  | round {ea : Addr} {decoded : InstructionSnapshot}
      (reached : Reaches imageMin imageMax ea decoded) (inside : ea < imageMax) :
      Reaches imageMin imageMax (sweepRound decodeInsn ea decoded).1
        (sweepRound decodeInsn ea decoded).2

/-- A round of the loop tries to decode an instruction at the address. -/
def Tried (imageMin imageMax x : Addr) : Prop :=
  ∃ decoded, Reaches decodeInsn imageMin imageMax x decoded ∧ x < imageMax

end Sweep

/-- The addresses of an instruction's bytes. -/
def insnBytes (a : Addr) (insn : Insn) : Destination := ⟨a, insn.size.toNat⟩

/-- What holds of the table of an image. -/
structure SnapshotLaw (decodeInsn : Addr → Option Insn) (imageMin imageMax : Addr)
    (snapshot : InstructionSnapshot) : Prop where
  inside : ∀ a insn, snapshot.lookup a = some insn → imageMin ≤ a ∧ a < imageMax
  decoded : ∀ a insn, snapshot.lookup a = some insn → decodeInsn a = some insn
  disjoint : ∀ a b insn insn', snapshot.lookup a = some insn → snapshot.lookup b = some insn' →
    a ≠ b → Disjoint (insnBytes a insn).addresses (insnBytes b insn').addresses
  /-- An address of the image is either inside exactly one instruction of the table, or decoding
  was tried there and has failed. -/
  covered : ∀ x, imageMin ≤ x → x < imageMax →
    Xor (∃! a, ∃ insn, snapshot.lookup a = some insn ∧ x ∈ (insnBytes a insn).addresses)
      (Tried decodeInsn imageMin imageMax x ∧ decodeInsn x = none)

/-! ### Rounds -/

section Rounds

/-- The number of bytes the sweep finds decoded at a position. -/
def insnLength (decodeInsn : Addr → Option Insn) (p : ℕ) : Option ℕ :=
  (decodeInsn (BitVec.ofNat 64 p)).map fun insn => insn.size.toNat

/-- The positions the sweep comes to. -/
def sweepPosition (decodeInsn : Addr → Option Insn) (imageMin : Addr) (n : ℕ) : ℕ :=
  LinearSweep.position (insnLength decodeInsn) imageMin.toNat n

variable {decodeInsn : Addr → Option Insn} {imageMin imageMax ea : Addr}
  {decoded : InstructionSnapshot} {n : ℕ}

theorem insnLength_toNat (a : Addr) :
    insnLength decodeInsn a.toNat = (decodeInsn a).map fun insn => insn.size.toNat := by
  rw [insnLength, BitVec.ofNat_toNat, BitVec.setWidth_eq]

variable (sized : ∀ a insn, decodeInsn a = some insn → 1 ≤ insn.size.toNat ∧ insn.size.toNat ≤ 15)
include sized

theorem insnLength_pos (p l : ℕ) (item : insnLength decodeInsn p = some l) : 0 < l := by
  obtain ⟨insn, found, rfl⟩ := Option.map_eq_some_iff.mp item
  exact (sized _ insn found).1

/-- A round either finds nothing or adds the instruction it has found. -/
theorem sweepRound_cases (ea : Addr) (decoded : InstructionSnapshot) :
    (decodeInsn ea = none ∧ sweepRound decodeInsn ea decoded = (ea + 1, decoded)) ∨
      ∃ insn, decodeInsn ea = some insn ∧ sweepRound decodeInsn ea decoded =
        (ea + insn.size.setWidth 64, decoded.emplace ea insn) := by
  rw [sweepRound]
  cases found : decodeInsn ea with
  | none => exact .inl ⟨rfl, rfl⟩
  | some insn =>
    have nonzero : insn.size ≠ 0 := by
      intro zero
      have positive := (sized ea insn found).1
      rw [zero] at positive
      exact absurd positive (by decide)
    exact .inr ⟨insn, rfl, if_neg nonzero⟩

variable (decoded) in
/-- The next round is at the next position of the sweep; its address does not wrap around. -/
theorem toNat_sweepRound (room : imageMax.toNat ≤ 2 ^ 64 - 16) (inside : ea < imageMax) :
    (sweepRound decodeInsn ea decoded).1.toNat =
      LinearSweep.next (insnLength decodeInsn) ea.toNat := by
  rw [BitVec.lt_def] at inside
  rw [LinearSweep.next, insnLength_toNat]
  rcases sweepRound_cases sized ea decoded with ⟨missing, round⟩ | ⟨insn, found, round⟩
  · rw [round, missing]
    exact toNat_add_ofNat (k := 1) (by omega)
  · have short := (sized ea insn found).2
    have wide : (insn.size.setWidth 64).toNat = insn.size.toNat := by
      rw [BitVec.toNat_setWidth, Nat.mod_eq_of_lt (by omega)]
    rw [round, found, BitVec.toNat_add, wide, Nat.mod_eq_of_lt (by omega)]
    rfl

/-- A round records the instruction at its address, if there is one and none is recorded there. -/
theorem lookup_sweepRound (new : decoded.lookup ea = none) (a : Addr) (insn : Insn) :
    (sweepRound decodeInsn ea decoded).2.lookup a = some insn ↔
      decoded.lookup a = some insn ∨ a = ea ∧ decodeInsn a = some insn := by
  rcases sweepRound_cases sized ea decoded with ⟨missing, round⟩ | ⟨found, known, round⟩
  · rw [round]
    refine ⟨.inl, fun either => either.resolve_right ?_⟩
    rintro ⟨rfl, found⟩
    rw [missing] at found
    cases found
  · have absent : ea ∉ decoded := AList.lookup_eq_none.mp new
    rw [round]
    simp only [InstructionSnapshot.emplace, if_neg absent]
    by_cases here : a = ea
    · subst here
      rw [AList.lookup_insert, new, known]
      simp
    · rw [AList.lookup_insert_ne here]
      exact ⟨.inl, fun either => either.resolve_right fun there => here there.1⟩

/-! ### The loop -/

/-- After `n` rounds the loop is at a position of the sweep, and the table holds the instructions
the decoder finds at the positions before. -/
structure SweptTo (decodeInsn : Addr → Option Insn) (imageMin imageMax : Addr) (n : ℕ) (ea : Addr)
    (decoded : InstructionSnapshot) : Prop where
  position : sweepPosition decodeInsn imageMin n = ea.toNat
  passed : ∀ m < n, sweepPosition decodeInsn imageMin m < imageMax.toNat
  records : ∀ a insn, decoded.lookup a = some insn ↔
    decodeInsn a = some insn ∧ ∃ m < n, sweepPosition decodeInsn imageMin m = a.toNat

omit sized in
theorem SweptTo.start : SweptTo decodeInsn imageMin imageMax 0 imageMin ∅ where
  position := rfl
  passed m before := absurd before (Nat.not_lt_zero m)
  records a insn := by
    rw [AList.lookup_empty]
    constructor
    · intro found
      cases found
    · rintro ⟨-, m, before, -⟩
      exact absurd before (Nat.not_lt_zero m)

theorem SweptTo.round (swept : SweptTo decodeInsn imageMin imageMax n ea decoded)
    (room : imageMax.toNat ≤ 2 ^ 64 - 16) (inside : ea < imageMax) :
    SweptTo decodeInsn imageMin imageMax (n + 1) (sweepRound decodeInsn ea decoded).1
      (sweepRound decodeInsn ea decoded).2 := by
  have ahead := LinearSweep.position_strictMono imageMin.toNat (insnLength_pos sized)
  refine ⟨?_, fun m before => ?_, fun a insn => ?_⟩
  · rw [toNat_sweepRound decoded sized room inside, ← swept.position]
    exact LinearSweep.position_succ
  · rcases Nat.lt_succ_iff_lt_or_eq.mp before with earlier | rfl
    · exact swept.passed m earlier
    · rw [swept.position]
      exact inside
  · -- The positions only grow, so nothing is recorded at the address yet.
    have new : decoded.lookup ea = none := by
      by_contra known
      obtain ⟨insn, found⟩ := Option.ne_none_iff_exists'.mp known
      obtain ⟨-, m, before, same⟩ := (swept.records ea insn).mp found
      rw [← swept.position] at same
      exact absurd (ahead.injective same) (Nat.ne_of_lt before)
    rw [lookup_sweepRound sized new, swept.records]
    constructor
    · rintro (⟨found, m, before, same⟩ | ⟨rfl, found⟩)
      · exact ⟨found, m, before.trans (Nat.lt_succ_self n), same⟩
      · exact ⟨found, n, Nat.lt_succ_self n, swept.position⟩
    · rintro ⟨found, m, before, same⟩
      rcases Nat.lt_succ_iff_lt_or_eq.mp before with earlier | rfl
      · exact .inl ⟨found, m, earlier, same⟩
      · rw [swept.position] at same
        exact .inr ⟨BitVec.eq_of_toNat_eq same.symm, found⟩

/-- Wherever the loop comes to, it has swept up to there. -/
theorem Reaches.swept (room : imageMax.toNat ≤ 2 ^ 64 - 16)
    (reached : Reaches decodeInsn imageMin imageMax ea decoded) :
    ∃ n, SweptTo decodeInsn imageMin imageMax n ea decoded := by
  induction reached with
  | start => exact ⟨0, .start⟩
  | round _ inside ih =>
    obtain ⟨n, swept⟩ := ih
    exact ⟨n + 1, swept.round sized room inside⟩

variable (imageMin) in
/-- The loop comes to every position of the sweep that lies in the image. -/
theorem exists_reaches (room : imageMax.toNat ≤ 2 ^ 64 - 16) (n : ℕ)
    (passed : ∀ m < n, sweepPosition decodeInsn imageMin m < imageMax.toNat) :
    ∃ ea decoded, Reaches decodeInsn imageMin imageMax ea decoded ∧
      ea.toNat = sweepPosition decodeInsn imageMin n := by
  induction n with
  | zero => exact ⟨imageMin, ∅, .start, rfl⟩
  | succ n ih =>
    obtain ⟨ea, decoded, reached, here⟩ := ih fun m before => passed m (before.trans (by omega))
    have inside : ea < imageMax := by
      rw [BitVec.lt_def, here]
      exact passed n (Nat.lt_succ_self n)
    refine ⟨_, _, .round reached inside, ?_⟩
    rw [toNat_sweepRound decoded sized room inside, here]
    exact LinearSweep.position_succ.symm

variable (imageMin) in
theorem tried_iff (room : imageMax.toNat ≤ 2 ^ 64 - 16) {x : Addr} (inside : x < imageMax) :
    Tried decodeInsn imageMin imageMax x ↔
      ∃ n, sweepPosition decodeInsn imageMin n = x.toNat := by
  constructor
  · rintro ⟨decoded, reached, -⟩
    obtain ⟨n, swept⟩ := reached.swept sized room
    exact ⟨n, swept.position⟩
  · rintro ⟨n, here⟩
    obtain ⟨ea, decoded, reached, same⟩ := exists_reaches imageMin sized room n
      fun m before => by
        have earlier := LinearSweep.position_strictMono imageMin.toNat
          (insnLength_pos sized) before
        exact earlier.trans (here.trans_lt inside)
    rw [here] at same
    rw [BitVec.eq_of_toNat_eq same] at reached
    exact ⟨decoded, reached, inside⟩

/-! ### The table -/

/-- Where the loop ends, the table holds the instructions at all positions inside the image. -/
theorem SweptTo.lookup_iff (swept : SweptTo decodeInsn imageMin imageMax n ea decoded)
    (done : ¬ ea < imageMax) (a : Addr) (insn : Insn) :
    decoded.lookup a = some insn ↔ decodeInsn a = some insn ∧ a < imageMax ∧
      ∃ m, sweepPosition decodeInsn imageMin m = a.toNat := by
  have ahead := LinearSweep.position_strictMono imageMin.toNat (insnLength_pos sized)
  rw [swept.records]
  constructor
  · rintro ⟨found, m, before, same⟩
    have inside := swept.passed m before
    rw [same] at inside
    exact ⟨found, inside, m, same⟩
  · rintro ⟨found, inside, m, same⟩
    refine ⟨found, m, ahead.lt_iff_lt.mp ?_, same⟩
    have position := swept.position
    rw [BitVec.lt_def] at done inside
    unfold sweepPosition at same position
    omega

/-- An address of an instruction in the table is a position inside an item of the sweep. -/
theorem contains_iff (room : imageMax.toNat ≤ 2 ^ 64 - 16) {a x : Addr} {insn : Insn} {m : ℕ}
    (found : decodeInsn a = some insn) (inside : a < imageMax)
    (here : sweepPosition decodeInsn imageMin m = a.toNat) :
    x ∈ (insnBytes a insn).addresses ↔
      LinearSweep.Contains (insnLength decodeInsn) imageMin.toNat m x.toNat := by
  have short := (sized a insn found).2
  rw [BitVec.lt_def] at inside
  have length : insnLength decodeInsn a.toNat = some insn.size.toNat := by
    rw [insnLength_toNat, found]
    rfl
  rw [insnBytes, Destination.mem_addresses_iff (by omega), LinearSweep.Contains]
  change _ ↔ ∃ l, insnLength decodeInsn (sweepPosition decodeInsn imageMin m) = some l ∧
    sweepPosition decodeInsn imageMin m ≤ x.toNat ∧
      x.toNat < sweepPosition decodeInsn imageMin m + l
  rw [here, length]
  constructor
  · exact fun interval => ⟨_, rfl, interval⟩
  · rintro ⟨l, same, interval⟩
    cases same
    exact interval

/-- An instruction of the table at an address is an item of the sweep there. -/
theorem SweptTo.contains (swept : SweptTo decodeInsn imageMin imageMax n ea decoded)
    (room : imageMax.toNat ≤ 2 ^ 64 - 16) (done : ¬ ea < imageMax) {a x : Addr} {insn : Insn}
    (known : decoded.lookup a = some insn) (member : x ∈ (insnBytes a insn).addresses) :
    ∃ m, sweepPosition decodeInsn imageMin m = a.toNat ∧
      LinearSweep.Contains (insnLength decodeInsn) imageMin.toNat m x.toNat := by
  obtain ⟨found, inside, m, here⟩ := (swept.lookup_iff sized done a insn).mp known
  exact ⟨m, here, (contains_iff sized room found inside here).mp member⟩

/-- An address of the image is inside one instruction of the table, or a failed attempt. -/
theorem SweptTo.covered (swept : SweptTo decodeInsn imageMin imageMax n ea decoded)
    (room : imageMax.toNat ≤ 2 ^ 64 - 16) (done : ¬ ea < imageMax) {x : Addr}
    (lower : imageMin ≤ x) (upper : x < imageMax) :
    Xor (∃! a, ∃ insn, decoded.lookup a = some insn ∧ x ∈ (insnBytes a insn).addresses)
      (Tried decodeInsn imageMin imageMax x ∧ decodeInsn x = none) := by
  have positive := insnLength_pos sized
  have tried := tried_iff imageMin sized room upper
  have none_iff : insnLength decodeInsn x.toNat = none ↔ decodeInsn x = none := by
    rw [insnLength_toNat, Option.map_eq_none_iff]
  rcases LinearSweep.exists_contains_or_missing positive lower with
    ⟨m, contains⟩ | ⟨m, here, missing⟩
  · refine .inl ⟨?_, ?_⟩
    · obtain ⟨l, length, low, -⟩ := id contains
      change sweepPosition decodeInsn imageMin m ≤ x.toNat at low
      have position : sweepPosition decodeInsn imageMin m =
          (BitVec.ofNat 64 (sweepPosition decodeInsn imageMin m)).toNat := by
        rw [BitVec.toNat_ofNat, Nat.mod_eq_of_lt (low.trans_lt x.isLt)]
      obtain ⟨insn, found, -⟩ := Option.map_eq_some_iff.mp length
      have inside : BitVec.ofNat 64 (sweepPosition decodeInsn imageMin m) < imageMax := by
        rw [BitVec.lt_def, ← position]
        exact low.trans_lt upper
      refine ⟨BitVec.ofNat 64 (sweepPosition decodeInsn imageMin m), ⟨insn, ?_, ?_⟩, ?_⟩
      · exact (swept.lookup_iff sized done _ insn).mpr ⟨found, inside, m, position⟩
      · exact (contains_iff sized room found inside position).mpr contains
      · rintro b ⟨insn', known, member⟩
        obtain ⟨m', here, contains'⟩ := swept.contains sized room done known member
        rw [contains.unique positive contains', here, BitVec.ofNat_toNat, BitVec.setWidth_eq]
    · rintro ⟨attempt, failed⟩
      obtain ⟨m', here⟩ := tried.mp attempt
      exact contains.not_missing positive here (none_iff.mpr failed)
  · refine .inr ⟨⟨tried.mpr ⟨m, here⟩, none_iff.mp missing⟩, ?_⟩
    rintro ⟨a, ⟨insn, known, member⟩, -⟩
    obtain ⟨m', -, contains⟩ := swept.contains sized room done known member
    exact contains.not_missing positive here missing

/-- The law holds of the table a sweep ends with. -/
theorem SweptTo.law (swept : SweptTo decodeInsn imageMin imageMax n ea decoded)
    (room : imageMax.toNat ≤ 2 ^ 64 - 16) (done : ¬ ea < imageMax) :
    SnapshotLaw decodeInsn imageMin imageMax decoded := by
  have positive := insnLength_pos sized
  refine ⟨fun a insn known => ?_, fun a insn known => ?_, ?_, fun x lower upper => ?_⟩
  · obtain ⟨-, inside, m, here⟩ := (swept.lookup_iff sized done a insn).mp known
    refine ⟨?_, inside⟩
    rw [BitVec.le_def, ← here]
    exact LinearSweep.start_le_position positive m
  · exact ((swept.lookup_iff sized done a insn).mp known).1
  · intro a b insn insn' known known' differ
    obtain ⟨found, inside, m, here⟩ := (swept.lookup_iff sized done a insn).mp known
    obtain ⟨found', inside', m', here'⟩ := (swept.lookup_iff sized done b insn').mp known'
    rw [Set.disjoint_left]
    intro x left right
    have same := ((contains_iff sized room found inside here).mp left).unique positive
      ((contains_iff sized room found' inside' here').mp right)
    subst same
    exact differ (BitVec.eq_of_toNat_eq (here.symm.trans here'))
  · exact swept.covered sized room done lower upper

/-! ### The end of the sweep -/

omit sized in
/-- More rounds than are needed change nothing. -/
theorem sweep_of_le {fuel fuel' : ℕ} {result : InstructionSnapshot}
    (ended : sweep decodeInsn imageMax fuel ea decoded = some result) (le : fuel ≤ fuel') :
    sweep decodeInsn imageMax fuel' ea decoded = some result := by
  induction fuel generalizing fuel' ea decoded with
  | zero => cases ended
  | succ fuel ih =>
    obtain ⟨more, rfl⟩ := Nat.exists_eq_add_of_le le
    rw [Nat.add_right_comm, sweep]
    rw [sweep] at ended
    by_cases inside : ea < imageMax
    · rw [if_pos inside] at ended ⊢
      exact ih ended (Nat.le_add_right fuel more)
    · rwa [if_neg inside] at ended ⊢

/-- Every round brings the loop nearer to the end of the image. -/
theorem Reaches.sweep_ends (room : imageMax.toNat ≤ 2 ^ 64 - 16)
    (reached : Reaches decodeInsn imageMin imageMax ea decoded) {fuel : ℕ}
    (enough : imageMax.toNat - ea.toNat < fuel) :
    ∃ last result, Reaches decodeInsn imageMin imageMax last result ∧ ¬ last < imageMax ∧
      sweep decodeInsn imageMax fuel ea decoded = some result := by
  induction fuel generalizing ea decoded with
  | zero => omega
  | succ fuel ih =>
    rw [sweep]
    by_cases inside : ea < imageMax
    · rw [if_pos inside]
      have nearer := LinearSweep.lt_next (insnLength_pos sized) ea.toNat
      rw [← toNat_sweepRound decoded sized room inside] at nearer
      rw [BitVec.lt_def] at inside
      exact ih (.round reached inside) (by omega)
    · rw [if_neg inside]
      exact ⟨ea, decoded, reached, inside, rfl⟩

/-- Whatever is in the image, the sweep ends after as many rounds as the image has addresses, or
fewer, and the law holds of the table. -/
theorem snapshotLaw (order : imageMin < imageMax) (room : imageMax.toNat ≤ 2 ^ 64 - 16) :
    ∃ snapshot, SnapshotLaw decodeInsn imageMin imageMax snapshot ∧
      ∀ fuel, imageMax.toNat - imageMin.toNat < fuel →
        captureInstructionSnapshot decodeInsn imageMin imageMax fuel = some (some snapshot) := by
  have atStart : Reaches decodeInsn imageMin imageMax imageMin ∅ := .start
  obtain ⟨last, snapshot, reached, done, ended⟩ :=
    atStart.sweep_ends sized room (Nat.lt_succ_self _)
  obtain ⟨n, swept⟩ := reached.swept sized room
  refine ⟨snapshot, swept.law sized room done, fun fuel enough => ?_⟩
  have valid : ¬ (imageMin = badAddr ∨ imageMax = badAddr ∨ imageMax ≤ imageMin) := by
    have top : badAddr.toNat = 2 ^ 64 - 1 := rfl
    rw [BitVec.lt_def] at order
    rw [← BitVec.toNat_inj, ← BitVec.toNat_inj, BitVec.le_def]
    omega
  rw [captureInstructionSnapshot, if_neg valid, sweep_of_le ended enough, Option.map_some]

end Rounds

/-- A decoder that finds `push rbx` at one address and `call rax` at another. -/
def exampleDecoder (a : Addr) : Option Insn :=
  if a = 0x140000000 then some ⟨.push, 1, ⟨.reg, 3, 0, 0⟩, .none, .none⟩
  else if a = 0x140000003 then some ⟨.callni, 2, ⟨.reg, 0, 0, 0⟩, .none, .none⟩
  else none

theorem exampleDecoder_sized (a : Addr) (insn : Insn) (found : exampleDecoder a = some insn) :
    1 ≤ insn.size.toNat ∧ insn.size.toNat ≤ 15 := by
  rw [exampleDecoder] at found
  split_ifs at found
  · cases found
    decide
  · cases found
    decide

theorem snapshotLaw_two :
    ∃ snapshot, SnapshotLaw exampleDecoder 0x140000000 0x140000008 snapshot ∧
      ∀ fuel, (0x140000008 : Addr).toNat - (0x140000000 : Addr).toNat < fuel →
        captureInstructionSnapshot exampleDecoder 0x140000000 0x140000008 fuel =
          some (some snapshot) :=
  snapshotLaw exampleDecoder_sized (by decide) (by decide)

end Unxorer
