import Unxorer.Vector.AesRegisters
import Unxorer.Vector.ShiftCounts

/-!
# Sources that cannot be read

`handle_move` writes its destination only when the read of its source succeeds. The other
handlers drop what `read_operand` returns: a source that cannot be read is a buffer of zeros,
and the destination receives what the instruction makes of it.

## Main definitions

* `ReadFails` — the read of a source fails
* `leftOver` — what an instruction makes of the sources that can be read

## Main results

* `readOperand_zero` — what a read leaves in a zeroed buffer, failed or not
* `Handler.handle_destination_iff` — when the destination keeps its value all the same
-/

set_option autoImplicit false

namespace Unxorer

open Unicorn VectorOperations RegisterMapper Lanes Packed AesImpl

variable {U : Type} [Unicorn U]

/-! ### Reads -/

/-- The bytes of a source of `n` bytes, `none` where the read fails. -/
def source (u : U) (op : Operand) (n : ℕ) : Option (Buf n) := readOperand u op (Buf.zero n) n

/-- The operand before the last one, or the destination of an instruction with two operands. -/
def firstOperand (insn : Insn) : Operand := if insn.op3.type ≠ .void then insn.op2 else insn.op1

def isRound (itype : Itype) : Bool := List.elem (Handler.legacyAes itype)
  [.aesenc, .aesenclast, .aesdec, .aesdeclast]

def stateOperand (insn : Insn) : Operand :=
  if Handler.isAvxAes insn.itype then insn.op2 else insn.op1

def keyOperand (insn : Insn) : Operand :=
  if Handler.isAvxAes insn.itype then insn.op3 else insn.op2

/-- One of the reads an instruction makes of its sources fails. -/
def ReadFails (u : U) (insn : Insn) : Prop :=
  let size := vectorRegSize insn.op1.reg
  if Handler.isAes insn.itype then
    if isRound insn.itype then
      source u (stateOperand insn) 16 = none ∨ source u (keyOperand insn) 16 = none
    else source u insn.op2 16 = none
  else
    source u (firstOperand insn) size = none ∨
      if Handler.isShift insn.itype then source u (countOperand insn) 8 = none
      else source u (countOperand insn) size = none

/-! ### What is left -/

/-- A round makes the keyless round of a state without a key, and adds a key without a state
to the substitute of zero. -/
def roundLeftOver (itype : Itype) (state key : Option Block) : Block :=
  match state with
  | some s => keylessRound itype s
  | none =>
    let substitute : Byte :=
      if List.elem (Handler.legacyAes itype) [.aesenc, .aesenclast] then 0x63 else 0x52
    xorBlock (fun _ => substitute) (key.getD (Buf.zero 16))

/-- The key schedule of zeros: the substitute of zero everywhere, with the round constant in
the first byte of the second and the last word. -/
def assistLeftOver (rcon : Byte) : Block := fun j => if j.1 % 8 = 4 then 0x63 ^^^ rcon else 0x63

def leftOver (u : U) (insn : Insn) : Buf 32 :=
  let size := vectorRegSize insn.op1.reg
  if Handler.isAes insn.itype then
    if isRound insn.itype then
      (roundLeftOver insn.itype (source u (stateOperand insn) 16)
        (source u (keyOperand insn) 16)).resize 32
    else if Handler.legacyAes insn.itype = .aesimc then Buf.zero 32
    else (assistLeftOver (insn.op3.value.setWidth 8)).resize 32
  else
    let first := source u (firstOperand insn) size
    -- A shift by a count that cannot be read is a shift by zero.
    if Handler.isShift insn.itype then (first.getD (Buf.zero size)).resize 32
    else
      match operation insn.itype with
      | some op => Buf.resize 32 (op.ofMissing first (source u (countOperand insn) size))
      | none => Buf.zero 32

/-! ### Reading into zeros -/

/-- A read copies some bytes to the front of its buffer, whatever the buffer, or fails. -/
theorem exists_copied (u : U) (op : Operand) (size : ℕ) : ∃ copied : Option (List Byte),
    (∀ bs, copied = some bs → bs.length ≤ size) ∧
      ∀ (n : ℕ) (dest : Buf n), readOperand u op dest size = copied.map dest.copy := by
  cases type : op.type with
  | mem | displ =>
    refine ⟨memRead u (calculateEffectiveAddress u op) size, ?_, ?_⟩
    · exact fun bs read => (length_of_memRead read).le
    · intro n dest
      simp only [readOperand, type]
  | imm =>
    refine ⟨some ((leBytes op.value).take (min size 8)), ?_, ?_⟩
    · intro bs same
      rw [← Option.some.inj same, List.length_take]
      omega
    · intro n dest
      simp only [readOperand, type, Option.map_some]
  | reg =>
    by_cases isVector : vectorRegSize op.reg > 0
    · by_cases narrow : isXmmReg op.reg = true ∧ size ≥ 16
      · refine ⟨(xmmToUnicorn op.reg).map fun i => List.ofFn (xmm u i), ?_, ?_⟩
        · intro bs same
          obtain ⟨i, -, rfl⟩ := Option.map_eq_some_iff.mp same
          rw [List.length_ofFn]
          exact narrow.2
        · intro n dest
          simp only [readOperand, type, if_pos isVector, readVectorRegister, if_pos narrow,
            Option.map_map, Function.comp_def]
      · by_cases wide : isYmmReg op.reg = true ∧ size ≥ 32
        · refine ⟨(ymmToUnicorn op.reg).map fun i => List.ofFn (ymm u i), ?_, ?_⟩
          · intro bs same
            obtain ⟨i, -, rfl⟩ := Option.map_eq_some_iff.mp same
            rw [List.length_ofFn]
            exact wide.2
          · intro n dest
            simp only [readOperand, type, if_pos isVector, readVectorRegister, if_neg narrow,
              if_pos wide, Option.map_map, Function.comp_def]
        · refine ⟨none, ?_, ?_⟩
          · intro bs same
            cases same
          intro n dest
          simp only [readOperand, type, if_pos isVector, readVectorRegister, if_neg narrow,
            if_neg wide, Option.map_none]
    · refine ⟨(idaToUnicorn op.reg).map fun r => (leBytes (reg u r)).take (min size 8), ?_, ?_⟩
      · intro bs same
        obtain ⟨r, -, rfl⟩ := Option.map_eq_some_iff.mp same
        rw [List.length_take]
        omega
      · intro n dest
        simp only [readOperand, type, if_neg isVector, Option.map_map, Function.comp_def]
  | _ =>
    refine ⟨none, ?_, ?_⟩
    · intro bs same
      cases same
    intro n dest
    simp only [readOperand, type, Option.map_none]

/-- A zeroed buffer after a read: the source, zeros where it ends, and zeros throughout when
the read failed. -/
theorem readOperand_zero (u : U) (op : Operand) (size m : ℕ) :
    (readOperand u op (Buf.zero m) size).getD (Buf.zero m) =
      ((source u op size).getD (Buf.zero size)).resize m := by
  obtain ⟨copied, short, copies⟩ := exists_copied u op size
  rw [source, copies, copies]
  funext j
  cases copied with
  | none =>
    by_cases inside : j.1 < size
    · rw [Buf.resize_of_lt _ _ inside]
      rfl
    · rw [Buf.resize_of_le _ _ (Nat.not_lt.mp inside)]
      rfl
  | some bs =>
    have length := short bs rfl
    by_cases inside : j.1 < size
    · rw [Buf.resize_of_lt _ _ inside]
      rfl
    · rw [Buf.resize_of_le _ _ (Nat.not_lt.mp inside)]
      exact Buf.copy_of_le _ (length.trans (Nat.not_lt.mp inside))

theorem source_updateRip (u : U) (address : Addr) (length : BitVec 32) (op : Operand) (n : ℕ) :
    source (updateRip u address length) op n = source u op n :=
  readOperand_updateRip u address length op _ n

/-! ### The destination -/

/-- A register is as it was after a write exactly when the bytes written are its own. A write
of 16 bytes to a YMM register writes zeros above them. -/
theorem ymm_writeOperand_eq_iff (u : U) {op : Operand} {size : ℕ} {i : Fin 16}
    (h : IsRegister op size i) {n : ℕ} (res : Buf n) {written : ℕ}
    (whole : written = size ∨ written = 16) :
    ymm ((writeOperand u op res written).getD u) i = ymm u i ↔
      ∀ j < size, byteAt (ymm u i) j = byteAt (res.resize written) j := by
  have after : ∀ j : Fin 32, ymm ((writeOperand u op res written).getD u) i j =
      if j.1 < size then byteAt (res.resize written) j else ymm u i j := by
    intro j
    rcases h.size_eq with rfl | rfl
    · obtain rfl : written = 16 := whole.elim id id
      rw [writeOperand_xmm u h res (by decide), Option.getD_some, ymm_xmmWrite, if_pos rfl]
      simp only [byteAt]
      split_ifs <;> rfl
    · have fits : written ≤ 32 := by omega
      rw [writeOperand_ymm u h, Option.getD_some, ymm_ymmWrite, if_pos rfl, min_eq_left fits,
        if_pos j.2, byteAt]
      by_cases inside : j.1 < written
      · rw [dif_pos inside, Buf.copy_of_lt _ (by simpa using inside), Buf.getElem_take]
      · rw [dif_neg inside, Buf.copy_of_le _ (by simpa using inside)]
        rfl
  constructor
  · intro kept j inside
    have room : j < 32 := inside.trans_le h.size_le
    have byte := after ⟨j, room⟩
    rw [kept, if_pos inside] at byte
    rw [byteAt, dif_pos room]
    exact byte
  · intro same
    funext j
    rw [after]
    split_ifs with inside
    · rw [← same j inside, byteAt, dif_pos j.2]
    · rfl

/-! ### The computations on missing sources -/

theorem shiftElement_zero {bits : ℕ} (itype : Itype) (count : BitVec 64) :
    Handler.shiftElement (0 : BitVec bits) count itype = 0 := by
  simp [Handler.shiftElement]

theorem shiftElement_count_zero {bits : ℕ} (itype : Itype) (positive : 0 < bits)
    (s : BitVec bits) : Handler.shiftElement s 0 itype = s := by
  have small : ¬ (0 : BitVec 64).toNat ≥ bits := Nat.not_le.mpr positive
  rw [Handler.shiftElement, if_neg small]
  split_ifs <;> simp

section Computations

variable {itype : Itype} {size : ℕ} (width : size = 16 ∨ size = 32)
include width

/-- A two-source instruction computes what is left of its sources. -/
theorem binary_ofMissing {op : Operation} (known : operation itype = some op)
    {a b : Option (Buf size)} (missing : a = none ∨ b = none) :
    ∃ res, Handler.binary itype size ((a.getD (Buf.zero size)).resize 32)
        ((b.getD (Buf.zero size)).resize 32) = some res ∧
      res.resize size = op.ofMissing a b := by
  obtain ⟨positive, divides⟩ := width_of_operation known
  have whole : op.width ∣ size := dvd_of_dvd_sixteen divides width
  obtain ⟨res, computed, computes⟩ :=
    binary_computes width known (a.getD (Buf.zero size)) (b.getD (Buf.zero size))
  have left := Operation.computes_ofMissing positive missing
  exact ⟨res, computed, computes.unique positive whole left⟩

/-- A shift of zeros or by zero leaves what it shifts. -/
theorem performShift_eq (itype : Itype) {w : ℕ} (positive : 0 < w) (divides : w ∣ 16)
    {s : Buf size} {count : BitVec 64} (missing : s = Buf.zero size ∨ count = 0) :
    (Handler.performShift w (Buf.zero 32) (s.resize 32) count size itype).resize size = s := by
  have wide : size ≤ 32 := by omega
  have whole : w ∣ size := dvd_of_dvd_sixteen divides width
  have elements : ∀ k, Handler.shiftElement (lane w (s.resize 32) k) count itype =
      lane w (s.resize 32) k := by
    intro k
    rcases missing with rfl | rfl
    · have zeros : (Buf.zero size).resize 32 = 0 := by
        funext j
        simp [Buf.resize, Buf.zero]
      rw [zeros, lane_zero]
      exact shiftElement_zero itype count
    · exact shiftElement_count_zero itype (by omega) _
  funext j
  have inside : j.1 < 32 := by omega
  have stored : j.1 / w < size / w := by
    obtain ⟨q, rfl⟩ := whole
    rw [Nat.mul_div_cancel_left q positive]
    exact Nat.div_lt_of_lt_mul j.2
  rw [Buf.resize_of_lt _ _ inside, Handler.performShift, storeLanes]
  simp only [if_pos stored, elements]
  rw [byteOf_lane _ _ (Nat.mod_lt _ positive), Nat.div_add_mod, byteAt_resize 32 s inside, byteAt,
    dif_pos j.2]

/-- A shift without its source or its count leaves the source. -/
theorem shift_of_missing (shift : Handler.isShift itype = true) {s : Buf size}
    {count : BitVec 64} (missing : s = Buf.zero size ∨ count = 0) :
    ∃ res, Handler.shift itype (s.resize 32) count size = some res ∧ res.resize size = s := by
  have words := performShift_eq width itype (w := 2) (by decide) (by decide) missing
  have doubles := performShift_eq width itype (w := 4) (by decide) (by decide) missing
  have quads := performShift_eq width itype (w := 8) (by decide) (by decide) missing
  cases itype
  case psllw | vpsllw | psrlw | vpsrlw | psraw | vpsraw => exact ⟨_, rfl, words⟩
  case pslld | vpslld | psrld | vpsrld | psrad | vpsrad => exact ⟨_, rfl, doubles⟩
  case psllq | vpsllq | psrlq | vpsrlq => exact ⟨_, rfl, quads⟩
  all_goals exact absurd shift Bool.false_ne_true

end Computations

theorem keylessRound_zero {itype : Itype} (rounds : isRound itype = true) :
    keylessRound itype (Buf.zero 16) = roundLeftOver itype none none := by
  cases itype
  case aesenc | vaesenc | aesenclast | vaesenclast | aesdec | vaesdec | aesdeclast | vaesdeclast =>
    decide +kernel
  all_goals exact absurd rounds Bool.false_ne_true

theorem round_of_missing {itype : Itype} (rounds : isRound itype = true)
    {state key : Option Block} (missing : state = none ∨ key = none) :
    round itype (state.getD (Buf.zero 16)) (key.getD (Buf.zero 16)) =
      roundLeftOver itype state key := by
  cases state with
  | none =>
    rw [round_eq, Option.getD_none, keylessRound_zero rounds, roundLeftOver, roundLeftOver]
    simp only [Option.getD_none, xorBlock_zero]
  | some s =>
    rcases missing with impossible | rfl
    · cases impossible
    · rfl

theorem aesimc_zero : aesimc (Buf.zero 16) = Buf.zero 16 := by
  decide +kernel

theorem aeskeygenassist_zero (rcon : Byte) :
    aeskeygenassist (Buf.zero 16) rcon = assistLeftOver rcon := by
  revert rcon
  decide +kernel

/-! ### The handlers -/

theorem resolveOperands2Or3_eq (u : U) (insn : Insn) (size : ℕ) :
    resolveOperands2Or3 u insn size =
      (((source u (firstOperand insn) size).getD (Buf.zero size)).resize 32,
        ((source u (countOperand insn) size).getD (Buf.zero size)).resize 32) := by
  rw [resolveOperands2Or3, firstOperand, countOperand]
  split_ifs <;> rw [readOperand_zero, readOperand_zero]

theorem shiftSources_eq (u : U) (insn : Insn) (size : ℕ) :
    (if insn.op3.type ≠ .void then
      ((readOperand u insn.op2 (Buf.zero 32) size).getD (Buf.zero 32),
        Handler.resolveShiftCount u insn.op3)
    else ((readOperand u insn.op1 (Buf.zero 32) size).getD (Buf.zero 32),
      Handler.resolveShiftCount u insn.op2)) =
      (((source u (firstOperand insn) size).getD (Buf.zero size)).resize 32,
        Handler.resolveShiftCount u (countOperand insn)) := by
  rw [firstOperand, countOperand]
  split_ifs <;> rw [readOperand_zero]

theorem exists_operation {itype : Itype} (two : Handler.isBinary itype = true) :
    ∃ op, operation itype = some op := by
  cases itype <;> first | exact ⟨_, rfl⟩ | exact absurd two Bool.false_ne_true

/-- The groups of the switch are apart. -/
theorem not_isAes_of_isBinary {itype : Itype} (two : Handler.isBinary itype = true) :
    Handler.isAes itype = false ∧ Handler.isShift itype = false := by
  cases itype <;> first | exact ⟨rfl, rfl⟩ | exact absurd two Bool.false_ne_true

theorem not_isAes_of_isShift {itype : Itype} (shift : Handler.isShift itype = true) :
    Handler.isAes itype = false := by
  cases itype <;> first | rfl | exact absurd shift Bool.false_ne_true

namespace Handler

/-- The engine after a write of what is left of the sources to a destination of `size` bytes. -/
def WritesLeftOver (u : U) (insn : Insn) (size : ℕ) (u' : U) : Prop :=
  ∃ (n : ℕ) (res : Buf n) (written : ℕ), (written = size ∨ written = 16) ∧
    u' = (writeOperand u insn.op1 res written).getD u ∧
    ∀ j < size, byteAt (res.resize written) j = byteAt (leftOver u insn) j

/-- An instruction of the rounds, legacy or VEX, writes the round of what it reads. -/
theorem handleAes_rounds (u : U) {insn : Insn} (rounds : isRound insn.itype = true) :
    handleAes u insn =
      (writeOperand u insn.op1 (round insn.itype
        ((source u (stateOperand insn) 16).getD (Buf.zero 16))
        ((source u (keyOperand insn) 16).getD (Buf.zero 16))) 16).getD u := by
  obtain ⟨itype, length, op1, op2, op3⟩ := insn
  cases itype
  case aesenc | vaesenc | aesenclast | vaesenclast | aesdec | vaesdec | aesdeclast | vaesdeclast =>
    rfl
  all_goals exact absurd rounds Bool.false_ne_true

/-- The last instruction of the group is the key schedule. -/
theorem legacyAes_assist {itype : Itype} (aes : isAes itype = true)
    (notRound : ¬ isRound itype = true) (notImc : legacyAes itype ≠ .aesimc) :
    legacyAes itype = .aeskeygenassist := by
  cases itype
  case aesimc | vaesimc => exact absurd rfl notImc
  case aeskeygenassist | vaeskeygenassist => rfl
  case aesenc | vaesenc | aesenclast | vaesenclast | aesdec | vaesdec | aesdeclast | vaesdeclast =>
    exact absurd rfl notRound
  all_goals exact absurd aes Bool.false_ne_true

section Groups

variable {u : U} {insn : Insn} {size : ℕ} {i : Fin 16} (destination : IsRegister insn.op1 size i)
  (fails : ReadFails u insn)
include destination fails

theorem handleBinary_leftOver (two : isBinary insn.itype = true) :
    WritesLeftOver u insn size (handleBinary (binary insn.itype) u insn) := by
  obtain ⟨op, known⟩ := exists_operation two
  obtain ⟨notAes, notShift⟩ := not_isAes_of_isBinary two
  obtain rfl := destination.width
  have general : ¬ vectorRegSize insn.op1.reg = 0 := destination.positive.ne'
  have width := destination.size_eq
  simp only [ReadFails, notAes, notShift, Bool.false_eq_true, if_false] at fails
  obtain ⟨res, computed, left⟩ := binary_ofMissing width known fails
  refine ⟨32, res, vectorRegSize insn.op1.reg, .inl rfl, ?_, ?_⟩
  · simp only [handleBinary, if_neg general, resolveOperands2Or3_eq, computed]
  · intro j inside
    have room : j < 32 := inside.trans_le destination.size_le
    simp only [leftOver, notAes, notShift, known, Bool.false_eq_true, if_false]
    rw [left, byteAt_resize 32 _ room]

theorem handleShift_leftOver (shift : isShift insn.itype = true) :
    WritesLeftOver u insn size (handleShift u insn) := by
  have notAes := not_isAes_of_isShift shift
  obtain rfl := destination.width
  have general : ¬ vectorRegSize insn.op1.reg = 0 := destination.positive.ne'
  have width := destination.size_eq
  simp only [ReadFails, notAes, shift, Bool.false_eq_true, if_false, if_true] at fails
  -- The source counts as zero or the count does.
  have missing : (source u (firstOperand insn) (vectorRegSize insn.op1.reg)).getD (Buf.zero _) =
      Buf.zero _ ∨ resolveShiftCount u (countOperand insn) = 0 := by
    rcases fails with failed | failed
    · rw [failed]
      exact .inl rfl
    · refine .inr (resolveShiftCount_of_eq_none ?_ failed)
      intro immediate
      simp only [source, readOperand, immediate] at failed
      cases failed
  obtain ⟨res, computed, left⟩ := shift_of_missing width shift missing
  refine ⟨32, res, vectorRegSize insn.op1.reg, .inl rfl, ?_, ?_⟩
  · simp only [handleShift, if_neg general, shiftSources_eq, computed]
  · intro j inside
    have room : j < 32 := inside.trans_le destination.size_le
    simp only [leftOver, notAes, shift, Bool.false_eq_true, if_false, if_true]
    rw [left, byteAt_resize 32 _ room]

theorem handleAes_leftOver (aes : isAes insn.itype = true) :
    WritesLeftOver u insn size (handleAes u insn) := by
  have room : ∀ j < size, j < 32 := fun j inside => inside.trans_le destination.size_le
  by_cases rounds : isRound insn.itype = true
  · simp only [ReadFails, aes, rounds, if_true] at fails
    refine ⟨16, roundLeftOver insn.itype (source u (stateOperand insn) 16)
      (source u (keyOperand insn) 16), 16, .inr rfl, ?_, ?_⟩
    · rw [← round_of_missing rounds fails, handleAes_rounds u rounds]
    · intro j inside
      simp only [leftOver, aes, rounds, if_true]
      rw [Buf.resize_self, byteAt_resize 32 _ (room j inside)]
  · simp only [ReadFails, aes, rounds, if_true, Bool.false_eq_true, if_false] at fails
    by_cases imc : legacyAes insn.itype = .aesimc
    · refine ⟨16, Buf.zero 16, 16, .inr rfl, ?_, ?_⟩
      · simp only [handleAes, imc]
        rw [source] at fails
        rw [fails, Option.getD_none, aesimc_zero]
      · intro j inside
        simp only [leftOver, aes, rounds, imc, if_true, Bool.false_eq_true, if_false]
        rw [Buf.resize_self]
        exact (byteAt_zero j).trans (byteAt_zero j).symm
    · have assist := legacyAes_assist aes rounds imc
      refine ⟨16, assistLeftOver (insn.op3.value.setWidth 8), 16, .inr rfl, ?_, ?_⟩
      · simp only [handleAes, assist]
        rw [source] at fails
        rw [fails, Option.getD_none, aeskeygenassist_zero]
      · intro j inside
        simp only [leftOver, aes, rounds, imc, if_true, Bool.false_eq_true, if_false]
        rw [Buf.resize_self, byteAt_resize 32 _ (room j inside)]

end Groups

theorem readFails_updateRip (u : U) (address : Addr) (length : BitVec 32) (insn : Insn) :
    ReadFails (updateRip u address length) insn ↔ ReadFails u insn := by
  simp only [ReadFails, source_updateRip]

theorem leftOver_updateRip (u : U) (address : Addr) (length : BitVec 32) (insn : Insn) :
    leftOver (updateRip u address length) insn = leftOver u insn := by
  simp only [leftOver, source_updateRip]

/-- Where a source cannot be read, the destination keeps its value exactly when that is what
the instruction makes of the other source and zeros. -/
theorem handle_ymm_eq_iff (u : U) (address : Addr) (length : BitVec 32) {insn : Insn} {size : ℕ}
    {i : Fin 16}
    (group : isBinary insn.itype = true ∨ isShift insn.itype = true ∨ isAes insn.itype = true)
    (destination : IsRegister insn.op1 size i) (fails : ReadFails u insn) :
    ymm (handle u address length insn) i = ymm u i ↔
      ∀ j < size, byteAt (ymm u i) j = byteAt (leftOver u insn) j := by
  rw [← readFails_updateRip u address length] at fails
  have writes : WritesLeftOver (updateRip u address length) insn size
      (handle u address length insn) := by
    rcases group with two | shift | aes
    · rw [handle_binary u address length two]
      exact handleBinary_leftOver destination fails two
    · rw [handle_shift u address length shift]
      exact handleShift_leftOver destination fails shift
    · rw [handle_aes u address length aes]
      exact handleAes_leftOver destination fails aes
  obtain ⟨n, res, written, whole, result, left⟩ := writes
  have kept := ymm_writeOperand_eq_iff (updateRip u address length) destination res whole
  rw [ymm_updateRip] at kept
  rw [result, kept]
  constructor
  · intro same j inside
    rw [same j inside, left j inside, leftOver_updateRip]
  · intro same j inside
    rw [same j inside, left j inside, leftOver_updateRip]

/-- Without a vector register in the first operand an instruction of the other groups is
skipped over. -/
theorem handle_of_not_vector (u : U) (address : Addr) (length : BitVec 32) {insn : Insn}
    (group : isBinary insn.itype = true ∨ isShift insn.itype = true)
    (other : vectorRegSize insn.op1.reg = 0) :
    handle u address length insn = updateRip u address length := by
  rcases group with two | shift
  · rw [handle_binary u address length two]
    exact if_pos other
  · rw [handle_shift u address length shift]
    exact if_pos other

/-- The handler leaves its destination alone where a source cannot be read: always when it is no
vector register, and exactly when it holds the left over otherwise. -/
theorem handle_destination_iff (u : U) (address : Addr) (length : BitVec 32) {insn : Insn}
    (group : isBinary insn.itype = true ∨ isShift insn.itype = true ∨ isAes insn.itype = true)
    (fails : ReadFails u insn) :
    (isAes insn.itype = false → vectorRegSize insn.op1.reg = 0 →
      handle u address length insn = updateRip u address length) ∧
    ∀ size i, IsRegister insn.op1 size i →
      (ymm (handle u address length insn) i = ymm u i ↔
        ∀ j < size, byteAt (ymm u i) j = byteAt (leftOver u insn) j) := by
  constructor
  · intro notAes other
    rcases group with two | shift | aes
    · exact handle_of_not_vector u address length (.inl two) other
    · exact handle_of_not_vector u address length (.inr shift) other
    · rw [notAes] at aes
      exact absurd aes Bool.false_ne_true
  · intro size i destination
    exact handle_ymm_eq_iff u address length group destination fails

/-- `por xmm1, [rbx+4000h]` and `pand xmm1, [rbx+4000h]`. -/
def porInsn : Insn := ⟨.por, 8, ⟨.reg, 65, 0, 0⟩, ⟨.displ, 3, 0x4000, 0⟩, .none⟩

def pandInsn : Insn := { porInsn with itype := .pand }

/-- The memory at `rbx+4000h` is not mapped. -/
theorem readFails_unmapped (itype : Itype) (two : isBinary itype = true) :
    ReadFails patterned { porInsn with itype := itype } := by
  obtain ⟨notAes, notShift⟩ := not_isAes_of_isBinary two
  simp only [ReadFails, notAes, notShift, Bool.false_eq_true, if_false]
  right
  have unread : source patterned ⟨.displ, 3, 0x4000, 0⟩ 16 = none := by decide +kernel
  exact unread

/-- With zeros for the unmapped memory the disjunction is XMM1. -/
theorem handle_destination_iff_por :
    ymm (handle patterned 0x1000 8 porInsn) 1 = ymm patterned 1 := by
  have laws := handle_destination_iff patterned 0x1000 8 (.inl rfl)
    (readFails_unmapped .por rfl)
  refine (laws.2 16 1 ⟨rfl, rfl, rfl, by decide⟩).mpr ?_
  decide +kernel

/-- The conjunction clears it. -/
theorem unread_conjunction_clears :
    ReadFails patterned pandInsn ∧
      ymm (handle patterned 0x1000 8 pandInsn) 1 1 ≠ ymm patterned 1 1 := by
  refine ⟨readFails_unmapped .pand rfl, ?_⟩
  decide +kernel

end Handler

end Unxorer
