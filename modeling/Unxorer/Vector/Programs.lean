import Unxorer.Aes.Cipher
import Unxorer.Lib.PackedMachine
import Unxorer.Vector.ScalarMoves
import Unxorer.Vector.Shifts
import Unxorer.Vector.UpperHalf

/-!
# The handler carries out packed programs

The registers and the memory of the engine, looked at as those of a machine with packed
instructions. An instruction the handler is given stands for an instruction of that machine
when its encoding keeps what the handler keeps: legacy forms on XMM registers, VEX forms on
YMM registers, and memory at a displacement from a general register. For all of these the
handler takes the step of the machine.

## Main definitions

* `view` — the engine as a state of the packed machine
* `Encodes` — the instruction of the packed machine an IDA instruction stands for

## Main results

* `Handler.view_handle` — the handler takes the step of the packed machine
-/

set_option autoImplicit false

namespace Unxorer

open Unicorn VectorOperations RegisterMapper Lanes Packed
open PackedMachine hiding State

variable {U : Type} [Unicorn U]

/-! ### The engine as a packed machine -/

/-- The general registers and the flags. -/
abbrev General := {r : Reg // r ≠ .rip}

/-- All that the engine shows of itself. -/
def view (u : U) : PackedMachine.State (Fin 16) General where
  vector := ymm u
  general r := reg u r
  memory := byte u
  present a := mapped u a = true
  pc := reg u .rip

/-- The operand stands for a source of `size` bytes. -/
inductive Denotes (op : Operand) (size : ℕ) : Source (Fin 16) General → Prop
  | vector {i : Fin 16} (isRegister : IsRegister op size i) : Denotes op size (.vector i)
  | memory {base : General} (type : op.type = .displ)
      (number : idaToUnicorn op.reg = some base.1) : Denotes op size (.memory base op.addr)

/-- Two sources: those of a legacy form start with its destination, those of a VEX form are
behind it. -/
inductive TwoSources (insn : Insn) : ℕ → Source (Fin 16) General → Source (Fin 16) General → Prop
  | legacy {first second : Source (Fin 16) General} (itype : isVex insn.itype = false)
      (two : insn.op3.type = .void) (left : Denotes insn.op1 16 first)
      (right : Denotes insn.op2 16 second) : TwoSources insn 16 first second
  | vex {first second : Source (Fin 16) General} (itype : isVex insn.itype = true)
      (three : insn.op3.type ≠ .void) (left : Denotes insn.op2 32 first)
      (right : Denotes insn.op3 32 second) : TwoSources insn 32 first second

/-- A source and an immediate count. -/
inductive CountedSource (insn : Insn) : ℕ → Source (Fin 16) General → BitVec 64 → Prop
  | legacy {source : Source (Fin 16) General} (itype : isVex insn.itype = false)
      (two : insn.op3.type = .void) (left : Denotes insn.op1 16 source)
      (right : insn.op2.type = .imm) : CountedSource insn 16 source insn.op2.value
  | vex {source : Source (Fin 16) General} (itype : isVex insn.itype = true)
      (left : Denotes insn.op2 32 source) (right : insn.op3.type = .imm) :
      CountedSource insn 32 source insn.op3.value

/-- The rounds of the standard. -/
noncomputable def standardRound : Itype → Option (AesImpl.Block → AesImpl.Block → AesImpl.Block)
  | .aesenc => some Fips197.aesenc
  | .aesenclast => some Fips197.aesenclast
  | .aesdec => some Fips197.aesdec
  | .aesdeclast => some Fips197.aesdeclast
  | _ => none

/-- An instruction of the packed machine, in a form that the handler carries out. -/
inductive Encodes (insn : Insn) : Instruction (Fin 16) General → Prop
  | packed {op : Operation} {size : ℕ} {d : Fin 16} {first second : Source (Fin 16) General}
      (known : operation insn.itype = some op) (destination : IsRegister insn.op1 size d)
      (sources : TwoSources insn size first second) :
      Encodes insn (.packed op size d first second)
  | shift {op : Shift} {w size : ℕ} {d : Fin 16} {source : Source (Fin 16) General}
      {count : BitVec 64} (known : packedShift insn.itype = some (op, w))
      (destination : IsRegister insn.op1 size d) (counted : CountedSource insn size source count) :
      Encodes insn (.shift op w size d source count.toNat)
  | round {f : AesImpl.Block → AesImpl.Block → AesImpl.Block} {d : Fin 16}
      {second : Source (Fin 16) General} (known : standardRound insn.itype = some f)
      (destination : IsRegister insn.op1 16 d) (right : Denotes insn.op2 16 second) :
      Encodes insn (.block f d (.vector d) second)
  | inverseMix {d : Fin 16} {source : Source (Fin 16) General} (itype : insn.itype = .aesimc)
      (destination : IsRegister insn.op1 16 d) (second : Denotes insn.op2 16 source) :
      Encodes insn (.block (fun a _ => Fips197.aesimc a) d source source)
  | load {size : ℕ} {d : Fin 16} {source : Source (Fin 16) General}
      (full : isFullMove insn.itype = true) (width : isVex insn.itype = decide (size = 32))
      (destination : IsRegister insn.op1 size d) (second : Denotes insn.op2 size source) :
      Encodes insn (.load size d source)
  | store {size : ℕ} {base : General} {i : Fin 16} (full : isFullMove insn.itype = true)
      (type : insn.op1.type = .displ) (number : idaToUnicorn insn.op1.reg = some base.1)
      (source : IsRegister insn.op2 size i) : Encodes insn (.store size base insn.op1.addr i)
  | insertGeneral {d : Fin 16} {r : General} (itype : insn.itype = .movd ∨ insn.itype = .movq)
      (destination : IsRegister insn.op1 16 d) (type : insn.op2.type = .reg)
      (number : idaToUnicorn insn.op2.reg = some r.1) :
      Encodes insn (.insert (Handler.moveSize insn) d (.general r))
  | insertMemory {d : Fin 16} {base : General} (itype : insn.itype = .movd ∨ insn.itype = .movq)
      (destination : IsRegister insn.op1 16 d) (type : insn.op2.type = .displ)
      (number : idaToUnicorn insn.op2.reg = some base.1) :
      Encodes insn (.insert (Handler.moveSize insn) d (.memory base insn.op2.addr))
  | clearUpper (itype : insn.itype = .vzeroupper) : Encodes insn .clearUpper

/-! ### Sources -/

section Sources

variable {u : U} {op : Operand} {size : ℕ} {source : Source (Fin 16) General}

/-- An operand in memory is at the address of the packed machine. -/
theorem calculateEffectiveAddress_displ (u : U) {base : General} (type : op.type = .displ)
    (number : idaToUnicorn op.reg = some base.1) :
    calculateEffectiveAddress u op = (view u).address base op.addr := by
  have memory : isMemoryOperand op = true := isMemoryOperand_iff.mpr (.inr type)
  rw [calculateEffectiveAddress, if_pos memory, number]
  rfl

theorem isMemory_of_present {base : General} (type : op.type = .displ)
    (number : idaToUnicorn op.reg = some base.1)
    (room : (view u).Present ((view u).address base op.addr) size) : IsMemory u op size := by
  refine ⟨type, (List.getElem?_eq_some_iff.mp number).1, ?_⟩
  rw [calculateEffectiveAddress_displ u type number]
  exact room

/-- The source of the packed machine holds the bytes of the operand. -/
theorem Denotes.holds (denotes : Denotes op size source) {v : Buf size}
    (holds : (view u).Holds size source v) : Holds u op size v := by
  cases denotes with
  | vector isRegister =>
    cases holds
    exact .register isRegister
  | memory type number =>
    cases holds with
    | memory base displacement room =>
      have bytes := Holds.memory (isMemory_of_present type number room)
      rw [calculateEffectiveAddress_displ u type number] at bytes
      exact bytes

theorem TwoSources.sources {insn : Insn} {first second : Source (Fin 16) General} {a b : Buf size}
    (two : TwoSources insn size first second) (left : (view u).Holds size first a)
    (right : (view u).Holds size second b) : Sources u insn size a b := by
  cases two with
  | legacy itype void one other => exact .inl ⟨void, one.holds left, other.holds right⟩
  | vex itype used one other => exact .inr ⟨used, one.holds left, other.holds right⟩

end Sources

/-! ### Destinations -/

section Destinations

variable (u : U) (address : Addr) (length : BitVec 32)

theorem view_xmmWrite (i : Fin 16) (v : Buf 16) : view (xmmWrite u i v) = (view u).load i v := by
  ext1
  · funext i'
    by_cases same : i' = i
    · subst same
      simp only [view, ymm_xmmWrite, if_true, PackedMachine.State.load, Function.update_self]
    · simp only [view, ymm_xmmWrite, if_neg same, PackedMachine.State.load,
        Function.update_of_ne same]
  · simp only [view, reg_xmmWrite, PackedMachine.State.load]
  · simp only [view, byte_xmmWrite, PackedMachine.State.load]
  · simp only [view, mapped_xmmWrite, PackedMachine.State.load]
  · simp only [view, reg_xmmWrite, PackedMachine.State.load]

theorem view_ymmWrite (i : Fin 16) (v : Buf 32) : view (ymmWrite u i v) = (view u).load i v := by
  ext1
  · funext i'
    by_cases same : i' = i
    · subst same
      simp only [view, ymm_ymmWrite, if_true, PackedMachine.State.load, Function.update_self]
      funext j
      rw [dif_pos j.2]
    · simp only [view, ymm_ymmWrite, if_neg same, PackedMachine.State.load,
        Function.update_of_ne same]
  · simp only [view, reg_ymmWrite, PackedMachine.State.load]
  · simp only [view, byte_ymmWrite, PackedMachine.State.load]
  · simp only [view, mapped_ymmWrite, PackedMachine.State.load]
  · simp only [view, reg_ymmWrite, PackedMachine.State.load]

theorem view_updateRip :
    view (updateRip u address length) =
      { view u with pc := address + length.setWidth 64 } := by
  ext1
  · exact ymm_updateRip u address length
  · funext r
    simp only [view, reg_updateRip, Function.update_of_ne r.2]
  · exact byte_updateRip u address length
  · simp only [view, mapped_updateRip]
  · simp only [view, reg_updateRip, Function.update_self]

variable {u address}

/-- RIP moves past an instruction that is executed where it stands. -/
theorem view_updateRip_of_pc (here : reg u .rip = address) :
    view (updateRip u address length) = (view u).advance (length.setWidth 64) := by
  rw [view_updateRip, ← here]
  rfl

/-- A write of a vector register operand loads the front of the buffer. -/
theorem view_writeOperand {op : Operand} {size n : ℕ} {i : Fin 16} (res : Buf n)
    (h : IsRegister op size i) (here : reg u .rip = address) :
    view ((writeOperand (updateRip u address length) op res size).getD
      (updateRip u address length)) =
      ((view u).load i (res.resize size)).advance (length.setWidth 64) := by
  rcases h.size_eq with rfl | rfl
  · rw [writeOperand_xmm _ h res (by decide), Option.getD_some, view_xmmWrite,
      view_updateRip_of_pc length here]
    rfl
  · have whole : (Buf.zero 32).copy (res.take (min 32 32)) = res.resize 32 := by
      rw [min_self]
      exact (copy_zero (res.resize 32)).trans (Buf.resize_self _)
    rw [writeOperand_ymm _ h, Option.getD_some, whole, view_ymmWrite,
      view_updateRip_of_pc length here]
    rfl

/-- A short write of an XMM register operand clears the rest of the register. -/
theorem view_writeOperand_short {op : Operand} {size : ℕ} {i : Fin 16} (v : Buf size)
    (h : IsRegister op 16 i) (short : size ≤ 8) (here : reg u .rip = address) :
    view ((writeOperand (updateRip u address length) op (v.resize 32) size).getD
      (updateRip u address length)) =
      ((view u).load i (extend v)).advance (length.setWidth 64) := by
  have narrow : size ≠ 32 := by omega
  have extended : (v.resize 32).resize 16 = extend v := by
    funext j
    have within : j.1 < 32 := by omega
    rw [Buf.resize_of_lt _ _ within]
    rfl
  rw [writeOperand_xmm _ h _ narrow, Option.getD_some, extended, view_xmmWrite,
    view_updateRip_of_pc length here]
  rfl

/-- A write of a memory operand stores the front of the buffer. -/
theorem view_writeOperand_memory {op : Operand} {size : ℕ} (res : Buf 32) (h : IsMemory u op size)
    (here : reg u .rip = address) :
    view ((writeOperand (updateRip u address length) op res size).getD
      (updateRip u address length)) =
      ((view u).store (calculateEffectiveAddress u op) (res.resize size)).advance
        (length.setWidth 64) := by
  obtain ⟨registers, vectors, memory, mappings⟩ := stores_writeOperand u address length res h
  ext1
  · exact vectors
  · funext r
    exact (congrFun registers r.1).trans (Function.update_of_ne r.2 _ _)
  · exact funext memory
  · exact funext fun a => congrArg (· = true) (congrFun mappings a)
  · refine (congrFun registers .rip).trans ?_
    rw [Function.update_self, ← here]
    rfl

end Destinations

/-! ### The handler -/

namespace Handler

/-- A block that an operand holds is read whole. -/
theorem readOperand_block {u : U} {op : Operand} {v : AesImpl.Block} (holds : Holds u op 16 v) :
    (readOperand u op (Buf.zero 16) 16).getD (Buf.zero 16) = v := by
  have copied (w : AesImpl.Block) : (Buf.zero 16).copy (List.ofFn w) = w := by
    funext j
    rw [Buf.copy_of_lt _ (by simp), List.getElem_ofFn]
  cases holds with
  | register isRegister => rw [readOperand_register u _ isRegister, Option.getD_some, copied]
  | memory isMemory =>
    rw [readOperand_of_isMemoryOperand u isMemory.isMemoryOperand,
      memRead_of_mapped isMemory.mapped, Option.map_some, Option.getD_some]
    exact copied _

/-- A legacy round works on its destination. -/
theorem handleAes_of_standardRound (u : U) {insn : Insn}
    {f : AesImpl.Block → AesImpl.Block → AesImpl.Block}
    (known : standardRound insn.itype = some f) {state key : AesImpl.Block}
    (first : Holds u insn.op1 16 state) (second : Holds u insn.op2 16 key) :
    handleAes u insn = (writeOperand u insn.op1 (f state key) 16).getD u := by
  obtain rfl := readOperand_block first
  obtain rfl := readOperand_block second
  obtain ⟨itype, length, op1, op2, op3⟩ := insn
  cases itype <;> cases known
  · rw [← Fips197.aesenc_eq]
    rfl
  · rw [← Fips197.aesenclast_eq]
    rfl
  · rw [← Fips197.aesdec_eq]
    rfl
  · rw [← Fips197.aesdeclast_eq]
    rfl

theorem handleAes_of_aesimc (u : U) {insn : Insn} (itype : insn.itype = .aesimc)
    {key : AesImpl.Block} (holds : Holds u insn.op2 16 key) :
    handleAes u insn = (writeOperand u insn.op1 (Fips197.aesimc key) 16).getD u := by
  obtain rfl := readOperand_block holds
  obtain ⟨itype, length, op1, op2, op3⟩ := insn
  cases itype
  rw [← Fips197.aesimc_eq]
  rfl

/-- The loop over the registers clears the upper halves of those it has come to. -/
theorem ymm_foldl_clearUpper (registers : List (Fin 16)) (u : U) (i : Fin 16) :
    ymm (registers.foldl clearUpper u) i =
      if i ∈ registers then fun j => if j.1 < 16 then ymm u i j else 0 else ymm u i := by
  induction registers generalizing u with
  | nil => rfl
  | cons r registers ih =>
    rw [List.foldl_cons, ih, clearUpper, ymm_ymmWrite]
    by_cases same : i = r
    · subst same
      have first : i ∈ i :: registers := List.mem_cons_self
      rw [if_pos first, if_pos rfl]
      -- A register that is cleared twice is cleared.
      split_ifs with again
      · funext j
        split_ifs <;> rfl
      · rfl
    · simp only [List.mem_cons, same, false_or, if_false]

theorem view_handleVzeroupper (u : U) : view (handleVzeroupper u) = (view u).clearUpper := by
  have others (registers : List (Fin 16)) (v : U) :
      reg (registers.foldl clearUpper v) = reg v ∧ byte (registers.foldl clearUpper v) = byte v ∧
        mapped (registers.foldl clearUpper v) = mapped v := by
    induction registers generalizing v with
    | nil => exact ⟨rfl, rfl, rfl⟩
    | cons r registers ih =>
      obtain ⟨general, memory, mappings⟩ := ih (clearUpper v r)
      exact ⟨general.trans (reg_ymmWrite _ _ _), memory.trans (byte_ymmWrite _ _ _),
        mappings.trans (mapped_ymmWrite _ _ _)⟩
  obtain ⟨general, memory, mappings⟩ := others (List.finRange 16) u
  ext1
  · funext i
    exact (ymm_foldl_clearUpper _ u i).trans (if_pos (List.mem_finRange i))
  · exact funext fun r => congrFun general r.1
  · exact memory
  · exact funext fun a => congrArg (· = true) (congrFun mappings a)
  · exact congrFun general .rip

/-- A shift by an immediate shifts every lane of its source. -/
theorem handleShift_of_counted (u : U) {insn : Insn} {op : Shift} {w size : ℕ} {d : Fin 16}
    {source : Source (Fin 16) General} {count : BitVec 64}
    (known : packedShift insn.itype = some (op, w)) (destination : IsRegister insn.op1 size d)
    (counted : CountedSource insn size source count) {a : Buf size}
    (holds : (view u).Holds size source a) :
    handleShift u insn = (writeOperand u insn.op1
      (performShift w (Buf.zero 32) (a.resize 32) count size insn.itype) size).getD u := by
  have general : ¬ size = 0 := destination.positive.ne'
  rw [handleShift, destination.width, if_neg general]
  cases counted with
  | legacy itype two left right =>
    simp only [two, ne_eq, not_true_eq_false, if_false, readOperand_of_holds (left.holds holds),
      Option.getD_some, resolveShiftCount, if_pos right, shift_of_packedShift known]
  | vex itype left right =>
    have three : insn.op3.type ≠ .void := by
      rw [right]
      exact OpType.noConfusion
    simp only [if_pos three, readOperand_of_holds (left.holds holds), Option.getD_some,
      resolveShiftCount, if_pos right, shift_of_packedShift known]

/-- The lanes that are shifted determine the result. -/
theorem performShift_resize {itype : Itype} {op : Shift} {w size : ℕ}
    (known : packedShift itype = some (op, w)) (width : size = 16 ∨ size = 32) {a r : Buf size}
    {count : BitVec 64}
    (shifts : ∀ k, w * (k + 1) ≤ size → op.Shifts (lane w a k) (lane w r k) count.toNat) :
    (performShift w (Buf.zero 32) (a.resize 32) count size itype).resize size = r := by
  have positive := positive_of_packedShift known
  have divides : w ∣ 16 := by
    cases itype <;> cases known <;> decide
  have wide : size ≤ 32 := by omega
  refine Operation.eq_of_lanes positive (dvd_of_dvd_sixteen divides width) fun k room => ?_
  rw [lane_resize size _ room, lane_performShift positive wide _ _ count itype room,
    lane_resize 32 a (room.trans wide)]
  exact (shiftElement_shifts known (lane w a k) count).unique (shifts k room)

/-! ### One instruction -/

variable {u : U} {address : Addr} {insn : Insn} {t : PackedMachine.State (Fin 16) General}

theorem isShift_of_packedShift {itype : Itype} {op : Shift} {w : ℕ}
    (known : packedShift itype = some (op, w)) : isShift itype = true := by
  cases itype <;> first | rfl | cases known

theorem isAes_of_standardRound {itype : Itype} {f : AesImpl.Block → AesImpl.Block → AesImpl.Block}
    (known : standardRound itype = some f) : isAes itype = true := by
  cases itype <;> first | rfl | cases known

theorem isScalarMove_of_legacy {itype : Itype} (legacy : itype = .movd ∨ itype = .movq) :
    isScalarMove itype = true := by
  rcases legacy with rfl | rfl <;> rfl

/-- What an operand holds is not changed by the advance of RIP. -/
theorem holds_updateRip (length : BitVec 32) {size : ℕ} {source : Source (Fin 16) General}
    {v : Buf size} (holds : (view u).Holds size source v) :
    (view (updateRip u address length)).Holds size source v := by
  rw [view_updateRip]
  cases holds with
  | vector i => exact .vector i
  | general r small => exact .general r small
  | memory base displacement room => exact .memory base displacement room

/-- The handler takes the step of the packed machine, whatever the instruction stands for. -/
theorem view_handle (length : BitVec 32) {instruction : Instruction (Fin 16) General}
    (encodes : Encodes insn instruction) (here : reg u .rip = address)
    (step : Step instruction (view u) t) :
    view (handle u address length insn) = t.advance (length.setWidth 64) := by
  cases encodes with
  | packed known destination sources =>
    cases step with
    | packed left right computes =>
      rename_i op size d first second a b r
      have width := destination.size_eq
      obtain ⟨res, computed, computes'⟩ := binary_computes width known a b
      obtain ⟨positive, divides⟩ := width_of_operation known
      have same := computes'.unique positive (dvd_of_dvd_sixteen divides width) computes
      have general : ¬ size = 0 := destination.positive.ne'
      rw [handle_binary u address length (isBinary_of_operation known)]
      simp only [handleBinary, destination.width, if_neg general,
        resolveOperands2Or3_of_sources ((sources.sources left right).updateRip address length),
        computed]
      rw [view_writeOperand length res destination here, same]
  | shift known destination counted =>
    cases step with
    | shift holds shifts =>
      rw [handle_shift u address length (isShift_of_packedShift known),
        handleShift_of_counted _ known destination counted (holds_updateRip length holds),
        view_writeOperand length _ destination here,
        performShift_resize known destination.size_eq shifts]
  | round known destination right =>
    cases step with
    | block left holds =>
      have first := (Denotes.vector destination).holds left
      rw [handle_aes u address length (isAes_of_standardRound known),
        handleAes_of_standardRound _ known (first.updateRip address length)
          ((right.holds holds).updateRip address length),
        view_writeOperand length _ destination here, Buf.resize_self]
  | inverseMix itype destination second =>
    cases step with
    | block left _ =>
      have aes : isAes insn.itype = true := by rw [itype]; rfl
      rw [handle_aes u address length aes,
        handleAes_of_aesimc _ itype ((second.holds left).updateRip address length),
        view_writeOperand length _ destination here, Buf.resize_self]
  | load full width destination second =>
    cases step with
    | load holds =>
      have moved := moveSize_of_isFullMove full destination.positive (.inl destination.width)
      rw [handle_move u address length (isMove_of_isFullMove full)]
      simp only [handleMove, moved,
        readOperand_of_holds ((second.holds holds).updateRip address length)]
      rw [view_writeOperand length _ destination here,
        resize_resize _ destination.size_le]
  | store full type number source =>
    cases step with
    | store holds room =>
      have destination := isMemory_of_present type number room
      have held := (Denotes.vector source).holds holds
      have moved := moveSize_of_isFullMove full source.positive
        (.inr ⟨destination.not_vector, source.width⟩)
      rw [handle_move u address length (isMove_of_isFullMove full)]
      simp only [handleMove, moved, readOperand_of_holds (held.updateRip address length)]
      rw [view_writeOperand_memory length _ destination here, resize_resize _ source.size_le,
        calculateEffectiveAddress_displ u type number]
  | insertGeneral itype destination type number =>
    cases step with
    | insert holds =>
      obtain ⟨isMove, size⟩ := moveSize_of_isScalarMove (isScalarMove_of_legacy itype)
      have short : moveSize insn ≤ 8 := by omega
      cases holds
      rw [handle_move u address length isMove, handleMove, readOperand_updateRip,
        readOperand_general type number u short]
      exact view_writeOperand_short length _ destination short here
  | insertMemory itype destination type number =>
    cases step with
    | insert holds =>
      obtain ⟨isMove, size⟩ := moveSize_of_isScalarMove (isScalarMove_of_legacy itype)
      have short : moveSize insn ≤ 8 := by omega
      have held := (Denotes.memory type number).holds holds
      rw [handle_move u address length isMove, handleMove, readOperand_updateRip,
        readOperand_of_holds held]
      exact view_writeOperand_short length _ destination short here
  | clearUpper itype =>
    cases step
    have handled : handle u address length insn =
        handleVzeroupper (updateRip u address length) := by
      rw [handle]
      simp only [itype]
    rw [handled, view_handleVzeroupper, view_updateRip_of_pc length here]
    rfl

end Handler

end Unxorer
