import Unxorer.Aes.Impl
import Unxorer.Lib.Lanes
import Unxorer.Vector.Operations

/-!
# The emulated vector instructions

The instructions Unicorn is not trusted with are carried out on the host: the operands
are read into zeroed buffers, the result is computed there and written to the first
operand. A read that fails leaves its buffer zero and a write that fails is ignored.

## Main definitions

* `Handler.handle` — `handler::handle`

## Main results

* `Handler.handle_cases` — the handler advances RIP and then writes at most its first
  operand, except for `vzeroupper`
-/

set_option autoImplicit false

namespace Unxorer.Handler

open Unicorn VectorOperations RegisterMapper Lanes

variable {U : Type} [Unicorn U]

/-! ### Lane loops -/

/-- The loop of the four bitwise handlers. -/
def bitwise (f : Byte → Byte → Byte) (res lhs rhs : Buf 32) (size : ℕ) : Buf 32 :=
  fun i => if i.1 < size then f (lhs i) (rhs i) else res i

def performAdd (w : ℕ) (res lhs rhs : Buf 32) (size : ℕ) : Buf 32 :=
  storeLanes w (size / w) (fun i => lane w lhs i + lane w rhs i) res

def performSub (w : ℕ) (res lhs rhs : Buf 32) (size : ℕ) : Buf 32 :=
  storeLanes w (size / w) (fun i => lane w lhs i - lane w rhs i) res

def performMull (w : ℕ) (res lhs rhs : Buf 32) (size : ℕ) : Buf 32 :=
  storeLanes w (size / w) (fun i => lane w lhs i * lane w rhs i) res

def isLeft (itype : Itype) : Bool := List.elem itype
  [.psllw, .vpsllw, .pslld, .vpslld, .psllq, .vpsllq]

def isLogicalRight (itype : Itype) : Bool := List.elem itype
  [.psrlw, .vpsrlw, .psrld, .vpsrld, .psrlq, .vpsrlq]

/-- The shift of one element; `count` is compared with the width before it is used. -/
def shiftElement {bits : ℕ} (s : BitVec bits) (count : BitVec 64) (itype : Itype) : BitVec bits :=
  if count.toNat ≥ bits then
    if isLeft itype || isLogicalRight itype then 0
    else if s.msb then -1 else 0
  else if isLeft itype then s <<< count.toNat
  else if isLogicalRight itype then s >>> count.toNat
  else s.sshiftRight count.toNat

def performShift (w : ℕ) (res src : Buf 32) (count : BitVec 64) (size : ℕ) (itype : Itype) :
    Buf 32 :=
  storeLanes w (size / w) (fun i => shiftElement (lane w src i) count itype) res

/-- `perform_pshufb_16` on the 16 bytes from `base` on of each buffer. -/
def performPshufb16 (base : ℕ) (dst src mask : Buf 32) : Buf 32 := fun j =>
  if base ≤ j.1 ∧ j.1 < base + 16 then
    if mask j &&& 0x80 ≠ 0 then 0 else byteAt src (base + (mask j &&& 0x0F).toNat)
  else dst j

/-! ### Handlers -/

/-- The number of bytes `handle_move` moves. -/
def moveSize (insn : Insn) : ℕ :=
  if insn.itype = .movd ∨ insn.itype = .vmovd then 4
  else if insn.itype = .movq ∨ insn.itype = .vmovq then 8
  else
    let regSize := vectorRegSize insn.op1.reg
    -- A store takes its width from the register it stores.
    let regSize := if regSize = 0 then vectorRegSize insn.op2.reg else regSize
    if regSize > 0 then regSize else 16

def handleMove (u : U) (insn : Insn) : U :=
  match readOperand u insn.op2 (Buf.zero 32) (moveSize insn) with
  | some buf => (writeOperand u insn.op1 buf (moveSize insn)).getD u
  | none => u

/-- The body the two-source handlers share: nothing happens unless the first operand's
register is a vector register and the computation knows the instruction. -/
def handleBinary (compute : ℕ → Buf 32 → Buf 32 → Option (Buf 32)) (u : U) (insn : Insn) : U :=
  let size := vectorRegSize insn.op1.reg
  if size = 0 then u
  else
    let sources := resolveOperands2Or3 u insn size
    match compute size sources.1 sources.2 with
    | some res => (writeOperand u insn.op1 res size).getD u
    | none => u

def handleXor (u : U) (insn : Insn) : U :=
  handleBinary (fun size lhs rhs => some (bitwise (· ^^^ ·) (Buf.zero 32) lhs rhs size)) u insn

def handleAnd (u : U) (insn : Insn) : U :=
  handleBinary (fun size lhs rhs => some (bitwise (· &&& ·) (Buf.zero 32) lhs rhs size)) u insn

def handleOr (u : U) (insn : Insn) : U :=
  handleBinary (fun size lhs rhs => some (bitwise (· ||| ·) (Buf.zero 32) lhs rhs size)) u insn

def handleAndn (u : U) (insn : Insn) : U :=
  handleBinary (fun size lhs rhs => some (bitwise (~~~ · &&& ·) (Buf.zero 32) lhs rhs size)) u insn

/-- The switch of `handle_arithmetic`. -/
def arithmetic (itype : Itype) (size : ℕ) (lhs rhs : Buf 32) : Option (Buf 32) :=
  let res := Buf.zero 32
  match itype with
  | .paddb | .vpaddb => some (performAdd 1 res lhs rhs size)
  | .psubb | .vpsubb => some (performSub 1 res lhs rhs size)
  | .paddw | .vpaddw => some (performAdd 2 res lhs rhs size)
  | .psubw | .vpsubw => some (performSub 2 res lhs rhs size)
  | .paddd | .vpaddd => some (performAdd 4 res lhs rhs size)
  | .psubd | .vpsubd => some (performSub 4 res lhs rhs size)
  | .paddq | .vpaddq => some (performAdd 8 res lhs rhs size)
  | .psubq | .vpsubq => some (performSub 8 res lhs rhs size)
  | .pmullw | .vpmullw => some (performMull 2 res lhs rhs size)
  | _ => none

def handleArithmetic (u : U) (insn : Insn) : U := handleBinary (arithmetic insn.itype) u insn

/-- `resolve_shift_count`: an immediate, or the operand read into a zeroed word. -/
def resolveShiftCount (u : U) (op : Operand) : BitVec 64 :=
  if op.type = .imm then op.value
  else leWord (List.ofFn ((readOperand u op (Buf.zero 8) 8).getD (Buf.zero 8)))

/-- The switch of `handle_shift`. -/
def shift (itype : Itype) (src : Buf 32) (count : BitVec 64) (size : ℕ) : Option (Buf 32) :=
  let res := Buf.zero 32
  match itype with
  | .psllw | .vpsllw | .psrlw | .vpsrlw | .psraw | .vpsraw =>
    some (performShift 2 res src count size itype)
  | .pslld | .vpslld | .psrld | .vpsrld | .psrad | .vpsrad =>
    some (performShift 4 res src count size itype)
  | .psllq | .vpsllq | .psrlq | .vpsrlq => some (performShift 8 res src count size itype)
  | _ => none

def handleShift (u : U) (insn : Insn) : U :=
  let size := vectorRegSize insn.op1.reg
  if size = 0 then u
  else
    let zero := Buf.zero 32
    let (src, count) :=
      if insn.op3.type ≠ .void then
        ((readOperand u insn.op2 zero size).getD zero, resolveShiftCount u insn.op3)
      else ((readOperand u insn.op1 zero size).getD zero, resolveShiftCount u insn.op2)
    match shift insn.itype src count size with
    | some res => (writeOperand u insn.op1 res size).getD u
    | none => u

def pshufb (size : ℕ) (src mask : Buf 32) : Buf 32 :=
  let res := performPshufb16 0 (Buf.zero 32) src mask
  if size = 32 then performPshufb16 16 res src mask else res

def handlePshufb (u : U) (insn : Insn) : U :=
  handleBinary (fun size src mask => some (pshufb size src mask)) u insn

def isAvxAes (itype : Itype) : Bool := List.elem itype
  [.vaesenc, .vaesenclast, .vaesdec, .vaesdeclast, .vaesimc, .vaeskeygenassist]

/-- The legacy instruction of a VEX-encoded AES instruction. -/
def legacyAes : Itype → Itype
  | .vaesenc => .aesenc
  | .vaesenclast => .aesenclast
  | .vaesdec => .aesdec
  | .vaesdeclast => .aesdeclast
  | .vaesimc => .aesimc
  | .vaeskeygenassist => .aeskeygenassist
  | itype => itype

def handleAes (u : U) (insn : Insn) : U :=
  let read (op : Operand) : Buf 16 := (readOperand u op (Buf.zero 16) 16).getD (Buf.zero 16)
  let write (state : Buf 16) : U := (writeOperand u insn.op1 state 16).getD u
  let isAvx := isAvxAes insn.itype
  -- The legacy forms work on their destination.
  let state := if isAvx then read insn.op2 else read insn.op1
  let key := if isAvx then read insn.op3 else read insn.op2
  match legacyAes insn.itype with
  | .aesenc => write (AesImpl.aesenc state key)
  | .aesenclast => write (AesImpl.aesenclast state key)
  | .aesdec => write (AesImpl.aesdec state key)
  | .aesdeclast => write (AesImpl.aesdeclast state key)
  | .aesimc => write (AesImpl.aesimc (read insn.op2))
  | .aeskeygenassist =>
    write (AesImpl.aeskeygenassist (read insn.op2) (insn.op3.value.setWidth 8))
  | _ => u

def clearUpper (u : U) (i : Fin 16) : U :=
  ymmWrite u i fun j => if j.1 < 16 then ymm u i j else 0

def handleVzeroupper (u : U) : U := (List.finRange 16).foldl clearUpper u

/-- `handler::handle`. -/
def handle (u : U) (address : Addr) (size : BitVec 32) (insn : Insn) : U :=
  let u := updateRip u address size
  match insn.itype with
  | .movdqa | .movdqu | .vmovdqa | .vmovdqu | .movaps | .vmovaps | .movups | .vmovups | .movapd
  | .vmovapd | .movupd | .vmovupd | .movd | .vmovd | .movq | .vmovq => handleMove u insn
  | .pxor | .vpxor => handleXor u insn
  | .pand | .vpand => handleAnd u insn
  | .por | .vpor => handleOr u insn
  | .pandn | .vpandn => handleAndn u insn
  | .paddb | .vpaddb | .psubb | .vpsubb | .paddw | .vpaddw | .psubw | .vpsubw | .paddd | .vpaddd
  | .psubd | .vpsubd | .paddq | .vpaddq | .psubq | .vpsubq | .pmullw | .vpmullw =>
    handleArithmetic u insn
  | .psllw | .vpsllw | .pslld | .vpslld | .psllq | .vpsllq | .psrlw | .vpsrlw | .psrld | .vpsrld
  | .psrlq | .vpsrlq | .psraw | .vpsraw | .psrad | .vpsrad => handleShift u insn
  | .pshufb | .vpshufb => handlePshufb u insn
  | .aesenc | .aesenclast | .aesdec | .aesdeclast | .aesimc | .aeskeygenassist | .vaesenc
  | .vaesenclast | .vaesdec | .vaesdeclast | .vaesimc | .vaeskeygenassist => handleAes u insn
  | .vzeroupper => handleVzeroupper u
  | _ => u

/-! ### The switch by groups -/

def isMove (itype : Itype) : Bool := List.elem itype
  [.movdqa, .movdqu, .vmovdqa, .vmovdqu, .movaps, .vmovaps, .movups, .vmovups, .movapd, .vmovapd,
    .movupd, .vmovupd, .movd, .vmovd, .movq, .vmovq]

def isBinary (itype : Itype) : Bool := List.elem itype
  [.pxor, .vpxor, .pand, .vpand, .por, .vpor, .pandn, .vpandn, .paddb, .vpaddb, .psubb, .vpsubb,
    .paddw, .vpaddw, .psubw, .vpsubw, .paddd, .vpaddd, .psubd, .vpsubd, .paddq, .vpaddq, .psubq,
    .vpsubq, .pmullw, .vpmullw, .pshufb, .vpshufb]

def isShift (itype : Itype) : Bool := List.elem itype
  [.psllw, .vpsllw, .pslld, .vpslld, .psllq, .vpsllq, .psrlw, .vpsrlw, .psrld, .vpsrld, .psrlq,
    .vpsrlq, .psraw, .vpsraw, .psrad, .vpsrad]

def isAes (itype : Itype) : Bool := List.elem itype
  [.aesenc, .aesenclast, .aesdec, .aesdeclast, .aesimc, .aeskeygenassist, .vaesenc,
    .vaesenclast, .vaesdec, .vaesdeclast, .vaesimc, .vaeskeygenassist]

/-- What a two-source instruction computes. -/
def binary (itype : Itype) (size : ℕ) (lhs rhs : Buf 32) : Option (Buf 32) :=
  match itype with
  | .pxor | .vpxor => some (bitwise (· ^^^ ·) (Buf.zero 32) lhs rhs size)
  | .pand | .vpand => some (bitwise (· &&& ·) (Buf.zero 32) lhs rhs size)
  | .por | .vpor => some (bitwise (· ||| ·) (Buf.zero 32) lhs rhs size)
  | .pandn | .vpandn => some (bitwise (~~~ · &&& ·) (Buf.zero 32) lhs rhs size)
  | .pshufb | .vpshufb => some (pshufb size lhs rhs)
  | itype => arithmetic itype size lhs rhs

section Switch

variable (u : U) (address : Addr) (size : BitVec 32) {insn : Insn}

theorem handle_move (move : isMove insn.itype = true) :
    handle u address size insn = handleMove (updateRip u address size) insn := by
  obtain ⟨itype, length, op1, op2, op3⟩ := insn
  cases itype <;> first | rfl | exact absurd move Bool.false_ne_true

theorem handle_binary (two : isBinary insn.itype = true) :
    handle u address size insn =
      handleBinary (binary insn.itype) (updateRip u address size) insn := by
  obtain ⟨itype, length, op1, op2, op3⟩ := insn
  cases itype <;> first | rfl | exact absurd two Bool.false_ne_true

theorem handle_shift (shift : isShift insn.itype = true) :
    handle u address size insn = handleShift (updateRip u address size) insn := by
  obtain ⟨itype, length, op1, op2, op3⟩ := insn
  cases itype <;> first | rfl | exact absurd shift Bool.false_ne_true

theorem handle_aes (aes : isAes insn.itype = true) :
    handle u address size insn = handleAes (updateRip u address size) insn := by
  obtain ⟨itype, length, op1, op2, op3⟩ := insn
  cases itype <;> first | rfl | exact absurd aes Bool.false_ne_true

/-- An instruction of none of the groups is skipped over. -/
theorem handle_other (move : isMove insn.itype = false) (two : isBinary insn.itype = false)
    (shift : isShift insn.itype = false) (aes : isAes insn.itype = false)
    (other : insn.itype ≠ .vzeroupper) :
    handle u address size insn = updateRip u address size := by
  obtain ⟨itype, length, op1, op2, op3⟩ := insn
  cases itype <;> first
    | rfl
    | exact absurd move Bool.false_ne_true.symm
    | exact absurd two Bool.false_ne_true.symm
    | exact absurd shift Bool.false_ne_true.symm
    | exact absurd aes Bool.false_ne_true.symm
    | exact absurd rfl other

end Switch

/-! ### What the handler writes -/

/-- The number of bytes an instruction writes to its first operand. -/
def writeSize (insn : Insn) : ℕ :=
  if isMove insn.itype then moveSize insn
  else if isAes insn.itype then 16
  else vectorRegSize insn.op1.reg

/-- With an XMM register in the first operand no move is wider than the register. -/
theorem moveSize_of_xmm {insn : Insn} (xmm : vectorRegSize insn.op1.reg = 16) :
    moveSize insn ≤ 16 := by
  have used : ¬ (16 : ℕ) = 0 := by decide
  simp only [moveSize, xmm, if_neg used]
  split_ifs <;> omega

theorem writeSize_of_xmm {insn : Insn} (xmm : vectorRegSize insn.op1.reg = 16) :
    writeSize insn ≤ 16 := by
  rw [writeSize]
  split_ifs
  · exact moveSize_of_xmm xmm
  · exact le_refl 16
  · exact xmm.le

/-- The engine after at most one write of `size` bytes to an operand. -/
def WritesOperand (u : U) (op : Operand) (size : ℕ) (u' : U) : Prop :=
  u' = u ∨ ∃ (n : ℕ) (res : Buf n), u' = (writeOperand u op res size).getD u

theorem handleMove_writes (u : U) (insn : Insn) :
    WritesOperand u insn.op1 (moveSize insn) (handleMove u insn) := by
  rw [handleMove]
  cases readOperand u insn.op2 (Buf.zero 32) (moveSize insn) with
  | none => exact .inl rfl
  | some buf => exact .inr ⟨32, buf, rfl⟩

/-- A handler that computes one result for a vector register writes it, or nothing. -/
theorem writesOperand_result (u : U) (op : Operand) (size : ℕ) (result : Option (Buf 32)) :
    WritesOperand u op size
      (if size = 0 then u else
        match result with
        | some res => (writeOperand u op res size).getD u
        | none => u) := by
  by_cases general : size = 0
  · exact .inl (if_pos general)
  · rw [if_neg general]
    cases result with
    | none => exact .inl rfl
    | some res => exact .inr ⟨32, res, rfl⟩

theorem handleBinary_writes (compute : ℕ → Buf 32 → Buf 32 → Option (Buf 32)) (u : U)
    (insn : Insn) :
    WritesOperand u insn.op1 (vectorRegSize insn.op1.reg) (handleBinary compute u insn) :=
  writesOperand_result u insn.op1 (vectorRegSize insn.op1.reg) _

theorem handleShift_writes (u : U) (insn : Insn) :
    WritesOperand u insn.op1 (vectorRegSize insn.op1.reg) (handleShift u insn) :=
  writesOperand_result u insn.op1 (vectorRegSize insn.op1.reg) _

theorem handleAes_writes (u : U) (insn : Insn) :
    WritesOperand u insn.op1 16 (handleAes u insn) := by
  rw [handleAes]
  -- The six operations write their result, anything else nothing.
  split
  all_goals first
    | exact .inr ⟨16, _, rfl⟩
    | exact .inl rfl

/-- Apart from `vzeroupper`, the handler moves RIP past the instruction and then writes
its first operand at most once. -/
theorem handle_cases (u : U) (address : Addr) (size : BitVec 32) {insn : Insn}
    (other : insn.itype ≠ .vzeroupper) :
    WritesOperand (updateRip u address size) insn.op1 (writeSize insn)
      (handle u address size insn) := by
  rw [writeSize]
  -- One case for each group of the switch; what is in no group only moves RIP.
  by_cases move : isMove insn.itype = true
  · rw [handle_move u address size move, if_pos move]
    exact handleMove_writes _ insn
  by_cases aes : isAes insn.itype = true
  · rw [handle_aes u address size aes, if_neg move, if_pos aes]
    exact handleAes_writes _ insn
  rw [if_neg move, if_neg aes]
  by_cases two : isBinary insn.itype = true
  · rw [handle_binary u address size two]
    exact handleBinary_writes _ _ insn
  by_cases shift : isShift insn.itype = true
  · rw [handle_shift u address size shift]
    exact handleShift_writes _ insn
  · simp only [Bool.not_eq_true] at move aes two shift
    exact .inl (handle_other u address size move two shift aes other)

end Unxorer.Handler
