import Unxorer.Ida.Insn

/-!
# Instruction classes and register numbers

The tables of `instruction_classifier.hpp` and `register_mapper.hpp`: which instructions
are branches, calls, skipped or taken over by the handler, and which engine register
an IDA register number stands for.
-/

set_option autoImplicit false

namespace Unxorer

namespace InstructionClassifier

def isBranch (itype : Itype) : Bool := List.elem itype
  [.ja, .jae, .jb, .jbe, .jc, .je, .jz, .jg, .jge, .jl, .jle, .jna, .jnae, .jnb, .jnbe, .jnc,
    .jne, .jng, .jnge, .jnl, .jnle, .jno, .jnp, .jns, .jnz, .jo, .jp, .jpe, .jpo, .js, .jcxz,
    .jecxz, .jrcxz]

def isFlagDependent (itype : Itype) : Bool := List.elem itype
  [.cmova, .cmovb, .cmovbe, .cmovg, .cmovge, .cmovl, .cmovle, .cmovno, .cmovnp, .cmovns, .cmovnz,
    .cmovo, .cmovp, .cmovs, .cmovz, .seta, .setae, .setb, .setbe, .setc, .sete, .setg, .setge,
    .setl, .setle, .setne, .setno, .setnp, .setns, .setnz, .seto, .setp, .setpo, .sets, .setz]

def isConditional (itype : Itype) : Bool := isBranch itype || isFlagDependent itype

def shouldDump (itype : Itype) : Bool := !List.elem itype
  [.mov, .xor, .push, .pop]

def shouldSkip (itype : Itype) : Bool := List.elem itype
  [.int3, .hlt, .ud2, .syscall, .sysret, .vmcall, .vmclear, .vmlaunch, .vmresume, .vmptrld,
    .vmptrst, .vmread, .vmwrite, .vmxoff, .vmxon, .clgi, .invlpga, .skinit, .stgi, .vmexit,
    .vmload, .vmmcall, .vmrun, .vmsave, .invept, .invvpid]

def shouldHandle (itype : Itype) : Bool := List.elem itype
  [.movdqa, .movdqu, .vmovdqu, .vmovdqa, .movaps, .vmovaps, .movups, .vmovups, .movapd, .vmovapd,
    .movupd, .vmovupd, .movd, .vmovd, .movq, .vmovq, .vzeroupper, .pxor, .vpxor, .pand, .vpand,
    .por, .vpor, .pandn, .vpandn, .paddb, .vpaddb, .psubb, .vpsubb, .paddw, .vpaddw, .psubw,
    .vpsubw, .paddd, .vpaddd, .psubd, .vpsubd, .paddq, .vpaddq, .psubq, .vpsubq, .pmullw, .vpmullw,
    .psllw, .vpsllw, .pslld, .vpslld, .psllq, .vpsllq, .psrlw, .vpsrlw, .psrld, .vpsrld, .psrlq,
    .vpsrlq, .psraw, .vpsraw, .psrad, .vpsrad, .pshufb, .vpshufb, .aesenc, .aesenclast, .aesdec,
    .aesdeclast, .aesimc, .aeskeygenassist, .vaesenc, .vaesenclast, .vaesdec, .vaesdeclast,
    .vaesimc, .vaeskeygenassist]

def isCallOrRet (itype : Itype) : Bool := List.elem itype
  [.call, .callfi, .callni, .retn, .retf]

end InstructionClassifier

namespace RegisterMapper

def inRange (value min max : ℕ) : Bool := min ≤ value && value ≤ max

/-- The general registers in the order of their IDA numbers. -/
def mapping : List Reg :=
  [.rax, .rcx, .rdx, .rbx, .rsp, .rbp, .rsi, .rdi, .r8, .r9, .r10, .r11, .r12, .r13, .r14, .r15]

/-- `ida_to_unicorn`; `none` stands for the 0 the source returns. -/
def idaToUnicorn (idaReg : ℕ) : Option Reg := mapping[idaReg]?

def isXmmReg (regNum : ℕ) : Bool := inRange regNum 16 31 || inRange regNum 64 79

def isYmmReg (regNum : ℕ) : Bool := inRange regNum 81 96

/-- `xmm_number`; `none` stands for -1. -/
def xmmNumber (idaReg : ℕ) : Option (Fin 16) :=
  if h : 16 ≤ idaReg ∧ idaReg ≤ 31 then some ⟨idaReg - 16, by omega⟩
  else if h : 64 ≤ idaReg ∧ idaReg ≤ 79 then some ⟨idaReg - 64, by omega⟩
  else none

/-- `ymm_number`; `none` stands for -1. -/
def ymmNumber (idaReg : ℕ) : Option (Fin 16) :=
  if h : 81 ≤ idaReg ∧ idaReg ≤ 96 then some ⟨idaReg - 81, by omega⟩ else none

/-- `xmm_to_unicorn`, as the offset from `UC_X86_REG_XMM0`. -/
def xmmToUnicorn (idaReg : ℕ) : Option (Fin 16) := xmmNumber idaReg

/-- `ymm_to_unicorn`, as the offset from `UC_X86_REG_YMM0`. -/
def ymmToUnicorn (idaReg : ℕ) : Option (Fin 16) := ymmNumber idaReg

def vectorRegSize (regNum : ℕ) : ℕ :=
  if isXmmReg regNum then 16 else if isYmmReg regNum then 32 else 0

theorem isXmmReg_iff {r : ℕ} : isXmmReg r = true ↔ 16 ≤ r ∧ r ≤ 31 ∨ 64 ≤ r ∧ r ≤ 79 := by
  simp [isXmmReg, inRange]

theorem isYmmReg_iff {r : ℕ} : isYmmReg r = true ↔ 81 ≤ r ∧ r ≤ 96 := by
  simp [isYmmReg, inRange]

theorem not_isYmmReg_of_isXmmReg {r : ℕ} (xmm : isXmmReg r = true) : isYmmReg r = false := by
  rw [isXmmReg_iff] at xmm
  rw [Bool.eq_false_iff, ne_eq, isYmmReg_iff]
  omega

theorem vectorRegSize_cases (r : ℕ) :
    isXmmReg r = true ∧ vectorRegSize r = 16 ∨ isYmmReg r = true ∧ vectorRegSize r = 32 ∨
      isXmmReg r = false ∧ isYmmReg r = false ∧ vectorRegSize r = 0 := by
  rw [vectorRegSize]
  cases isXmmReg r <;> cases isYmmReg r <;> simp

/-- A number outside the ranges of the vector registers has no vector register. -/
theorem vectorRegSize_eq_zero {r : ℕ} (xmm : ¬ (16 ≤ r ∧ r ≤ 31 ∨ 64 ≤ r ∧ r ≤ 79))
    (ymm : ¬ (81 ≤ r ∧ r ≤ 96)) : vectorRegSize r = 0 := by
  rw [vectorRegSize, if_neg (isXmmReg_iff.not.mpr xmm), if_neg (isYmmReg_iff.not.mpr ymm)]

theorem exists_xmmNumber {r : ℕ} (xmm : isXmmReg r = true) : ∃ i, xmmNumber r = some i := by
  rw [isXmmReg_iff] at xmm
  rw [xmmNumber]
  split_ifs with low high
  · exact ⟨_, rfl⟩
  · exact ⟨_, rfl⟩
  · omega

/-- No IDA number stands for the instruction pointer or the flags. -/
theorem idaToUnicorn_general {r : ℕ} {g : Reg} (found : idaToUnicorn r = some g) :
    g ≠ .rip ∧ g ≠ .eflags := by
  have member : g ∈ mapping := List.mem_of_getElem? found
  simp only [mapping, List.mem_cons, List.not_mem_nil, or_false] at member
  rcases member with rfl | rfl | rfl | rfl | rfl | rfl | rfl | rfl | rfl | rfl | rfl | rfl | rfl |
    rfl | rfl | rfl <;> exact ⟨Reg.noConfusion, Reg.noConfusion⟩

end RegisterMapper

end Unxorer
