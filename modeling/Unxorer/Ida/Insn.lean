import Unxorer.Machine.Unicorn

/-!
# Decoded instructions

The part of IDA's `insn_t` and `op_t` that the plugin reads: the instruction type, its
length and three operands, each with its kind, register number, address or displacement
and immediate value. `Itype` lists every instruction constant the source names; the
others behave alike and are `other`.
-/

set_option autoImplicit false

namespace Unxorer

/-- The constants `NN_*` of IDA's x86 module that the source names. -/
inductive Itype
  | ja | jae | jb | jbe | jc | je | jz | jg | jge | jl | jle | jna | jnae | jnb | jnbe | jnc | jne
  | jng | jnge | jnl | jnle | jno | jnp | jns | jnz | jo | jp | jpe | jpo | js | jcxz | jecxz
  | jrcxz | cmova | cmovb | cmovbe | cmovg | cmovge | cmovl | cmovle | cmovno | cmovnp | cmovns
  | cmovnz | cmovo | cmovp | cmovs | cmovz | seta | setae | setb | setbe | setc | sete | setg
  | setge | setl | setle | setne | setno | setnp | setns | setnz | seto | setp | setpo | sets
  | setz | mov | xor | push | pop | int3 | hlt | ud2 | syscall | sysret | vmcall | vmclear
  | vmlaunch | vmresume | vmptrld | vmptrst | vmread | vmwrite | vmxoff | vmxon | clgi | invlpga
  | skinit | stgi | vmexit | vmload | vmmcall | vmrun | vmsave | invept | invvpid | movdqa | movdqu
  | vmovdqu | vmovdqa | movaps | vmovaps | movups | vmovups | movapd | vmovapd | movupd | vmovupd
  | movd | vmovd | movq | vmovq | vzeroupper | pxor | vpxor | pand | vpand | por | vpor | pandn
  | vpandn | paddb | vpaddb | psubb | vpsubb | paddw | vpaddw | psubw | vpsubw | paddd | vpaddd
  | psubd | vpsubd | paddq | vpaddq | psubq | vpsubq | pmullw | vpmullw | psllw | vpsllw | pslld
  | vpslld | psllq | vpsllq | psrlw | vpsrlw | psrld | vpsrld | psrlq | vpsrlq | psraw | vpsraw
  | psrad | vpsrad | pshufb | vpshufb | aesenc | aesenclast | aesdec | aesdeclast | aesimc
  | aeskeygenassist | vaesenc | vaesenclast | vaesdec | vaesdeclast | vaesimc | vaeskeygenassist
  | call | callfi | callni | retn | retf | jmp | jmpfi | jmpni
  | other
deriving DecidableEq, Repr

/-- The operand kinds `o_*`; those the source does not name are `other`. -/
inductive OpType
  | void | reg | mem | phrase | displ | imm | far | near | other
deriving DecidableEq, Repr

/-- The fields of `op_t` in use. -/
structure Operand where
  type : OpType
  reg : ℕ
  addr : BitVec 64
  value : BitVec 64
deriving DecidableEq, Repr

/-- An operand slot that is not used. -/
def Operand.none : Operand := ⟨.void, 0, 0, 0⟩

/-- The fields of `insn_t` in use. -/
structure Insn where
  itype : Itype
  size : BitVec 16
  op1 : Operand
  op2 : Operand
  op3 : Operand
deriving DecidableEq, Repr

end Unxorer
