import Unxorer.Vector.Correctness

/-!
# The upper half of a destination register

An instruction with an XMM destination should clear bits 255:128 of the register when
it is VEX-encoded and keep them when it is a legacy form. Both kinds go through the same
write of an XMM register, which keeps them.

## Main definitions

* `UpperHalfLaw` — what the two encodings owe to the upper half

## Main results

* `Handler.upperHalf_handle` — the handler keeps the upper half in every form
* `Handler.handle_upperHalfLaw_iff` — the law holds of a VEX form exactly when there was
  nothing to clear
-/

set_option autoImplicit false

namespace Unxorer

open Unicorn VectorOperations RegisterMapper

variable {U : Type} [Unicorn U]

/-- Bits 255:128 of a YMM register. -/
def upperHalf (u : U) (i : Fin 16) : Buf 16 := fun j => ymm u i ⟨16 + j.1, by omega⟩

/-- The VEX-encoded instructions of the handler that have a destination. -/
def isVex (itype : Itype) : Bool := List.elem itype
  [.vmovdqu, .vmovdqa, .vmovaps, .vmovups, .vmovapd, .vmovupd, .vmovd, .vmovq, .vpxor, .vpand,
    .vpor, .vpandn, .vpaddb, .vpsubb, .vpaddw, .vpsubw, .vpaddd, .vpsubd, .vpaddq, .vpsubq,
    .vpmullw, .vpsllw, .vpslld, .vpsllq, .vpsrlw, .vpsrld, .vpsrlq, .vpsraw, .vpsrad, .vpshufb,
    .vaesenc, .vaesenclast, .vaesdec, .vaesdeclast, .vaesimc, .vaeskeygenassist]

/-- A VEX form with the XMM destination `i` clears the upper half, a legacy form keeps it. -/
structure UpperHalfLaw (u u' : U) (itype : Itype) (i : Fin 16) : Prop where
  vex : isVex itype = true → upperHalf u' i = Buf.zero 16
  legacy : isVex itype = false → upperHalf u' i = upperHalf u i

/-- Writing at most 16 bytes to an XMM register operand leaves every upper half alone. -/
theorem upperHalf_writesOperand {u u' : U} {op : Operand} {size : ℕ} {i : Fin 16} (j : Fin 16)
    (writes : Handler.WritesOperand u op size u') (xmm : IsRegister op 16 i) (narrow : size ≤ 16) :
    upperHalf u' j = upperHalf u j := by
  rcases writes with rfl | ⟨n, res, rfl⟩
  · rfl
  · have notWide : size ≠ 32 := by omega
    -- The write goes to the XMM register, and that leaves bits 255:128 alone.
    rw [writeOperand_xmm u xmm res notWide, Option.getD_some]
    funext k
    have upper : ¬ 16 + k.1 < 16 := by omega
    by_cases same : j = i
    · simp [upperHalf, same]
    · simp [upperHalf, same]

namespace Handler

/-- Every instruction with an XMM destination keeps the upper half of the register. -/
theorem upperHalf_handle (u : U) (address : Addr) (length : BitVec 32) {insn : Insn} {i : Fin 16}
    (xmm : IsRegister insn.op1 16 i) (other : insn.itype ≠ .vzeroupper) :
    upperHalf (handle u address length insn) i = upperHalf u i := by
  have writes := handle_cases u address length other
  have narrow : writeSize insn ≤ 16 := writeSize_of_xmm xmm.width
  rw [upperHalf_writesOperand i writes xmm narrow]
  funext j
  rw [upperHalf, ymm_updateRip, upperHalf]

/-- The handler meets the law exactly when a VEX form finds the upper half cleared. -/
theorem handle_upperHalfLaw_iff (u : U) (address : Addr) (length : BitVec 32) (insn : Insn)
    (i : Fin 16) (xmm : IsRegister insn.op1 16 i)
    (other : insn.itype ≠ .vzeroupper) :
    UpperHalfLaw u (handle u address length insn) insn.itype i ↔
      (isVex insn.itype = true → upperHalf u i = Buf.zero 16) := by
  have kept := upperHalf_handle u address length xmm other
  constructor
  · intro law vex
    rw [← kept]
    exact law.vex vex
  · intro cleared
    exact ⟨fun vex => kept.trans (cleared vex), fun _ => kept⟩

/-- `vpxor xmm0, xmm1, xmm2` on a machine whose registers hold a pattern. -/
theorem handle_upperHalfLaw_iff_patterned :
    UpperHalfLaw patterned (handle patterned 0x1000 4
      ⟨.vpxor, 4, ⟨.reg, 64, 0, 0⟩, ⟨.reg, 65, 0, 0⟩, ⟨.reg, 66, 0, 0⟩⟩) .vpxor 0 ↔
      (isVex .vpxor = true → upperHalf patterned 0 = Buf.zero 16) :=
  handle_upperHalfLaw_iff patterned 0x1000 4
    ⟨.vpxor, 4, ⟨.reg, 64, 0, 0⟩, ⟨.reg, 65, 0, 0⟩, ⟨.reg, 66, 0, 0⟩⟩ 0 ⟨rfl, rfl, rfl, by decide⟩
    (by decide)

/-- The same `vpxor` leaves the old upper half in its destination. -/
theorem vpxor_keeps_upperHalf :
    ¬ UpperHalfLaw patterned (handle patterned 0x1000 4
      ⟨.vpxor, 4, ⟨.reg, 64, 0, 0⟩, ⟨.reg, 65, 0, 0⟩, ⟨.reg, 66, 0, 0⟩⟩) .vpxor 0 := by
  intro law
  have cleared := congrFun (law.vex rfl) 0
  revert cleared
  decide

end Handler

end Unxorer
