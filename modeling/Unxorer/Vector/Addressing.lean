import Unxorer.Emulator.State
import Unxorer.Machine.Reference

/-!
# Addresses of memory operands

Every handler reads and writes its operands through `read_operand` and `write_operand`, and
these add one register to the address field of a memory operand: the one whose number is in
the register field. IDA gives that field no meaning for an absolute operand, puts a marker
into it for an operand with a SIB byte, and has a third operand kind for the ones without
displacement, which the handlers do not know.

## Main definitions

* `AccessesAt` — an operand stands for memory at an address
* `Indirect`, `Indirect.Encodes` — operands relative to registers and what IDA makes of them

## Main results

* `accessesAt_iff` — the address the handlers use
* `accessesAt_addr_iff` — when it is the one of an absolute operand
* `Indirect.accessesAt_address_iff` — when it is the one of an operand relative to registers
-/

set_option autoImplicit false

namespace Unxorer

open Unicorn VectorOperations RegisterMapper

variable {regs : Reg → BitVec 64} {op : Operand} {a b : Addr}

/-- The general registers of an engine. -/
def HasRegisters {U : Type} [Unicorn U] (u : U) (regs : Reg → BitVec 64) : Prop :=
  ∀ r ∈ mapping, reg u r = regs r

/-- With these general registers, whatever else the engine holds, a read of the operand is a
read of memory at the address, and a write a write of memory there. -/
structure AccessesAt (regs : Reg → BitVec 64) (op : Operand) (a : Addr) : Prop where
  read : ∀ (U : Type) [Unicorn U] (u : U), HasRegisters u regs →
    ∀ (n : ℕ) (dest : Buf n) (size : ℕ),
      readOperand u op dest size = (memRead u a size).map dest.copy
  write : ∀ (U : Type) [Unicorn U] (u : U), HasRegisters u regs →
    ∀ (n : ℕ) (src : Buf n) (size : ℕ), writeOperand u op src size = memWrite u a (src.take size)

/-! ### The address of the handlers -/

/-- The address field and the register with the number in the register field. -/
def operandAddress (regs : Reg → BitVec 64) (op : Operand) : Addr :=
  match idaToUnicorn op.reg with
  | none => op.addr
  | some base => op.addr + regs base

theorem calculateEffectiveAddress_eq {U : Type} [Unicorn U] {u : U} (has : HasRegisters u regs)
    (memory : isMemoryOperand op = true) :
    calculateEffectiveAddress u op = operandAddress regs op := by
  rw [calculateEffectiveAddress, if_pos memory, operandAddress]
  cases found : idaToUnicorn op.reg with
  | none => rfl
  | some base =>
    have member : base ∈ mapping := List.mem_of_getElem? found
    simp only [has base member]

theorem accessesAt_operandAddress (memory : isMemoryOperand op = true) :
    AccessesAt regs op (operandAddress regs op) := by
  constructor
  · intro U _ u has n dest size
    rw [← calculateEffectiveAddress_eq has memory]
    exact readOperand_of_isMemoryOperand u memory size dest
  · intro U _ u has n src size
    rw [← calculateEffectiveAddress_eq has memory]
    exact writeOperand_of_isMemoryOperand u memory size src

/-- A machine with all of memory mapped and one byte of it not zero. -/
def marked (regs : Reg → BitVec 64) (a : Addr) : Machine :=
  ⟨regs, fun _ => Buf.zero 32, fun x => if x = a then 1 else 0, fun _ => true⟩

theorem memRead_marked (x : Addr) :
    memRead (marked regs a) x 1 = some [if x = a then 1 else 0] := by
  have room : Mapped (marked regs a) x 1 := fun _ _ => rfl
  rw [memRead_of_mapped room, bytesAt]
  simp [marked, Unicorn.byte]

/-- A read of one byte tells two addresses apart. -/
theorem AccessesAt.unique (first : AccessesAt regs op a) (second : AccessesAt regs op b) :
    b = a := by
  have has : HasRegisters (marked regs a) regs := fun _ _ => rfl
  have same := (first.read Machine _ has 1 (Buf.zero 1) 1).symm.trans
    (second.read Machine _ has 1 (Buf.zero 1) 1)
  rw [memRead_marked, memRead_marked, if_pos rfl] at same
  by_contra different
  rw [if_neg different] at same
  have bytes := congrFun (Option.some.inj same) 0
  revert bytes
  decide

/-- The operands of the two kinds the handlers know stand for memory at one address. -/
theorem accessesAt_iff (memory : isMemoryOperand op = true) :
    AccessesAt regs op a ↔ operandAddress regs op = a := by
  constructor
  · intro accesses
    exact accesses.unique (accessesAt_operandAddress memory)
  · rintro rfl
    exact accessesAt_operandAddress memory

/-- The handlers do not access memory for an operand of the third kind. -/
theorem not_accessesAt_of_phrase (phrase : op.type = .phrase) : ¬ AccessesAt regs op a := by
  intro accesses
  have has : HasRegisters (marked regs a) regs := fun _ _ => rfl
  have read := accesses.read Machine _ has 1 (Buf.zero 1) 1
  rw [memRead_marked, readOperand, phrase] at read
  cases read

/-! ### Absolute operands -/

/-- A branch through an absolute operand goes through its address field. The handlers access
memory there exactly when the register field names no register or one that holds zero. -/
theorem accessesAt_addr_iff (regs : Reg → BitVec 64) {op : Operand} (absolute : op.type = .mem) :
    (∀ (U : Type) [Unicorn U] (u : U),
      resolveOperandTarget u op = (memRead u op.addr 8).map leWord) ∧
      (AccessesAt regs op op.addr ↔ ∀ r, idaToUnicorn op.reg = some r → regs r = 0) := by
  have memory : isMemoryOperand op = true := isMemoryOperand_iff.mpr (.inl absolute)
  constructor
  · intro U _ u
    simp only [resolveOperandTarget, absolute]
  · rw [accessesAt_iff memory, operandAddress]
    cases found : idaToUnicorn op.reg with
    | none => simp
    | some base => simp

/-- `[140001000h]` with 0 in the register field. -/
def absoluteOperand : Operand := ⟨.mem, 0, 0x140001000, 0⟩

theorem accessesAt_addr_iff_rax :
    AccessesAt (fun _ => 0) absoluteOperand 0x140001000 ↔
      ∀ r, idaToUnicorn 0 = some r → (0 : BitVec 64) = 0 :=
  (accessesAt_addr_iff (fun _ => 0) (rfl : absoluteOperand.type = .mem)).2

/-- With 2000h in RAX the handlers access memory 2000h bytes further on. -/
theorem absolute_operand_misses : ∃ regs : Reg → BitVec 64,
    AccessesAt regs absoluteOperand 0x140003000 ∧ ¬ AccessesAt regs absoluteOperand 0x140001000 := by
  refine ⟨fun _ => 0x2000, (accessesAt_iff rfl).mpr (by decide), fun accesses => ?_⟩
  have address := (accessesAt_iff rfl).mp accesses
  revert address
  decide

/-! ### Operands relative to registers -/

/-- The general register with a number. -/
def generalReg (i : Fin 16) : Reg := mapping.get (i.cast rfl)

theorem idaToUnicorn_generalReg (i : Fin 16) : idaToUnicorn i.1 = some (generalReg i) := by
  revert i
  decide

/-- A base register, an index register with the exponent of its scale, and a displacement.
An index or one of the base registers RSP and R12 takes a SIB byte. -/
structure Indirect where
  base : Fin 16
  index : Option (Fin 16 × Fin 4)
  displacement : Option (BitVec 64)
  sib : Bool
  sib_of_index : index.isSome = true → sib = true
  sib_of_base : base = 4 ∨ base = 12 → sib = true

namespace Indirect

def scaledIndex (m : Indirect) (regs : Reg → BitVec 64) : BitVec 64 :=
  match m.index with
  | none => 0
  | some (i, exponent) => BitVec.ofNat 64 (2 ^ exponent.1) * regs (generalReg i)

/-- The address the operand stands for. -/
def address (m : Indirect) (regs : Reg → BitVec 64) : Addr :=
  regs (generalReg m.base) + m.scaledIndex regs + m.displacement.getD 0

/-- What IDA makes of the operand, in the fields the handlers look at. With a SIB byte the
register field is 4. -/
structure Encodes (m : Indirect) (op : Operand) : Prop where
  type : op.type = if m.displacement.isSome then .displ else .phrase
  reg : op.reg = if m.sib then 4 else m.base.1
  addr : ∀ d, m.displacement = some d → op.addr = d

theorem scaledIndex_of_sib_eq_false {m : Indirect} (plain : m.sib = false) :
    m.scaledIndex regs = 0 := by
  have none : m.index = none := by
    cases found : m.index with
    | none => rfl
    | some index =>
      have sib := m.sib_of_index (by rw [found]; rfl)
      rw [plain] at sib
      cases sib
  rw [scaledIndex, none]

/-- The handlers add the base register, or RSP where there is a SIB byte. -/
theorem Encodes.operandAddress_eq {m : Indirect} {d : BitVec 64} (encodes : m.Encodes op)
    (displacement : m.displacement = some d) :
    operandAddress regs op = d + regs (if m.sib then .rsp else generalReg m.base) := by
  rw [operandAddress, encodes.addr d displacement, encodes.reg]
  by_cases sib : m.sib = true
  · rw [if_pos sib, if_pos sib]
    rfl
  · rw [if_neg sib, if_neg sib, idaToUnicorn_generalReg]

/-- The handlers access memory at the address of the operand exactly when it has a
displacement and, with a SIB byte, RSP holds the sum of base and scaled index. -/
theorem accessesAt_address_iff (regs : Reg → BitVec 64) (m : Indirect) {op : Operand}
    (encodes : m.Encodes op) :
    AccessesAt regs op (m.address regs) ↔
      m.displacement.isSome = true ∧
        (m.sib = true → regs .rsp = regs (generalReg m.base) + m.scaledIndex regs) := by
  cases displacement : m.displacement with
  | none =>
    have phrase : op.type = .phrase := by
      rw [encodes.type, displacement]
      rfl
    exact iff_of_false (not_accessesAt_of_phrase phrase) fun holds => Bool.false_ne_true holds.1
  | some d =>
    have memory : isMemoryOperand op = true := by
      refine isMemoryOperand_iff.mpr (.inr ?_)
      rw [encodes.type, displacement]
      rfl
    have given : (some d).isSome = true := rfl
    rw [accessesAt_iff memory, encodes.operandAddress_eq displacement, address, displacement,
      Option.getD_some, add_comm d, add_left_inj, and_iff_right given]
    cases sib : m.sib with
    | true => simp
    | false => simp [scaledIndex_of_sib_eq_false sib]

/-- R15 is a base without a SIB byte. -/
theorem sib_of_r15 {sib : Bool} : Fin.last 15 = 4 ∨ Fin.last 15 = 12 → sib = true := by
  rintro (rsp | r12)
  · exact absurd rsp (by decide)
  · exact absurd r12 (by decide)

/-- `[r15+10h]`, `[r15+rcx*4+10h]` and `[r15]`. -/
def exampleBased : Indirect := ⟨Fin.last 15, none, some 0x10, false, by decide, sib_of_r15⟩

def exampleIndexed : Indirect :=
  ⟨Fin.last 15, some (⟨1, by decide⟩, ⟨2, by decide⟩), some 0x10, true, by decide, sib_of_r15⟩

def examplePhrase : Indirect := ⟨Fin.last 15, none, none, false, by decide, sib_of_r15⟩

theorem encodes_exampleBased : exampleBased.Encodes ⟨.displ, 15, 0x10, 0⟩ :=
  ⟨rfl, rfl, fun _ same => Option.some.inj same⟩

theorem encodes_exampleIndexed : exampleIndexed.Encodes ⟨.displ, 4, 0x10, 0⟩ :=
  ⟨rfl, rfl, fun _ same => Option.some.inj same⟩

theorem encodes_examplePhrase : examplePhrase.Encodes ⟨.phrase, 15, 0, 0⟩ :=
  ⟨rfl, rfl, fun _ same => by cases same⟩

theorem accessesAt_address_iff_based :
    AccessesAt (fun _ => 0x2000) ⟨.displ, 15, 0x10, 0⟩ 0x2010 ↔
      true = true ∧ (false = true → (0x2000 : BitVec 64) = 0x2000 + 0) :=
  accessesAt_address_iff (fun _ => 0x2000) exampleBased encodes_exampleBased

/-- With 2000h in every register the handlers access memory for the second operand at the
address RSP and the displacement give, and none for the third. -/
theorem indexed_operand_misses :
    (exampleIndexed.Encodes ⟨.displ, 4, 0x10, 0⟩ ∧
      AccessesAt (fun _ => 0x2000) ⟨.displ, 4, 0x10, 0⟩ 0x2010 ∧
      ¬ AccessesAt (fun _ => 0x2000) ⟨.displ, 4, 0x10, 0⟩
        (exampleIndexed.address fun _ => 0x2000)) ∧
    examplePhrase.Encodes ⟨.phrase, 15, 0, 0⟩ ∧
      ¬ AccessesAt (fun _ => 0x2000) ⟨.phrase, 15, 0, 0⟩ (examplePhrase.address fun _ => 0x2000) := by
  have here : AccessesAt (fun _ => 0x2000) ⟨.displ, 4, 0x10, 0⟩ 0x2010 :=
    (accessesAt_iff rfl).mpr (by decide)
  have away : ¬ AccessesAt (fun _ => 0x2000) ⟨.displ, 4, 0x10, 0⟩
      (exampleIndexed.address fun _ => 0x2000) := by
    intro there
    have same := here.unique there
    revert same
    decide
  exact ⟨⟨encodes_exampleIndexed, here, away⟩, encodes_examplePhrase,
    not_accessesAt_of_phrase rfl⟩

end Indirect

end Unxorer
