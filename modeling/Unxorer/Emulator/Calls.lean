import Unxorer.Emulator.Steps
import Unxorer.Ida.ImportResolver

/-!
# Calls of imported functions

An import can be called through its slot in the import address table or through a thunk
that jumps through the slot. The import map has both addresses as keys, but `handle_call`
looks up the target of the call: for a thunk that is its address, for a slot it is the
pointer stored there.

## Main definitions

* `SlotCallLaw` — what is expected of a call through a slot

## Main results

* `Emulator.handleCall_thunk` — a call of a thunk runs the stub of its import
* `Emulator.handleCall_slot` — a call through a slot looks up the pointer in it
* `Emulator.handleCall_importedThunk` — a call of a thunk IDA knows is one of what its slot is
  bound to
* `Emulator.slotCallLaw_iff` — when that makes no difference
-/

set_option autoImplicit false

namespace Unxorer.Emulator

open Unicorn ApiStubs

section Slots

variable {U : Type} [Unicorn U] [Host]

section Call

variable (e : Emulator U) (c : Counters) (address : Addr) (size : BitVec 32)

/-- Names with the same stub are called alike, and no others. -/
theorem callExternal_inj {name name' : Option String} :
    e.callExternal c address size name = e.callExternal c address size name' ↔
      stubOf name = stubOf name' := by
  constructor
  · intro same
    rw [← callExternal_fst e c address size name, same, callExternal_fst]
  · intro same
    simp only [callExternal, dispatchImport_eq, same]

/-- A call through a slot looks up the pointer stored in the slot. -/
theorem handleCall_slot {insn : Insn} {bytes : List Byte} (call : insn.itype ∈ callTypes)
    (memory : insn.op1.type = .mem) (stored : memRead e.engine insn.op1.addr 8 = some bytes)
    (outside : e.insideImage (leWord bytes) = false) :
    e.handleCall c address size insn =
      some (e.callExternal c address size (e.importName (leWord bytes))) := by
  have target : resolveOperandTarget e.engine insn.op1 = some (leWord bytes) := by
    simp only [resolveOperandTarget, memory, stored, Option.map_some]
  simp only [handleCall, call, not_true_eq_false, if_false, target, outside, Bool.not_false,
    if_true]

/-- A direct call of a thunk looks up the thunk. -/
theorem handleCall_thunk {insn jump : Insn} {bytes : List Byte} (call : insn.itype ∈ callTypes)
    (near : insn.op1.type = .near) (inside : e.insideImage insn.op1.addr = true)
    (decoded : e.tryGetInsn insn.op1.addr = some jump) (jumps : jump.itype ∈ jumpTypes)
    (memory : jump.op1.type = .mem) (stored : memRead e.engine jump.op1.addr 8 = some bytes)
    (outside : e.insideImage (leWord bytes) = false) :
    e.handleCall c address size insn =
      some (e.callExternal { c with importThunks := c.importThunks + 1 } address size
        (e.importName insn.op1.addr)) := by
  have target : resolveOperandTarget e.engine insn.op1 = some insn.op1.addr := by
    simp only [resolveOperandTarget, near]
  have thunk : e.isExternalThunk insn.op1.addr = true := by
    simp only [isExternalThunk, decoded, jumps, not_true_eq_false, if_false, resolveOperandTarget,
      memory, stored, Option.map_some, outside, Bool.not_false]
  simp only [handleCall, call, not_true_eq_false, if_false, target, inside, Bool.not_true,
    Bool.false_eq_true, thunk, if_true]

/-- Where the names are those of `build_import_map`, a direct call of a function that jumps
through the slot of an import is treated as a call of what the slot is bound to. -/
theorem handleCall_importedThunk {insn jump : Insn} {bytes : List Byte} {name : String}
    {imports : List (Addr × String)} {funcs : List Addr} {decode : Addr → Option Insn}
    (captured : e.image.importMap = ImportResolver.buildImportMap imports funcs decode)
    (call : insn.itype ∈ callTypes) (near : insn.op1.type = .near)
    (inside : e.insideImage insn.op1.addr = true) (member : insn.op1.addr ∈ funcs)
    (found : decode insn.op1.addr = some jump) (decoded : e.tryGetInsn insn.op1.addr = some jump)
    (jumps : jump.itype ∈ jumpTypes) (memory : jump.op1.type = .mem)
    (stored : memRead e.engine jump.op1.addr 8 = some bytes)
    (outside : e.insideImage (leWord bytes) = false)
    (bound : (imports.foldl ImportResolver.importEnumCb fun _ => none) jump.op1.addr = some name)
    (other : (imports.foldl ImportResolver.importEnumCb fun _ => none) insn.op1.addr = none) :
    e.handleCall c address size insn =
      some (e.callExternal { c with importThunks := c.importThunks + 1 } address size
        (e.importName jump.op1.addr)) := by
  have same : e.importName insn.op1.addr = e.importName jump.op1.addr := by
    rw [importName, importName, captured]
    exact congrArg (fun name => if e.enableHeapStubs then name else none)
      (ImportResolver.buildImportMap_thunk member found jumps memory bound other)
  rw [e.handleCall_thunk c address size call near inside decoded jumps memory stored outside, same]

end Call

/-- What is expected of a call through a slot that is bound to a name: it is treated as a
call of that name, and as a direct call of any thunk of the same name that jumps through
the slot. -/
structure SlotCallLaw (e : Emulator U) (c : Counters) (address : Addr) (size : BitVec 32)
    (insn : Insn) (name : String) : Prop where
  named : e.handleCall c address size insn = some (e.callExternal c address size (some name))
  thunk : ∀ call jump : Insn, call.itype ∈ callTypes → call.op1.type = .near →
    e.insideImage call.op1.addr = true → e.tryGetInsn call.op1.addr = some jump →
    jump.itype ∈ jumpTypes → jump.op1 = insn.op1 →
    e.image.importMap call.op1.addr = some name →
    (e.handleCall c address size call).map Prod.fst =
      (e.handleCall c address size insn).map Prod.fst

/-- The law holds exactly when the import map leads from the pointer in the slot to the
same stub as from the slot. -/
theorem slotCallLaw_iff (e : Emulator U) (c : Counters) (address : Addr) (size : BitVec 32)
    (insn : Insn) (name : String) (bytes : List Byte) (call : insn.itype ∈ callTypes)
    (memory : insn.op1.type = .mem) (bound : e.image.importMap insn.op1.addr = some name)
    (stored : memRead e.engine insn.op1.addr 8 = some bytes)
    (outside : e.insideImage (leWord bytes) = false) (enabled : e.enableHeapStubs = true) :
    SlotCallLaw e c address size insn name ↔
      stubOf (e.image.importMap (leWord bytes)) = stubOf (e.image.importMap insn.op1.addr) := by
  -- The slot is looked up by the pointer in it, and the name is bound to its address.
  have slot := e.handleCall_slot c address size call memory stored outside
  have lookup : ∀ target, e.importName target = e.image.importMap target := fun target =>
    if_pos enabled
  rw [lookup] at slot
  have named : e.handleCall c address size insn =
      some (e.callExternal c address size (some name)) ↔
      stubOf (e.image.importMap (leWord bytes)) = stubOf (e.image.importMap insn.op1.addr) := by
    rw [slot, Option.some_inj, callExternal_inj, bound]
  refine ⟨fun law => named.mp law.named, fun same => ⟨named.mpr same, ?_⟩⟩
  -- A thunk that jumps through the slot is looked up by its own address.
  intro direct jump calls near inside decoded jumps through thunk
  have throughMemory : jump.op1.type = .mem := through ▸ memory
  have throughStored : memRead e.engine jump.op1.addr 8 = some bytes := through ▸ stored
  rw [e.handleCall_thunk c address size calls near inside decoded jumps throughMemory throughStored
    outside, slot, lookup, thunk]
  simp only [Option.map_some, callExternal_fst]
  rw [same, bound]

end Slots

/-! ### A call of `malloc` through its slot -/

/-- What the example's slot holds when a run starts. -/
theorem read_exampleSlot :
    memRead Example.fresh.engine 0x140000020 8 = some (List.replicate 8 0x90) := by
  decide +kernel

theorem slotCallLaw_iff_example :
    SlotCallLaw Example.fresh ⟨0, 0, 0, 0, 0, 0⟩ 0x14000000C 6 Example.callInsn "malloc" ↔
      stubOf (Example.fresh.image.importMap (leWord (List.replicate 8 0x90))) =
        stubOf (Example.fresh.image.importMap 0x140000020) :=
  slotCallLaw_iff Example.fresh ⟨0, 0, 0, 0, 0, 0⟩ 0x14000000C 6 Example.callInsn "malloc"
    (List.replicate 8 0x90) (by decide) rfl (by decide +kernel) read_exampleSlot
    (by decide +kernel) (by decide +kernel)

/-- The stub is not run: no name is bound to the pointer in the slot. -/
theorem malloc_slot_not_dispatched :
    ¬ SlotCallLaw Example.fresh ⟨0, 0, 0, 0, 0, 0⟩ 0x14000000C 6 Example.callInsn "malloc" := by
  intro law
  have slot := Example.fresh.handleCall_slot ⟨0, 0, 0, 0, 0, 0⟩ 0x14000000C 6
    (show Example.callInsn.itype ∈ callTypes by decide) rfl read_exampleSlot (by decide +kernel)
  have same := slot.symm.trans law.named
  rw [Option.some_inj, callExternal_inj] at same
  revert same
  decide +kernel

end Unxorer.Emulator
