import Unxorer.Ida.Insn

/-!
# The import map

The map from addresses to import names: the slots of the import address table as IDA
enumerates them, and the functions that consist of a jump through such a slot.

## Main definitions

* `ImportResolver.buildImportMap` — `build_import_map`

## Main results

* `ImportResolver.buildImportMap_thunk` — a thunk is bound to what its slot is bound to
-/

set_option autoImplicit false

namespace Unxorer.ImportResolver

/-- `import_enum_cb`, for an import with a name that is not null. -/
def importEnumCb (map : Addr → Option String) (entry : Addr × String) : Addr → Option String :=
  if entry.2 ≠ "" then Function.update map entry.1 (some entry.2) else map

def thunkJumpTypes : List Itype := [.jmp, .jmpfi, .jmpni]

/-- The name of the slot a function jumps through, where it starts with such a jump. -/
def thunkName (decode : Addr → Option Insn) (result : Addr → Option String) (func : Addr) :
    Option String :=
  match decode func with
  | none => none
  | some insn =>
    if insn.itype ∉ thunkJumpTypes ∨ insn.op1.type ≠ .mem then none else result insn.op1.addr

/-- The body of the loop over the functions. -/
def bindThunk (decode : Addr → Option Insn) (result thunks : Addr → Option String)
    (func : Addr) : Addr → Option String :=
  match thunkName decode result func with
  | some name => Function.update thunks func (some name)
  | none => thunks

/-- `build_import_map` from the imports IDA enumerates, the starts of the functions and
the decoder. -/
def buildImportMap (imports : List (Addr × String)) (funcs : List Addr)
    (decode : Addr → Option Insn) : Addr → Option String :=
  let result := imports.foldl importEnumCb fun _ => none
  let thunks := funcs.foldl (bindThunk decode result) fun _ => none
  fun a => (result a).or (thunks a)

variable {imports : List (Addr × String)} {funcs : List Addr} {decode : Addr → Option Insn}
  {result thunks : Addr → Option String} {func : Addr} {name : String}

/-- The enumeration of the imports alone. -/
theorem buildImportMap_slot {slot : Addr}
    (bound : (imports.foldl importEnumCb fun _ => none) slot = some name) :
    buildImportMap imports funcs decode slot = some name := by
  simp only [buildImportMap, bound, Option.some_or]

theorem bindThunk_self (bound : thunkName decode result func = some name) :
    bindThunk decode result thunks func func = some name := by
  simp only [bindThunk, bound, Function.update_self]

/-- A function once bound to the name of its slot stays bound to it. -/
theorem bindThunk_of_bound (bound : thunkName decode result func = some name)
    (same : thunks func = some name) (head : Addr) :
    bindThunk decode result thunks head func = some name := by
  by_cases here : head = func
  · rw [here]
    exact bindThunk_self bound
  · cases found : thunkName decode result head with
    | none => simp only [bindThunk, found, same]
    | some other => simp only [bindThunk, found, Function.update_of_ne (Ne.symm here), same]

/-- The loop over the functions binds each thunk to the name of its slot. -/
theorem foldl_bindThunk (bound : thunkName decode result func = some name)
    (visited : func ∈ funcs ∨ thunks func = some name) :
    funcs.foldl (bindThunk decode result) thunks func = some name := by
  -- Once the loop has passed the thunk, the map itself carries the invariant.
  induction funcs generalizing thunks with
  | nil => exact visited.resolve_left List.not_mem_nil
  | cons head rest ih =>
    apply ih
    rcases visited with member | same
    · rcases List.mem_cons.mp member with rfl | later
      · exact .inr (bindThunk_self bound)
      · exact .inl later
    · exact .inr (bindThunk_of_bound bound same head)

/-- A function that jumps through the slot of an import is bound to what the slot is bound to,
unless its address is that of an import itself. -/
theorem buildImportMap_thunk {jump : Insn} (member : func ∈ funcs)
    (decoded : decode func = some jump) (jumps : jump.itype ∈ thunkJumpTypes)
    (memory : jump.op1.type = .mem)
    (bound : (imports.foldl importEnumCb fun _ => none) jump.op1.addr = some name)
    (other : (imports.foldl importEnumCb fun _ => none) func = none) :
    buildImportMap imports funcs decode func =
      buildImportMap imports funcs decode jump.op1.addr := by
  have named : thunkName decode (imports.foldl importEnumCb fun _ => none) func = some name := by
    simp [thunkName, decoded, jumps, memory, bound]
  rw [buildImportMap_slot bound]
  simp only [buildImportMap, other, Option.none_or]
  exact foldl_bindThunk named (.inl member)

end Unxorer.ImportResolver
