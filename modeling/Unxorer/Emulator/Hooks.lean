import Unxorer.Emulator.Branching
import Unxorer.Emulator.Faults
import Unxorer.Emulator.Scan
import Unxorer.Vector.Handler

/-!
# The hooks

What the emulator does when Unicorn is about to execute an instruction, meets an access
to unmapped memory or performs a store.

## Main definitions

* `Emulator.handleCall` — `handle_call`
* `Emulator.hookCode`, `hookMem`, `hookMemWrite` — the three hooks

## Main results

* `Emulator.hookCode_cases` — what the instruction hook can do
-/

set_option autoImplicit false

namespace Unxorer.Emulator

open Unicorn InstructionClassifier ApiStubs WriteTracker

variable {U : Type} [Unicorn U]

/-! ### Calls -/

/-- `is_external_thunk`. -/
def isExternalThunk (e : Emulator U) (address : Addr) : Bool :=
  match e.tryGetInsn address with
  | none => false
  | some jump =>
    if jump.itype ∉ jumpTypes then false
    else
      match resolveOperandTarget e.engine jump.op1 with
      | none => false
      | some target => !e.insideImage target

/-- The name `handle_call` finds for a call target in the import map. -/
def importName (e : Emulator U) (target : Addr) : Option String :=
  if e.enableHeapStubs then e.image.importMap target else none

/-- The dispatch of `handle_call` to the stub for a name it may have found. -/
def dispatchImport [Host] (u : U) (heap : FakeHeap) (name : Option String) :
    Option Stub × Except HostFault (U × FakeHeap) :=
  match name with
  | some name => tryDispatch u name heap
  | none => (none, .ok (u, heap))

/-- What `handle_call` does after the dispatch. -/
def finishCall [Host] (e : Emulator U) (c : Counters)
    (dispatch : Option Stub × Except HostFault (U × FakeHeap)) :
    Except HostFault (Emulator U × Counters) := do
  let (u, heap) ← dispatch.2
  let u := if dispatch.1.isSome then u else regWrite u .rax 0
  let e := { e with engine := u, heap := heap }
  let e ← (if e.enableWriteTracking then e.dumpTrackedWrites else .ok e)
  return (e, { c with externalCalls := c.externalCalls + 1 })

/-- What `handle_call` does once a call is known to leave the image, where `name` is the
name found for it. The stub that runs, if any, is part of the result. -/
def callExternal [Host] (e : Emulator U) (c : Counters) (address : Addr) (size : BitVec 32)
    (name : Option String) : Option Stub × Except HostFault (Emulator U × Counters) :=
  let returnAddress := address + size.setWidth 64
  let dispatch := dispatchImport (regWrite e.engine .rip returnAddress) e.heap name
  (dispatch.1, e.finishCall c dispatch)

/-- `handle_call`; `none` stands for the returned `false`, which leaves everything alone. -/
def handleCall [Host] (e : Emulator U) (c : Counters) (address : Addr) (size : BitVec 32)
    (insn : Insn) : Option (Option Stub × Except HostFault (Emulator U × Counters)) :=
  if insn.itype ∉ callTypes then none
  else
    match resolveOperandTarget e.engine insn.op1 with
    | none => none
    | some target =>
      -- For a slot the target is what the slot holds, for a thunk it is the thunk.
      if !e.insideImage target then some (e.callExternal c address size (e.importName target))
      else if e.isExternalThunk target then
        let c := { c with importThunks := c.importThunks + 1 }
        some (e.callExternal c address size (e.importName target))
      else none

/-! ### The instruction hook -/

/-- The scans before an instruction. -/
def dumpBefore [Host] (e : Emulator U) (itype : Itype) : Except HostFault (Emulator U) :=
  if e.enableWriteTracking then
    if isCallOrRet itype then e.dumpTrackedWrites else .ok e
  else if shouldDump itype then
    let e := e.dumpStackStrings
    .ok (if e.scanRegisterStrings then e.dumpRegisterStrings else e)
  else .ok e

/-- The number of hits after which a backward branch is made to fall through. -/
def loopAllowance (e : Emulator U) (address taken : Addr) : BitVec 64 :=
  let allowance :=
    if e.enableWriteTracking ∧ hasDirty e.dirtyPages ∧ e.loopIterationLimit < 2000 then 2000
    else e.loopIterationLimit
  let bonus := (address - taken) / 4
  -- The sum saturates.
  if bonus > -1 - allowance then -1 else allowance + bonus

/-- The loop heuristic of `hook_code` for a conditional branch, up to the point where a
forward branch is forced. -/
def followBranch (e : Emulator U) (address taken fallthrough : Addr) (insn : Insn) : Emulator U :=
  if taken ≤ address then
    if e.loopIterationLimit = 0 then
      { e with loopIterations := Function.update e.loopIterations address none }
    else
      let state := (e.loopIterations address).getD ⟨0, taken⟩
      let hits := if state.lastTarget ≠ taken then 0 else state.hits
      let hits := hits + 1
      -- A loop that has used up its allowance is left, and its count starts over.
      if hits ≥ e.loopAllowance address taken then
        { e with
          loopIterations := Function.update e.loopIterations address none
          engine := regWrite e.engine .rip fallthrough }
      else
        { e with loopIterations := Function.update e.loopIterations address (some ⟨hits, taken⟩) }
  else
    { e with
      loopIterations := Function.update e.loopIterations address none
      engine := forceBranch e.engine insn }

/-- The part of `hook_code` behind `handle_call`. -/
def exploreBranches (e : Emulator U) (c : Counters) (address : Addr) (size : BitVec 32)
    (insn : Insn) : Emulator U × Counters :=
  let (e, c) := e.discoverIndirectTargets c address insn
  if !isConditional insn.itype then (e, c)
  else if !isBranch insn.itype then ({ e with engine := forceBranch e.engine insn }, c)
  else
    let taken := insn.op1.addr
    let fallthrough := address + size.setWidth 64
    -- The branch itself is taken, so its other side is left for later.
    let (_, e, c) := e.scheduleBranch c address fallthrough
    (e.followBranch address taken fallthrough insn, c)

/-- The same on the host: every edge that comes up is put into the set of visited ones. -/
def explore [Host] (e : Emulator U) (c : Counters) (address : Addr) (size : BitVec 32)
    (insn : Insn) : Except HostFault (Emulator U × Counters) := do
  let explored := e.exploreBranches c address size insn
  hostSet explored.1.branches.visited.card
  return explored

theorem explore_cases [Host] {e e' : Emulator U} {c c' : Counters} {address : Addr}
    {size : BitVec 32} {insn : Insn} (explored : e.explore c address size insn = .ok (e', c')) :
    e.exploreBranches c address size insn = (e', c') ∧
      e'.branches.visited.card ≤ Host.setMax := by
  obtain ⟨_, fits, returned⟩ := exists_of_bind_ok explored
  have result := Except.ok.inj returned
  rw [result] at fits
  exact ⟨result, le_of_hostSet fits⟩

/-- `hook_code`, where `stop` is the value of the stop flag it reads. -/
def hookCode [Host] (e : Emulator U) (c : Counters) (address : Addr) (size : BitVec 32)
    (stop : Bool) : Except HostFault (Emulator U × Counters) :=
  if stop then .ok (e, c)
  else
    match e.tryGetInsn address with
    | none => .ok (e, c)
    | some insn =>
      -- What follows has been counted, whether Unicorn executes it or not.
      let c := { c with instructionsExecuted := c.instructionsExecuted + 1 }
      if shouldSkip insn.itype then
        let next := address + size.setWidth 64
        .ok ({ e with engine := regWrite e.engine .rip next }, { c with skipped := c.skipped + 1 })
      else do
        let e ← e.dumpBefore insn.itype
        if shouldHandle insn.itype then
          return ({ e with engine := Handler.handle e.engine address (insn.size.setWidth 32) insn },
            c)
        else
          match e.handleCall c address size insn with
          | some result => result.2
          | none => e.explore c address size insn

/-! ### What the instruction hook does -/

/-- The hook ignores an instruction. -/
def ignores (e : Emulator U) (address : Addr) (stop : Bool) : Bool :=
  stop || (e.tryGetInsn address).isNone

/-- The counters after an instruction was counted. -/
def countInsn (c : Counters) : Counters :=
  { c with instructionsExecuted := c.instructionsExecuted + 1 }

/-- The ways in which the hook deals with an instruction it does not ignore: the
instruction is skipped, emulated by the handler, treated as an external call, or left to
Unicorn after its branches were looked at. All but the first may scan for strings before. -/
inductive Executed [Host] (e : Emulator U) (c : Counters) (address : Addr) (size : BitVec 32)
    (insn : Insn) : Emulator U → Counters → Prop
  | skipped (skip : shouldSkip insn.itype = true) :
      Executed e c address size insn
        { e with engine := regWrite e.engine .rip (address + size.setWidth 64) }
        { c with skipped := c.skipped + 1 }
  | handled {e₁ : Emulator U} (skip : shouldSkip insn.itype = false)
      (scanned : SameButStrings e e₁) (handle : shouldHandle insn.itype = true) :
      Executed e c address size insn
        { e₁ with engine := Handler.handle e₁.engine address (insn.size.setWidth 32) insn } c
  | called {e₁ e' : Emulator U} {c' : Counters} {stub : Option Stub}
      (skip : shouldSkip insn.itype = false) (scanned : SameButStrings e e₁)
      (handle : shouldHandle insn.itype = false)
      (call : e₁.handleCall c address size insn = some (stub, .ok (e', c'))) :
      Executed e c address size insn e' c'
  | explored {e₁ e' : Emulator U} {c' : Counters} (skip : shouldSkip insn.itype = false)
      (scanned : SameButStrings e e₁) (handle : shouldHandle insn.itype = false)
      (call : e₁.handleCall c address size insn = none)
      (explore : e₁.exploreBranches c address size insn = (e', c'))
      (fits : e'.branches.visited.card ≤ Host.setMax) :
      Executed e c address size insn e' c'

theorem SameButStrings.before [Host] {e e' : Emulator U} {itype : Itype}
    (done : e.dumpBefore itype = .ok e') : SameButStrings e e' := by
  rw [dumpBefore] at done
  split_ifs at done
  · exact .trackedWrites done
  · cases done
    exact .refl e
  · cases done
    split_ifs
    · exact (SameButStrings.stack e).trans (.registers _)
    · exact .stack e
  · cases done
    exact .refl e

/-- A hook that returns has ignored the instruction, or counted it and dealt with it in
one of the four ways. -/
theorem hookCode_cases [Host] {e e' : Emulator U} {c c' : Counters} {address : Addr}
    {size : BitVec 32} {stop : Bool} (hook : e.hookCode c address size stop = .ok (e', c')) :
    (e.ignores address stop = true ∧ e' = e ∧ c' = c) ∨
      ∃ insn, e.ignores address stop = false ∧ e.tryGetInsn address = some insn ∧
        e.Executed (countInsn c) address size insn e' c' := by
  rw [hookCode] at hook
  by_cases stopped : stop = true
  · rw [if_pos stopped] at hook
    cases hook
    exact .inl ⟨by simp [ignores, stopped], rfl, rfl⟩
  rw [if_neg stopped] at hook
  cases decoded : e.tryGetInsn address with
  | none =>
    rw [decoded] at hook
    cases hook
    exact .inl ⟨by simp [ignores, decoded], rfl, rfl⟩
  | some insn =>
    refine .inr ⟨insn, by simp [ignores, decoded, stopped], rfl, ?_⟩
    simp only [decoded] at hook
    by_cases skip : shouldSkip insn.itype = true
    · rw [if_pos skip] at hook
      cases hook
      exact .skipped skip
    rw [if_neg skip] at hook
    rw [Bool.not_eq_true] at skip
    obtain ⟨e₁, before, rest⟩ := exists_of_bind_ok hook
    have scanned := SameButStrings.before before
    by_cases handle : shouldHandle insn.itype = true
    · rw [if_pos handle] at rest
      cases rest
      exact .handled skip scanned handle
    rw [if_neg handle] at rest
    rw [Bool.not_eq_true] at handle
    split at rest
    · rename_i result call
      obtain ⟨stub, outcome⟩ := result
      rw [show outcome = .ok (e', c') from rest] at call
      exact .called skip scanned handle call
    · rename_i call
      obtain ⟨explore, fits⟩ := explore_cases rest
      exact .explored skip scanned handle call explore fits

/-! ### The memory hooks -/

/-- `hook_mem` for an access of `size` bytes. -/
def hookMem (e : Emulator U) (address : Addr) (size : ℕ) : Except HostFault (Bool × Emulator U) :=
  e.mapFaultRegion address (if size > 0 then BitVec.ofNat 64 size else 1)

/-- `hook_mem_write` for a store of `size` bytes. -/
def hookMemWrite (e : Emulator U) (address : Addr) (size : ℕ) : Except HostFault (Emulator U) := do
  let dirtyPages ← recordWrite e.dirtyPages address (if size > 0 then BitVec.ofNat 64 size else 1)
  return { e with dirtyPages }

end Unxorer.Emulator
