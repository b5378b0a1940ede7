import Unxorer.Emulator.Hooks
import Unxorer.Lib.Transition
import Unxorer.Machine.Reference

/-!
# Emulators and their runs

A run emulates one function: the emulator is put into its initial state, and then slices
of emulation alternate with the loop that picks the next pending branch. Inside a slice
Unicorn calls the hooks and executes instructions; the order of these events, what a
native instruction does to the registers and when a slice ends are arbitrary.

## Main definitions

* `Emulator.create` — the constructor
* `Emulator.resetForRun`, `Emulator.startRun` — the beginning of `run`
* `RunStep` — the steps of a run
-/

set_option autoImplicit false

namespace Unxorer

open Unicorn

variable {U : Type} [Unicorn U]

/-! ### Construction -/

/-- `BADADDR`. -/
def badAddr : Addr := -1

/-- `uc_mem_map_ptr` with a host buffer of known contents. -/
def mapBuffer (u : U) (a : Addr) (n : ℕ) (contents : ℕ → Byte) : Except MapError U := do
  let u ← memMap u a n
  return storeBytes u a n contents

theorem mapBuffer_of_memMap {u u' : U} {a : Addr} {n : ℕ} (mapped : memMap u a n = .ok u')
    (contents : ℕ → Byte) : mapBuffer u a n contents = .ok (storeBytes u' a n contents) := by
  simp only [mapBuffer, mapped]
  rfl

/-- The contents of `image_buffer_` after it is filled from the backup. -/
def ImageSnapshot.contents (image : ImageSnapshot) (i : ℕ) : Byte := image.imageBackup[i]?.getD 0

/-- The members of an emulator once the engine and the heap are set up. -/
def Emulator.initial (engine : U) (heap : FakeHeap) (image : ImageSnapshot)
    (decoded : InstructionSnapshot) (enableHeapStubs enableWriteTracking : Bool) : Emulator U where
  engine := engine
  image := image
  decoded := decoded
  branches := .empty
  stringList := []
  loopIterations := fun _ => none
  loopIterationLimit := 0
  transientMappings := []
  transientLimitReached := false
  transientLimitHits := 0
  scanRegisterStrings := true
  heap := heap
  dirtyPages := ∅
  enableHeapStubs := enableHeapStubs
  enableWriteTracking := enableWriteTracking

/-- The constructor on an engine `uc_open` has returned; `none` where the emulator is not
ready afterwards. Adding a hook is taken to succeed. -/
def Emulator.create (opened : U) (image : ImageSnapshot) (decoded : InstructionSnapshot)
    (config : EmulatorConfig) : Option (Emulator U) :=
  let imageSize := image.imageMax - image.imageMin
  let imageOffset := image.imageMin - image.mapStart
  let required := imageOffset + imageSize
  if image.imageMin = badAddr ∨ image.imageMax = badAddr ∨ image.mapSize = 0 ∨
      image.imageBackup = [] then none
  else if required.toNat > image.imageBackup.length then none
  else
    match mapBuffer opened image.mapStart image.mapSize.toNat image.contents with
    | .error _ => none
    | .ok u =>
      match mapBuffer u (stackBase - stackSize) stackSize.toNat fun _ => 0 with
      | .error _ => none
      | .ok u =>
        let heapBase := FakeHeap.computeBase (image.mapStart + image.mapSize)
          (stackBase - stackSize) stackBase
        -- Without its arena the emulator does without stubs.
        if config.enableHeapStubs then
          let (mapped, u, heap) := FakeHeap.fresh.init u heapBase
          some (.initial u heap image decoded mapped config.enableWriteTracking)
        else some (.initial u .fresh image decoded false config.enableWriteTracking)

/-- A constructor whose mappings all succeed. -/
theorem Emulator.create_of_memMap {opened u₁ u₂ u₃ : U}
    {image : ImageSnapshot} {decoded : InstructionSnapshot} {heapBase : Addr} {tracking : Bool}
    (valid : ¬ (image.imageMin = badAddr ∨ image.imageMax = badAddr ∨ image.mapSize = 0 ∨
      image.imageBackup = []))
    (covered : ¬ (image.imageMin - image.mapStart + (image.imageMax - image.imageMin)).toNat >
      image.imageBackup.length)
    (imageMapped : memMap opened image.mapStart image.mapSize.toNat = .ok u₁)
    (stackMapped : memMap (storeBytes u₁ image.mapStart image.mapSize.toNat image.contents)
      (stackBase - stackSize) stackSize.toNat = .ok u₂)
    (base : FakeHeap.computeBase (image.mapStart + image.mapSize) (stackBase - stackSize)
      stackBase = heapBase)
    (heapMapped : memMap (storeBytes u₂ (stackBase - stackSize) stackSize.toNat fun _ => 0)
      heapBase FakeHeap.arenaSize.toNat = .ok u₃) :
    Emulator.create opened image decoded ⟨true, tracking⟩ =
      some (.initial u₃ ⟨heapBase, heapBase, fun _ => none, true⟩ image decoded true tracking) := by
  have heapReady := FakeHeap.init_of_memMap (h := FakeHeap.fresh) rfl heapMapped
  simp only [Emulator.create, if_neg valid, if_neg covered, mapBuffer_of_memMap imageMapped,
    mapBuffer_of_memMap stackMapped, base, heapReady, if_true]
  rfl

/-! ### The beginning of a run -/

/-- `overwrite_all_registers`. -/
def overwriteAllRegisters (u : U) (value : BitVec 64) : U :=
  Emulator.gprRegisters.foldl (fun u r => regWrite u r value) u

/-- The registers `run` sets before its loop. -/
def resetRegisters (u : U) : U :=
  regWrite (overwriteAllRegisters u 0x2000) .rsp (stackBase - 0x1000)

/-- The guest memory `run` restores: image and stack. -/
def restoreMemory (u : U) (image : ImageSnapshot) : U :=
  let u := storeBytes u image.mapStart image.mapSize.toNat image.contents
  storeBytes u (stackBase - stackSize) stackSize.toNat fun _ => 0

/-- What `run` does before its loop. -/
def Emulator.resetForRun [Host] (e : Emulator U) (maxLoopIterations : BitVec 64)
    (scanRegisterStrings : Bool) : Except HostFault (Emulator U) := do
  let e := { e with
    scanRegisterStrings := scanRegisterStrings
    branches := .empty
    stringList := []
    loopIterations := fun _ => none
    loopIterationLimit := maxLoopIterations
    transientLimitReached := false
    transientLimitHits := 0 }
  let e := e.clearTransientMappings
  let e := { e with dirtyPages := ∅ }
  -- Neither the flags nor the vector registers are written below.
  let (u, heap) ← (if e.enableHeapStubs then e.heap.reset e.engine else .ok (e.engine, e.heap))
  return { e with engine := resetRegisters (restoreMemory u e.image), heap := heap }

/-- Why the loop of `run` ended. -/
inductive StopReason
  | stopRequested | limitReached | nothingPending | restoreFailed
deriving DecidableEq

/-- Where `run` stands: at the head of its loop, in a slice, or after the loop. In a slice
it holds the value of the instruction counter it read before. -/
inductive Phase
  | head
  | slice (instrBefore : BitVec 64)
  | finished (reason : StopReason)
deriving DecidableEq

/-- The local variables of `run`. In a slice `faulted` tells that an access has failed, for which
`uc_emu_start` ends emulation and returns an error. The number of slices entered is not in the
source. -/
structure RunState (U : Type) [Unicorn U] where
  emulator : Emulator U
  limitTime : Bool
  limitInstr : Bool
  remainingTimeUs : BitVec 64
  instructionsLeft : BitVec 64
  entry : Addr
  phase : Phase
  slices : ℕ
  faulted : Bool := false

/-- The arguments of `run`, without the pointer to the stop flag. -/
structure RunArgs where
  start : Addr
  maxTimeMs : BitVec 64
  maxInstr : BitVec 64
  maxLoopIterations : BitVec 64
  scanRegisterStrings : Bool

/-- The state in which `run` reaches its loop. -/
def Emulator.startRun [Host] (e : Emulator U) (args : RunArgs) : Except HostFault (RunState U) := do
  let e ← e.resetForRun args.maxLoopIterations args.scanRegisterStrings
  return {
    emulator := e
    limitTime := args.maxTimeMs ≠ 0
    limitInstr := args.maxInstr ≠ 0
    remainingTimeUs := args.maxTimeMs * 1000
    instructionsLeft := args.maxInstr
    entry := args.start
    phase := .head
    slices := 0 }

/-- The reset before a run changes nothing of a heap that has handed nothing out. -/
theorem Emulator.reset_of_unused [Host] {e : Emulator U} {base : Addr}
    (stubs : e.enableHeapStubs = true) (unused : e.heap = ⟨base, base, fun _ => none, true⟩) :
    (if e.enableHeapStubs then e.heap.reset e.clearTransientMappings.engine
      else .ok (e.clearTransientMappings.engine, e.heap)) =
      .ok (e.clearTransientMappings.engine, e.heap) := by
  rw [if_pos stubs, unused]
  exact FakeHeap.reset_unused _ _

theorem Emulator.startRun_of_reset [Host] {e : Emulator U} {args : RunArgs} {u : U}
    {heap : FakeHeap}
    (reset : (if e.enableHeapStubs then e.heap.reset e.clearTransientMappings.engine
      else .ok (e.clearTransientMappings.engine, e.heap)) = .ok (u, heap)) :
    e.startRun args = .ok {
      emulator := { Emulator.initial (resetRegisters (restoreMemory u e.image)) heap e.image
        e.decoded e.enableHeapStubs e.enableWriteTracking with
        loopIterationLimit := args.maxLoopIterations
        scanRegisterStrings := args.scanRegisterStrings }
      limitTime := args.maxTimeMs ≠ 0
      limitInstr := args.maxInstr ≠ 0
      remainingTimeUs := args.maxTimeMs * 1000
      instructionsLeft := args.maxInstr
      entry := args.start
      phase := .head
      slices := 0 } := by
  have done : e.resetForRun args.maxLoopIterations args.scanRegisterStrings = .ok
      { Emulator.initial (resetRegisters (restoreMemory u e.image)) heap e.image e.decoded
        e.enableHeapStubs e.enableWriteTracking with
        loopIterationLimit := args.maxLoopIterations
        scanRegisterStrings := args.scanRegisterStrings } := by
    rw [Emulator.resetForRun]
    exact congrArg (· >>= _) reset
  rw [Emulator.startRun, done]
  rfl

/-- A run begins where the host can allocate as much as the heap has handed out. -/
theorem Emulator.exists_startRun [Host] {e : Emulator U} {args : RunArgs}
    (room : (e.heap.cursor - e.heap.arenaBase).toNat ≤ Host.vectorMax) :
    ∃ r, e.startRun args = .ok r := by
  obtain ⟨⟨u, heap⟩, reset⟩ : ∃ result,
      (if e.enableHeapStubs then e.heap.reset e.clearTransientMappings.engine
        else .ok (e.clearTransientMappings.engine, e.heap)) = .ok result := by
    split_ifs
    · exact FakeHeap.exists_reset _ room
    · exact ⟨_, rfl⟩
  exact ⟨_, startRun_of_reset reset⟩

/-! ### Steps of a run -/

namespace RunState

/-- The head of the loop, up to the start of emulation, where `stop` is the value of the
stop flag. -/
def enterSlice (r : RunState U) (c : Counters) (stop : Bool) : RunState U :=
  if stop then { r with phase := .finished .stopRequested }
  else if (r.limitTime ∧ r.remainingTimeUs = 0) ∨ (r.limitInstr ∧ r.instructionsLeft = 0) then
    { r with phase := .finished .limitReached }
  else
    { r with
      emulator := { r.emulator with engine := regWrite r.emulator.engine .rip r.entry }
      phase := .slice c.instructionsExecuted
      slices := r.slices + 1
      faulted := false }

/-- What is left of a budget after a use of it. -/
def remaining (left used : BitVec 64) : BitVec 64 := if used ≥ left then 0 else left - used

/-- The choice of the next branch at the end of the loop's body. -/
def nextBranch (r : RunState U) : RunState U :=
  match r.emulator.branches.takeNext with
  | none => { r with phase := .finished .nothingPending }
  | some (state, branches) =>
    match contextRestore r.emulator.engine state.ctx with
    | none =>
      { r with
        emulator := { r.emulator with branches := branches }
        phase := .finished .restoreFailed }
    | some u =>
      { r with
        emulator := { r.emulator with engine := u, branches := branches }
        entry := state.pc
        phase := .head }

/-- The body of the loop after emulation has returned, where `elapsedUs` is the time the
slice took. -/
def leaveSlice [Host] (r : RunState U) (c : Counters) (instrBefore elapsedUs : BitVec 64) :
    Except HostFault (RunState U) := do
  let r := if r.limitInstr then { r with
      instructionsLeft := remaining r.instructionsLeft (c.instructionsExecuted - instrBefore) }
    else r
  let r := if r.limitTime then { r with
      remainingTimeUs := remaining r.remainingTimeUs elapsedUs }
    else r
  let e ← (if r.emulator.enableWriteTracking then r.emulator.dumpTrackedWrites else .ok r.emulator)
  return nextBranch { r with emulator := e }

end RunState

namespace Emulator

/-- A store by an emulated instruction: the write hook fires, missing pages are mapped,
and the bytes are stored unless that fails. The result tells whether they are. -/
def guestStore (e : Emulator U) (address : Addr) (bytes : List Byte) :
    Except HostFault (Bool × Emulator U) := do
  -- The write hook runs before it is known whether the store succeeds.
  let e ← (if e.enableWriteTracking then e.hookMemWrite address bytes.length else .ok e)
  if Mapped e.engine address bytes.length then
    return (true, { e with engine := store e.engine address bytes })
  else
    let (retry, e) ← e.hookMem address bytes.length
    if retry ∧ Mapped e.engine address bytes.length then
      return (true, { e with engine := store e.engine address bytes })
    else return (false, e)

/-- A load by an emulated instruction: missing pages are mapped. The result tells whether the
bytes can be loaded. -/
def guestLoad (e : Emulator U) (address : Addr) (size : ℕ) :
    Except HostFault (Bool × Emulator U) :=
  if Mapped e.engine address size then .ok (true, e)
  else do
    let (retry, e) ← e.hookMem address size
    return (decide (retry ∧ Mapped e.engine address size), e)

end Emulator

/-- What happens next in a run. -/
inductive RunEvent (U : Type)
  /-- The head of the loop. -/
  | enter (stop : Bool)
  /-- The instruction hook. -/
  | code (address : Addr) (size : BitVec 32) (stop : Bool)
  /-- A store of an executed instruction. -/
  | store (address : Addr) (bytes : List Byte)
  /-- A load of an executed instruction. -/
  | load (address : Addr) (size : ℕ)
  /-- The effect of an executed instruction on the registers. -/
  | execute (u : U)
  /-- The end of a slice. -/
  | leave (elapsedUs : BitVec 64)
  /-- Other emulators advance the shared counters. -/
  | interfere (c : Counters)

/-- One step of a run, with the shared counters. A store or load has at least one byte and
fewer than `2 ^ 31`; when it fails, nothing more is executed in its slice. -/
inductive RunStep [Host] : RunEvent U → Counters × RunState U → Counters × RunState U → Prop
  | enter {c : Counters} {r : RunState U} (stop : Bool) (here : r.phase = .head) :
      RunStep (.enter stop) (c, r) (c, r.enterSlice c stop)
  | code {c c' : Counters} {r : RunState U} {before : BitVec 64} {e : Emulator U}
      (address : Addr) (size : BitVec 32) (stop : Bool) (here : r.phase = .slice before)
      (hook : r.emulator.hookCode c address size stop = .ok (e, c'))
      (running : r.faulted = false) :
      RunStep (.code address size stop) (c, r) (c', { r with emulator := e })
  | store {c : Counters} {r : RunState U} {before : BitVec 64} {done : Bool} {e : Emulator U}
      (address : Addr) (bytes : List Byte) (here : r.phase = .slice before)
      (nonempty : bytes ≠ []) (small : bytes.length < 2 ^ 31)
      (stored : r.emulator.guestStore address bytes = .ok (done, e))
      (running : r.faulted = false) :
      RunStep (.store address bytes) (c, r) (c, { r with emulator := e, faulted := !done })
  | load {c : Counters} {r : RunState U} {before : BitVec 64} {done : Bool} {e : Emulator U}
      (address : Addr) (size : ℕ) (here : r.phase = .slice before) (nonempty : 0 < size)
      (small : size < 2 ^ 31) (loaded : r.emulator.guestLoad address size = .ok (done, e))
      (running : r.faulted = false) :
      RunStep (.load address size) (c, r) (c, { r with emulator := e, faulted := !done })
  | execute {c : Counters} {r : RunState U} {before : BitVec 64} (u : U)
      (here : r.phase = .slice before) (memory : byte u = byte r.emulator.engine)
      (mappings : mapped u = mapped r.emulator.engine) (running : r.faulted = false) :
      RunStep (.execute u) (c, r) (c, { r with emulator := { r.emulator with engine := u } })
  | leave {c : Counters} {r r' : RunState U} {before : BitVec 64} (elapsedUs : BitVec 64)
      (here : r.phase = .slice before) (left : r.leaveSlice c before elapsedUs = .ok r') :
      RunStep (.leave elapsedUs) (c, r) (c, r')
  | interfere {c : Counters} {r : RunState U} (c' : Counters) :
      RunStep (.interfere c') (c, r) (c', r)

/-- The step of a run that belongs to an event, where it is a function of the event. -/
def RunEvent.perform [Host] (event : RunEvent U) (s : Counters × RunState U) :
    Option (Counters × RunState U) :=
  match event with
  | .enter stop => if s.2.phase = .head then some (s.1, s.2.enterSlice s.1 stop) else none
  | .code address size stop =>
    match s.2.phase, s.2.faulted, s.2.emulator.hookCode s.1 address size stop with
    | .slice _, false, .ok (e, c) => some (c, { s.2 with emulator := e })
    | _, _, _ => none
  | .store address bytes =>
    match s.2.phase, s.2.faulted, s.2.emulator.guestStore address bytes with
    | .slice _, false, .ok (done, e) =>
      if bytes ≠ [] ∧ bytes.length < 2 ^ 31 then
        some (s.1, { s.2 with emulator := e, faulted := !done })
      else none
    | _, _, _ => none
  | .load address size =>
    match s.2.phase, s.2.faulted, s.2.emulator.guestLoad address size with
    | .slice _, false, .ok (done, e) =>
      if 0 < size ∧ size < 2 ^ 31 then
        some (s.1, { s.2 with emulator := e, faulted := !done })
      else none
    | _, _, _ => none
  | .execute _ => none
  | .leave elapsedUs =>
    match s.2.phase with
    | .slice before => ((s.2.leaveSlice s.1 before elapsedUs).toOption).map fun r => (s.1, r)
    | _ => none
  | .interfere c => some (c, s.2)

theorem RunEvent.step_of_perform [Host] {event : RunEvent U} {s s' : Counters × RunState U}
    (performed : event.perform s = some s') : RunStep event s s' := by
  obtain ⟨c, r⟩ := s
  cases event with
  | enter stop =>
    simp only [perform, Option.ite_none_right_eq_some, Option.some.injEq] at performed
    obtain ⟨here, rfl⟩ := performed
    exact .enter stop here
  | code address size stop =>
    simp only [perform] at performed
    split at performed
    · rename_i before e c' here running hook
      cases performed
      exact .code address size stop here hook running
    · cases performed
  | store address bytes =>
    simp only [perform] at performed
    split at performed
    · rename_i before done e here running stored
      simp only [Option.ite_none_right_eq_some, Option.some.injEq] at performed
      obtain ⟨bounds, rfl⟩ := performed
      exact .store address bytes here bounds.1 bounds.2 stored running
    · cases performed
  | load address size =>
    simp only [perform] at performed
    split at performed
    · rename_i before done e here running loaded
      simp only [Option.ite_none_right_eq_some, Option.some.injEq] at performed
      obtain ⟨bounds, rfl⟩ := performed
      exact .load address size here bounds.1 bounds.2 loaded running
    · cases performed
  | execute u => cases performed
  | leave elapsedUs =>
    simp only [perform] at performed
    split at performed
    · rename_i before here
      cases left : r.leaveSlice c before elapsedUs with
      | error fault =>
        rw [left] at performed
        cases performed
      | ok r' =>
        rw [left] at performed
        cases performed
        exact .leave elapsedUs here left
    · cases performed
  | interfere c' =>
    cases performed
    exact .interfere c'

/-- Performed steps are a trace. -/
theorem RunEvent.trace_of_performTrace [Host] {events : List (RunEvent U)}
    {past : List ((Counters × RunState U) × RunEvent U)} {s s' : Counters × RunState U}
    (performed : Transition.Trace.performTrace perform [] s events = some (past, s')) :
    Transition.Trace RunStep s past s' :=
  .of_performTrace (fun _ _ _ => step_of_perform) .nil performed

/-! ### A small program -/

namespace Example

/-- `movd xmm0, eax`, which the handler takes over. -/
def moveInsn : Insn := ⟨.movd, 4, ⟨.reg, 64, 0, 0⟩, ⟨.reg, 0, 0, 0⟩, .none⟩

/-- `movdqu [rbx+13FFFE030h], xmm0`, which stores into the image as long as RBX holds the
value a run starts with. -/
def storeInsn : Insn := ⟨.movdqu, 8, ⟨.displ, 3, 0x13FFFE030, 0⟩, ⟨.reg, 64, 0, 0⟩, .none⟩

/-- `call qword ptr [140000020h]`, a call through a slot. -/
def callInsn : Insn := ⟨.callni, 6, ⟨.mem, 0, 0x140000020, 0⟩, .none, .none⟩

/-- `jz 140000020h`, a conditional jump forwards. -/
def jumpInsn : Insn := ⟨.jz, 2, ⟨.near, 0, 0x140000020, 0⟩, .none, .none⟩

/-- One page of 0x90 bytes, with one import slot in it. -/
def image : ImageSnapshot where
  imageMin := 0x140000000
  imageMax := 0x140001000
  mapStart := 0x140000000
  mapSize := 0x1000
  imageBackup := List.replicate 0x1000 0x90
  importMap := fun a => if a = 0x140000020 then some "malloc" else none

def decoded : InstructionSnapshot :=
  AList.insert 0x140000000 moveInsn
    (AList.insert 0x140000004 storeInsn
      (AList.insert 0x14000000C callInsn (AList.insert 0x140000012 jumpInsn ∅)))

/-- `call 140000020h`, and there `jmp qword ptr [140000030h]`, a thunk. -/
def thunkCall : InstructionSnapshot :=
  AList.insert 0x14000000C ⟨.call, 5, ⟨.near, 0, 0x140000020, 0⟩, .none, .none⟩
    (AList.insert 0x140000020 ⟨.jmpni, 6, ⟨.mem, 0, 0x140000030, 0⟩, .none, .none⟩ ∅)

/-- The guest memory of the program: image, stack and heap arena. -/
def engine : Machine :=
  let withImage := storeBytes (Machine.empty.map 0x140000000 0x1000) 0x140000000 0x1000
    image.contents
  let withStack := storeBytes (withImage.map (stackBase - stackSize) stackSize.toNat)
    (stackBase - stackSize) stackSize.toNat fun _ => 0
  withStack.map 0x140010000 FakeHeap.arenaSize.toNat

/-- A fresh emulator of the program. -/
def fresh : Emulator Machine :=
  .initial engine ⟨0x140010000, 0x140010000, fun _ => none, true⟩ image decoded true true

theorem length_imageBackup : image.imageBackup.length = 0x1000 := by
  rw [image]
  exact List.length_replicate

theorem image_valid : ¬ (image.imageMin = badAddr ∨ image.imageMax = badAddr ∨
    image.mapSize = 0 ∨ image.imageBackup = []) := by
  simp only [not_or]
  refine ⟨by decide, by decide, by decide, fun empty => ?_⟩
  have length := length_imageBackup
  rw [empty] at length
  exact absurd length (by decide)

theorem image_covered : ¬ (image.imageMin - image.mapStart +
    (image.imageMax - image.imageMin)).toNat > image.imageBackup.length := by
  rw [length_imageBackup]
  decide

theorem imageMapped : memMap Machine.empty image.mapStart image.mapSize.toNat =
    .ok (Machine.empty.map 0x140000000 0x1000) :=
  Machine.memMap_of_free (by decide) fun _ _ => rfl

theorem stackMapped : memMap (storeBytes (Machine.empty.map 0x140000000 0x1000)
    0x140000000 0x1000 image.contents) (stackBase - stackSize) stackSize.toNat =
    .ok ((storeBytes (Machine.empty.map 0x140000000 0x1000) 0x140000000 0x1000
      image.contents).map (stackBase - stackSize) stackSize.toNat) :=
  Machine.memMap_of_free (by decide) (by
    intro i small
    rw [Machine.mappedPage_storeBytes]
    refine Machine.mappedPage_map_eq_false rfl ?_
    simp only [stackBase, stackSize, BitVec.reduceSub, BitVec.reduceToNat] at small ⊢
    omega)

theorem heapMapped : memMap (storeBytes ((storeBytes (Machine.empty.map 0x140000000 0x1000)
    0x140000000 0x1000 image.contents).map (stackBase - stackSize) stackSize.toNat)
    (stackBase - stackSize) stackSize.toNat fun _ => 0) 0x140010000 FakeHeap.arenaSize.toNat =
    .ok engine :=
  Machine.memMap_of_free (by decide) (by
    intro i small
    simp only [FakeHeap.arenaSize, BitVec.reduceToNat] at small
    rw [Machine.mappedPage_storeBytes]
    refine Machine.mappedPage_map_eq_false ?_ ?_
    · rw [Machine.mappedPage_storeBytes]
      refine Machine.mappedPage_map_eq_false rfl ?_
      simp only [BitVec.reduceToNat]
      omega
    · simp only [stackBase, stackSize, BitVec.reduceSub, BitVec.reduceToNat]
      omega)

/-- The constructor makes this emulator of the reference engine. -/
theorem create_eq_fresh :
    Emulator.create Machine.empty image decoded ⟨true, true⟩ = some fresh :=
  Emulator.create_of_memMap image_valid image_covered imageMapped stackMapped (by decide)
    heapMapped

/-- The example at the beginning of a run without limits. -/
def started (start : Addr) : RunState Machine where
  emulator := .initial (resetRegisters (restoreMemory engine image))
    ⟨0x140010000, 0x140010000, fun _ => none, true⟩ image decoded true true
  limitTime := false
  limitInstr := false
  remainingTimeUs := 0
  instructionsLeft := 0
  entry := start
  phase := .head
  slices := 0

theorem startRun_eq_started (start : Addr) :
    fresh.startRun ⟨start, 0, 0, 0, true⟩ = .ok (started start) := by
  have budget : (0 : BitVec 64) * 1000 = 0 := BitVec.zero_mul
  rw [Emulator.startRun_of_reset (Emulator.reset_of_unused rfl rfl)]
  simp only [budget]
  rfl

/-- Counters at zero. -/
def noCounts : Counters := ⟨0, 0, 0, 0, 0, 0⟩

/-! #### The same image with other instructions -/

section Other

variable (decoded : InstructionSnapshot) (tracking : Bool) (args : RunArgs)

/-- A fresh emulator of the image of the example with other instructions in it. -/
def freshOf : Emulator Machine :=
  .initial engine ⟨0x140010000, 0x140010000, fun _ => none, true⟩ image decoded true tracking

theorem create_eq_freshOf :
    Emulator.create Machine.empty image decoded ⟨true, tracking⟩ =
      some (freshOf decoded tracking) :=
  Emulator.create_of_memMap image_valid image_covered imageMapped stackMapped (by decide)
    heapMapped

/-- That emulator at the beginning of a run. -/
def startedOf : RunState Machine where
  emulator := { Emulator.initial (resetRegisters (restoreMemory engine image))
    ⟨0x140010000, 0x140010000, fun _ => none, true⟩ image decoded true tracking with
    loopIterationLimit := args.maxLoopIterations
    scanRegisterStrings := args.scanRegisterStrings }
  limitTime := args.maxTimeMs ≠ 0
  limitInstr := args.maxInstr ≠ 0
  remainingTimeUs := args.maxTimeMs * 1000
  instructionsLeft := args.maxInstr
  entry := args.start
  phase := .head
  slices := 0

theorem startRun_eq_startedOf :
    (freshOf decoded tracking).startRun args = .ok (startedOf decoded tracking args) :=
  Emulator.startRun_of_reset (Emulator.reset_of_unused rfl rfl)

end Other

end Example

end Unxorer
