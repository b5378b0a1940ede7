import Unxorer.Ida.Classes
import Unxorer.Stubs.ApiStubs
import Unxorer.Strings.Strings
import Unxorer.Tracking.WriteTracker
import Unxorer.Vector.Operations

/-!
# The state of an emulator

The fields of `emulator` and of the counters every emulator shares. The image and the
stack are host buffers mapped into the guest, so their contents are guest memory here.
What only the user interface reads (log lines, the wait box, the start time) is left out.

## Main definitions

* `Emulator`, `Counters` — the state the hooks work on
* `BranchManager` — pending and visited branches, with a log of what happened to them
* `resolveOperandTarget` — where a branch or call operand leads
-/

set_option autoImplicit false

namespace Unxorer

open Unicorn VectorOperations

def stackBase : Addr := 0x00007FFF0000

def stackSize : BitVec 64 := 0x100000

/-- `image_snapshot_t`. -/
structure ImageSnapshot where
  imageMin : Addr
  imageMax : Addr
  mapStart : Addr
  mapSize : BitVec 64
  imageBackup : List Byte
  importMap : Addr → Option String

/-- `decoded`, the map of `instruction_snapshot_t`. -/
abbrev InstructionSnapshot := AList fun _ : Addr => Insn

/-- `emulator_config`, without the switch for log lines. -/
structure EmulatorConfig where
  enableHeapStubs : Bool
  enableWriteTracking : Bool

/-- The counters of `counters` that are numbers. They are shared by all emulators. -/
structure Counters where
  instructionsExecuted : BitVec 64
  branched : BitVec 64
  alreadyVisited : BitVec 64
  skipped : BitVec 64
  externalCalls : BitVec 64
  importThunks : BitVec 64
deriving DecidableEq

/-! ### Branches -/

/-- `branch_key`: an edge from a branch to one of its targets. -/
@[ext] structure BranchKey where
  rip : Addr
  target : Addr
deriving DecidableEq

/-- `branch_state_t`. The edge it was saved for is not in the source: no code reads it. -/
structure BranchState (C : Type) where
  ctx : C
  pc : Addr
  key : BranchKey

/-- What has happened to edges since the branches were cleared, latest first. The source
keeps no such log and no code reads it. -/
structure BranchLog where
  offered : List BranchKey
  failed : List BranchKey
  pushed : List BranchKey
  resumed : List BranchKey

/-- `branch_manager`; the back of `pending_` is the head of the list. -/
structure BranchManager (C : Type) where
  pending : List (BranchState C)
  visited : Finset BranchKey
  log : BranchLog

namespace BranchManager

variable {U : Type} [Unicorn U] (b : BranchManager (Context U))

def saveBranch (u : U) (pc : Addr) (key : BranchKey) : Option (BranchManager (Context U)) :=
  (contextSave u).map fun ctx =>
    { b with
      pending := ⟨ctx, pc, key⟩ :: b.pending
      log := { b.log with pushed := key :: b.log.pushed } }

def hasPending : Bool := b.pending ≠ []

/-- `take_next`, where there is a pending branch. -/
def takeNext : Option (BranchState (Context U) × BranchManager (Context U)) :=
  match b.pending with
  | [] => none
  | state :: rest =>
    some (state, { b with
      pending := rest
      log := { b.log with resumed := state.key :: b.log.resumed } })

variable {b} in
/-- The loop of `run` asks `has_pending` before it takes a branch. -/
theorem takeNext_eq_none : b.takeNext = none ↔ b.hasPending = false := by
  simp only [takeNext, hasPending]
  cases b.pending <;> simp

def isVisited (key : BranchKey) : Bool := key ∈ b.visited

def markVisited (key : BranchKey) : BranchManager (Context U) :=
  { b with visited := insert key b.visited }

/-- `clear`. -/
def empty : BranchManager (Context U) := ⟨[], ∅, ⟨[], [], [], []⟩⟩

end BranchManager

/-- `loop_state`. -/
structure LoopState where
  hits : BitVec 64
  lastTarget : Addr
deriving DecidableEq

/-- The fields of `emulator`. -/
structure Emulator (U : Type) [Unicorn U] where
  engine : U
  image : ImageSnapshot
  decoded : InstructionSnapshot
  branches : BranchManager (Context U)
  stringList : List FoundString
  loopIterations : Addr → Option LoopState
  loopIterationLimit : BitVec 64
  transientMappings : List Addr
  transientLimitReached : Bool
  transientLimitHits : BitVec 64
  scanRegisterStrings : Bool
  heap : FakeHeap
  dirtyPages : Finset Addr
  enableHeapStubs : Bool
  enableWriteTracking : Bool

/-! ### Addresses of the image -/

def isInsideImage (address imageMin imageMax : Addr) : Bool :=
  address ≥ imageMin && address < imageMax

def callTypes : List Itype := [.call, .callfi, .callni]

def jumpTypes : List Itype := [.jmp, .jmpfi, .jmpni]

def indirectControlTypes : List Itype := [.jmp, .jmpfi, .jmpni, .call, .callfi, .callni]

/-- `resolve_operand_target`; `none` stands for the returned `false`. -/
def resolveOperandTarget {U : Type} [Unicorn U] (u : U) (op : Operand) : Option Addr :=
  match op.type with
  | .near | .far => some op.addr
  | .mem => (memRead u op.addr 8).map leWord
  | .displ => (memRead u (calculateEffectiveAddress u op) 8).map leWord
  | _ => none

namespace Emulator

variable {U : Type} [Unicorn U] (e : Emulator U)

/-- The target lies in the image of the emulator. -/
def insideImage (address : Addr) : Bool :=
  isInsideImage address e.image.imageMin e.image.imageMax

/-- `try_get_insn`. -/
def tryGetInsn (address : Addr) : Option Insn := e.decoded.lookup address

end Emulator

end Unxorer
