import Unxorer.Emulator.Run

/-!
# Runs on all functions

`run_on_all_functions` lets worker threads emulate the functions of the database. A worker
claims the next index from a shared counter, runs the emulator on that function, merges the
strings it found into a set of its own and counts the run as completed. The main thread waits
for the count or for a stop, joins the workers and merges their sets.

Each step below is one access to what the threads share, or one step of a worker on its own;
steps of different threads come in any order. What a hook call adds to the statistics is added in
one step: of the statistics a thread reads only the number of instructions, to which the call
adds once. The next index and the number of completed runs do not exceed the numbers of functions
and threads together, so they are natural numbers. A host fault ends the program and is no step.
What only the wait box and the log show is left out.

## Main definitions

* `Job` — the functions and the settings
* `State` — counters, workers and main thread
* `Step` — the steps of the threads
-/

set_option autoImplicit false

namespace Unxorer.Plugin

open Transition

variable {U : Type} [Unicorn U]

/-- `scan_scope`. -/
inductive ScanScope
  | stackOnly | stackAndRegisters
deriving DecidableEq

/-- `emulation_config`, without the scope, by which the functions have been chosen. -/
structure EmulationConfig where
  scan : ScanScope
  maxTimeMs : BitVec 64
  maxInstructions : BitVec 64
  maxLoopIterations : BitVec 64
  enableHeapStubs : Bool
  enableWriteTracking : Bool

/-- `resolve_thread_count`, where `hardware` is what `hardware_concurrency` returns. -/
def resolveThreadCount (hardware totalTasks : ℕ) : ℕ :=
  let preferred := if hardware = 0 then 4 else hardware
  max 1 (min preferred totalTasks)

/-- What the threads are started with. -/
structure Job where
  starts : List Addr
  config : EmulationConfig
  image : ImageSnapshot
  decoded : InstructionSnapshot
  hardware : ℕ

namespace Job

variable (job : Job)

def total : ℕ := job.starts.length

def threadCount : ℕ := resolveThreadCount job.hardware job.total

theorem threadCount_pos : 0 < job.threadCount :=
  Nat.lt_of_lt_of_le Nat.zero_lt_one (Nat.le_max_left _ _)

/-- The configuration of a worker's emulator. -/
def emulatorConfig : EmulatorConfig := ⟨job.config.enableHeapStubs, job.config.enableWriteTracking⟩

/-- The arguments of a call of `run`. -/
def runArgs (start : Addr) : RunArgs where
  start := start
  maxTimeMs := job.config.maxTimeMs
  maxInstr := job.config.maxInstructions
  maxLoopIterations := job.config.maxLoopIterations
  scanRegisterStrings := job.config.scan = .stackAndRegisters

end Job

/-! ### Threads -/

/-- Where a worker stands, with its emulator. -/
inductive WorkerPhase (U : Type) [Unicorn U]
  /-- Before the emulator is constructed. -/
  | starting
  /-- At the head of the loop. -/
  | head (e : Emulator U)
  /-- The stop flag was clear. -/
  | claiming (e : Emulator U)
  /-- An index below the total was claimed. -/
  | claimed (index : ℕ) (e : Emulator U)
  /-- In `run`, with what it has read of the stop flag for its next step. -/
  | running (index : ℕ) (r : RunState U) (seen : Option Bool)
  /-- `run` has returned. -/
  | merging (index : ℕ) (e : Emulator U)
  /-- The strings are merged. -/
  | merged (index : ℕ) (e : Emulator U)
  | left

/-- Where the main thread stands: in its waiting loop before the comparison, before the test of
the stop flag or before the question whether the user has cancelled; at the joins; or done. -/
inductive MainPhase
  | waiting | checking | asking | joining
  | done (aggregated : List FoundString)

def WorkerPhase.isLeft : WorkerPhase U → Bool
  | .left => true
  | _ => false

theorem WorkerPhase.isLeft_iff {p : WorkerPhase U} : p.isLeft = true ↔ p = .left := by
  cases p <;> simp [isLeft]

/-- What the threads share, and where each of them stands. -/
structure State (U : Type) [Unicorn U] (threads : ℕ) where
  counters : Counters
  nextIndex : ℕ
  completed : ℕ
  stopRequested : Bool
  partialResults : Fin threads → List FoundString
  phase : Fin threads → WorkerPhase U
  main : MainPhase

/-- The state before the threads are started. -/
def State.initial (c : Counters) (threads : ℕ) : State U threads where
  counters := c
  nextIndex := 0
  completed := 0
  stopRequested := false
  partialResults _ := []
  phase _ := .starting
  main := .waiting

/-- A worker moves on and nothing else changes. -/
def State.go {threads : ℕ} (s : State U threads) (w : Fin threads) (p : WorkerPhase U) :
    State U threads :=
  { s with phase := Function.update s.phase w p }

@[simp] theorem State.phase_go {threads : ℕ} (s : State U threads) (w : Fin threads)
    (p : WorkerPhase U) : (s.go w p).phase = Function.update s.phase w p := rfl

/-- `insert` of a range into a set of found strings. -/
def insertAll (set found : List FoundString) : List FoundString :=
  found.foldl FoundString.emplace set

/-- The aggregation of the partial results. -/
def aggregate {threads : ℕ} (results : Fin threads → List FoundString) : List FoundString :=
  (List.finRange threads).foldl (fun set w => insertAll set (results w)) []

/-! ### Steps -/

inductive WorkerEvent (U : Type)
  | create (opened : U)
  | fail
  | stop
  | proceed
  | claim (index : ℕ)
  | overrun
  | begin (index : ℕ)
  /-- The load of the stop flag at the head of the loop of `run`. -/
  | loadAtHead
  /-- The load of the stop flag in `hook_code`. -/
  | loadInHook
  | emulate (event : RunEvent U)
  | finish (index : ℕ) (found : List FoundString)
  | merge
  | count (index : ℕ)

inductive MainEvent
  | more | enough | stopped | goOn | cancel | sleep | join

inductive Event (U : Type) (threads : ℕ)
  | worker (w : Fin threads) (event : WorkerEvent U)
  | main (event : MainEvent)

/-- A step of a run that depends on the stop flag goes by what has been read of it. The other
workers are no interference from outside. -/
def Sees (seen : Option Bool) : RunEvent U → Prop
  | .enter stop | .code _ _ stop => seen = some stop
  | .interfere _ => False
  | _ => seen = none

instance (seen : Option Bool) : (event : RunEvent U) → Decidable (Sees seen event)
  | .enter stop | .code _ _ stop => inferInstanceAs (Decidable (seen = some stop))
  | .interfere _ => .isFalse id
  | .store .. | .load .. | .execute _ | .leave _ => inferInstanceAs (Decidable (seen = none))

variable [Host]

/-- The steps of worker `w`. -/
inductive WorkerStep (job : Job) {threads : ℕ} (w : Fin threads) :
    WorkerEvent U → State U threads → State U threads → Prop
  | create {s : State U threads} {e : Emulator U} (opened : U) (here : s.phase w = .starting)
      (ready : Emulator.create opened job.image job.decoded job.emulatorConfig = some e) :
      WorkerStep job w (.create opened) s (s.go w (.head e))
  -- The engine cannot be opened, or the constructor gives up.
  | fail {s : State U threads} (here : s.phase w = .starting) :
      WorkerStep job w .fail s { s.go w .left with stopRequested := true }
  | stop {s : State U threads} {e : Emulator U} (here : s.phase w = .head e)
      (set : s.stopRequested = true) : WorkerStep job w .stop s (s.go w .left)
  | proceed {s : State U threads} {e : Emulator U} (here : s.phase w = .head e)
      (clear : s.stopRequested = false) : WorkerStep job w .proceed s (s.go w (.claiming e))
  | claim {s : State U threads} {e : Emulator U} (here : s.phase w = .claiming e)
      (below : s.nextIndex < job.total) :
      WorkerStep job w (.claim s.nextIndex) s
        { s.go w (.claimed s.nextIndex e) with nextIndex := s.nextIndex + 1 }
  | overrun {s : State U threads} {e : Emulator U} (here : s.phase w = .claiming e)
      (above : job.total ≤ s.nextIndex) :
      WorkerStep job w .overrun s { s.go w .left with nextIndex := s.nextIndex + 1 }
  | begin {s : State U threads} {index : ℕ} {e : Emulator U} {r : RunState U} {start : Addr}
      (here : s.phase w = .claimed index e) (found : job.starts[index]? = some start)
      (started : e.startRun (job.runArgs start) = .ok r) :
      WorkerStep job w (.begin index) s (s.go w (.running index r none))
  | loadAtHead {s : State U threads} {index : ℕ} {r : RunState U}
      (here : s.phase w = .running index r none) (top : r.phase = .head) :
      WorkerStep job w .loadAtHead s (s.go w (.running index r (some s.stopRequested)))
  | loadInHook {s : State U threads} {index : ℕ} {r : RunState U} {before : BitVec 64}
      (here : s.phase w = .running index r none) (inside : r.phase = .slice before)
      (running : r.faulted = false) :
      WorkerStep job w .loadInHook s (s.go w (.running index r (some s.stopRequested)))
  | emulate {s : State U threads} {index : ℕ} {r r' : RunState U} {seen : Option Bool}
      {event : RunEvent U} {c : Counters} (here : s.phase w = .running index r seen)
      (sees : Sees seen event) (step : RunStep event (s.counters, r) (c, r')) :
      WorkerStep job w (.emulate event) s { s.go w (.running index r' none) with counters := c }
  | finish {s : State U threads} {index : ℕ} {r : RunState U} {reason : StopReason}
      (here : s.phase w = .running index r none) (ended : r.phase = .finished reason) :
      WorkerStep job w (.finish index r.emulator.stringList) s (s.go w (.merging index r.emulator))
  | merge {s : State U threads} {index : ℕ} {e : Emulator U}
      (here : s.phase w = .merging index e) :
      WorkerStep job w .merge s { s.go w (.merged index e) with
        partialResults := Function.update s.partialResults w
          (insertAll (s.partialResults w) e.stringList) }
  | count {s : State U threads} {index : ℕ} {e : Emulator U}
      (here : s.phase w = .merged index e) :
      WorkerStep job w (.count index) s { s.go w (.head e) with completed := s.completed + 1 }

/-- The steps of the main thread. -/
inductive MainStep (job : Job) {threads : ℕ} :
    MainEvent → State U threads → State U threads → Prop
  | more {s : State U threads} (here : s.main = .waiting) (less : s.completed < job.total) :
      MainStep job .more s { s with main := .checking }
  | enough {s : State U threads} (here : s.main = .waiting) (all : job.total ≤ s.completed) :
      MainStep job .enough s { s with main := .joining }
  | stopped {s : State U threads} (here : s.main = .checking) (set : s.stopRequested = true) :
      MainStep job .stopped s { s with main := .joining }
  | goOn {s : State U threads} (here : s.main = .checking) (clear : s.stopRequested = false) :
      MainStep job .goOn s { s with main := .asking }
  | cancel {s : State U threads} (here : s.main = .asking) :
      MainStep job .cancel s { s with main := .joining, stopRequested := true }
  | sleep {s : State U threads} (here : s.main = .asking) :
      MainStep job .sleep s { s with main := .waiting }
  | join {s : State U threads} (here : s.main = .joining) (left : ∀ w, s.phase w = .left) :
      MainStep job .join s { s with main := .done (aggregate s.partialResults) }

inductive Step (job : Job) {threads : ℕ} :
    Event U threads → State U threads → State U threads → Prop
  | worker {s t : State U threads} {w : Fin threads} {event : WorkerEvent U}
      (step : WorkerStep job w event s t) : Step job (.worker w event) s t
  | main {s t : State U threads} {event : MainEvent} (step : MainStep job event s t) :
      Step job (.main event) s t

/-! ### Steps as functions -/

section Perform

variable {threads : ℕ} (job : Job)

/-- The step of worker `w` that belongs to an event, where it is a function of the event. -/
def WorkerEvent.perform (w : Fin threads) (event : WorkerEvent U) (s : State U threads) :
    Option (State U threads) :=
  match event, s.phase w with
  | .create opened, .starting =>
    (Emulator.create opened job.image job.decoded job.emulatorConfig).map fun e => s.go w (.head e)
  | .fail, .starting => some { s.go w .left with stopRequested := true }
  | .stop, .head _ => if s.stopRequested = true then some (s.go w .left) else none
  | .proceed, .head e => if s.stopRequested = false then some (s.go w (.claiming e)) else none
  | .claim index, .claiming e =>
    if index = s.nextIndex ∧ index < job.total then
      some { s.go w (.claimed index e) with nextIndex := index + 1 }
    else none
  | .overrun, .claiming _ =>
    if job.total ≤ s.nextIndex then some { s.go w .left with nextIndex := s.nextIndex + 1 }
    else none
  | .begin index, .claimed i e =>
    if i = index then do
      let start ← job.starts[index]?
      match e.startRun (job.runArgs start) with
      | .ok r => return s.go w (.running index r none)
      | .error _ => none
    else none
  | .loadAtHead, .running index r none =>
    if r.phase = .head then some (s.go w (.running index r (some s.stopRequested))) else none
  | .loadInHook, .running index r none =>
    match r.phase, r.faulted with
    | .slice _, false => some (s.go w (.running index r (some s.stopRequested)))
    | _, _ => none
  | .emulate event, .running index r seen =>
    if Sees seen event then do
      let (c, r') ← event.perform (s.counters, r)
      return { s.go w (.running index r' none) with counters := c }
    else none
  | .finish index found, .running i r none =>
    match r.phase with
    | .finished _ =>
      if i = index ∧ found = r.emulator.stringList then some (s.go w (.merging index r.emulator))
      else none
    | _ => none
  | .merge, .merging index e =>
    some { s.go w (.merged index e) with
      partialResults := Function.update s.partialResults w
        (insertAll (s.partialResults w) e.stringList) }
  | .count index, .merged i e =>
    if i = index then some { s.go w (.head e) with completed := s.completed + 1 } else none
  | _, _ => none

/-- The step of the main thread that belongs to an event. -/
def MainEvent.perform (event : MainEvent) (s : State U threads) : Option (State U threads) :=
  match event, s.main with
  | .more, .waiting => if s.completed < job.total then some { s with main := .checking } else none
  | .enough, .waiting => if job.total ≤ s.completed then some { s with main := .joining } else none
  | .stopped, .checking => if s.stopRequested = true then some { s with main := .joining } else none
  | .goOn, .checking => if s.stopRequested = false then some { s with main := .asking } else none
  | .cancel, .asking => some { s with main := .joining, stopRequested := true }
  | .sleep, .asking => some { s with main := .waiting }
  | .join, .joining =>
    if ∀ w, (s.phase w).isLeft = true then
      some { s with main := .done (aggregate s.partialResults) }
    else none
  | _, _ => none

def Event.perform : Event U threads → State U threads → Option (State U threads)
  | .worker w event, s => event.perform job w s
  | .main event, s => event.perform job s

variable {job} {s t : State U threads}

theorem WorkerStep.of_perform {w : Fin threads} {event : WorkerEvent U}
    (performed : event.perform job w s = some t) : WorkerStep job w event s t := by
  unfold WorkerEvent.perform at performed
  -- One case for each event in the phase it belongs to, and one for all that is impossible.
  split at performed
  · rename_i opened here
    obtain ⟨e, ready, rfl⟩ := Option.map_eq_some_iff.mp performed
    exact .create opened here ready
  · rename_i here
    cases performed
    exact .fail here
  · rename_i here
    obtain ⟨set, ⟨⟩⟩ := Option.ite_none_right_eq_some.mp performed
    exact .stop here set
  · rename_i here
    obtain ⟨clear, ⟨⟩⟩ := Option.ite_none_right_eq_some.mp performed
    exact .proceed here clear
  · rename_i here
    obtain ⟨⟨rfl, below⟩, ⟨⟩⟩ := Option.ite_none_right_eq_some.mp performed
    exact .claim here below
  · rename_i here
    obtain ⟨above, ⟨⟩⟩ := Option.ite_none_right_eq_some.mp performed
    exact .overrun here above
  · rename_i here
    obtain ⟨rfl, begun⟩ := Option.ite_none_right_eq_some.mp performed
    obtain ⟨start, found, rest⟩ := Option.bind_eq_some_iff.mp begun
    split at rest
    · cases rest
      exact .begin here found ‹_›
    · cases rest
  · rename_i here
    obtain ⟨top, ⟨⟩⟩ := Option.ite_none_right_eq_some.mp performed
    exact .loadAtHead here top
  · rename_i here
    split at performed
    · cases performed
      exact .loadInHook here ‹_› ‹_›
    · cases performed
  · rename_i here
    obtain ⟨sees, stepped⟩ := Option.ite_none_right_eq_some.mp performed
    obtain ⟨⟨c, r'⟩, step, ⟨⟩⟩ := Option.bind_eq_some_iff.mp stepped
    exact .emulate here sees (RunEvent.step_of_perform step)
  · rename_i here
    split at performed
    · obtain ⟨⟨rfl, rfl⟩, ⟨⟩⟩ := Option.ite_none_right_eq_some.mp performed
      exact .finish here ‹_›
    · cases performed
  · rename_i here
    cases performed
    exact .merge here
  · rename_i here
    obtain ⟨rfl, ⟨⟩⟩ := Option.ite_none_right_eq_some.mp performed
    exact .count here
  · cases performed

omit [Host] in
theorem MainStep.of_perform {event : MainEvent} (performed : event.perform job s = some t) :
    MainStep job event s t := by
  unfold MainEvent.perform at performed
  split at performed
  · rename_i here
    obtain ⟨less, ⟨⟩⟩ := Option.ite_none_right_eq_some.mp performed
    exact .more here less
  · rename_i here
    obtain ⟨all, ⟨⟩⟩ := Option.ite_none_right_eq_some.mp performed
    exact .enough here all
  · rename_i here
    obtain ⟨set, ⟨⟩⟩ := Option.ite_none_right_eq_some.mp performed
    exact .stopped here set
  · rename_i here
    obtain ⟨clear, ⟨⟩⟩ := Option.ite_none_right_eq_some.mp performed
    exact .goOn here clear
  · rename_i here
    cases performed
    exact .cancel here
  · rename_i here
    cases performed
    exact .sleep here
  · rename_i here
    obtain ⟨left, ⟨⟩⟩ := Option.ite_none_right_eq_some.mp performed
    exact .join here fun w => WorkerPhase.isLeft_iff.mp (left w)
  · cases performed

theorem Step.of_perform {event : Event U threads} (performed : event.perform job s = some t) :
    Step job event s t := by
  cases event with
  | worker w event => exact .worker (.of_perform performed)
  | main event => exact .main (.of_perform performed)

end Perform

end Unxorer.Plugin
