import Unxorer.Emulator.Counting
import Unxorer.Plugin.Interleavings

/-!
# Workers do not disturb each other

All that the workers share while they emulate is the counters. Without an instruction limit a
run compares nothing with them, so it goes on just as if it were alone: what the threads find
for a function is what a single thread would find that emulated the same functions as this
worker, one after the other.

## Main definitions

* `RunState.forget` — a run without the value its slice has read from the counter
* `Alone` — the emulators a single thread can have between two functions
* `FoundAlone` — what a single thread can find for a function

## Main results

* `RunStep.exists_alone` — the steps of others can be taken out of a run
* `foundAlone_of_trace` — what the threads find, a single thread finds
-/

set_option autoImplicit false

namespace Unxorer

open Unicorn Transition

variable {U : Type} [Unicorn U]

/-! ### Runs that differ in what they have read from the counter -/

def Phase.forget : Phase → Phase
  | .slice _ => .slice 0
  | p => p

namespace RunState

/-- A run without the value its slice has read from the counter. -/
def forget (r : RunState U) : RunState U := { r with phase := r.phase.forget }

theorem phase_of_forget {q r : RunState U} (same : q.forget = r.forget) :
    q.phase.forget = r.phase.forget := by
  have kept := congrArg RunState.phase same
  exact kept

/-- Outside a slice nothing has been forgotten. -/
theorem eq_of_forget {q r : RunState U} (same : q.forget = r.forget)
    (outside : r.phase.isSlice = false) : q = r := by
  have phases := phase_of_forget same
  have unchanged : q.phase = r.phase := by
    cases here : r.phase with
    | slice before =>
      rw [here] at outside
      cases outside
    | head =>
      rw [here] at phases
      cases there : q.phase <;> rw [there] at phases <;> cases phases
    | finished reason =>
      rw [here] at phases
      cases there : q.phase <;> rw [there] at phases <;> cases phases
      rfl
  calc
    q = { q.forget with phase := q.phase } := rfl
    _ = { r.forget with phase := r.phase } := by rw [same, unchanged]

theorem exists_slice_of_forget {q r : RunState U} (same : q.forget = r.forget)
    {before : BitVec 64} (here : r.phase = .slice before) :
    ∃ before', q = { r with phase := .slice before' } := by
  have phases := phase_of_forget same
  rw [here] at phases
  cases there : q.phase with
  | slice before' =>
    refine ⟨before', ?_⟩
    calc
      q = { q.forget with phase := q.phase } := rfl
      _ = { r.forget with phase := .slice before' } := by rw [same, there]
  | head =>
    rw [there] at phases
    cases phases
  | finished reason =>
    rw [there] at phases
    cases phases

theorem enterSlice_forget (r : RunState U) (c d : Counters) (stop : Bool) :
    (r.enterSlice d stop).forget = (r.enterSlice c stop).forget := by
  rw [enterSlice, enterSlice]
  split_ifs <;> rfl

theorem nextBranch_phase (r : RunState U) (p : Phase) :
    { r with phase := p }.nextBranch = r.nextBranch := by
  rw [nextBranch, nextBranch]

/-- Without an instruction limit the end of a slice does not depend on the counter. -/
theorem leaveSlice_congr [Host] (r : RunState U) (unlimited : r.limitInstr = false)
    (c d : Counters) (before before' elapsedUs : BitVec 64) :
    { r with phase := .slice before' }.leaveSlice d before' elapsedUs =
      r.leaveSlice c before elapsedUs := by
  obtain ⟨e, limitTime, limitInstr, time, left, entry, phase, slices, faulted⟩ := r
  cases unlimited
  have next (time : BitVec 64) (e : Emulator U) : (_ : Except HostFault (RunState U)) = _ :=
    congrArg Except.ok
      (nextBranch_phase ⟨e, limitTime, false, time, left, entry, phase, slices, faulted⟩
        (.slice before'))
  cases limitTime
  · exact congrArg (_ >>= ·) (funext (next time))
  · exact congrArg (_ >>= ·) (funext (next (remaining time elapsedUs)))

end RunState

section Steps

variable [Host] {event : RunEvent U} {s : Counters × RunState U}

theorem RunStep.limitInstr_eq {s' : Counters × RunState U} (step : RunStep event s s') :
    s'.2.limitInstr = s.2.limitInstr := by
  cases step with
  | enter stop =>
    dsimp only
    rw [RunState.enterSlice]
    split_ifs <;> rfl
  | leave elapsedUs here left =>
    obtain ⟨e₁, -, continues⟩ := RunState.leaveSlice_cases left
    cases continues <;> rfl
  | _ => rfl

/-- A step of a run without an instruction limit can be taken with any counters. -/
theorem RunStep.exists_alone {c c' : Counters} {r r' q : RunState U}
    (step : RunStep event (c, r) (c', r')) (own : ∀ c, event ≠ .interfere c)
    (unlimited : r.limitInstr = false) (same : q.forget = r.forget) (d : Counters) :
    ∃ d' q', RunStep event (d, q) (d', q') ∧ q'.forget = r'.forget := by
  cases step with
  | enter stop here =>
    have equal : q = r := RunState.eq_of_forget same (by rw [here]; rfl)
    subst equal
    exact ⟨d, _, .enter stop here, q.enterSlice_forget _ d stop⟩
  | code address size stop here hook running =>
    obtain ⟨before', rfl⟩ := RunState.exists_slice_of_forget same here
    -- What the hook adds to the counters it adds to any.
    have shifted := r.emulator.hookCode_add 0 c address size stop
    rw [zero_add, hook] at shifted
    cases alone : r.emulator.hookCode 0 address size stop with
    | error fault =>
      rw [alone] at shifted
      cases shifted
    | ok result =>
      rw [alone] at shifted
      obtain ⟨e, k⟩ := result
      cases shifted
      have moved := r.emulator.hookCode_add 0 d address size stop
      rw [zero_add, alone] at moved
      refine ⟨_, _, .code address size stop rfl moved running, ?_⟩
      simp only [RunState.forget, here]
      rfl
  | store address bytes here nonempty small stored running =>
    obtain ⟨before', rfl⟩ := RunState.exists_slice_of_forget same here
    refine ⟨d, _, .store address bytes rfl nonempty small stored running, ?_⟩
    simp only [RunState.forget, here]
    rfl
  | load address size here nonempty small loaded running =>
    obtain ⟨before', rfl⟩ := RunState.exists_slice_of_forget same here
    refine ⟨d, _, .load address size rfl nonempty small loaded running, ?_⟩
    simp only [RunState.forget, here]
    rfl
  | execute u here memory mappings running =>
    obtain ⟨before', rfl⟩ := RunState.exists_slice_of_forget same here
    refine ⟨d, _, .execute u rfl memory mappings running, ?_⟩
    simp only [RunState.forget, here]
    rfl
  | leave elapsedUs here left =>
    obtain ⟨before', rfl⟩ := RunState.exists_slice_of_forget same here
    have alone := (r.leaveSlice_congr unlimited c d _ before' elapsedUs).trans left
    exact ⟨d, r', .leave elapsedUs rfl alone, rfl⟩
  | interfere c => exact absurd rfl (own _)

end Steps

namespace Plugin

section Threads

variable [Host] {threads : ℕ}

/-! ### A single thread -/

/-- The emulators a single thread can have before it takes on a function: a new one, or one
with which it has emulated functions of the job. -/
inductive Alone (job : Job) : Emulator U → Prop
  | create {e : Emulator U} (opened : U)
      (ready : Emulator.create opened job.image job.decoded job.emulatorConfig = some e) :
      Alone job e
  | run {e : Emulator U} {index : ℕ} {start : Addr} {r : RunState U} {past : Past U}
      {s : Counters × RunState U} {reason : StopReason} (before : Alone job e)
      (function : job.starts[index]? = some start)
      (started : e.startRun (job.runArgs start) = .ok r)
      (trace : Trace RunStep (0, r) past s) (lone : Lone past)
      (ended : s.2.phase = .finished reason) : Alone job s.2.emulator

/-- A run on a function by a single thread has come as far as `r`, but for the value it has
read from the counter. -/
def RunsAlone (job : Job) (index : ℕ) (r : RunState U) : Prop :=
  ∃ (e : Emulator U) (start : Addr) (r₀ : RunState U) (past : Past U) (s : Counters × RunState U),
    Alone job e ∧ job.starts[index]? = some start ∧ e.startRun (job.runArgs start) = .ok r₀ ∧
      Trace RunStep (0, r₀) past s ∧ Lone past ∧ s.2.forget = r.forget ∧ s.2.limitInstr = false

/-- A single thread can find these strings for a function. -/
def FoundAlone (job : Job) (index : ℕ) (found : List FoundString) : Prop :=
  ∃ (e : Emulator U) (start : Addr) (r₀ : RunState U) (past : Past U) (s : Counters × RunState U)
    (reason : StopReason),
    Alone job e ∧ job.starts[index]? = some start ∧ e.startRun (job.runArgs start) = .ok r₀ ∧
      Trace RunStep (0, r₀) past s ∧ Lone past ∧ s.2.phase = .finished reason ∧
        s.2.emulator.stringList = found

section Alone

variable {job : Job} {index : ℕ} {r r' : RunState U}

theorem RunsAlone.begin {e : Emulator U} {start : Addr} (unlimited : job.config.maxInstructions = 0)
    (alone : Alone job e) (function : job.starts[index]? = some start)
    (started : e.startRun (job.runArgs start) = .ok r) : RunsAlone job index r := by
  refine ⟨e, start, r, [], (0, r), alone, function, started, .nil, ?_, rfl, ?_⟩
  · exact fun p member => absurd member List.not_mem_nil
  · obtain ⟨e', -, rfl⟩ := Emulator.startRun_cases started
    exact decide_eq_false (not_not_intro unlimited)

/-- A step of the run is a step of the run by a single thread. -/
theorem RunsAlone.step {event : RunEvent U} {c c' : Counters} (alone : RunsAlone job index r)
    (own : event.interferes = false) (step : RunStep event (c, r) (c', r')) :
    RunsAlone job index r' := by
  obtain ⟨e, start, r₀, past, s, before, function, started, trace, lone, same, unlimited⟩ := alone
  have limit : r.limitInstr = false := by
    have kept := congrArg RunState.limitInstr same
    exact kept.symm.trans unlimited
  have notOther : ∀ c, event ≠ .interfere c := by
    intro c other
    rw [other] at own
    cases own
  obtain ⟨d', q', next, same'⟩ := step.exists_alone notOther limit same s.1
  exact ⟨e, start, r₀, _, (d', q'), before, function, started, trace.snoc next, lone.cons own,
    same', next.limitInstr_eq.trans unlimited⟩

/-- A run that is over is over for the single thread as well. -/
theorem RunsAlone.finish {reason : StopReason} (alone : RunsAlone job index r)
    (ended : r.phase = .finished reason) :
    Alone job r.emulator ∧ FoundAlone (U := U) job index r.emulator.stringList := by
  obtain ⟨e, start, r₀, past, s, before, function, started, trace, lone, same, -⟩ := alone
  have equal : s.2 = r := RunState.eq_of_forget same (by rw [ended]; rfl)
  rw [← equal] at ended ⊢
  exact ⟨.run before function started trace lone ended,
    e, start, r₀, past, s, reason, before, function, started, trace, lone, ended, rfl⟩

/-! ### The threads -/

/-- What a single thread could have come to where a worker stands. -/
def WorkerPhase.IsAlone (job : Job) : WorkerPhase U → Prop
  | .starting | .left => True
  | .head e | .claiming e | .claimed _ e | .merged _ e => Alone job e
  | .running index r _ => RunsAlone job index r
  | .merging index e => Alone job e ∧ FoundAlone (U := U) job index e.stringList

variable {s t : State U threads} {w : Fin threads} {event : WorkerEvent U}

omit [Unicorn U] [Host] in
theorem Sees.own {seen : Option Bool} {event : RunEvent U} (sees : Sees seen event) :
    event.interferes = false := by
  cases event with
  | interfere c => exact absurd sees id
  | _ => rfl

/-- Each worker goes on as if it were alone. -/
theorem WorkerStep.isAlone (unlimited : job.config.maxInstructions = 0)
    (step : WorkerStep job w event s t) (alone : (s.phase w).IsAlone job) :
    (t.phase w).IsAlone job := by
  cases step with
  | create opened here ready =>
    simp only [State.phase_go, Function.update_self]
    exact .create opened ready
  | fail here | stop here | overrun here =>
    simp only [State.go, Function.update_self]
    trivial
  | proceed here | claim here | merge here | count here =>
    simp only [State.go, Function.update_self]
    rw [here] at alone
    first | exact alone | exact alone.1
  | begin here found started =>
    simp only [State.phase_go, Function.update_self]
    rw [here] at alone
    exact .begin unlimited alone found started
  | loadAtHead here | loadInHook here =>
    simp only [State.phase_go, Function.update_self]
    rw [here] at alone
    exact alone
  | emulate here sees step =>
    simp only [State.go, Function.update_self]
    rw [here] at alone
    exact alone.step sees.own step
  | finish here ended =>
    simp only [State.phase_go, Function.update_self]
    rw [here] at alone
    exact alone.finish ended

/-- Without an instruction limit, whatever the threads find for a function, a single thread can
find for it that emulates functions of the job alone, one after the other. -/
theorem foundAlone_of_trace {c : Counters} {past : History U threads}
    (unlimited : job.config.maxInstructions = 0)
    (trace : Trace (Step job) (State.initial c threads) past s) :
    ∀ run ∈ runs past, FoundAlone (U := U) job run.1 run.2 := by
  refine (trace.invariant (P := fun past s => (∀ w, (s.phase w).IsAlone job) ∧
    ∀ run ∈ runs past, FoundAlone (U := U) job run.1 run.2) ?_ ?_).2
  · exact ⟨fun w => trivial, fun run member => absurd member List.not_mem_nil⟩
  intro past s event t ⟨phases, found⟩ step
  cases step with
  | main step =>
    have same : t.phase = s.phase := by cases step <;> rfl
    rw [same]
    exact ⟨phases, found⟩
  | worker step =>
    rename_i w event
    refine ⟨fun v => ?_, fun run member => ?_⟩
    · by_cases same : v = w
      · subst same
        exact step.isAlone unlimited (phases v)
      · rw [step.phase_of_ne same]
        exact phases v
    · cases step with
      | finish here ended =>
        rcases List.mem_cons.mp member with rfl | old
        · have alone := phases w
          rw [here] at alone
          exact (alone.finish ended).2
        · exact found run old
      | _ => exact found run member

end Alone

end Threads

/-- What each of the two workers finds, a single thread can find. -/
theorem foundAlone_of_trace_turns : ∃ (past : History Machine twoFunctions.threadCount)
    (s : State Machine twoFunctions.threadCount),
    Trace (Step twoFunctions) (.initial Example.noCounts _) past s ∧
      runs past = [(1, [secondFound]), (0, [firstFound])] ∧
      ∀ run ∈ runs past, FoundAlone (U := Machine) twoFunctions run.1 run.2 := by
  obtain ⟨past, s, set, trace, -, labels⟩ := exists_turns
  exact ⟨past, s, trace, runs_of_turns labels, foundAlone_of_trace rfl trace⟩

end Plugin

end Unxorer
