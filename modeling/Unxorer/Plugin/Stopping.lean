import Unxorer.Plugin.Totals

/-!
# After a stop

A stop is requested by the user, who cancels, or by a worker without a working emulator. A worker
that has read the flag before that acts on it once more: it calls the instruction hook or begins
a slice. From then on the threads wind up. Nothing more is counted, no slice is begun, and apart
from what guest code does in the slices under way each thread has only a few steps left.

## Main definitions

* `RunState.rest`, `MainPhase.windup` — the steps a thread has left
* `Event.goesOn` — a worker acts on a flag that was clear
* `Event.interior` — the step belongs to guest code in a slice
* `StopLaw` — what happens after a stop

## Main results

* `stopLaw_of_trace` — the law holds after every interleaving
-/

set_option autoImplicit false

namespace Unxorer

open Transition

variable {U : Type} [Unicorn U]

/-- The steps a run has left after a stop, with what it has read of the flag before. What happens
in a slice does not count. -/
def RunState.rest (r : RunState U) (seen : Option Bool) : ℕ :=
  match r.phase with
  | .finished _ => 4
  | .slice _ => 7
  | .head =>
    match seen with
    | some true => 5
    | none => 6
    -- The slice is still to be begun.
    | some false => 8

/-- The step is one of guest code in a slice. -/
def RunEvent.interior : RunEvent U → Bool
  | .enter _ | .leave _ => false
  | _ => true

/-- The step is a call of the instruction hook that does not stop. -/
def RunEvent.callsHook : RunEvent U → Bool
  | .code _ _ stop => !stop
  | _ => false

/-- The step goes by a flag that was clear. -/
def RunEvent.goesOn : RunEvent U → Bool
  | .enter stop | .code _ _ stop => !stop
  | _ => false

theorem RunState.rest_le (r : RunState U) (seen : Option Bool) : r.rest seen ≤ 8 := by
  simp only [rest]
  split
  · omega
  · omega
  · split <;> omega

theorem RunState.rest_of_slice {r : RunState U} {before : BitVec 64}
    (here : r.phase = .slice before) (seen : Option Bool) : r.rest seen = 7 := by
  simp only [rest, here]

theorem RunState.Continues.rest_le {r r' : RunState U} (continues : r.Continues r') :
    r'.rest none ≤ 6 := by
  cases continues <;> simp [rest]

theorem RunState.rest_enterSlice_le (r : RunState U) (c : Counters) (stop : Bool) :
    (r.enterSlice c stop).rest none ≤ 7 := by
  rw [enterSlice]
  split_ifs <;> simp [rest]

/-- After a stop a step of a run counts nothing unless it is a call of the hook that goes on, is in
a slice only if it was in one or has read that it can begin one, and takes the run nearer its end
unless it is one of guest code. -/
theorem RunStep.quiet [Host] {event : RunEvent U} {seen : Option Bool} {c c' : Counters}
    {r r' : RunState U} (sees : Plugin.Sees seen event) (step : RunStep event (c, r) (c', r')) :
    (event.callsHook = false → c' = c) ∧
      (r'.phase.isSlice = true → r.phase.isSlice = true ∨ seen = some false) ∧
      (event.goesOn = true → seen = some false) ∧
      r'.rest none + (if event.interior then 0 else 1) ≤ r.rest seen := by
  cases step with
  | enter stop here =>
    obtain rfl : seen = some stop := sees
    have near := r.rest_enterSlice_le c stop
    cases stop with
    | false =>
      refine ⟨fun _ => rfl, fun _ => .inr rfl, fun _ => rfl, ?_⟩
      have whole : r.rest (some false) = 8 := by simp only [RunState.rest, here]
      rw [whole]
      simp only [RunEvent.interior, Bool.false_eq_true, if_false]
      omega
    | true =>
      have ends : r.enterSlice c true = { r with phase := .finished .stopRequested } := if_pos rfl
      rw [ends]
      refine ⟨fun _ => rfl, fun slice => absurd slice Bool.false_ne_true,
        fun on => absurd on Bool.false_ne_true, ?_⟩
      simp [RunState.rest, here, RunEvent.interior]
  | code address size stop here hook =>
    obtain rfl : seen = some stop := sees
    refine ⟨fun silent => ?_, fun _ => .inl (Phase.isSlice_of_eq here), fun on => ?_, ?_⟩
    · -- The hook returns at once.
      obtain rfl : stop = true := by simpa [RunEvent.callsHook] using silent
      rw [Emulator.hookCode, if_pos rfl] at hook
      cases hook
      rfl
    · rw [RunEvent.goesOn, Bool.not_eq_true'] at on
      rw [on]
    · exact (RunState.rest_of_slice here none).trans_le (RunState.rest_of_slice here _).ge
  | store address bytes here | load address size here | execute u here =>
    refine ⟨fun _ => rfl, fun _ => .inl (Phase.isSlice_of_eq here),
      fun on => absurd on Bool.false_ne_true, ?_⟩
    exact (RunState.rest_of_slice here none).trans_le (RunState.rest_of_slice here seen).ge
  | leave elapsedUs here left =>
    obtain ⟨e₁, -, continues⟩ := RunState.leaveSlice_cases left
    have near := continues.rest_le
    refine ⟨fun _ => rfl, fun _ => .inl (Phase.isSlice_of_eq here),
      fun on => absurd on Bool.false_ne_true, ?_⟩
    rw [RunState.rest_of_slice here]
    simp only [RunEvent.interior, Bool.false_eq_true, if_false]
    omega
  | interfere => exact absurd sees id

namespace Plugin

variable {threads : ℕ}

/-- The steps a worker has left after a stop. -/
def WorkerPhase.rest : WorkerPhase U → ℕ
  | .left => 0
  | .head _ => 1
  | .merged _ _ => 2
  | .starting => 2
  | .merging _ _ => 3
  | .running _ r seen => r.rest seen
  | .claimed _ _ => 7
  | .claiming _ => 8

theorem WorkerPhase.rest_le (p : WorkerPhase U) : p.rest ≤ 8 := by
  cases p with
  | running index r seen => exact r.rest_le seen
  | _ => simp [rest]

/-- The steps the main thread has left after a stop. -/
def MainPhase.windup : MainPhase → ℕ
  | .done _ => 0
  | .joining => 1
  | .checking => 2
  | .waiting => 3
  | .asking => 4

/-- The steps all threads have left after a stop. -/
def State.windup (s : State U threads) : ℕ := (∑ w, (s.phase w).rest) + s.main.windup

theorem State.windup_le (s : State U threads) : s.windup ≤ 8 * threads + 4 := by
  have workers : ∑ w, (s.phase w).rest ≤ ∑ _w : Fin threads, 8 :=
    Finset.sum_le_sum fun w _ => (s.phase w).rest_le
  rw [Finset.sum_const, Finset.card_univ, Fintype.card_fin, smul_eq_mul] at workers
  have main : s.main.windup ≤ 4 := by cases s.main <;> simp [MainPhase.windup]
  rw [windup]
  omega

namespace Event

/-- The step belongs to guest code in a slice. -/
def interior : Event U threads → Bool
  | .worker _ .loadInHook => true
  | .worker _ (.emulate event) => event.interior
  | _ => false

/-- The step is a call of the instruction hook that does not stop. -/
def callsHook : Event U threads → Bool
  | .worker _ (.emulate event) => event.callsHook
  | _ => false

/-- Worker `w` calls the hook or begins a slice, having read that no stop is requested. -/
def goesOn (w : Fin threads) : Event U threads → Bool
  | .worker v (.emulate event) => v = w && event.goesOn
  | _ => false

/-- Worker `w` claims an index. -/
def claims (w : Fin threads) : Event U threads → Bool
  | .worker v (.claim _) => v = w
  | _ => false

end Event

namespace WorkerPhase

/-- The worker has seen that no stop is requested and claims an index next. -/
def isClaiming : WorkerPhase U → Bool
  | .claiming _ => true
  | _ => false

/-- The worker has read in its run that no stop is requested. -/
def isCleared : WorkerPhase U → Bool
  | .running _ _ seen => seen = some false
  | _ => false

/-- The worker is in a slice of this function or has read that it can begin one. -/
def IsUnderway (index : ℕ) : WorkerPhase U → Prop
  | .running i r seen => i = index ∧ (r.phase.isSlice = true ∨ seen = some false)
  | _ => False

end WorkerPhase

/-- What happens after a stop: it stays requested; a worker calls the hook or begins a slice at
most once more, and only if it had read the flag before; nothing is counted but by such calls of
the hook; a worker claims an index only if it was about to; who is in a slice was in it at the
stop, or had read that it could begin it; and the steps that do not belong to guest code in a
slice use up those the threads have left. -/
structure StopLaw (s₁ : State U threads) (past : History U threads) (s : State U threads) :
    Prop where
  stopped : s.stopRequested = true
  late : ∀ w, past.countP (fun p => p.2.goesOn w) + (if (s.phase w).isCleared then 1 else 0) ≤
    if (s₁.phase w).isCleared then 1 else 0
  counters : (∀ p ∈ past, p.2.callsHook = false) → s.counters = s₁.counters
  claims : ∀ w, past.countP (fun p => p.2.claims w) + (if (s.phase w).isClaiming then 1 else 0) ≤
    if (s₁.phase w).isClaiming then 1 else 0
  slice : ∀ w index, (s.phase w).IsUnderway index → (s₁.phase w).IsUnderway index
  steps : past.countP (fun p => !p.2.interior) + s.windup ≤ s₁.windup

section Steps

variable [Host] {job : Job} {s t : State U threads} {w : Fin threads} {event : WorkerEvent U}

/-- What a step of a worker does after a stop. -/
structure Winds (w : Fin threads) (event : Event U threads) (s t : State U threads) : Prop where
  stopped : t.stopRequested = true
  late : (if event.goesOn w then 1 else 0) + (if (t.phase w).isCleared then 1 else 0) ≤
    if (s.phase w).isCleared then 1 else 0
  counters : event.callsHook = false → t.counters = s.counters
  claims : (if event.claims w then 1 else 0) + (if (t.phase w).isClaiming then 1 else 0) ≤
    if (s.phase w).isClaiming then 1 else 0
  slice : ∀ index, (t.phase w).IsUnderway index → (s.phase w).IsUnderway index
  rest : (t.phase w).rest + (if event.interior then 0 else 1) ≤ (s.phase w).rest

theorem WorkerStep.winds (stopped : s.stopRequested = true) (step : WorkerStep job w event s t) :
    Winds w (.worker w event) s t := by
  -- Where the worker moves to a phase outside of runs, all of it can be read off the phases.
  cases step with
  | create opened here | fail here | stop here | claim here | overrun here | merge here
  | count here =>
    constructor <;> simp_all [State.go, Event.goesOn, Event.callsHook, Event.claims, Event.interior,
      WorkerPhase.isCleared, WorkerPhase.isClaiming, WorkerPhase.IsUnderway, WorkerPhase.rest]
  | proceed here clear =>
    rw [stopped] at clear
    cases clear
  | begin here found started =>
    obtain ⟨e', -, rfl⟩ := Emulator.startRun_cases started
    constructor <;> simp_all [State.go, Event.goesOn, Event.callsHook, Event.claims, Event.interior,
      WorkerPhase.isCleared, WorkerPhase.isClaiming, WorkerPhase.IsUnderway, WorkerPhase.rest,
      RunState.rest, Phase.isSlice]
  | loadAtHead here place | loadInHook here place =>
    -- What is read is that a stop is requested.
    constructor <;> simp_all [State.go, Event.goesOn, Event.callsHook, Event.claims, Event.interior,
      WorkerPhase.isCleared, WorkerPhase.isClaiming, WorkerPhase.IsUnderway, WorkerPhase.rest,
      RunState.rest]
  | @emulate _ index r r' seen event c here sees step =>
    obtain ⟨silent, slice, on, rest⟩ := step.quiet sees
    refine ⟨stopped, ?_, silent, ?_, fun index => ?_, ?_⟩
    · simp only [State.go, Function.update_self, here, Event.goesOn, WorkerPhase.isCleared,
        decide_true, Bool.true_and, reduceCtorEq, decide_false, Bool.false_eq_true, if_false]
      by_cases goes : event.goesOn = true
      · rw [on goes, if_pos goes]
        exact le_rfl
      · rw [if_neg goes]
        exact Nat.zero_le _
    · simp [State.go, Event.claims, WorkerPhase.isClaiming]
    · simp only [State.go, Function.update_self, here, WorkerPhase.IsUnderway, reduceCtorEq,
        or_false]
      exact And.imp_right slice
    · simp only [State.go, Function.update_self, here, WorkerPhase.rest, Event.interior]
      exact rest
  | finish here ended =>
    constructor <;> simp_all [State.go, Event.goesOn, Event.callsHook, Event.claims, Event.interior,
      WorkerPhase.isCleared, WorkerPhase.isClaiming, WorkerPhase.IsUnderway, WorkerPhase.rest,
      RunState.rest]

omit [Host] in
/-- A step of the main thread after a stop takes it nearer its end. -/
theorem MainStep.winds {event : MainEvent} (stopped : s.stopRequested = true)
    (step : MainStep job event s t) : t.stopRequested = true ∧ t.counters = s.counters ∧
      t.phase = s.phase ∧ t.main.windup + 1 ≤ s.main.windup := by
  cases step with
  | goOn here clear =>
    rw [stopped] at clear
    cases clear
  | more here | enough here | stopped here | sleep here | join here =>
    rw [here]
    exact ⟨stopped, rfl, rfl, by simp [MainPhase.windup]⟩
  | cancel here =>
    rw [here]
    exact ⟨rfl, rfl, rfl, by simp [MainPhase.windup]⟩

omit [Unicorn U] [Host] in
/-- An event of a worker is none of another one. -/
theorem Event.silent_of_ne (event : WorkerEvent U) {v : Fin threads} (other : v ≠ w) :
    (Event.worker w event).goesOn v = false ∧ (Event.worker w event).claims v = false := by
  have apart : decide (w = v) = false := decide_eq_false other.symm
  cases event with
  | claim => exact ⟨rfl, apart⟩
  | emulate => exact ⟨by rw [goesOn, apart, Bool.false_and], rfl⟩
  | _ => exact ⟨rfl, rfl⟩

/-- After a stop only calls of the hook that go on count anything. -/
theorem Step.counters_eq {event : Event U threads} (stopped : s.stopRequested = true)
    (step : Step job event s t) (silent : event.callsHook = false) : t.counters = s.counters := by
  cases step with
  | main step => exact (step.winds stopped).2.1
  | worker step => exact (step.winds stopped).counters silent

variable {s₁ : State U threads} {past : History U threads}

theorem StopLaw.step {event : Event U threads} (law : StopLaw s₁ past s)
    (step : Step job event s t) : StopLaw s₁ ((s, event) :: past) t := by
  have steps := law.steps
  have counters (silent : ∀ p ∈ (s, event) :: past, p.2.callsHook = false) :
      t.counters = s₁.counters := by
    obtain ⟨now, old⟩ := List.forall_mem_cons.mp silent
    exact (step.counters_eq law.stopped now).trans (law.counters old)
  cases step with
  | @main _ _ event step =>
    obtain ⟨stopped, -, phase, windup⟩ := step.winds law.stopped
    refine ⟨stopped, fun w => ?_, counters, fun w => ?_, fun w index => ?_, ?_⟩
    · rw [List.countP_cons, phase]
      exact law.late w
    · rw [List.countP_cons, phase]
      exact law.claims w
    · rw [phase]
      exact law.slice w index
    · rw [State.windup] at steps
      have own : (Event.main event : Event U threads).interior = false := rfl
      rw [List.countP_cons, State.windup, phase]
      dsimp only
      rw [own, if_pos (Bool.not_false)]
      omega
  | @worker _ _ w event step =>
    have winds := step.winds law.stopped
    refine ⟨winds.stopped, fun v => ?_, counters, fun v => ?_, fun v index => ?_, ?_⟩
    · have late := law.late v
      rw [List.countP_cons]
      dsimp only
      by_cases same : v = w
      · subst same
        have here := winds.late
        omega
      · rw [(Event.silent_of_ne event same).1, step.phase_of_ne same]
        exact late
    · have claims := law.claims v
      rw [List.countP_cons]
      dsimp only
      by_cases same : v = w
      · subst same
        have here := winds.claims
        omega
      · rw [(Event.silent_of_ne event same).2, step.phase_of_ne same]
        exact claims
    · by_cases same : v = w
      · subst same
        exact law.slice v index ∘ winds.slice index
      · rw [step.phase_of_ne same]
        exact law.slice v index
    · have moved := sum_update WorkerPhase.rest s.phase w (t.phase w)
      have whole : Function.update s.phase w (t.phase w) = t.phase := by
        funext v
        by_cases same : v = w
        · rw [same, Function.update_self]
        · rw [Function.update_of_ne same, step.phase_of_ne same]
      have rest := winds.rest
      rw [whole] at moved
      rw [State.windup] at steps
      rw [List.countP_cons, State.windup, step.main_eq]
      dsimp only
      cases interior : (Event.worker w event).interior <;>
      · rw [interior] at rest
        simp only [Bool.not_true, Bool.not_false, Bool.false_eq_true, if_true, if_false] at rest ⊢
        omega

/-- From any state in which a stop is requested, however the threads go on: the law holds, so
beside the steps of guest code in slices there are at most eight for each worker and four for the
main thread; and no step but a call of the hook that goes on counts anything. -/
theorem stopLaw_of_trace (stopped : s₁.stopRequested = true)
    (trace : Trace (Step job) s₁ past s) :
    StopLaw s₁ past s ∧ past.countP (fun p => !p.2.interior) ≤ 8 * threads + 4 ∧
      ∀ event t, Step job event s t → event.callsHook = false → t.counters = s.counters := by
  have initial : StopLaw s₁ [] s₁ := by
    refine ⟨stopped, fun w => ?_, fun _ => rfl, fun w => ?_, fun w index => id, ?_⟩
    · rw [List.countP_nil, Nat.zero_add]
    · rw [List.countP_nil, Nat.zero_add]
    · rw [List.countP_nil, Nat.zero_add]
  have law : StopLaw s₁ past s := trace.invariant initial fun _ _ _ _ law step => law.step step
  have steps := law.steps
  have all := s₁.windup_le
  exact ⟨law, by omega, fun event t step silent => step.counters_eq law.stopped silent⟩

end Steps

/-! ### A stop during a slice -/

/-- The worker is in a slice. -/
def WorkerPhase.isInSlice : WorkerPhase U → Bool
  | .running _ r _ => r.phase.isSlice
  | _ => false

/-- One worker is in its slice and has read the flag in the hook, the other one has read it at the
head of its run, and then the user cancels. -/
def cancelTurns : List (Event Machine twoFunctions.threadCount) :=
  [.worker secondWorker .loadAtHead, .worker secondWorker (.emulate (.enter false)),
    .worker firstWorker .loadAtHead, .worker secondWorker .loadInHook,
    .main .more, .main .goOn, .main .cancel]

/-- Both act on what they have read and then stop. -/
def stopTurns : List (Event Machine twoFunctions.threadCount) :=
  [.worker secondWorker (.emulate (.code 0x140000000 4 false)),
    .worker firstWorker (.emulate (.enter false)),
    .worker secondWorker .loadInHook, .worker firstWorker .loadInHook,
    .worker secondWorker (.emulate (.code 0x140000004 8 true)),
    .worker firstWorker (.emulate (.code 0x140000004 8 true)),
    .worker secondWorker (.emulate (.leave 0)), .worker firstWorker (.emulate (.leave 0)),
    .worker secondWorker (.finish 0 []), .worker firstWorker (.finish 1 []),
    .worker firstWorker .merge, .worker secondWorker .merge,
    .worker secondWorker (.count 0), .worker firstWorker (.count 1),
    .worker secondWorker .stop, .worker firstWorker .stop, .main .join]

/-- The threads wind up. The instruction of the hook call under way is counted. -/
theorem stopLaw_of_trace_turns :
    ∃ (before past : History Machine twoFunctions.threadCount)
      (s₁ s : State Machine twoFunctions.threadCount),
      Trace (Step twoFunctions) (.initial Example.noCounts _) before s₁ ∧
        s₁.stopRequested = true ∧ (s₁.phase secondWorker).isInSlice = true ∧
        Trace (Step twoFunctions) s₁ past s ∧ s.main.isDone = true ∧
        s.counters ≠ s₁.counters ∧ StopLaw s₁ past s ∧
          past.countP (fun p => !p.2.interior) ≤ 8 * twoFunctions.threadCount + 4 ∧
          ∀ event t, Step twoFunctions event s t → event.callsHook = false →
            t.counters = s.counters := by
  obtain ⟨earlier, opening, -⟩ := exists_openingTurns
  have ran : (Trace.performTrace (Event.perform twoFunctions) [] begun cancelTurns).any (fun p =>
      p.2.stopRequested && (p.2.phase secondWorker).isInSlice &&
        (Trace.performTrace (Event.perform twoFunctions) [] p.2 stopTurns).any fun q =>
          q.2.main.isDone && decide (q.2.counters ≠ p.2.counters)) = true := by decide +kernel
  obtain ⟨⟨before, s₁⟩, first, rest⟩ := (Option.any_eq_true _ _).mp ran
  obtain ⟨state, rest⟩ := Bool.and_eq_true_iff.mp rest
  obtain ⟨stopped, inSlice⟩ := Bool.and_eq_true_iff.mp state
  obtain ⟨⟨past, s⟩, second, ended⟩ := (Option.any_eq_true _ _).mp rest
  obtain ⟨done, counted⟩ := Bool.and_eq_true_iff.mp ended
  have cancelling := Trace.of_performTrace (fun _ _ _ => Step.of_perform) .nil first
  have stopping := Trace.of_performTrace (fun _ _ _ => Step.of_perform) .nil second
  exact ⟨before ++ earlier, past, s₁, s, opening.append cancelling, stopped, inSlice, stopping,
    done, of_decide_eq_true counted, stopLaw_of_trace stopped stopping⟩

end Plugin

end Unxorer
