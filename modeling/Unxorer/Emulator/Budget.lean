import Unxorer.Emulator.Steps

/-!
# The instruction budget of concurrent runs

Workers with an emulator of their own run functions at the same time and count executed
instructions in one counter. After a slice `run` charges its budget with the difference of
two readings of that counter, so it pays for what the other workers have executed between
the readings as well.

## Main definitions

* `Pool`, `PoolStep` — workers, their shared counters, and their interleaved steps
* `SliceLaw` — what is expected of the budget after a slice
* `SliceAlone` — the slices for which it holds

## Main results

* `Worker.Accounted.leave` — what a slice is charged
* `budgetLaw_iff_of_run` — the law holds for exactly these slices, and a run that has only
  such slices is not ended early
-/

set_option autoImplicit false

namespace Unxorer

open Unicorn

section Generic

variable {U : Type} [Unicorn U] {W : Type}

/-- A worker: its current or last run, the value of `max_instr` for it, and how many
instructions were counted: by this worker in this run, by this worker in its current or
last slice, and by the others during that slice. The source keeps none of these numbers. -/
structure Worker (U : Type) [Unicorn U] where
  run : RunState U
  maxInstr : BitVec 64
  counted : ℕ
  own : ℕ
  others : ℕ

/-- The workers and the counters they share. -/
structure Pool (W U : Type) [Unicorn U] where
  counters : Counters
  worker : W → Worker U

/-- How many instructions the hook counts in a step. -/
def RunEvent.counts (r : RunState U) : RunEvent U → ℕ
  | .code address _ stop => if r.emulator.ignores address stop then 0 else 1
  | _ => 0

/-- The event is the start of a slice. -/
def RunEvent.enters : RunEvent U → Bool
  | .enter _ => true
  | _ => false

/-- The event is the end of a slice. -/
def RunEvent.leaves : RunEvent U → Bool
  | .leave _ => true
  | _ => false

/-- What a worker does next: it begins a run, or a step of its run. -/
inductive PoolEvent (U : Type)
  | start (args : RunArgs)
  | run (event : RunEvent U)

namespace Worker

/-- A worker that has not run yet. -/
def new (e : Emulator U) : Worker U where
  run := {
    emulator := e
    limitTime := false
    limitInstr := false
    remainingTimeUs := 0
    instructionsLeft := 0
    entry := 0
    phase := .finished .nothingPending
    slices := 0 }
  maxInstr := 0
  counted := 0
  own := 0
  others := 0

variable (x : Worker U)

/-- A worker after a step of its own. -/
def advance (event : RunEvent U) (r : RunState U) : Worker U where
  run := r
  maxInstr := x.maxInstr
  counted := x.counted + event.counts x.run
  own := if event.enters then 0 else x.own + event.counts x.run
  others := if event.enters then 0 else x.others

/-- A worker after others have counted `k` instructions. -/
def watch (k : ℕ) : Worker U := { x with others := x.others + k }

end Worker

namespace Pool

variable (p : Pool W U) (w : W)

/-- Worker `w` has begun a run. -/
def begin [DecidableEq W] (args : RunArgs) (r : RunState U) : Pool W U :=
  { p with worker := Function.update p.worker w ⟨r, args.maxInstr, 0, 0, 0⟩ }

/-- Worker `w` has made a step of its run. -/
def record [DecidableEq W] (event : RunEvent U) (s : Counters × RunState U) : Pool W U where
  counters := s.1
  worker v :=
    if v = w then (p.worker w).advance event s.2
    else (p.worker v).watch (event.counts (p.worker w).run)

/-- Workers that have not run yet. -/
def new (c : Counters) (emulators : W → Emulator U) : Pool W U where
  counters := c
  worker w := .new (emulators w)

end Pool

/-- A step of one worker. That other workers advance the counters is a step of theirs. -/
inductive PoolStep [Host] [DecidableEq W] : W × PoolEvent U → Pool W U → Pool W U → Prop
  | start {p : Pool W U} {w : W} {args : RunArgs} {reason : StopReason} {r : RunState U}
      (idle : (p.worker w).run.phase = .finished reason)
      (started : (p.worker w).run.emulator.startRun args = .ok r) :
      PoolStep (w, .start args) p (p.begin w args r)
  | run {p : Pool W U} {w : W} {event : RunEvent U} {s : Counters × RunState U}
      (own : ∀ c, event ≠ .interfere c)
      (step : RunStep event (p.counters, (p.worker w).run) s) :
      PoolStep (w, .run event) p (p.record w event s)

/-- The step of a worker that belongs to an event, where it is a function of the event. -/
def PoolEvent.perform [Host] [DecidableEq W] (event : W × PoolEvent U) (p : Pool W U) :
    Option (Pool W U) :=
  match event.2 with
  | .start args =>
    match (p.worker event.1).run.phase, (p.worker event.1).run.emulator.startRun args with
    | .finished _, .ok r => some (p.begin event.1 args r)
    | _, _ => none
  | .run (.interfere _) => none
  | .run own =>
    (own.perform (p.counters, (p.worker event.1).run)).map fun s => p.record event.1 own s

theorem PoolEvent.step_of_perform [Host] [DecidableEq W] {event : W × PoolEvent U}
    {p p' : Pool W U} (performed : PoolEvent.perform event p = some p') : PoolStep event p p' := by
  obtain ⟨w, event⟩ := event
  cases event with
  | start args =>
    simp only [perform] at performed
    split at performed
    · rename_i reason r idle started
      cases performed
      exact .start idle started
    · cases performed
  | run event =>
    cases event with
    | interfere c => cases performed
    | execute u => cases performed
    | _ =>
      obtain ⟨s, step, rfl⟩ := Option.map_eq_some_iff.mp performed
      exact .run (fun c same => by cases same) (RunEvent.step_of_perform step)

/-! ### The counter -/

theorem Emulator.ExploreStep.instructionsExecuted_eq {address : Addr}
    {s s' : Emulator U × Counters} (step : Emulator.ExploreStep address s s') :
    s'.2.instructionsExecuted = s.2.instructionsExecuted := by
  cases step with
  | @schedule e c target =>
    obtain ⟨branches, c', -, result, kept⟩ := e.scheduleBranch_cases c address target
    rw [result]
    exact kept
  | adjust => rfl

theorem Emulator.Executed.instructionsExecuted_eq [Host] {e e' : Emulator U} {c c' : Counters}
    {address : Addr} {size : BitVec 32} {insn : Insn}
    (executed : e.Executed c address size insn e' c') :
    c'.instructionsExecuted = c.instructionsExecuted := by
  cases executed with
  | skipped => rfl
  | handled => rfl
  | called _ _ _ call =>
    obtain ⟨u, heap, -, -, kept⟩ := Emulator.handleCall_cases call
    exact kept
  | explored _ _ _ _ explore =>
    exact Emulator.exploreBranches_invariant
      (P := fun s => s.2.instructionsExecuted = c.instructionsExecuted) explore rfl
      fun _ _ kept step => step.instructionsExecuted_eq.trans kept

/-- A step adds to the counter what the hook counts in it. -/
theorem RunStep.instructionsExecuted_eq [Host] {event : RunEvent U} {s s' : Counters × RunState U}
    (own : ∀ c, event ≠ .interfere c) (step : RunStep event s s') :
    s'.1.instructionsExecuted = s.1.instructionsExecuted + BitVec.ofNat 64 (event.counts s.2) := by
  cases step with
  | code address size stop here hook =>
    rcases Emulator.hookCode_cases hook with ⟨ignored, -, rfl⟩ | ⟨insn, ignored, -, executed⟩
    · simp [RunEvent.counts, ignored]
    · rw [executed.instructionsExecuted_eq]
      simp [RunEvent.counts, ignored, Emulator.countInsn]
  | interfere c => exact absurd rfl (own c)
  | _ => exact (add_zero _).symm

/-! ### What a slice is charged -/

theorem RunState.toNat_remaining (left used : BitVec 64) :
    (RunState.remaining left used).toNat = left.toNat - used.toNat := by
  rw [RunState.remaining]
  by_cases spent : used ≥ left
  · rw [if_pos spent]
    exact (Nat.sub_eq_zero_of_le spent).symm
  · have under : used.toNat < left.toNat := Nat.lt_of_not_le spent
    rw [if_neg spent, BitVec.toNat_sub_of_le under.le]

/-- The run is in a slice. -/
def Phase.isSlice : Phase → Bool
  | .slice _ => true
  | _ => false

theorem Phase.isSlice_of_eq {phase : Phase} {before : BitVec 64} (here : phase = .slice before) :
    phase.isSlice = true := by
  rw [here, isSlice]

namespace RunState

variable {r r' : RunState U}

/-- After a slice `run` is at the head of its loop or has ended. -/
theorem Continues.isSlice_eq (continues : Continues r r') : r'.phase.isSlice = false := by
  cases continues <;> rfl

theorem Continues.instructionsLeft_eq (continues : Continues r r') :
    r'.instructionsLeft = r.instructionsLeft := by
  cases continues <;> rfl

end RunState

namespace Worker

/-- The numbers kept for a worker account for the counter: in a slice it has advanced by
what the worker and the others have counted. -/
structure Accounted (x : Worker U) (instructionsExecuted : BitVec 64) : Prop where
  counter : ∀ before, x.run.phase = .slice before →
    instructionsExecuted = before + BitVec.ofNat 64 (x.own + x.others)
  own_le : x.own ≤ x.counted

variable {x : Worker U} {n : BitVec 64}

theorem Accounted.of_isSlice_eq (outside : x.run.phase.isSlice = false)
    (own_le : x.own ≤ x.counted) : x.Accounted n where
  counter before here := by
    rw [here] at outside
    cases outside
  own_le := own_le

/-- What the others count is accounted for. -/
theorem Accounted.watch (accounted : x.Accounted n) (k : ℕ) :
    (x.watch k).Accounted (n + BitVec.ofNat 64 k) where
  counter before here := by
    rw [accounted.counter before here, add_assoc, ← BitVec.ofNat_add]
    simp only [Worker.watch, Nat.add_assoc]
  own_le := accounted.own_le

/-- What the worker counts within a slice is accounted for. -/
theorem Accounted.inSlice (accounted : x.Accounted n) {event : RunEvent U} (e : Emulator U)
    {faulted : Bool} (within : event.enters = false) :
    (x.advance event { x.run with emulator := e, faulted }).Accounted
      (n + BitVec.ofNat 64 (event.counts x.run)) where
  counter before here := by
    rw [accounted.counter before here, add_assoc, ← BitVec.ofNat_add]
    simp only [advance, within, Bool.false_eq_true, if_false, Nat.add_right_comm]
  own_le := by
    simp only [advance, within, Bool.false_eq_true, if_false]
    exact Nat.add_le_add_right accounted.own_le _

/-- A step of the worker is accounted for. -/
theorem Accounted.advance [Host] {c : Counters} {event : RunEvent U} {s : Counters × RunState U}
    (accounted : x.Accounted c.instructionsExecuted) (own : ∀ c, event ≠ .interfere c)
    (step : RunStep event (c, x.run) s) :
    (x.advance event s.2).Accounted s.1.instructionsExecuted := by
  rw [step.instructionsExecuted_eq own]
  cases step with
  | enter stop here =>
    -- The slice begins with the counter as it is and with nothing counted.
    refine ⟨fun before entered => ?_, Nat.zero_le _⟩
    change (x.run.enterSlice c stop).phase = .slice before at entered
    rw [RunState.enterSlice] at entered
    split_ifs at entered
    cases entered
    rfl
  | code => exact accounted.inSlice _ rfl
  | store => exact accounted.inSlice _ rfl
  | load => exact accounted.inSlice _ rfl
  | execute => exact accounted.inSlice _ rfl
  | leave elapsedUs here left =>
    obtain ⟨e₁, -, continues⟩ := RunState.leaveSlice_cases left
    exact .of_isSlice_eq continues.isSlice_eq accounted.own_le
  | interfere c' => exact absurd rfl (own c')

end Worker

/-- The counter is accounted for at every point of a run of the pool. -/
theorem PoolStep.accounted [Host] [DecidableEq W] {p p' : Pool W U} {v w : W} {event : PoolEvent U}
    (step : PoolStep (v, event) p p')
    (accounted : (p.worker w).Accounted p.counters.instructionsExecuted) :
    (p'.worker w).Accounted p'.counters.instructionsExecuted := by
  cases step with
  | start idle started =>
    obtain ⟨e', -, rfl⟩ := Emulator.startRun_cases started
    by_cases same : w = v
    · subst same
      simp only [Pool.begin, Function.update_self]
      exact .of_isSlice_eq rfl (le_refl 0)
    · simp only [Pool.begin, Function.update_of_ne same]
      exact accounted
  | run own step =>
    by_cases same : w = v
    · subst same
      simp only [Pool.record, if_pos]
      exact accounted.advance own step
    -- For worker `w` this is what another worker has counted.
    · simp only [Pool.record, if_neg same]
      have counter := step.instructionsExecuted_eq own
      rw [counter]
      exact accounted.watch _

/-! ### The law -/

/-- What is expected of a slice: the budget goes down by what the worker has counted. -/
def SliceLaw (before after : Worker U) : Prop :=
  after.run.instructionsLeft.toNat = before.run.instructionsLeft.toNat - before.own

/-- What the others count during the slice makes no difference: they count nothing,
modulo `2 ^ 64`, or the worker has used its budget up and the counter shows it. -/
def SliceAlone (x : Worker U) : Prop :=
  if x.run.instructionsLeft.toNat ≤ x.own then
    x.run.instructionsLeft.toNat ≤ (x.own + x.others) % 2 ^ 64
  else x.others % 2 ^ 64 = 0

instance (x : Worker U) : Decidable (SliceAlone x) :=
  inferInstanceAs (Decidable (if x.run.instructionsLeft.toNat ≤ x.own then
    x.run.instructionsLeft.toNat ≤ (x.own + x.others) % 2 ^ 64 else x.others % 2 ^ 64 = 0))

section Law

variable [Host] {x x' : Worker U} {c : Counters} {elapsedUs : BitVec 64}
  {s : Counters × RunState U}

/-- A slice is charged what all workers have counted in it. -/
theorem Worker.Accounted.leave (accounted : x.Accounted c.instructionsExecuted)
    (limited : x.run.limitInstr = true) (step : RunStep (.leave elapsedUs) (c, x.run) s) :
    s.2.instructionsLeft.toNat =
      x.run.instructionsLeft.toNat - (x.own + x.others) % 2 ^ 64 := by
  cases step with
  | leave elapsedUs here left =>
    obtain ⟨e₁, -, continues⟩ := RunState.leaveSlice_cases left
    have used := accounted.counter _ here
    rw [continues.instructionsLeft_eq]
    simp only [limited, if_true]
    rw [RunState.toNat_remaining, used, add_sub_cancel_left, BitVec.toNat_ofNat]

/-- The law of a slice holds exactly when the others make no difference. -/
theorem Worker.Accounted.sliceLaw_iff (accounted : x.Accounted c.instructionsExecuted)
    (limited : x.run.limitInstr = true) (step : RunStep (.leave elapsedUs) (c, x.run) s) :
    SliceLaw x (x.advance (.leave elapsedUs) s.2) ↔ SliceAlone x := by
  have charged := accounted.leave limited step
  have bound := x.run.instructionsLeft.isLt
  rw [SliceLaw, SliceAlone]
  change s.2.instructionsLeft.toNat = _ ↔ _
  rw [charged]
  -- The charge is floored at the budget, so past it only the sum of both counts matters.
  split_ifs <;> omega

/-- The budget of a run in all of whose slices the law has held: it has gone down by what
the worker has counted in the slices that are over. -/
structure Worker.Budgeted (x : Worker U) : Prop where
  left : x.run.limitInstr = true → x.run.instructionsLeft.toNat =
    x.maxInstr.toNat - (x.counted - if x.run.phase.isSlice then x.own else 0)
  ended : x.run.phase = .finished .limitReached →
    (x.run.limitTime = true ∧ x.run.remainingTimeUs = 0) ∨
      (x.run.limitInstr = true ∧ x.run.instructionsLeft = 0)

omit [Host] in
/-- What the worker counts within a slice is not charged yet. -/
theorem Worker.Budgeted.inSlice {before : BitVec 64} (budgeted : x.Budgeted)
    (here : x.run.phase = .slice before) {event : RunEvent U} (e : Emulator U) {faulted : Bool}
    (within : event.enters = false) :
    (x.advance event { x.run with emulator := e, faulted }).Budgeted where
  left limited := by
    have left := budgeted.left limited
    have slice := Phase.isSlice_of_eq here
    rw [slice, if_pos rfl] at left
    simp only [Worker.advance, slice, within, if_true, Bool.false_eq_true, if_false,
      Nat.add_sub_add_right]
    exact left
  ended done := by
    change x.run.phase = _ at done
    rw [here] at done
    cases done

/-- A step of the worker keeps the budget, if the law holds for the slice that may end. -/
theorem Worker.Budgeted.advance {event : RunEvent U} (budgeted : x.Budgeted)
    (accounted : x.Accounted c.instructionsExecuted)
    (alone : event.leaves = true → x.run.limitInstr = true → SliceAlone x)
    (step : RunStep event (c, x.run) s) (own : ∀ c, event ≠ .interfere c) :
    (x.advance event s.2).Budgeted := by
  cases step with
  | enter stop here =>
    have left := budgeted.left
    have outside : x.run.phase.isSlice = false := by
      rw [here]
      rfl
    rw [outside, if_neg Bool.false_ne_true, Nat.sub_zero] at left
    rw [RunState.enterSlice]
    split_ifs with stopped limit
    · exact ⟨left, fun done => by cases done⟩
    · exact ⟨left, fun _ => limit⟩
    · exact ⟨left, fun done => by cases done⟩
  | code _ _ _ here => exact budgeted.inSlice here _ rfl
  | store _ _ here => exact budgeted.inSlice here _ rfl
  | load _ _ here => exact budgeted.inSlice here _ rfl
  | execute _ here => exact budgeted.inSlice here _ rfl
  | @leave _ _ r' _ elapsedUs here left =>
    obtain ⟨e₁, -, continues⟩ := RunState.leaveSlice_cases left
    refine ⟨fun limited => ?_, fun done => ?_⟩
    · have before : x.run.limitInstr = true := by
        rw [← limited]
        cases continues <;> rfl
      have law := (accounted.sliceLaw_iff before (.leave elapsedUs here left)).mpr
        (alone rfl before)
      have charged := budgeted.left before
      have within : x.own ≤ x.counted := accounted.own_le
      have outside : (x.advance (.leave elapsedUs) r').run.phase.isSlice = false :=
        continues.isSlice_eq
      rw [Phase.isSlice_of_eq here, if_pos rfl] at charged
      -- What was pending in the slice is charged now, so the two differences meet.
      rw [outside, if_neg Bool.false_ne_true, law, charged]
      change _ = x.maxInstr.toNat - (x.counted + 0 - 0)
      omega
    · change r'.phase = _ at done
      cases continues <;> cases done
  | interfere c' => exact absurd rfl (own c')

omit [Host] in
/-- A run that the instruction limit has ended has counted as many instructions. -/
theorem Worker.Budgeted.maxInstr_le (budgeted : x.Budgeted)
    (ended : x.run.phase = .finished .limitReached)
    (inTime : ¬ (x.run.limitTime = true ∧ x.run.remainingTimeUs = 0)) :
    x.maxInstr.toNat ≤ x.counted := by
  obtain ⟨limited, none⟩ := (budgeted.ended ended).resolve_left inTime
  have left := budgeted.left limited
  rw [none, ended] at left
  simp only [Phase.isSlice, Bool.false_eq_true, if_false, Nat.sub_zero] at left
  exact Nat.le_of_sub_eq_zero left.symm

end Law

section Pools

variable [Host] [DecidableEq W] {p p' : Pool W U} {v w : W}

/-- The slices of worker `w` are such that the others make no difference. -/
def LeavesAlone (w : W) (p : Pool W U) : W × PoolEvent U → Prop
  | (v, .run event) => event.leaves = true → v = w →
    (p.worker v).run.limitInstr = true → SliceAlone (p.worker v)
  | _ => True

instance (w : W) (p : Pool W U) (event : W × PoolEvent U) : Decidable (LeavesAlone w p event) :=
  match event with
  | (_, .start _) => inferInstanceAs (Decidable True)
  | (_, .run _) => inferInstanceAs (Decidable (_ → _ → _ → SliceAlone _))

theorem PoolStep.budgeted {event : W × PoolEvent U} (step : PoolStep event p p')
    (alone : LeavesAlone w p event)
    (accounted : (p.worker w).Accounted p.counters.instructionsExecuted)
    (budgeted : (p.worker w).Budgeted) : (p'.worker w).Budgeted := by
  cases step with
  | @start _ v args reason r idle started =>
    -- A new run starts with its full budget.
    obtain ⟨e', -, rfl⟩ := Emulator.startRun_cases started
    by_cases same : w = v
    · subst same
      simp only [Pool.begin, Function.update_self]
      exact ⟨fun _ => rfl, fun done => by cases done⟩
    · simp only [Pool.begin, Function.update_of_ne same]
      exact budgeted
  | @run _ v event s own step =>
    by_cases same : w = v
    · subst same
      simp only [Pool.record, if_pos]
      exact budgeted.advance accounted (fun leaves => alone leaves rfl) step own
    · simp only [Pool.record, if_neg same]
      exact ⟨budgeted.left, budgeted.ended⟩

theorem Pool.accounted_of_run {c : Counters} {emulators : W → Emulator U}
    {allowed : Pool W U → W × PoolEvent U → Prop}
    (run : Transition.Run PoolStep allowed (Pool.new c emulators) p) (w : W) :
    (p.worker w).Accounted p.counters.instructionsExecuted :=
  run.invariant (P := fun p => (p.worker w).Accounted p.counters.instructionsExecuted)
    (.of_isSlice_eq rfl (le_refl 0)) fun _ _ _ accounted _ step => step.accounted accounted

/-- However the workers' steps are interleaved, the law holds after exactly those slices
in which the others make no difference, and a run that has only such slices is not ended
by the instruction limit before it has counted as many instructions. -/
theorem budgetLaw_iff_of_run {c : Counters} {emulators : W → Emulator U} (w : W) :
    (∀ (p p' : Pool W U) (elapsedUs : BitVec 64),
      Transition.Run PoolStep (fun _ _ => True) (Pool.new c emulators) p →
      PoolStep (w, .run (.leave elapsedUs)) p p' → (p.worker w).run.limitInstr = true →
      (SliceLaw (p.worker w) (p'.worker w) ↔ SliceAlone (p.worker w))) ∧
    ∀ p : Pool W U, Transition.Run PoolStep (LeavesAlone w) (Pool.new c emulators) p →
      (p.worker w).run.phase = .finished .limitReached →
      ¬ ((p.worker w).run.limitTime = true ∧ (p.worker w).run.remainingTimeUs = 0) →
      (p.worker w).maxInstr.toNat ≤ (p.worker w).counted := by
  refine ⟨fun p p' elapsedUs run step limited => ?_, fun p run ended inTime => ?_⟩
  · have accounted := Pool.accounted_of_run run w
    cases step with
    | run own step =>
      simp only [Pool.record, if_pos]
      exact accounted.sliceLaw_iff limited step
  · have invariant := run.invariant
      (P := fun p => (p.worker w).Accounted p.counters.instructionsExecuted ∧
        (p.worker w).Budgeted)
      ⟨.of_isSlice_eq rfl (le_refl 0), (fun limited => by cases limited), fun done => by cases done⟩
      fun _ _ _ holds alone step =>
        ⟨step.accounted holds.1, step.budgeted alone holds.1 holds.2⟩
    exact invariant.2.maxInstr_le ended inTime

end Pools

end Generic

/-! ### Two workers -/

namespace Example

def idlePool : Pool Bool Machine := .new noCounts fun _ => fresh

/-- Both workers have run the conditional jump of the example, with a budget of two
instructions each. -/
def bothJump : List (Bool × PoolEvent Machine) :=
  [(true, .start ⟨0x140000012, 0, 2, 0, true⟩), (false, .start ⟨0x140000012, 0, 2, 0, true⟩),
    (true, .run (.enter false)), (false, .run (.enter false)),
    (true, .run (.code 0x140000012 2 false)), (false, .run (.code 0x140000012 2 false))]

end Example

theorem budgetLaw_iff_of_run_jump :
    (∃ p p', (p.worker true).own = 1 ∧ PoolStep (true, .run (.leave 0)) p p' ∧
      (SliceLaw (p.worker true) ((p' : Pool Bool Machine).worker true) ↔
        SliceAlone (p.worker true))) ∧
    ∃ p : Pool Bool Machine, (p.worker true).run.phase = .finished .limitReached ∧
      (p.worker true).maxInstr = 1 ∧ 1 ≤ (p.worker true).counted := by
  constructor
  · obtain ⟨p, p', performed, left, own, limited⟩ : ∃ p p',
        Transition.performAll (fun _ _ => True) PoolEvent.perform Example.idlePool
          Example.bothJump = some p ∧
        PoolEvent.perform (true, .run (.leave 0)) p = some p' ∧ (p.worker true).own = 1 ∧
        (p.worker true).run.limitInstr = true := ⟨_, _, rfl, rfl, rfl, rfl⟩
    have run := Transition.run_of_performAll (fun _ _ _ => PoolEvent.step_of_perform) performed
    have step := PoolEvent.step_of_perform left
    exact ⟨p, p', own, step, (budgetLaw_iff_of_run true).1 p p' 0 run step limited⟩
  · obtain ⟨p, performed, phase, budget, untimed⟩ : ∃ p,
        Transition.performAll (LeavesAlone true) PoolEvent.perform Example.idlePool
          [(true, .start ⟨0x140000012, 0, 1, 0, true⟩), (true, .run (.enter false)),
            (true, .run (.code 0x140000012 2 false)), (true, .run (.leave 0)),
            (true, .run (.enter false))] = some p ∧
        (p.worker true).run.phase = .finished .limitReached ∧ (p.worker true).maxInstr = 1 ∧
        (p.worker true).run.limitTime = false := ⟨_, rfl, rfl, rfl, rfl⟩
    have run := Transition.run_of_performAll (fun _ _ _ => PoolEvent.step_of_perform) performed
    have counted := (budgetLaw_iff_of_run true).2 p run phase (by simp [untimed])
    rw [budget] at counted
    exact ⟨p, phase, budget, counted⟩

/-- What the other worker has executed is charged to the first, whose run is ended by its
limit of two instructions after it has counted one. -/
theorem two_workers_break_budgetLaw : ∃ p p' p'' : Pool Bool Machine,
    Transition.Run PoolStep (fun _ _ => True) Example.idlePool p ∧
      PoolStep (true, .run (.leave 0)) p p' ∧ ¬ SliceLaw (p.worker true) (p'.worker true) ∧
      PoolStep (true, .run (.enter false)) p' p'' ∧
      (p''.worker true).run.phase = .finished .limitReached ∧
      (p''.worker true).run.limitTime = false ∧ (p''.worker true).maxInstr = 2 ∧
      (p''.worker true).counted = 1 := by
  obtain ⟨p, p', p'', performed, left, entered, own, budget, charged, phase, untimed, limit,
      counted⟩ : ∃ p p' p'',
      Transition.performAll (fun _ _ => True) PoolEvent.perform Example.idlePool
        Example.bothJump = some p ∧
      PoolEvent.perform (true, .run (.leave 0)) p = some p' ∧
      PoolEvent.perform (true, .run (.enter false)) p' = some p'' ∧
      (p.worker true).own = 1 ∧ (p.worker true).run.instructionsLeft = 2 ∧
      (p'.worker true).run.instructionsLeft = 0 ∧
      (p''.worker true).run.phase = .finished .limitReached ∧
      (p''.worker true).run.limitTime = false ∧ (p''.worker true).maxInstr = 2 ∧
      (p''.worker true).counted = 1 :=
    ⟨_, _, _, rfl, rfl, rfl, rfl, rfl, by decide +kernel, rfl, rfl, rfl, rfl⟩
  refine ⟨p, p', p'', ?_, PoolEvent.step_of_perform left, fun law => ?_,
    PoolEvent.step_of_perform entered, phase, untimed, limit, counted⟩
  · exact Transition.run_of_performAll (fun _ _ _ => PoolEvent.step_of_perform) performed
  · rw [SliceLaw, own, budget, charged] at law
    exact absurd law (by decide)

end Unxorer
