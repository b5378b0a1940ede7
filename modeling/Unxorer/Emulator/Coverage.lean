import Unxorer.Emulator.Counting
import Unxorer.Emulator.Resumption

/-!
# Both sides of every branch

A run that nobody stops and that has no limits leaves no branch out: for every instruction the
hook has looked at, each target inside the image that the hook offers for it has got a slice,
which began there with the registers of the first time the edge came up.

## Main definitions

* `Entered` — the run has entered a slice for an edge
* `Covering` — the invariant of the exploration

## Main results

* `Emulator.offered_of_hookCode` — the hook offers every target of an instruction
* `entered_of_trace` — at the end every offered edge inside the image has got its slice
-/

set_option autoImplicit false

namespace Unxorer

open Unicorn InstructionClassifier Transition

variable {U : Type} [Unicorn U]

namespace Emulator

variable {e e' : Emulator U} {c c' : Counters} {address target : Addr} {size : BitVec 32}
  {insn : Insn} {key : BranchKey}

theorem offered_of_scheduled {source target : Addr} {b : BranchManager (Context U)}
    (scheduled : e.Scheduled source target b) :
    b.log.offered = ⟨source, target⟩ :: e.branches.log.offered := by
  cases scheduled with
  | visited | outside | unsaved => rfl
  | saved fresh inside ctx log logged save =>
    subst logged
    rfl

variable [Host]

theorem offered_of_hookCode_of_offered {stop : Bool}
    (hook : e.hookCode c address size stop = .ok (e', c'))
    (offered : key ∈ e.branches.log.offered) : key ∈ e'.branches.log.offered := by
  have after := branches_of_hookCode hook
  generalize e'.branches = b at after ⊢
  cases after with
  | kept => exact offered
  | offered _ _ _ scheduled =>
    rw [offered_of_scheduled scheduled]
    exact List.mem_cons_of_mem _ offered

/-- The hook offers every target of an instruction, unless the instruction is a call that
leaves the image. -/
theorem offered_of_hookCode (hook : e.hookCode c address size false = .ok (e', c'))
    (decoded : e.tryGetInsn address = some insn) (stays : e.leaves insn = false)
    (leads : e.LeadsTo address size insn target) :
    ⟨address, target⟩ ∈ e'.branches.log.offered := by
  have after := branches_of_hookCode hook
  generalize e'.branches = b at after ⊢
  cases after with
  | kept nowhere => exact absurd leads (nowhere rfl insn target decoded stays)
  | offered _ decoded' leads' scheduled =>
    cases decoded.symm.trans decoded'
    rw [leads.unique leads', offered_of_scheduled scheduled]
    exact List.mem_cons_self

end Emulator

/-! ### Slices for edges -/

/-- The run has entered a slice that continues the edge. -/
def Entered (past : Past U) (key : BranchKey) : Prop :=
  ∃ later earlier t stop, past = later ++ (t, RunEvent.enter stop) :: earlier ∧
    Resumes earlier key (t.2.enterSlice t.1 stop) ∧
    reg (t.2.enterSlice t.1 stop).emulator.engine .rip = key.target

/-- No step of the past was told to stop. -/
def Unstopped (past : Past U) : Prop := ∀ p ∈ past, p.2.stopRequested = false

/-- The invariant of the exploration: every resumed edge has got its slice or is about to get
it, and every target of an instruction the hook has looked at has been offered. -/
structure Covering (past : Past U) (r : RunState U) : Prop where
  unlimited : r.limitTime = false ∧ r.limitInstr = false
  resumed : r.phase ≠ .finished .restoreFailed →
    ∀ key ∈ r.emulator.branches.log.resumed, Entered past key ∨
      r.phase = .head ∧ Resumes past key r
  offered : ∀ t address size insn target, (t, RunEvent.code address size false) ∈ past →
    t.2.emulator.tryGetInsn address = some insn → t.2.emulator.leaves insn = false →
    t.2.emulator.LeadsTo address size insn target →
    ⟨address, target⟩ ∈ r.emulator.branches.log.offered

section Past

variable {past : Past U} {step : (Counters × RunState U) × RunEvent U}

theorem Entered.cons {key : BranchKey} (entered : Entered past key) :
    Entered (step :: past) key := by
  obtain ⟨later, earlier, t, stop, split, rest⟩ := entered
  exact ⟨step :: later, earlier, t, stop, congrArg (step :: ·) split, rest⟩

theorem Unstopped.of_cons (unstopped : Unstopped (step :: past)) :
    step.2.stopRequested = false ∧ Unstopped past :=
  ⟨unstopped step List.mem_cons_self, fun p mem => unstopped p (List.mem_cons_of_mem _ mem)⟩

end Past

theorem BranchManager.offered_of_takeNext {b b' : BranchManager (Context U)}
    {state : BranchState (Context U)} (taken : b.takeNext = some (state, b')) :
    b'.log.offered = b.log.offered := by
  rw [takeNext] at taken
  split at taken <;> cases taken
  rfl

namespace Covering

variable {past : Past U} {s : Counters × RunState U} {event : RunEvent U}

/-- Where no branch is resumed and what was offered remains so. -/
theorem inSlice {e : Emulator U} {before : BitVec 64} {faulted : Bool}
    (covering : Covering past s.2)
    (here : s.2.phase = .slice before)
    (resumed : e.branches.log.resumed = s.2.emulator.branches.log.resumed)
    (offered : ∀ key ∈ s.2.emulator.branches.log.offered, key ∈ e.branches.log.offered)
    (fresh : ∀ address size insn target, event = .code address size false →
      s.2.emulator.tryGetInsn address = some insn → s.2.emulator.leaves insn = false →
      s.2.emulator.LeadsTo address size insn target → ⟨address, target⟩ ∈ e.branches.log.offered) :
    Covering ((s, event) :: past) { s.2 with emulator := e, faulted } where
  unlimited := covering.unlimited
  resumed _ key taken := by
    rw [resumed] at taken
    have running : s.2.phase ≠ .finished .restoreFailed := by
      rw [here]
      exact Phase.noConfusion
    refine .inl ((covering.resumed running key taken).elim Entered.cons fun waits => ?_)
    cases here.symm.trans waits.1
  offered t address size insn target mem decoded stays leads := by
    rcases List.mem_cons.mp mem with same | old
    · cases same
      exact fresh address size insn target rfl decoded stays leads
    · exact offered _ (covering.offered t address size insn target old decoded stays leads)

/-- A run without limits enters a slice at the head of its loop. -/
theorem enter {r : RunState U} {c : Counters} (covering : Covering past r)
    (here : r.phase = .head) :
    Covering (((c, r), .enter false) :: past) (r.enterSlice c false) := by
  obtain ⟨time, instr⟩ := covering.unlimited
  have enters : (r.enterSlice c false).phase = .slice c.instructionsExecuted := by
    simp [RunState.enterSlice, time, instr]
  have running : r.phase ≠ .finished .restoreFailed := by
    rw [here]
    exact Phase.noConfusion
  have state := RunState.enterSlice_cases enters
  refine ⟨by rw [state]; exact covering.unlimited, fun _ key taken => .inl ?_, ?_⟩
  · rw [state] at taken
    rcases covering.resumed running key taken with old | ⟨-, resumes⟩
    · exact old.cons
    · exact ⟨[], past, (c, r), false, rfl, resumes.enterSlice enters⟩
  · intro t address size insn target mem decoded stays leads
    rw [state]
    rcases List.mem_cons.mp mem with same | old
    · cases same
    · exact covering.offered t address size insn target old decoded stays leads

/-- At the end of a slice the branch taken is about to get its slice. -/
theorem leave [Host] {r r' : RunState U} {c : Counters} {before elapsedUs : BitVec 64}
    (covering : Covering past r) (resuming : Resuming past r) (here : r.phase = .slice before)
    (left : r.leaveSlice c before elapsedUs = .ok r') :
    Covering (((c, r), .leave elapsedUs) :: past) r' := by
  have resumes := resuming.resumes_of_leaveSlice left
  obtain ⟨e₁, scanned, continues⟩ := RunState.leaveSlice_cases left
  obtain ⟨found, rfl⟩ := scanned.exists_stringList
  have running : r.phase ≠ .finished .restoreFailed := by
    rw [here]
    exact Phase.noConfusion
  have old {key : BranchKey} (taken : key ∈ r.emulator.branches.log.resumed) :
      Entered (((c, r), .leave elapsedUs) :: past) key := by
    refine (covering.resumed running key taken).elim Entered.cons fun waits => ?_
    cases here.symm.trans waits.1
  have offered : ∀ t address size insn target, (t, RunEvent.code address size false) ∈
      ((c, r), RunEvent.leave elapsedUs) :: past →
      t.2.emulator.tryGetInsn address = some insn → t.2.emulator.leaves insn = false →
      t.2.emulator.LeadsTo address size insn target →
      ⟨address, target⟩ ∈ r.emulator.branches.log.offered := by
    intro t address size insn target mem
    rcases List.mem_cons.mp mem with same | earlier
    · cases same
    · exact covering.offered t address size insn target earlier
  cases continues with
  | nothingPending => exact ⟨covering.unlimited, fun _ key taken => .inl (old taken), offered⟩
  | restoreFailed taken =>
    exact ⟨covering.unlimited, fun restored => absurd rfl restored,
      BranchManager.offered_of_takeNext taken ▸ offered⟩
  | @resumed state branches u taken restored =>
    obtain ⟨key, resumes⟩ := resumes rfl
    obtain ⟨-, -, log, -⟩ := BranchManager.take_of_takeNext taken
    refine ⟨covering.unlimited, fun _ other mem => ?_,
      BranchManager.offered_of_takeNext taken ▸ offered⟩
    -- The slice continues the edge at the head of the log.
    obtain ⟨t, elapsedUs', -, head, -⟩ := resumes.before
    have first : state.key = key := (List.cons.inj (log.symm.trans head)).1
    rcases List.mem_cons.mp (log ▸ mem) with rfl | earlier
    · exact .inr ⟨rfl, first ▸ resumes⟩
    · exact .inl (old earlier)

end Covering

section Run

variable [Host] {past : Past U} {event : RunEvent U} {s s' : Counters × RunState U}

/-- Every step of a run that is not told to stop keeps the invariant. -/
theorem RunStep.covering (step : RunStep event s s') (unstopped : event.stopRequested = false)
    (resuming : Resuming past s.2) (covering : Covering past s.2) :
    Covering ((s, event) :: past) s'.2 := by
  cases step with
  | enter stop here =>
    cases unstopped
    exact covering.enter here
  | code address size stop here hook =>
    cases unstopped
    refine covering.inSlice here (BranchManager.Offers.hookCode hook).resumed
      (fun key => Emulator.offered_of_hookCode_of_offered hook) ?_
    intro _ _ insn target same decoded stays leads
    cases same
    exact Emulator.offered_of_hookCode hook decoded stays leads
  | store address bytes here nonempty small stored =>
    have same := (Emulator.guestStore_kept stored).2
    exact covering.inSlice here (same ▸ rfl) (fun key => same ▸ id)
      fun _ _ _ _ other => by cases other
  | load address size here nonempty small loaded =>
    have same := (Emulator.guestLoad_cases loaded).branches_eq
    exact covering.inSlice here (same ▸ rfl) (fun key => same ▸ id)
      fun _ _ _ _ other => by cases other
  | execute u here memory mappings =>
    exact covering.inSlice here rfl (fun _ => id) fun _ _ _ _ other => by cases other
  | leave elapsedUs here left => exact covering.leave resuming here left
  | interfere =>
    refine ⟨covering.unlimited, fun running key taken => ?_, ?_⟩
    · rcases covering.resumed running key taken with entered | ⟨head, resumes⟩
      · exact .inl entered.cons
      · exact .inr ⟨head, resumes.cons⟩
    · intro t address size insn target mem
      rcases List.mem_cons.mp mem with same | earlier
      · cases same
      · exact covering.offered t address size insn target earlier

/-- In a run without limits that nobody stops and whose contexts are saved and restored, every
instruction the hook has looked at has had all its targets explored when the run is over: each
one inside the image got a slice that began there, with the registers of the first time the
edge came up. -/
theorem entered_of_trace {e : Emulator U} {args : RunArgs} {c : Counters} {r₀ : RunState U}
    {reason : StopReason} {t : Counters × RunState U} {address target : Addr} {size : BitVec 32}
    {insn : Insn} (started : e.startRun args = .ok r₀)
    (unlimited : args.maxTimeMs = 0 ∧ args.maxInstr = 0) (trace : Trace RunStep (c, r₀) past s)
    (unstopped : Unstopped past) (succeeds : s.2.Succeeds)
    (finished : s.2.phase = .finished reason) (hooked : (t, .code address size false) ∈ past)
    (decoded : t.2.emulator.tryGetInsn address = some insn)
    (stays : t.2.emulator.leaves insn = false)
    (leads : t.2.emulator.LeadsTo address size insn target)
    (inside : e.insideImage target = true) : Entered past ⟨address, target⟩ := by
  have initial : Resuming [] r₀ ∧ Covering [] r₀ ∧
      r₀.Exploring e.image e.decoded args.start := by
    refine ⟨.initial started, ?_⟩
    obtain ⟨e', reset, rfl⟩ := Emulator.startRun_cases started
    obtain ⟨u, heap, -, rfl⟩ := Emulator.resetForRun_cases reset
    refine ⟨⟨by simp [unlimited], fun _ _ taken => absurd taken List.not_mem_nil,
      fun _ _ _ _ _ mem => absurd mem List.not_mem_nil⟩, ?_⟩
    exact ⟨⟨rfl, rfl⟩, by simp [unlimited], .empty, rfl, rfl, fun _ done => by cases done⟩
  have invariant := trace.invariant (P := fun past s => Unstopped past → Resuming past s.2 ∧
    Covering past s.2 ∧ (s.2.Succeeds → s.2.Exploring e.image e.decoded args.start))
    (fun _ => ⟨initial.1, initial.2.1, fun _ => initial.2.2⟩)
    fun past s event s' holds step unstopped => by
      obtain ⟨running, earlier⟩ := unstopped.of_cons
      obtain ⟨resuming, covering, exploring⟩ := holds earlier
      exact ⟨step.resuming resuming, step.covering running resuming covering,
        step.exploring running exploring⟩
  obtain ⟨-, covering, exploring⟩ := invariant unstopped
  have exploring := exploring succeeds
  -- Nothing is pending, so the edge has been resumed.
  have offered := covering.offered t address size insn target hooked decoded stays leads
  have empty : s.2.emulator.branches.worklist.pending = [] :=
    List.map_eq_nil_iff.mpr (exploring.finished reason finished)
  have resumed := exploring.branches.sound.mem_taken empty offered inside
  rcases covering.resumed succeeds.restored _ resumed with entered | ⟨head, -⟩
  · exact entered
  · cases finished.symm.trans head

end Run

/-- The other side of the conditional jump of the example has got its slice. -/
theorem entered_of_trace_jump : ∃ past s, Trace RunStep
    (Example.noCounts, Example.started 0x140000012) past s ∧
      Entered past ⟨0x140000012, 0x140000014⟩ := by
  obtain ⟨⟨past, s⟩, performed, unstopped, saved, finished, t, hooked, decoded, stays⟩ : ∃ p,
      Trace.performTrace RunEvent.perform [] (Example.noCounts, Example.started 0x140000012)
        [.enter false, .code 0x140000012 2 false, .leave 0, .enter false, .leave 0] = some p ∧
      Unstopped p.1 ∧ p.2.2.emulator.branches.log.failed = [] ∧
      p.2.2.phase = .finished .nothingPending ∧
      ∃ t, (t, .code 0x140000012 2 false) ∈ p.1 ∧
        t.2.emulator.tryGetInsn 0x140000012 = some Example.jumpInsn ∧
        t.2.emulator.leaves Example.jumpInsn = false := by
    refine ⟨_, rfl, ?_, rfl, rfl, _,
      List.mem_cons_of_mem _ (List.mem_cons_of_mem _ (List.mem_cons_of_mem _ List.mem_cons_self)),
      rfl, rfl⟩
    rw [Unstopped, ← List.forall_iff_forall_mem]
    exact ⟨rfl, rfl, rfl, rfl, rfl⟩
  have trace := RunEvent.trace_of_performTrace performed
  refine ⟨past, s, trace, entered_of_trace (Example.startRun_eq_started 0x140000012) ⟨rfl, rfl⟩
    trace unstopped ⟨saved, ?_⟩ finished hooked decoded stays (.fallthrough rfl) rfl⟩
  rw [finished]
  decide

end Unxorer
