import Unxorer.Emulator.Exploration

/-!
# How slices are resumed

A slice after the first continues at a branch that was left behind: the registers are those
the branching instruction was about to be executed with, RIP is the other target of the
branch, and the memory is what the slice before it has left. Branches are resumed depth
first: the one that was offered last among those waiting.

## Main definitions

* `Emulator.SavesEdge` — a branch saved for an edge that came up for the first time
* `BranchState.SavedIn` — the branch was saved in the past of a run
* `Resumes` — what a slice that is entered continues

## Main results

* `Emulator.saves_of_hookCode` — the branches the hook saves
* `resumes_of_trace` — every slice but the first continues a branch of the run
-/

set_option autoImplicit false

namespace Unxorer

open Unicorn InstructionClassifier Transition

variable {U : Type} [Unicorn U]

namespace Emulator

/-- A branch saved when an edge is offered for the first time: its context holds the registers
of that moment. -/
structure SavesEdge (e : Emulator U) (source target : Addr) (state : BranchState (Context U)) :
    Prop where
  key : state.key = ⟨source, target⟩
  pc : state.pc = target
  registers : contextReg state.ctx = reg e.engine
  vectors : contextYmm state.ctx = ymm e.engine
  fresh : ⟨source, target⟩ ∉ e.branches.visited
  inside : e.insideImage target = true

/-- A branch the hook saves for an instruction. -/
def Saves (e : Emulator U) (address : Addr) (size : BitVec 32) (insn : Insn)
    (state : BranchState (Context U)) : Prop :=
  ∃ target, e.LeadsTo address size insn target ∧ e.SavesEdge address target state

section Hook

variable {e e' : Emulator U} {c c' : Counters} {address : Addr} {size : BitVec 32} {insn : Insn}

theorem saves_of_scheduled {source target : Addr} {b : BranchManager (Context U)}
    {state : BranchState (Context U)} (scheduled : e.Scheduled source target b)
    (pending : state ∈ b.pending) :
    state ∈ e.branches.pending ∨ e.SavesEdge source target state := by
  cases scheduled with
  | visited | outside | unsaved => exact .inl pending
  | saved fresh inside ctx log logged save =>
    obtain ⟨registers, vectors⟩ := contextSave_registers _ _ save
    rcases List.mem_cons.mp pending with rfl | old
    · exact .inr ⟨rfl, rfl, registers, vectors, fresh, inside⟩
    · exact .inl old

/-- Behind a hook call the branches waiting are those that waited before and those it has
saved. -/
theorem saves_of_hookCode [Host] {stop : Bool}
    (hook : e.hookCode c address size stop = .ok (e', c')) {state : BranchState (Context U)}
    (pending : state ∈ e'.branches.pending) : state ∈ e.branches.pending ∨ stop = false ∧
      ∃ insn, e.tryGetInsn address = some insn ∧ e.Saves address size insn state := by
  have after := branches_of_hookCode hook
  generalize e'.branches = b at after pending
  cases after with
  | kept => exact .inl pending
  | @offered insn target _ running decoded leads scheduled =>
    exact (saves_of_scheduled scheduled pending).imp_right fun saved =>
      ⟨running, insn, decoded, target, leads, saved⟩

/-! ### The order of the branches -/

theorem stacked_of_scheduled {source target : Addr} {b : BranchManager (Context U)}
    (scheduled : e.Scheduled source target b) (stacked : e.branches.worklist.Stacked) :
    b.worklist.Stacked := by
  have offer : (e.branches.worklist.offer e.image.Inside ⟨source, target⟩).Stacked :=
    stacked.offer _
  rw [Worklist.offer] at offer
  cases scheduled with
  | visited seen =>
    have known : ⟨source, target⟩ ∈ e.branches.worklist.visited := seen
    rwa [if_pos known] at offer
  | outside => exact stacked.drop ⟨source, target⟩
  | unsaved => exact stacked.drop ⟨source, target⟩
  | saved fresh inside ctx log logged save =>
    subst logged
    have unknown : ⟨source, target⟩ ∉ e.branches.worklist.visited := fresh
    have admissible : e.image.Inside ⟨source, target⟩ := inside
    rwa [if_neg unknown, if_pos admissible] at offer

theorem stacked_of_hookCode [Host] {stop : Bool}
    (hook : e.hookCode c address size stop = .ok (e', c'))
    (stacked : e.branches.worklist.Stacked) : e'.branches.worklist.Stacked := by
  have after := branches_of_hookCode hook
  generalize e'.branches = b at after ⊢
  cases after with
  | kept => exact stacked
  | offered _ _ _ scheduled => exact stacked_of_scheduled scheduled stacked

end Hook

end Emulator

/-! ### Runs -/

/-- The branch was saved in the past of a run, by the hook of an instruction. -/
def BranchState.SavedIn (past : Past U) (state : BranchState (Context U)) : Prop :=
  ∃ t address size insn, (t, RunEvent.code address size false) ∈ past ∧
    t.2.emulator.tryGetInsn address = some insn ∧ t.2.emulator.Saves address size insn state

/-- What a slice continues that begins with the edge `key`: the registers are those with which
the instruction at the source of the edge was about to be executed when the edge was new, the
memory is what the slice before has left, and the edge is the one pushed last among those that
slice has left unresumed. -/
structure Resumes (past : Past U) (key : BranchKey) (r : RunState U) : Prop where
  branch : ∃ t size insn, (t, RunEvent.code key.rip size false) ∈ past ∧
    t.2.emulator.tryGetInsn key.rip = some insn ∧
    t.2.emulator.LeadsTo key.rip size insn key.target ∧
    key ∉ t.2.emulator.branches.visited ∧ t.2.emulator.insideImage key.target = true ∧
    (∀ x ≠ Reg.rip, reg r.emulator.engine x = reg t.2.emulator.engine x) ∧
    ymm r.emulator.engine = ymm t.2.emulator.engine
  before : ∃ t elapsedUs, (t, RunEvent.leave elapsedUs) ∈ past ∧
    r.emulator.branches.log.resumed = key :: t.2.emulator.branches.log.resumed ∧
    t.2.emulator.branches.log.pushed.find? (· ∉ t.2.emulator.branches.log.resumed) = some key ∧
    byte r.emulator.engine = byte t.2.emulator.engine ∧
    mapped r.emulator.engine = mapped t.2.emulator.engine
  entry : r.entry = key.target

/-- The invariant behind it. -/
structure Resuming (past : Past U) (r : RunState U) : Prop where
  saved : ∀ state ∈ r.emulator.branches.pending, state.SavedIn past
  stacked : r.emulator.branches.worklist.Stacked
  head : r.phase = .head → r.slices ≠ 0 → ∃ key, Resumes past key r

section Past

variable {past : Past U} {step : (Counters × RunState U) × RunEvent U}

theorem BranchState.SavedIn.cons {state : BranchState (Context U)} (saved : state.SavedIn past) :
    state.SavedIn (step :: past) := by
  obtain ⟨t, address, size, insn, mem, rest⟩ := saved
  exact ⟨t, address, size, insn, List.mem_cons_of_mem _ mem, rest⟩

theorem Resumes.cons {key : BranchKey} {r : RunState U} (resumes : Resumes past key r) :
    Resumes (step :: past) key r := by
  obtain ⟨t, size, insn, mem, rest⟩ := resumes.branch
  obtain ⟨t', elapsedUs, mem', rest'⟩ := resumes.before
  exact ⟨⟨t, size, insn, List.mem_cons_of_mem _ mem, rest⟩,
    ⟨t', elapsedUs, List.mem_cons_of_mem _ mem', rest'⟩, resumes.entry⟩

/-- Where RIP is set and nothing else, the slice continues the same branch. -/
theorem Resumes.enterSlice {key : BranchKey} {r : RunState U} (resumes : Resumes past key r)
    {c : Counters} {stop : Bool} {before : BitVec 64}
    (entered : (r.enterSlice c stop).phase = .slice before) :
    Resumes past key (r.enterSlice c stop) ∧
      reg (r.enterSlice c stop).emulator.engine .rip = key.target := by
  rw [RunState.enterSlice_cases entered]
  obtain ⟨t, size, insn, mem, decoded, leads, fresh, inside, registers, vectors⟩ := resumes.branch
  obtain ⟨t', elapsedUs, mem', resumed, newest, bytes, mappings⟩ := resumes.before
  refine ⟨⟨⟨t, size, insn, mem, decoded, leads, fresh, inside, fun x other => ?_, ?_⟩,
    ⟨t', elapsedUs, mem', resumed, newest, ?_, ?_⟩, resumes.entry⟩, ?_⟩
  · change reg (regWrite r.emulator.engine .rip r.entry) x = _
    rw [reg_regWrite, if_neg other, registers x other]
  · exact (ymm_regWrite _ _ _).trans vectors
  · exact (byte_regWrite _ _ _).trans bytes
  · exact (mapped_regWrite _ _ _).trans mappings
  · change reg (regWrite r.emulator.engine .rip r.entry) .rip = _
    rw [reg_regWrite, if_pos rfl, resumes.entry]

end Past

namespace Resuming

variable {past : Past U} {s : Counters × RunState U}

/-- Where the branches are kept within a slice, or only offered to. -/
theorem inSlice {event : RunEvent U} {e : Emulator U} {before : BitVec 64} {faulted : Bool}
    (resuming : Resuming past s.2) (here : s.2.phase = .slice before)
    (saved : ∀ state ∈ e.branches.pending, state ∈ s.2.emulator.branches.pending ∨
      state.SavedIn ((s, event) :: past))
    (stacked : e.branches.worklist.Stacked) :
    Resuming ((s, event) :: past) { s.2 with emulator := e, faulted } where
  saved state pending := (saved state pending).elim (fun old => (resuming.saved state old).cons) id
  stacked := stacked
  head head := by
    change s.2.phase = _ at head
    rw [here] at head
    cases head

/-- A run that goes on behind a slice resumes the branch saved last. -/
theorem resumes_of_leaveSlice [Host] {r r' : RunState U} {c : Counters}
    {before elapsedUs : BitVec 64} (resuming : Resuming past r)
    (left : r.leaveSlice c before elapsedUs = .ok r') (head : r'.phase = .head) :
    ∃ key, Resumes (((c, r), .leave elapsedUs) :: past) key r' := by
  obtain ⟨e₁, scanned, continues⟩ := RunState.leaveSlice_cases left
  obtain ⟨found, rfl⟩ := scanned.exists_stringList
  cases continues with
  | nothingPending => cases head
  | restoreFailed => cases head
  | @resumed state branches u taken restored =>
    obtain ⟨take, pending, resumed, -⟩ := BranchManager.take_of_takeNext taken
    obtain ⟨t, address, size, insn, mem, decoded, target, leads, saves⟩ :=
      resuming.saved state (pending ▸ List.mem_cons_self)
    refine ⟨state.key, ?_, ?_, ?_⟩
    -- The registers come from the context, the memory from the slice that ends.
    · obtain ⟨registers, vectors⟩ := contextRestore_registers _ _ _ restored
      rw [saves.key]
      refine ⟨t, size, insn, List.mem_cons_of_mem _ mem, decoded, leads, saves.fresh, saves.inside,
        fun x _ => congrFun (registers.trans saves.registers) x, vectors.trans saves.vectors⟩
    · obtain ⟨bytes, mappings⟩ := contextRestore_memory _ _ _ restored
      exact ⟨(c, r), elapsedUs, List.mem_cons_self, resumed, resuming.stacked.find?_pushed take,
        bytes, mappings⟩
    · rw [saves.key]
      exact saves.pc

theorem leave [Host] {r r' : RunState U} {c : Counters} {before elapsedUs : BitVec 64}
    (resuming : Resuming past r) (left : r.leaveSlice c before elapsedUs = .ok r') :
    Resuming (((c, r), .leave elapsedUs) :: past) r' := by
  have resumes := resuming.resumes_of_leaveSlice left
  obtain ⟨e₁, scanned, continues⟩ := RunState.leaveSlice_cases left
  obtain ⟨found, rfl⟩ := scanned.exists_stringList
  -- What is taken from the branches leaves the others as they are.
  cases continues with
  | nothingPending empty =>
    exact ⟨fun state pending => (resuming.saved state pending).cons, resuming.stacked,
      fun head _ => resumes head⟩
  | restoreFailed taken failed =>
    obtain ⟨take, pending, -⟩ := BranchManager.take_of_takeNext taken
    exact ⟨fun state waits => (resuming.saved state (pending ▸ List.mem_cons_of_mem _ waits)).cons,
      resuming.stacked.take take, fun head _ => resumes head⟩
  | resumed taken restored =>
    obtain ⟨take, pending, -⟩ := BranchManager.take_of_takeNext taken
    exact ⟨fun state waits => (resuming.saved state (pending ▸ List.mem_cons_of_mem _ waits)).cons,
      resuming.stacked.take take, fun head _ => resumes head⟩

end Resuming

section Run

variable [Host]

/-- Every step of a run keeps the invariant. -/
theorem RunStep.resuming {past : Past U} {event : RunEvent U} {s s' : Counters × RunState U}
    (step : RunStep event s s') (resuming : Resuming past s.2) :
    Resuming ((s, event) :: past) s'.2 := by
  have kept {state : BranchState (Context U)} (pending : state ∈ s.2.emulator.branches.pending) :
      state.SavedIn ((s, event) :: past) := (resuming.saved state pending).cons
  cases step with
  | @enter c r stop here =>
    have branches : (r.enterSlice c stop).emulator.branches = r.emulator.branches := by
      rw [RunState.enterSlice]
      split_ifs <;> rfl
    refine ⟨fun state pending => kept (branches ▸ pending), branches ▸ resuming.stacked, ?_⟩
    intro head
    rw [RunState.enterSlice] at head
    split_ifs at head
  | @code c c' r before e address size stop here hook =>
    refine resuming.inSlice here (fun state pending => ?_)
      (Emulator.stacked_of_hookCode hook resuming.stacked)
    rcases Emulator.saves_of_hookCode hook pending with old | ⟨rfl, insn, decoded, saved⟩
    · exact .inl old
    · exact .inr ⟨_, address, size, insn, List.mem_cons_self, decoded, saved⟩
  | store address bytes here nonempty small stored =>
    have same := (Emulator.guestStore_kept stored).2
    exact resuming.inSlice here (fun state pending => .inl (same ▸ pending))
      (same ▸ resuming.stacked)
  | load address size here nonempty small loaded =>
    have same := (Emulator.guestLoad_cases loaded).branches_eq
    exact resuming.inSlice here (fun state pending => .inl (same ▸ pending))
      (same ▸ resuming.stacked)
  | execute u here memory mappings =>
    exact resuming.inSlice here (fun state pending => .inl pending) resuming.stacked
  | leave elapsedUs here left => exact resuming.leave left
  | interfere =>
    refine ⟨fun state pending => kept pending, resuming.stacked, fun head later => ?_⟩
    obtain ⟨key, resumes⟩ := resuming.head head later
    exact ⟨key, resumes.cons⟩

theorem Resuming.initial {e : Emulator U} {args : RunArgs} {r₀ : RunState U}
    (started : e.startRun args = .ok r₀) : Resuming [] r₀ := by
  obtain ⟨e', reset, rfl⟩ := Emulator.startRun_cases started
  obtain ⟨u, heap, -, rfl⟩ := Emulator.resetForRun_cases reset
  exact ⟨fun _ pending => absurd pending List.not_mem_nil, .empty, fun _ later => absurd rfl later⟩

/-- Whenever a run enters a slice after its first, the slice continues a branch: with the
registers of the hook call that left the branch behind, RIP at its target, the memory of the
slice before, and no branch saved later still waiting. -/
theorem resumes_of_trace {e : Emulator U} {args : RunArgs} {c : Counters}
    {r₀ : RunState U} {past : Past U} {s s' : Counters × RunState U} {stop : Bool}
    {before : BitVec 64} (started : e.startRun args = .ok r₀)
    (trace : Trace RunStep (c, r₀) past s) (step : RunStep (.enter stop) s s')
    (entered : s'.2.phase = .slice before) (later : s.2.slices ≠ 0) :
    ∃ key, Resumes past key s'.2 ∧ reg s'.2.emulator.engine .rip = key.target := by
  have resuming := trace.invariant (P := fun past s => Resuming past s.2) (.initial started)
    fun past s event s' holds step => step.resuming holds
  cases step with
  | enter stop here =>
    obtain ⟨key, resumes⟩ := resuming.head here later
    exact ⟨key, resumes.enterSlice entered⟩

end Run

/-- The slice for the other side of the conditional jump of the example. -/
theorem resumes_of_trace_jump : ∃ past r key, Trace RunStep
    (Example.noCounts, Example.started 0x140000012) past r ∧
      Resumes past key (r.2.enterSlice r.1 false) ∧
      reg (r.2.enterSlice r.1 false).emulator.engine .rip = key.target := by
  obtain ⟨⟨past, s⟩, performed, head, slices, entered⟩ : ∃ p,
      Trace.performTrace RunEvent.perform [] (Example.noCounts, Example.started 0x140000012)
        [.enter false, .code 0x140000012 2 false, .leave 0] = some p ∧ p.2.2.phase = .head ∧
      p.2.2.slices = 1 ∧ (p.2.2.enterSlice p.2.1 false).phase = .slice p.2.1.instructionsExecuted :=
    ⟨_, rfl, rfl, rfl, rfl⟩
  have trace := RunEvent.trace_of_performTrace performed
  obtain ⟨key, resumes⟩ := resumes_of_trace (Example.startRun_eq_started 0x140000012) trace
    (.enter false head) entered (slices ▸ one_ne_zero)
  exact ⟨past, s, key, trace, resumes⟩

end Unxorer
