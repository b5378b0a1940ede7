import Unxorer.Emulator.Run

/-!
# What the steps of a run change

Each part of a step is taken apart once here, so that invariants of runs need not look
into the hooks again.

## Main definitions

* `Emulator.Settings` — the fields no step of a run changes
* `Emulator.RanStub` — the outcome of the dispatch of a call
* `Emulator.ExploreStep` — what looking at the branches of an instruction consists of

## Main results

* `Emulator.handleCall_cases`, `Emulator.exploreBranches_steps`,
  `Emulator.guestStore_cases`, `Emulator.guestLoad_cases`, `Emulator.startRun_cases`,
  `RunState.leaveSlice_cases`
* `RunStep.settings_eq` — no step changes the settings
-/

set_option autoImplicit false

namespace Unxorer

open Unicorn ApiStubs InstructionClassifier WriteTracker

variable {U : Type} [Unicorn U]

namespace Emulator

/-! ### Calls -/

/-- The stub found for a name, if there is one. -/
def stubOf (name : Option String) : Option Stub := name.bind resolveStub

section Calls

variable [Host] {e e' : Emulator U} {c c' : Counters} {address : Addr} {size : BitVec 32}
  {insn : Insn} {stub : Option Stub}

/-- The dispatch depends on a name only through its stub, which it runs. -/
theorem dispatchImport_eq (u : U) (heap : FakeHeap) (name : Option String) :
    dispatchImport u heap name =
      match stubOf name with
      | some stub => (some stub, stub.run u heap)
      | none => (none, .ok (u, heap)) := by
  cases name with
  | none => rfl
  | some name => rfl

/-- What a call does to the engine and the heap: the stub it leads to has run, or RAX has
been set to 0 where it leads to none. -/
def RanStub (u : U) (heap : FakeHeap) : Option Stub → U → FakeHeap → Prop
  | some stub, u', heap' => stub.run u heap = .ok (u', heap')
  | none, u', heap' => u' = regWrite u .rax 0 ∧ heap' = heap

theorem dispatchImport_cases {u u' : U} {heap heap' : FakeHeap} {name : Option String}
    (dispatch : dispatchImport u heap name = (stub, .ok (u', heap'))) :
    RanStub u heap stub (if stub.isSome then u' else regWrite u' .rax 0) heap' := by
  rw [dispatchImport_eq] at dispatch
  split at dispatch
  · rw [Prod.mk.injEq] at dispatch
    obtain ⟨rfl, ran⟩ := dispatch
    exact ran
  · cases dispatch
    exact ⟨rfl, rfl⟩

theorem callExternal_fst (e : Emulator U) (c : Counters) (address : Addr) (size : BitVec 32)
    (name : Option String) : (e.callExternal c address size name).1 = stubOf name := by
  simp only [callExternal, dispatchImport_eq]
  cases stubOf name <;> rfl

theorem callExternal_cases {name : Option String}
    (call : e.callExternal c address size name = (stub, .ok (e', c'))) :
    ∃ u heap, RanStub (regWrite e.engine .rip (address + size.setWidth 64)) e.heap stub u heap ∧
      SameButStrings { e with engine := u, heap := heap } e' ∧
      c' = { c with externalCalls := c.externalCalls + 1 } := by
  simp only [callExternal, Prod.mk.injEq] at call
  obtain ⟨rfl, finish⟩ := call
  obtain ⟨⟨u, heap⟩, ran, finish⟩ := exists_of_bind_ok finish
  obtain ⟨e₁, scan, finish⟩ := exists_of_bind_ok finish
  cases finish
  exact ⟨_, heap, dispatchImport_cases (Prod.ext rfl ran), .ifTracking scan, rfl⟩

/-- A call that leaves the image has run its stub or set RAX to 0, with RIP behind the
call, and has scanned for strings after that. -/
theorem handleCall_cases
    (call : e.handleCall c address size insn = some (stub, .ok (e', c'))) :
    ∃ u heap, RanStub (regWrite e.engine .rip (address + size.setWidth 64)) e.heap stub u heap ∧
      SameButStrings { e with engine := u, heap := heap } e' ∧
      c'.instructionsExecuted = c.instructionsExecuted := by
  rw [handleCall] at call
  split_ifs at call
  split at call
  · cases call
  · split_ifs at call
    · obtain ⟨u, heap, ran, same, rfl⟩ := callExternal_cases (Option.some.inj call)
      exact ⟨u, heap, ran, same, rfl⟩
    · obtain ⟨u, heap, ran, same, rfl⟩ := callExternal_cases (Option.some.inj call)
      exact ⟨u, heap, ran, same, rfl⟩

end Calls

/-! ### Branches -/

/-- What looking at the branches of an instruction consists of: targets are scheduled,
and registers and loop counts are adjusted. -/
inductive ExploreStep (address : Addr) : Emulator U × Counters → Emulator U × Counters → Prop
  | schedule {e : Emulator U} {c : Counters} (target : Addr) :
      ExploreStep address (e, c) (e.scheduleBranch c address target).2
  | adjust {e : Emulator U} {c : Counters} (u : U) (counts : Addr → Option LoopState)
      (memory : byte u = byte e.engine) (mappings : mapped u = mapped e.engine) :
      ExploreStep address (e, c) ({ e with engine := u, loopIterations := counts }, c)

theorem byte_forceBranch (u : U) (insn : Insn) : byte (forceBranch u insn) = byte u := by
  rw [forceBranch]
  split <;> simp only [byte_regWrite]

theorem mapped_forceBranch (u : U) (insn : Insn) : mapped (forceBranch u insn) = mapped u := by
  rw [forceBranch]
  split <;> simp only [mapped_regWrite]

theorem discoverIndirectTargets_steps (e : Emulator U) (c : Counters) (address : Addr)
    (insn : Insn) : Relation.ReflTransGen (ExploreStep address) (e, c)
      (e.discoverIndirectTargets c address insn) := by
  rcases e.discoverIndirectTargets_cases c address insn with nothing | ⟨target, scheduled⟩
  · rw [nothing]
  · rw [scheduled]
    exact .single (.schedule target)

theorem followBranch_step (e : Emulator U) (c : Counters) (address taken fallthrough : Addr)
    (insn : Insn) :
    ExploreStep address (e, c) (e.followBranch address taken fallthrough insn, c) := by
  simp only [followBranch]
  split_ifs
  · exact .adjust e.engine _ rfl rfl
  · exact .adjust _ _ (byte_regWrite _ _ _) (mapped_regWrite _ _ _)
  · exact .adjust e.engine _ rfl rfl
  · exact .adjust _ _ (byte_regWrite _ _ _) (mapped_regWrite _ _ _)
  · exact .adjust e.engine _ rfl rfl
  · exact .adjust _ _ (byte_forceBranch _ _) (mapped_forceBranch _ _)

theorem exploreBranches_steps (e : Emulator U) (c : Counters) (address : Addr) (size : BitVec 32)
    (insn : Insn) : Relation.ReflTransGen (ExploreStep address) (e, c)
      (e.exploreBranches c address size insn) := by
  have first := e.discoverIndirectTargets_steps c address insn
  rw [exploreBranches]
  generalize e.discoverIndirectTargets c address insn = s at first
  obtain ⟨e₁, c₁⟩ := s
  dsimp only
  split_ifs
  · exact first
  · exact first.tail (.adjust _ e₁.loopIterations (byte_forceBranch _ _) (mapped_forceBranch _ _))
  · exact (first.tail (.schedule (address + size.setWidth 64))).tail (followBranch_step _ _ _ _ _ _)

/-- What every such step preserves holds after the branches were looked at. -/
theorem exploreBranches_invariant {P : Emulator U × Counters → Prop} {e e' : Emulator U}
    {c c' : Counters} {address : Addr} {size : BitVec 32} {insn : Insn}
    (explore : e.exploreBranches c address size insn = (e', c')) (initial : P (e, c))
    (preserved : ∀ s s', P s → ExploreStep address s s' → P s') : P (e', c') := by
  have steps := e.exploreBranches_steps c address size insn
  rw [explore] at steps
  generalize (e', c') = s at steps ⊢
  induction steps with
  | refl => exact initial
  | tail _ last ih => exact preserved _ _ ih last

/-- A conditional branch is neither skipped nor handled, and it is no call and no jump. -/
theorem plain_of_isBranch {itype : Itype} (branch : isBranch itype = true) :
    shouldSkip itype = false ∧ shouldHandle itype = false ∧ itype ∉ callTypes ∧
      itype ∉ indirectControlTypes := by
  rw [isBranch, List.elem_iff] at branch
  revert itype
  decide

theorem isConditional_of_isBranch {itype : Itype} (branch : isBranch itype = true) :
    isConditional itype = true := by
  rw [isConditional, branch, Bool.true_or]

/-- Before a conditional branch the hook scans for strings; then it offers the
fall-through edge and follows the branch. -/
theorem hookCode_branch [Host] {e e' : Emulator U} {c c' : Counters} {address : Addr}
    {size : BitVec 32} {insn : Insn} (decoded : e.tryGetInsn address = some insn)
    (branch : isBranch insn.itype = true)
    (hook : e.hookCode c address size false = .ok (e', c')) :
    ∃ e₁, SameButStrings e e₁ ∧
      e' = (e₁.scheduleBranch (countInsn c) address (address + size.setWidth 64)).2.1.followBranch
        address insn.op1.addr (address + size.setWidth 64) insn := by
  obtain ⟨skip, handle, call, control⟩ := plain_of_isBranch branch
  simp only [hookCode, decoded, skip, handle, Bool.false_eq_true, if_false] at hook
  obtain ⟨e₁, before, rest⟩ := exists_of_bind_ok hook
  refine ⟨e₁, .before before, ?_⟩
  have noCall : e₁.handleCall (countInsn c) address size insn = none := by
    rw [handleCall, if_pos call]
  have discovered : e₁.discoverIndirectTargets (countInsn c) address insn = (e₁, countInsn c) := by
    rw [discoverIndirectTargets, if_pos control]
  have explored : e₁.exploreBranches (countInsn c) address size insn = (e', c') := by
    rw [← countInsn, noCall] at rest
    exact (explore_cases rest).1
  rw [exploreBranches, discovered] at explored
  simp only [isConditional_of_isBranch branch, branch, Bool.not_true, Bool.false_eq_true, if_false]
    at explored
  exact (congrArg Prod.fst explored).symm

/-! ### Guest accesses -/

section Accesses

variable {e e' : Emulator U} {done : Bool} {address : Addr}

theorem hookMemWrite_cases {size : ℕ} (hook : e.hookMemWrite address size = .ok e') :
    ∃ dirtyPages, recordWrite e.dirtyPages address (if size > 0 then BitVec.ofNat 64 size else 1) =
      .ok dirtyPages ∧ e' = { e with dirtyPages } := by
  obtain ⟨dirtyPages, recorded, returned⟩ := exists_of_bind_ok hook
  cases returned
  exact ⟨dirtyPages, recorded, rfl⟩

/-- A store calls the write hook if there is one, may map memory, and either fails or
stores its bytes in mapped memory. -/
theorem guestStore_cases {bytes : List Byte}
    (stored : e.guestStore address bytes = .ok (done, e')) :
    ∃ e₀ e₁, (if e.enableWriteTracking then e.hookMemWrite address bytes.length else .ok e) =
        .ok e₀ ∧ MapsMemory e₀ e₁ ∧
      (done = false ∧ e' = e₁ ∨ done = true ∧ Mapped e₁.engine address bytes.length ∧
        e' = { e₁ with engine := store e₁.engine address bytes }) := by
  obtain ⟨e₀, hooked, rest⟩ := exists_of_bind_ok stored
  by_cases present : Mapped e₀.engine address bytes.length
  · rw [if_pos present] at rest
    cases rest
    exact ⟨e₀, e₀, hooked, .refl e₀, .inr ⟨rfl, present, rfl⟩⟩
  rw [if_neg present] at rest
  -- The fault may have mapped the pages the store needs.
  obtain ⟨⟨retry, e₁⟩, faulted, rest⟩ := exists_of_bind_ok rest
  refine ⟨e₀, e₁, hooked, .region faulted, ?_⟩
  by_cases mapped : retry = true ∧ Mapped e₁.engine address bytes.length
  · simp only [if_pos mapped] at rest
    cases rest
    exact .inr ⟨rfl, mapped.2, rfl⟩
  · simp only [if_neg mapped] at rest
    cases rest
    exact .inl ⟨rfl, rfl⟩

/-- A load may map memory. -/
theorem guestLoad_cases {size : ℕ} (loaded : e.guestLoad address size = .ok (done, e')) :
    MapsMemory e e' := by
  rw [guestLoad] at loaded
  by_cases present : Mapped e.engine address size
  · rw [if_pos present] at loaded
    cases loaded
    exact .refl e
  · rw [if_neg present] at loaded
    obtain ⟨⟨retry, e₁⟩, faulted, returned⟩ := exists_of_bind_ok loaded
    cases returned
    exact .region faulted

end Accesses

end Emulator

/-! ### The beginning of a run -/

/-- What `run` does before its loop: everything the earlier runs have gathered is dropped,
the arena is reset where there is one, and memory and registers are set. -/
theorem Emulator.resetForRun_cases [Host] {e e' : Emulator U} {maxLoopIterations : BitVec 64}
    {scanRegisterStrings : Bool}
    (reset : e.resetForRun maxLoopIterations scanRegisterStrings = .ok e') :
    ∃ u heap, (if e.enableHeapStubs then e.heap.reset e.clearTransientMappings.engine
        else .ok (e.clearTransientMappings.engine, e.heap)) = .ok (u, heap) ∧
      e' = { Emulator.initial (resetRegisters (restoreMemory u e.image)) heap e.image e.decoded
        e.enableHeapStubs e.enableWriteTracking with
        loopIterationLimit := maxLoopIterations
        scanRegisterStrings := scanRegisterStrings } := by
  obtain ⟨⟨u, heap⟩, heapReset, returned⟩ := exists_of_bind_ok reset
  cases returned
  exact ⟨u, heap, heapReset, rfl⟩

theorem Emulator.startRun_cases [Host] {e : Emulator U} {args : RunArgs} {r : RunState U}
    (started : e.startRun args = .ok r) :
    ∃ e', e.resetForRun args.maxLoopIterations args.scanRegisterStrings = .ok e' ∧
      r = { emulator := e', limitTime := args.maxTimeMs ≠ 0, limitInstr := args.maxInstr ≠ 0,
            remainingTimeUs := args.maxTimeMs * 1000, instructionsLeft := args.maxInstr,
            entry := args.start, phase := .head, slices := 0 } := by
  obtain ⟨e', reset, returned⟩ := exists_of_bind_ok started
  cases returned
  exact ⟨e', reset, rfl⟩

namespace RunState

/-- A slice that is entered starts at the entry. -/
theorem enterSlice_cases {r : RunState U} {c : Counters} {stop : Bool} {before : BitVec 64}
    (entered : (r.enterSlice c stop).phase = .slice before) :
    r.enterSlice c stop = { r with
      emulator := { r.emulator with engine := regWrite r.emulator.engine .rip r.entry }
      phase := .slice c.instructionsExecuted
      slices := r.slices + 1
      faulted := false } := by
  rw [enterSlice] at entered ⊢
  by_cases stopped : stop = true
  · rw [if_pos stopped] at entered
    cases entered
  rw [if_neg stopped] at entered ⊢
  by_cases limit : (r.limitTime = true ∧ r.remainingTimeUs = 0) ∨
      (r.limitInstr = true ∧ r.instructionsLeft = 0)
  · rw [if_pos limit] at entered
    cases entered
  · rw [if_neg limit]

/-! ### The end of a slice -/

/-- The ways in which the loop of `run` goes on at its end. -/
inductive Continues (r : RunState U) : RunState U → Prop
  | nothingPending (empty : r.emulator.branches.takeNext = none) :
      Continues r { r with phase := .finished .nothingPending }
  | restoreFailed {state : BranchState (Context U)} {branches : BranchManager (Context U)}
      (taken : r.emulator.branches.takeNext = some (state, branches))
      (failed : contextRestore r.emulator.engine state.ctx = none) :
      Continues r { r with
        emulator := { r.emulator with branches := branches }
        phase := .finished .restoreFailed }
  | resumed {state : BranchState (Context U)} {branches : BranchManager (Context U)} {u : U}
      (taken : r.emulator.branches.takeNext = some (state, branches))
      (restored : contextRestore r.emulator.engine state.ctx = some u) :
      Continues r { r with
        emulator := { r.emulator with engine := u, branches := branches }
        entry := state.pc
        phase := .head }

theorem nextBranch_continues (r : RunState U) : Continues r r.nextBranch := by
  rw [nextBranch]
  split
  · rename_i empty
    exact .nothingPending empty
  · rename_i state branches taken
    split
    · rename_i failed
      exact .restoreFailed taken failed
    · rename_i u restored
      exact .resumed taken restored

/-- At the end of a slice the budgets are charged, the tracked pages are scanned and the
next branch is chosen. -/
theorem leaveSlice_cases [Host] {r r' : RunState U} {c : Counters}
    {instrBefore elapsedUs : BitVec 64} (left : r.leaveSlice c instrBefore elapsedUs = .ok r') :
    ∃ e₁, Emulator.SameButStrings r.emulator e₁ ∧ Continues { r with
      emulator := e₁
      instructionsLeft :=
        if r.limitInstr then
          remaining r.instructionsLeft (c.instructionsExecuted - instrBefore)
        else r.instructionsLeft
      remainingTimeUs :=
        if r.limitTime then remaining r.remainingTimeUs elapsedUs else r.remainingTimeUs } r' := by
  rw [leaveSlice] at left
  obtain ⟨e₁, scan, returned⟩ := exists_of_bind_ok left
  cases returned
  -- Each limit is charged only where it is set.
  by_cases instr : r.limitInstr = true <;> by_cases time : r.limitTime = true
  all_goals
    simp only [instr, time, Bool.false_eq_true, if_true, if_false] at scan ⊢
    exact ⟨e₁, .ifTracking scan, nextBranch_continues _⟩

end RunState

/-! ### Settings -/

namespace Emulator

/-- The fields of an emulator that no step of a run changes. -/
structure Settings where
  image : ImageSnapshot
  decoded : InstructionSnapshot
  loopIterationLimit : BitVec 64
  scanRegisterStrings : Bool
  enableHeapStubs : Bool
  enableWriteTracking : Bool

def settings (e : Emulator U) : Settings :=
  ⟨e.image, e.decoded, e.loopIterationLimit, e.scanRegisterStrings, e.enableHeapStubs,
    e.enableWriteTracking⟩

variable {e e' : Emulator U}

theorem SameButStrings.settings_eq (same : SameButStrings e e') : e'.settings = e.settings := by
  rw [same]
  rfl

theorem MapsMemory.settings_eq (maps : MapsMemory e e') : e'.settings = e.settings := by
  rw [maps.same]
  rfl

theorem MapsMemory.branches_eq (maps : MapsMemory e e') : e'.branches = e.branches := by
  rw [maps.same]

theorem ExploreStep.settings_eq {address : Addr} {s s' : Emulator U × Counters}
    (step : ExploreStep address s s') : s'.1.settings = s.1.settings := by
  cases step with
  | @schedule e c target =>
    obtain ⟨branches, c', -, result, -⟩ := e.scheduleBranch_cases c address target
    rw [result]
    rfl
  | adjust => rfl

section Hooks

variable {c c' : Counters} {address : Addr} {size : BitVec 32} {insn : Insn}

theorem Executed.settings_eq [Host] (executed : e.Executed c address size insn e' c') :
    e'.settings = e.settings := by
  cases executed with
  | skipped => rfl
  | handled _ scanned => exact scanned.settings_eq
  | called _ scanned _ call =>
    obtain ⟨u, heap, -, same, -⟩ := handleCall_cases call
    exact same.settings_eq.trans scanned.settings_eq
  | explored _ scanned _ _ explore =>
    exact exploreBranches_invariant (P := fun s => s.1.settings = e.settings) explore
      scanned.settings_eq fun _ _ kept step => step.settings_eq.trans kept

theorem hookCode_settings [Host] {stop : Bool}
    (hook : e.hookCode c address size stop = .ok (e', c')) :
    e'.settings = e.settings := by
  rcases hookCode_cases hook with ⟨-, rfl, -⟩ | ⟨insn, -, -, executed⟩
  · rfl
  · exact executed.settings_eq

/-- A store leaves the settings and the branches alone. -/
theorem guestStore_kept {done : Bool} {bytes : List Byte}
    (stored : e.guestStore address bytes = .ok (done, e')) :
    e'.settings = e.settings ∧ e'.branches = e.branches := by
  obtain ⟨e₀, e₁, hooked, maps, result⟩ := guestStore_cases stored
  have kept : e₀.settings = e.settings ∧ e₀.branches = e.branches := by
    split_ifs at hooked
    · obtain ⟨dirtyPages, -, rfl⟩ := hookMemWrite_cases hooked
      exact ⟨rfl, rfl⟩
    · cases hooked
      exact ⟨rfl, rfl⟩
  have mapped : e₁.settings = e.settings ∧ e₁.branches = e.branches :=
    ⟨maps.settings_eq.trans kept.1, maps.branches_eq.trans kept.2⟩
  rcases result with ⟨-, rfl⟩ | ⟨-, -, rfl⟩
  · exact mapped
  · exact mapped

end Hooks

end Emulator

namespace RunState

variable {r r' : RunState U}

theorem enterSlice_settings (c : Counters) (stop : Bool) :
    (r.enterSlice c stop).emulator.settings = r.emulator.settings := by
  rw [enterSlice]
  split_ifs <;> rfl

theorem Continues.settings_eq (continues : Continues r r') :
    r'.emulator.settings = r.emulator.settings := by
  cases continues <;> rfl

end RunState

/-- No step of a run changes the settings. -/
theorem RunStep.settings_eq [Host] {event : RunEvent U} {s s' : Counters × RunState U}
    (step : RunStep event s s') : s'.2.emulator.settings = s.2.emulator.settings := by
  cases step with
  | enter stop => exact RunState.enterSlice_settings _ stop
  | code address size stop here hook => exact Emulator.hookCode_settings hook
  | store address bytes here nonempty small stored => exact (Emulator.guestStore_kept stored).1
  | load address size here nonempty small loaded =>
    exact (Emulator.guestLoad_cases loaded).settings_eq
  | execute => rfl
  | leave elapsedUs here left =>
    obtain ⟨e₁, scanned, continues⟩ := RunState.leaveSlice_cases left
    exact continues.settings_eq.trans scanned.settings_eq
  | interfere => rfl

/-- The steps of a run so far, latest first. -/
abbrev Past (U : Type) [Unicorn U] := List ((Counters × RunState U) × RunEvent U)

end Unxorer
