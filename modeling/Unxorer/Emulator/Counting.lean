import Unxorer.Emulator.Budget

/-!
# What the counters count

The instruction hook adds to the shared counters and reads none of them, so what it adds and
what it does to the emulator do not depend on their values. Over a run the sums are what the
names of the counters say: instructions counted and skipped, calls that left the image, edges
pushed, and edges offered again.

## Main definitions

* `Emulator.leaves`, `Emulator.leavesByThunk` — the calls that leave the image
* `Emulator.tally` — what an instruction adds to the counters
* `Edges` — the edges a run has offered and pushed
* `TallyLaw` — what the sums over a run are

## Main results

* `Emulator.hookCode_add` — the hook does the same whatever the counters hold
* `RunStep.counted` — what one step adds
* `tallyLaw_of_trace` — the sums after every run
-/

set_option autoImplicit false

namespace Unxorer

open Unicorn InstructionClassifier Transition

variable {U : Type} [Unicorn U]

/-! ### Counters add up -/

attribute [ext] Counters

namespace Counters

instance : Zero Counters := ⟨⟨0, 0, 0, 0, 0, 0⟩⟩

instance : Add Counters :=
  ⟨fun c d => ⟨c.instructionsExecuted + d.instructionsExecuted, c.branched + d.branched,
    c.alreadyVisited + d.alreadyVisited, c.skipped + d.skipped,
    c.externalCalls + d.externalCalls, c.importThunks + d.importThunks⟩⟩

section Add

variable (c d : Counters)

@[simp] theorem instructionsExecuted_add :
    (c + d).instructionsExecuted = c.instructionsExecuted + d.instructionsExecuted := rfl

@[simp] theorem branched_add : (c + d).branched = c.branched + d.branched := rfl

@[simp] theorem alreadyVisited_add :
    (c + d).alreadyVisited = c.alreadyVisited + d.alreadyVisited := rfl

@[simp] theorem skipped_add : (c + d).skipped = c.skipped + d.skipped := rfl

@[simp] theorem externalCalls_add :
    (c + d).externalCalls = c.externalCalls + d.externalCalls := rfl

@[simp] theorem importThunks_add : (c + d).importThunks = c.importThunks + d.importThunks := rfl

end Add

instance : AddCommMonoid Counters where
  add_assoc c d k := by ext1 <;> exact add_assoc _ _ _
  zero_add c := by ext1 <;> exact zero_add _
  add_zero c := by ext1 <;> exact add_zero _
  add_comm c d := by ext1 <;> exact add_comm _ _
  nsmul := nsmulRec

end Counters

namespace Emulator

/-! ### The hook does not read the counters -/

/-- What a step returns, with more in the counters. -/
def withMore (d : Counters) (s : Emulator U × Counters) : Emulator U × Counters := (s.1, s.2 + d)

variable (e : Emulator U) (c d : Counters) (address : Addr) (size : BitVec 32) (insn : Insn)

theorem countInsn_add : countInsn (c + d) = countInsn c + d := by
  ext1 <;> first | rfl | exact add_right_comm _ _ _

theorem scheduleBranch_add (target : Addr) :
    (e.scheduleBranch (c + d) address target).2 =
      withMore d (e.scheduleBranch c address target).2 := by
  simp only [scheduleBranch]
  split_ifs
  · exact Prod.ext rfl (by ext1 <;> first | rfl | exact add_right_comm _ _ _)
  · rfl
  · split
    · rfl
    · exact Prod.ext rfl (by ext1 <;> first | rfl | exact add_right_comm _ _ _)

theorem discoverIndirectTargets_add : e.discoverIndirectTargets (c + d) address insn =
    withMore d (e.discoverIndirectTargets c address insn) := by
  rw [discoverIndirectTargets, discoverIndirectTargets]
  cases resolveOperandTarget e.engine insn.op1 with
  | none => split_ifs <;> rfl
  | some target =>
    split_ifs
    · rfl
    · exact e.scheduleBranch_add c d address target
    · rfl

theorem exploreBranches_add : e.exploreBranches (c + d) address size insn =
    withMore d (e.exploreBranches c address size insn) := by
  rw [exploreBranches, exploreBranches, discoverIndirectTargets_add]
  generalize e.discoverIndirectTargets c address insn = s
  obtain ⟨e₁, c₁⟩ := s
  simp only [withMore]
  split_ifs
  · rfl
  · rfl
  · have scheduled := e₁.scheduleBranch_add c₁ d address (address + size.setWidth 64)
    exact congrArg (fun s : Emulator U × Counters =>
      (s.1.followBranch address insn.op1.addr (address + size.setWidth 64) insn, s.2)) scheduled

section Dispatch

variable [Host]

theorem explore_add : e.explore (c + d) address size insn =
    (e.explore c address size insn).map (withMore d) := by
  rw [explore, explore, exploreBranches_add]
  -- The set of visited edges does not depend on the counters.
  change (do
      hostSet (e.exploreBranches c address size insn).1.branches.visited.card
      return withMore d (e.exploreBranches c address size insn)) = _
  cases hostSet (e.exploreBranches c address size insn).1.branches.visited.card <;> rfl

theorem finishCall_add (dispatch : Option ApiStubs.Stub × Except HostFault (U × FakeHeap)) :
    e.finishCall (c + d) dispatch = (e.finishCall c dispatch).map (withMore d) := by
  obtain ⟨stub, outcome⟩ := dispatch
  cases outcome with
  | error fault => rfl
  | ok result =>
    obtain ⟨u, heap⟩ := result
    have scanned {scan : Except HostFault (Emulator U)} :
        (do let e ← scan
            return (e, { c + d with externalCalls := (c + d).externalCalls + 1 }) :
              Except HostFault (Emulator U × Counters)) =
          Except.map (withMore d) (do
            let e ← scan
            return (e, { c with externalCalls := c.externalCalls + 1 })) := by
      cases scan with
      | error fault => rfl
      | ok e =>
        refine congrArg Except.ok (Prod.ext rfl ?_)
        ext1 <;> first | rfl | exact add_right_comm _ _ _
    exact scanned

theorem callExternal_add (name : Option String) :
    e.callExternal (c + d) address size name = ((e.callExternal c address size name).1,
      (e.callExternal c address size name).2.map (withMore d)) :=
  Prod.ext rfl (e.finishCall_add c d _)

theorem handleCall_add : e.handleCall (c + d) address size insn =
    (e.handleCall c address size insn).map fun p => (p.1, p.2.map (withMore d)) := by
  have thunk : ({ c + d with importThunks := (c + d).importThunks + 1 } : Counters) =
      { c with importThunks := c.importThunks + 1 } + d := by
    ext1 <;> first | rfl | exact add_right_comm _ _ _
  rw [handleCall, handleCall]
  cases resolveOperandTarget e.engine insn.op1 with
  | none => split_ifs <;> rfl
  | some target =>
    dsimp only
    rw [thunk]
    split_ifs
    · exact congrArg some (e.callExternal_add c d address size _)
    · exact congrArg some (e.callExternal_add _ d address size _)
    · rfl
    · rfl

/-- What becomes of an instruction that the handler does not take over. -/
theorem callOrExplore_add :
    (match e.handleCall (c + d) address size insn with
      | some result => result.2
      | none => e.explore (c + d) address size insn) =
    Except.map (withMore d) (match e.handleCall c address size insn with
      | some result => result.2
      | none => e.explore c address size insn) := by
  rw [handleCall_add]
  cases e.handleCall c address size insn with
  | none => exact e.explore_add c d address size insn
  | some result => rfl

/-- The hook does the same whatever the counters hold, and adds the same to them. -/
theorem hookCode_add (stop : Bool) : e.hookCode (c + d) address size stop =
    (e.hookCode c address size stop).map (withMore d) := by
  have counted := countInsn_add c d
  rw [hookCode, hookCode]
  cases e.tryGetInsn address with
  | none => split_ifs <;> rfl
  | some insn =>
    simp only [countInsn] at counted ⊢
    rw [counted]
    generalize { c with instructionsExecuted := c.instructionsExecuted + 1 } = k
    by_cases stopped : stop = true
    · simp only [if_pos stopped]
      rfl
    by_cases skip : shouldSkip insn.itype = true
    · simp only [if_neg stopped, if_pos skip]
      refine congrArg Except.ok (Prod.ext rfl ?_)
      ext1 <;> first | rfl | exact add_right_comm _ _ _
    simp only [if_neg stopped, if_neg skip]
    cases e.dumpBefore insn.itype with
    | error fault => rfl
    | ok e₁ =>
      by_cases handle : shouldHandle insn.itype = true
      · simp only [if_pos handle]
        rfl
      · simp only [if_neg handle]
        exact e₁.callOrExplore_add k d address size insn

end Dispatch

/-! ### What the hook adds -/

/-- The call leads out of the image, directly or by way of a thunk. -/
def leaves (insn : Insn) : Bool :=
  callTypes.elem insn.itype && (resolveOperandTarget e.engine insn.op1).any fun target =>
    !e.insideImage target || e.isExternalThunk target

/-- The call leads out of the image by way of a thunk. -/
def leavesByThunk (insn : Insn) : Bool :=
  callTypes.elem insn.itype && (resolveOperandTarget e.engine insn.op1).any fun target =>
    e.insideImage target && e.isExternalThunk target

/-- What the hook adds for an instruction before which `b` edges are pushed and `v` edges are
offered again. -/
def tally (insn : Insn) (b v : ℕ) : Counters where
  instructionsExecuted := 1
  branched := BitVec.ofNat 64 b
  alreadyVisited := BitVec.ofNat 64 v
  skipped := if shouldSkip insn.itype then 1 else 0
  externalCalls := if e.leaves insn then 1 else 0
  importThunks := if e.leavesByThunk insn then 1 else 0

/-- Of the edges offered, `b` have been pushed and `v` had been offered before. -/
structure Edges (b₀ b₁ : BranchManager (Context U)) (b v : ℕ) : Prop where
  pushed : b₁.log.pushed.length = b₀.log.pushed.length + b
  offered : b₁.log.offered.length + b₀.visited.card = b₀.log.offered.length + b₁.visited.card + v
  marked : b₀.visited = b₀.log.offered.toFinset → b₁.visited = b₁.log.offered.toFinset

namespace Edges

variable {b₀ b₁ b₂ : BranchManager (Context U)} {b v b' v' : ℕ}

theorem refl (b₀ : BranchManager (Context U)) : Edges b₀ b₀ 0 0 := ⟨rfl, rfl, id⟩

theorem trans (first : Edges b₀ b₁ b v) (second : Edges b₁ b₂ b' v') :
    Edges b₀ b₂ (b + b') (v + v') := by
  have offered := first.offered
  have offered' := second.offered
  refine ⟨?_, by omega, second.marked ∘ first.marked⟩
  rw [second.pushed, first.pushed, add_assoc]

end Edges

/-- The counters of branches have gone up with the edges. -/
def Explored (s s' : Emulator U × Counters) : Prop :=
  ∃ b v, Edges s.1.branches s'.1.branches b v ∧
    s'.2 = s.2 + ⟨0, BitVec.ofNat 64 b, BitVec.ofNat 64 v, 0, 0, 0⟩

theorem Explored.refl (s : Emulator U × Counters) : Explored s s :=
  ⟨0, 0, .refl _, (add_zero s.2).symm⟩

theorem Explored.trans {s s' s'' : Emulator U × Counters} (first : Explored s s')
    (second : Explored s' s'') : Explored s s'' := by
  obtain ⟨b, v, edges, counted⟩ := first
  obtain ⟨b', v', edges', counted'⟩ := second
  refine ⟨b + b', v + v', edges.trans edges', ?_⟩
  rw [counted', counted, add_assoc, BitVec.ofNat_add, BitVec.ofNat_add]
  rfl

/-- An offered edge is counted as pushed, as offered again, or not at all. -/
theorem explored_scheduleBranch (target : Addr) :
    Explored (e, c) (e.scheduleBranch c address target).2 := by
  simp only [scheduleBranch]
  by_cases seen : ⟨address, target⟩ ∈ e.branches.visited
  · have known : (logOffer e.branches ⟨address, target⟩).isVisited ⟨address, target⟩ = true :=
      decide_eq_true seen
    rw [if_pos known]
    refine ⟨0, 1, ⟨rfl, Nat.add_right_comm _ _ _, fun same => ?_⟩, ?_⟩
    · change e.branches.visited = (_ :: e.branches.log.offered).toFinset
      rw [List.toFinset_cons, ← same, Finset.insert_eq_of_mem seen]
    · ext1 <;> first | rfl | exact (add_zero _).symm
  have fresh : ¬ (logOffer e.branches ⟨address, target⟩).isVisited ⟨address, target⟩ = true :=
    fun known => seen (of_decide_eq_true known)
  have more : (insert ⟨address, target⟩ e.branches.visited).card = e.branches.visited.card + 1 :=
    Finset.card_insert_of_notMem seen
  -- A new edge is marked as visited, whatever becomes of it.
  have offered : e.branches.log.offered.length + 1 + e.branches.visited.card =
      e.branches.log.offered.length + (insert ⟨address, target⟩ e.branches.visited).card + 0 := by
    omega
  have marked (same : e.branches.visited = e.branches.log.offered.toFinset) :
      insert ⟨address, target⟩ e.branches.visited =
        (⟨address, target⟩ :: e.branches.log.offered).toFinset := by
    rw [List.toFinset_cons, ← same]
  rw [if_neg fresh]
  split_ifs
  · exact ⟨0, 0, ⟨rfl, offered, marked⟩, (add_zero c).symm⟩
  · simp only [BranchManager.saveBranch]
    cases contextSave e.engine with
    | none => exact ⟨0, 0, ⟨rfl, offered, marked⟩, (add_zero c).symm⟩
    | some ctx =>
      refine ⟨1, 0, ⟨rfl, offered, marked⟩, ?_⟩
      ext1 <;> first | rfl | exact (add_zero _).symm

variable {e c address size insn} {e' : Emulator U} {c' : Counters}

theorem explored_exploreBranches (explore : e.exploreBranches c address size insn = (e', c')) :
    Explored (e, c) (e', c') := by
  refine exploreBranches_invariant (P := Explored (e, c)) explore (.refl _) ?_
  intro s s' before step
  refine before.trans ?_
  cases step with
  | schedule target => exact explored_scheduleBranch _ _ _ target
  | adjust => exact ⟨0, 0, .refl _, (add_zero _).symm⟩

theorem leaves_eq_false {e : Emulator U} {insn : Insn} (other : insn.itype ∉ callTypes) :
    e.leaves insn = false ∧ e.leavesByThunk insn = false := by
  rw [leaves, leavesByThunk, Bool.eq_false_iff.mpr (mt List.elem_iff.mp other)]
  exact ⟨rfl, rfl⟩

/-- Calls are neither skipped nor handled. -/
theorem plain_of_callTypes {itype : Itype} (call : itype ∈ callTypes) :
    shouldSkip itype = false ∧ shouldHandle itype = false := by
  revert itype
  decide

theorem notMem_callTypes {itype : Itype}
    (other : shouldSkip itype = true ∨ shouldHandle itype = true) : itype ∉ callTypes := by
  intro call
  obtain ⟨skip, handle⟩ := plain_of_callTypes call
  rcases other with skipped | handled
  · exact Bool.false_ne_true (skip.symm.trans skipped)
  · exact Bool.false_ne_true (handle.symm.trans handled)

theorem SameButStrings.leaves_eq (same : SameButStrings e e') (insn : Insn) :
    e'.leaves insn = e.leaves insn ∧ e'.leavesByThunk insn = e.leavesByThunk insn := by
  rw [same]
  exact ⟨rfl, rfl⟩

variable [Host]

/-- A call that leaves the image counts once as an external call, and as a thunk if it goes by
way of one; any other counts as neither. -/
theorem handleCall_counted (e : Emulator U) (c : Counters) (address : Addr) (size : BitVec 32)
    (insn : Insn) :
    (e.handleCall c address size insn = none ∧ e.leaves insn = false ∧
      e.leavesByThunk insn = false) ∨
    e.leaves insn = true ∧ e.handleCall c address size insn ≠ none ∧ ∀ stub e' c',
      e.handleCall c address size insn = some (stub, .ok (e', c')) →
        c' = c + ⟨0, 0, 0, 0, 1, if e.leavesByThunk insn then 1 else 0⟩ := by
  by_cases call : insn.itype ∈ callTypes
  swap
  · exact .inl ⟨by rw [handleCall, if_pos call], leaves_eq_false call⟩
  have type : callTypes.elem insn.itype = true := List.elem_iff.mpr call
  rw [handleCall, if_neg (not_not_intro call), leaves, leavesByThunk, type]
  cases resolveOperandTarget e.engine insn.op1 with
  | none => exact .inl ⟨rfl, rfl, rfl⟩
  | some target =>
    simp only [Bool.true_and, Option.any_some]
    cases inside : e.insideImage target with
    | false =>
      refine .inr ⟨rfl, Option.some_ne_none _, fun stub e' c' external => ?_⟩
      obtain ⟨u, heap, -, -, rfl⟩ := callExternal_cases (Option.some.inj external)
      ext1 <;> first | rfl | exact (add_zero _).symm
    | true =>
      cases thunk : e.isExternalThunk target with
      | false => exact .inl ⟨rfl, rfl, rfl⟩
      | true =>
        refine .inr ⟨rfl, Option.some_ne_none _, fun stub e' c' external => ?_⟩
        obtain ⟨u, heap, -, -, rfl⟩ := callExternal_cases (Option.some.inj external)
        ext1 <;> first | rfl | exact (add_zero _).symm

/-- What the hook adds for an instruction it does not ignore. -/
theorem Executed.counted (executed : e.Executed (countInsn c) address size insn e' c') :
    ∃ b v, Edges e.branches e'.branches b v ∧ c' = c + e.tally insn b v := by
  cases executed with
  | skipped skip =>
    obtain ⟨leaves, thunk⟩ := leaves_eq_false (e := e) (notMem_callTypes (.inl skip))
    refine ⟨0, 0, .refl _, ?_⟩
    rw [tally, if_pos skip, leaves, thunk]
    ext1 <;> first | rfl | exact (add_zero _).symm
  | handled skip scanned handle =>
    obtain ⟨leaves, thunk⟩ := leaves_eq_false (e := e) (notMem_callTypes (.inr handle))
    rw [scanned]
    refine ⟨0, 0, .refl _, ?_⟩
    rw [tally, skip, leaves, thunk]
    ext1 <;> first | rfl | exact (add_zero _).symm
  | @called e₁ _ _ stub skip scanned handle call =>
    obtain ⟨leaves, thunk⟩ := scanned.leaves_eq insn
    rcases e₁.handleCall_counted (countInsn c) address size insn with ⟨none, -⟩ | ⟨out, -, counted⟩
    · rw [none] at call
      cases call
    · obtain ⟨u, heap, -, same, -⟩ := handleCall_cases call
      have branches : e'.branches = e.branches := by rw [same, scanned]
      rw [branches, counted stub e' c' call]
      refine ⟨0, 0, .refl _, ?_⟩
      rw [tally, skip, ← leaves, ← thunk, out]
      ext1 <;> simp [countInsn]
  | @explored e₁ _ _ skip scanned handle call explore =>
    obtain ⟨leaves, thunk⟩ := scanned.leaves_eq insn
    rcases e₁.handleCall_counted (countInsn c) address size insn with
      ⟨-, stays, direct⟩ | ⟨-, leads, -⟩
    · obtain ⟨b, v, edges, counted⟩ := explored_exploreBranches explore
      refine ⟨b, v, ?_, counted.trans ?_⟩
      · rw [scanned] at edges
        exact edges
      · rw [tally, skip, ← leaves, ← thunk, stays, direct]
        ext1 <;> simp [countInsn]
    · exact absurd call leads

end Emulator

/-! ### Runs -/

/-- The instruction the hook counts in a step. -/
def RunEvent.counted (r : RunState U) : RunEvent U → Option Insn
  | .code address _ stop => if stop then none else r.emulator.tryGetInsn address
  | _ => none

/-- The step is one in which the hook skips the instruction. -/
def RunEvent.skips (r : RunState U) (event : RunEvent U) : Bool :=
  (event.counted r).any fun insn => shouldSkip insn.itype

/-- The step is a call that leaves the image. -/
def RunEvent.calls (r : RunState U) (event : RunEvent U) : Bool :=
  (event.counted r).any r.emulator.leaves

/-- The step is a call that leaves the image by way of a thunk. -/
def RunEvent.thunks (r : RunState U) (event : RunEvent U) : Bool :=
  (event.counted r).any r.emulator.leavesByThunk

/-- What a step adds to the counters. -/
def RunEvent.tally (r : RunState U) (event : RunEvent U) (b v : ℕ) : Counters where
  instructionsExecuted := if (event.counted r).isSome then 1 else 0
  branched := BitVec.ofNat 64 b
  alreadyVisited := BitVec.ofNat 64 v
  skipped := if event.skips r then 1 else 0
  externalCalls := if event.calls r then 1 else 0
  importThunks := if event.thunks r then 1 else 0

theorem RunState.Continues.edges {r r' : RunState U} (continues : r.Continues r') :
    Emulator.Edges r.emulator.branches r'.emulator.branches 0 0 := by
  have taken {state : BranchState (Context U)} {b b' : BranchManager (Context U)}
      (next : b.takeNext = some (state, b')) : Emulator.Edges b b' 0 0 := by
    rw [BranchManager.takeNext] at next
    split at next
    · cases next
    · cases next
      exact ⟨rfl, rfl, id⟩
  cases continues with
  | nothingPending => exact .refl _
  | restoreFailed next failed => exact taken next
  | resumed next restored => exact taken next

section Steps

variable [Host] {event : RunEvent U} {s s' : Counters × RunState U} {past : Past U}

/-- What a step of the run itself adds to the counters. -/
theorem RunStep.counted (own : ∀ c, event ≠ .interfere c) (step : RunStep event s s') :
    ∃ b v, Emulator.Edges s.2.emulator.branches s'.2.emulator.branches b v ∧
      s'.1 = s.1 + event.tally s.2 b v := by
  have silent {r : RunState U} {event : RunEvent U} (none : event.counted r = none) :
      event.tally r 0 0 = 0 := by
    simp only [RunEvent.tally, RunEvent.skips, RunEvent.calls, RunEvent.thunks, none]
    rfl
  have nothing {c : Counters} {r : RunState U} {event : RunEvent U}
      (none : event.counted r = none) : c = c + event.tally r 0 0 := by
    rw [silent none, add_zero]
  cases step with
  | enter stop here =>
    refine ⟨0, 0, ?_, nothing rfl⟩
    rw [RunState.enterSlice]
    split_ifs <;> exact .refl _
  | code address size stop here hook =>
    rcases Emulator.hookCode_cases hook with ⟨ignored, rfl, rfl⟩ | ⟨insn, heeds, decoded, executed⟩
    · refine ⟨0, 0, .refl _, nothing ?_⟩
      rw [Emulator.ignores, Bool.or_eq_true, Option.isNone_iff_eq_none] at ignored
      rw [RunEvent.counted]
      split_ifs with going
      · rfl
      · exact ignored.resolve_left going
    · obtain ⟨b, v, edges, counted⟩ := executed.counted
      refine ⟨b, v, edges, counted.trans ?_⟩
      have going : stop = false := (Bool.or_eq_false_iff.mp heeds).1
      simp only [RunEvent.tally, RunEvent.skips, RunEvent.calls, RunEvent.thunks, RunEvent.counted,
        going, decoded]
      rfl
  | store address bytes here nonempty small stored =>
    refine ⟨0, 0, ?_, nothing rfl⟩
    dsimp only
    rw [(Emulator.guestStore_kept stored).2]
    exact .refl _
  | load address size here nonempty small loaded =>
    refine ⟨0, 0, ?_, nothing rfl⟩
    dsimp only
    rw [(Emulator.guestLoad_cases loaded).branches_eq]
    exact .refl _
  | execute => exact ⟨0, 0, .refl _, nothing rfl⟩
  | leave elapsedUs here left =>
    obtain ⟨e₁, scanned, continues⟩ := RunState.leaveSlice_cases left
    refine ⟨0, 0, ?_, nothing rfl⟩
    have edges := continues.edges
    rw [scanned] at edges
    exact edges
  | interfere c => exact absurd rfl (own c)

/-- The step is one of another emulator. -/
def RunEvent.interferes : RunEvent U → Bool
  | .interfere _ => true
  | _ => false

/-- No other emulator has been at work. -/
def Lone (past : Past U) : Prop := ∀ p ∈ past, p.2.interferes = false

omit [Host] in
theorem Lone.of_cons {p : (Counters × RunState U) × RunEvent U} (lone : Lone (p :: past)) :
    (∀ c, p.2 ≠ .interfere c) ∧ Lone past := by
  refine ⟨fun c other => ?_, fun q member => lone q (List.mem_cons_of_mem p member)⟩
  have own := lone p List.mem_cons_self
  rw [other] at own
  cases own

omit [Host] in
/-- One step of a lone run more. -/
theorem Lone.cons {past : Past U} {p : (Counters × RunState U) × RunEvent U} (lone : Lone past)
    (own : p.2.interferes = false) : Lone (p :: past) :=
  List.forall_mem_cons.mpr ⟨own, lone⟩

/-- What has happened to the counters since they were `c`: they have gone up with the counted
and skipped instructions and with the calls that have left the image, by the edges that were
pushed, and by the offers of edges that had been offered before. -/
structure TallyLaw (c : Counters) (past : Past U) (s : Counters × RunState U) : Prop where
  instructionsExecuted : s.1.instructionsExecuted = c.instructionsExecuted +
    BitVec.ofNat 64 (past.countP fun p => (p.2.counted p.1.2).isSome)
  skipped : s.1.skipped = c.skipped + BitVec.ofNat 64 (past.countP fun p => p.2.skips p.1.2)
  externalCalls : s.1.externalCalls = c.externalCalls +
    BitVec.ofNat 64 (past.countP fun p => p.2.calls p.1.2)
  importThunks : s.1.importThunks = c.importThunks +
    BitVec.ofNat 64 (past.countP fun p => p.2.thunks p.1.2)
  branched : s.1.branched = c.branched +
    BitVec.ofNat 64 s.2.emulator.branches.log.pushed.length
  alreadyVisited : s.1.alreadyVisited = c.alreadyVisited + BitVec.ofNat 64
    (s.2.emulator.branches.log.offered.length - s.2.emulator.branches.log.offered.toFinset.card)

omit [Host] in
/-- One more step in a sum of steps. -/
theorem ofNat_countP_cons (f : RunState U → RunEvent U → Bool) (event : RunEvent U)
    (past : Past U) (s : Counters × RunState U) (x : BitVec 64) :
    x + BitVec.ofNat 64 (((s, event) :: past).countP fun p => f p.1.2 p.2) =
      x + BitVec.ofNat 64 (past.countP fun p => f p.1.2 p.2) +
        if f s.2 event then 1 else 0 := by
  rw [List.countP_cons, BitVec.ofNat_add, ← add_assoc]
  congr 1
  split_ifs <;> rfl

/-- A step of the run itself keeps the law. -/
theorem TallyLaw.step {c : Counters} (law : TallyLaw c past s)
    (marked : s.2.emulator.branches.visited = s.2.emulator.branches.log.offered.toFinset)
    (own : ∀ c, event ≠ .interfere c) (step : RunStep event s s') :
    TallyLaw c ((s, event) :: past) s' ∧
      s'.2.emulator.branches.visited = s'.2.emulator.branches.log.offered.toFinset := by
  obtain ⟨b, v, edges, counted⟩ := step.counted own
  have marked' := edges.marked marked
  refine ⟨⟨?_, ?_, ?_, ?_, ?_, ?_⟩, marked'⟩
  · rw [ofNat_countP_cons fun r event => (event.counted r).isSome, ← law.instructionsExecuted,
      counted]
    rfl
  · rw [ofNat_countP_cons fun r event => event.skips r, ← law.skipped, counted]
    rfl
  · rw [ofNat_countP_cons fun r event => event.calls r, ← law.externalCalls, counted]
    rfl
  · rw [ofNat_countP_cons fun r event => event.thunks r, ← law.importThunks, counted]
    rfl
  · rw [edges.pushed, BitVec.ofNat_add, ← add_assoc, ← law.branched, counted]
    rfl
  · have offered := edges.offered
    have before := s.2.emulator.branches.log.offered.toFinset_card_le
    have after := s'.2.emulator.branches.log.offered.toFinset_card_le
    rw [marked, marked'] at offered
    have again : s'.2.emulator.branches.log.offered.length -
        s'.2.emulator.branches.log.offered.toFinset.card =
      s.2.emulator.branches.log.offered.length -
        s.2.emulator.branches.log.offered.toFinset.card + v := by omega
    rw [again, BitVec.ofNat_add, ← add_assoc, ← law.alreadyVisited, counted]
    rfl

theorem startRun_branches {e : Emulator U} {args : RunArgs} {r : RunState U}
    (started : e.startRun args = .ok r) : r.emulator.branches = .empty := by
  obtain ⟨e', reset, rfl⟩ := Emulator.startRun_cases started
  obtain ⟨u, heap, -, rfl⟩ := Emulator.resetForRun_cases reset
  rfl

/-- After every run that nothing interferes with, the counters have gone up by what the run
has done. -/
theorem tallyLaw_of_trace {e : Emulator U} {args : RunArgs} {r : RunState U} {c : Counters}
    (started : e.startRun args = .ok r) (trace : Trace RunStep (c, r) past s)
    (lone : Lone past) : TallyLaw c past s := by
  have empty := startRun_branches started
  have initial : TallyLaw c [] (c, r) := by
    constructor <;> simp [empty, BranchManager.empty]
  have law : Lone past → TallyLaw c past s ∧
      s.2.emulator.branches.visited = s.2.emulator.branches.log.offered.toFinset := by
    refine trace.invariant (P := fun past s => Lone past → TallyLaw c past s ∧
      s.2.emulator.branches.visited = s.2.emulator.branches.log.offered.toFinset) ?_ ?_
    · exact fun _ => ⟨initial, by simp [empty, BranchManager.empty]⟩
    · intro past s event s' before step lone
      obtain ⟨own, earlier⟩ := lone.of_cons
      obtain ⟨law, marked⟩ := before earlier
      exact law.step marked own step
  exact (law lone).1

end Steps

/-- A run that executes a branch and skips nothing: its other side is pushed and counted. -/
theorem tallyLaw_of_trace_jump : ∃ past s,
    Trace RunStep (Example.noCounts, Example.started 0x140000012) past s ∧
      s.1 = ⟨1, 1, 0, 0, 0, 0⟩ ∧ TallyLaw Example.noCounts past s := by
  obtain ⟨⟨past, s⟩, performed, lone, counts⟩ : ∃ p,
      Trace.performTrace RunEvent.perform [] (Example.noCounts, Example.started 0x140000012)
        [.enter false, .code 0x140000012 2 false, .leave 0] = some p ∧
      (∀ q ∈ p.1, q.2.interferes = false) ∧ p.2.1 = ⟨1, 1, 0, 0, 0, 0⟩ := by
    refine ⟨_, rfl, ?_, by decide +kernel⟩
    rw [← List.forall_iff_forall_mem]
    exact ⟨rfl, rfl, rfl⟩
  have trace := RunEvent.trace_of_performTrace performed
  exact ⟨past, s, trace, counts,
    tallyLaw_of_trace (Example.startRun_eq_started 0x140000012) trace lone⟩

end Unxorer
