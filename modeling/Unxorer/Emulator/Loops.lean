import Unxorer.Emulator.Steps
import Unxorer.Lib.HitCounter

/-!
# The loop limit

A conditional branch backwards is counted each time the hook meets it and made to fall
through once its count reaches an allowance. The counts belong to the run, not to a path:
one count is kept for each branch, and all paths and all entries of a loop share it.

## Main definitions

* `executions` — the executions of a branch in a trace
* `Emulator.Redirects` — the next execution of a branch is made to fall through
* `LimitLaw` — what holds of allowance and count of a branch in a run

## Main results

* `loopIterations_of_trace` — the stored count is that of a counter with an allowance
* `limitLaw_of_trace` — the law holds
-/

set_option autoImplicit false

namespace Unxorer

open Unicorn InstructionClassifier Transition WriteTracker

variable {U : Type} [Unicorn U]

namespace Emulator

/-! ### A branch backwards -/

/-- The number of hits after the next execution of the branch. -/
def nextHits (e : Emulator U) (address taken : Addr) : BitVec 64 :=
  let state := (e.loopIterations address).getD ⟨0, taken⟩
  (if state.lastTarget ≠ taken then 0 else state.hits) + 1

/-- The next execution of the branch is made to fall through. -/
def Redirects (e : Emulator U) (address taken : Addr) : Prop :=
  e.loopIterationLimit ≠ 0 ∧ e.loopAllowance address taken ≤ e.nextHits address taken

instance (e : Emulator U) (address taken : Addr) : Decidable (e.Redirects address taken) :=
  inferInstanceAs (Decidable (_ ∧ _))

/-- A branch backwards in a run with a limit is counted, or made to fall through. -/
theorem followBranch_eq (e : Emulator U) {address taken : Addr} (backward : taken ≤ address)
    (limited : e.loopIterationLimit ≠ 0) (fallthrough : Addr) (insn : Insn) :
    e.followBranch address taken fallthrough insn =
      if e.Redirects address taken then { e with
        loopIterations := Function.update e.loopIterations address none
        engine := regWrite e.engine .rip fallthrough }
      else { e with
        loopIterations :=
          Function.update e.loopIterations address (some ⟨e.nextHits address taken, taken⟩) } := by
  rw [followBranch, if_pos backward, if_neg limited]
  by_cases redirects : e.Redirects address taken
  · rw [if_pos redirects]
    exact if_pos redirects.2
  · rw [if_neg redirects]
    exact if_neg fun reached => redirects ⟨limited, reached⟩

theorem followBranch_backward (e : Emulator U) {address taken : Addr} (backward : taken ≤ address)
    (limited : e.loopIterationLimit ≠ 0) (fallthrough : Addr) (insn : Insn) :
    (e.followBranch address taken fallthrough insn).engine =
        (if e.Redirects address taken then regWrite e.engine .rip fallthrough else e.engine) ∧
      (e.followBranch address taken fallthrough insn).loopIterations address =
        if e.Redirects address taken then none else some ⟨e.nextHits address taken, taken⟩ := by
  rw [followBranch_eq e backward limited]
  by_cases redirects : e.Redirects address taken
  · simp only [if_pos redirects, Function.update_self, true_and]
  · simp only [if_neg redirects, Function.update_self, true_and]

/-- The allowance of a branch without what the span of its loop adds. -/
def baseAllowance (e : Emulator U) : ℕ :=
  if e.enableWriteTracking ∧ hasDirty e.dirtyPages then max e.loopIterationLimit.toNat 2000
  else e.loopIterationLimit.toNat

/-- The sum of the source is the sum of the numbers, cut off at the largest word. -/
theorem toNat_saturating_add (a b : BitVec 64) :
    (if b > -1 - a then (-1 : BitVec 64) else a + b).toNat =
      min (a.toNat + b.toNat) (2 ^ 64 - 1) := by
  have room : (-1 - a).toNat = 2 ^ 64 - 1 - a.toNat := by
    have bound := a.isLt
    rw [BitVec.toNat_sub]
    simp only [BitVec.reduceNeg, BitVec.reduceToNat]
    omega
  have first := a.isLt
  have second := b.isLt
  by_cases large : b > -1 - a
  · have beyond : (-1 - a).toNat < b.toNat := large
    rw [if_pos large, min_eq_right (by omega)]
    rfl
  · have within : ¬ (-1 - a).toNat < b.toNat := large
    rw [if_neg large, BitVec.toNat_add, min_eq_left (by omega), Nat.mod_eq_of_lt (by omega)]

/-- The computation of the allowance does not wrap around. -/
theorem toNat_loopAllowance (e : Emulator U) {address taken : Addr} (backward : taken ≤ address) :
    (e.loopAllowance address taken).toNat =
      min (e.baseAllowance + (address.toNat - taken.toNat) / 4) (2 ^ 64 - 1) := by
  have span : ((address - taken) / 4).toNat = (address.toNat - taken.toNat) / 4 := by
    rw [BitVec.toNat_udiv, BitVec.toNat_sub_of_le backward]
    rfl
  have base : (if e.enableWriteTracking ∧ hasDirty e.dirtyPages ∧ e.loopIterationLimit < 2000
      then (2000 : BitVec 64) else e.loopIterationLimit).toNat = e.baseAllowance := by
    rw [baseAllowance]
    by_cases raised : e.enableWriteTracking = true ∧ hasDirty e.dirtyPages = true
    · rw [if_pos raised]
      by_cases small : e.loopIterationLimit < 2000
      · have below : e.loopIterationLimit.toNat < 2000 := small
        rw [if_pos ⟨raised.1, raised.2, small⟩, max_eq_right below.le]
        rfl
      · have above : ¬ e.loopIterationLimit.toNat < 2000 := small
        rw [if_neg fun all => small all.2.2, max_eq_left (not_lt.mp above)]
    · rw [if_neg raised, if_neg fun all => raised ⟨all.1, all.2.1⟩]
  simp only [loopAllowance]
  rw [toNat_saturating_add, base, span]

theorem toNat_loopAllowance_pos {e : Emulator U} (limited : e.loopIterationLimit ≠ 0)
    {address taken : Addr} (backward : taken ≤ address) :
    0 < (e.loopAllowance address taken).toNat := by
  have positive : 0 < e.loopIterationLimit.toNat := by
    apply Nat.pos_of_ne_zero
    intro zero
    exact limited (BitVec.eq_of_toNat_eq zero)
  have base : e.loopIterationLimit.toNat ≤ e.baseAllowance := by
    rw [baseAllowance]
    split_ifs
    · exact le_max_left _ _
    · exact le_rfl
  rw [toNat_loopAllowance e backward]
  omega

/-! ### What the steps leave alone -/

/-- What the loop limit goes by, apart from the settings. -/
structure LoopView where
  loopIterations : Addr → Option LoopState
  dirtyPages : Finset Addr

def loopView (e : Emulator U) : LoopView := ⟨e.loopIterations, e.dirtyPages⟩

variable {e e' : Emulator U}

theorem SameButStrings.loopView_eq (same : SameButStrings e e') : e'.loopView = e.loopView := by
  rw [same]
  rfl

theorem MapsMemory.loopView_eq (maps : MapsMemory e e') : e'.loopView = e.loopView := by
  rw [maps.same]
  rfl

/-- Only the count of the branch itself changes when it is followed. -/
theorem followBranch_loopView (e : Emulator U) (address taken fallthrough : Addr) (insn : Insn) :
    ∃ count, (e.followBranch address taken fallthrough insn).loopView =
      ⟨Function.update e.loopIterations address count, e.dirtyPages⟩ := by
  simp only [followBranch]
  split_ifs
  all_goals exact ⟨_, rfl⟩

theorem scheduleBranch_loopView (e : Emulator U) (c : Counters) (address target : Addr) :
    (e.scheduleBranch c address target).2.1.loopView = e.loopView := by
  obtain ⟨branches, c', -, result, -⟩ := e.scheduleBranch_cases c address target
  rw [result]
  rfl

theorem discoverIndirectTargets_loopView (e : Emulator U) (c : Counters) (address : Addr)
    (insn : Insn) : (e.discoverIndirectTargets c address insn).1.loopView = e.loopView := by
  rcases e.discoverIndirectTargets_cases c address insn with nothing | ⟨target, scheduled⟩
  · rw [nothing]
  · rw [scheduled]
    exact e.scheduleBranch_loopView c address target

section Hooks

variable {c c' : Counters} {address : Addr} {size : BitVec 32} {insn : Insn}

/-- Looking at branches changes no count but that of the instruction. -/
theorem exploreBranches_loopView (explore : e.exploreBranches c address size insn = (e', c')) :
    ∃ count, e'.loopView = ⟨Function.update e.loopIterations address count, e.dirtyPages⟩ := by
  have unchanged {f : Emulator U} (same : f.loopView = e.loopView) :
      ∃ count, f.loopView = ⟨Function.update e.loopIterations address count, e.dirtyPages⟩ := by
    refine ⟨e.loopIterations address, ?_⟩
    rw [Function.update_eq_self]
    exact same
  have discovered := e.discoverIndirectTargets_loopView c address insn
  rw [exploreBranches] at explore
  generalize e.discoverIndirectTargets c address insn = s at discovered explore
  obtain ⟨e₁, c₁⟩ := s
  dsimp only at discovered explore
  split_ifs at explore
  · cases explore
    exact unchanged discovered
  · cases explore
    exact unchanged discovered
  · cases explore
    have scheduled := e₁.scheduleBranch_loopView c₁ address (address + size.setWidth 64)
    obtain ⟨count, followed⟩ := followBranch_loopView
      (e₁.scheduleBranch c₁ address (address + size.setWidth 64)).2.1 address insn.op1.addr
      (address + size.setWidth 64) insn
    rw [discovered] at scheduled
    injection scheduled with counts pages
    refine ⟨count, followed.trans ?_⟩
    rw [counts, pages]

/-- The hook changes no count but that of the instruction, and records no page. -/
theorem hookCode_loopView [Host] {stop : Bool}
    (hook : e.hookCode c address size stop = .ok (e', c')) :
    e'.dirtyPages = e.dirtyPages ∧
      ∀ a, a ≠ address ∨ stop = true → e'.loopIterations a = e.loopIterations a := by
  have frame {count : Option LoopState} (running : stop = false)
      (view : e'.loopView = ⟨Function.update e.loopIterations address count, e.dirtyPages⟩) :
      e'.dirtyPages = e.dirtyPages ∧
        ∀ a, a ≠ address ∨ stop = true → e'.loopIterations a = e.loopIterations a := by
    injection view with counts pages
    refine ⟨pages, fun a other => ?_⟩
    rw [running] at other
    rw [counts, Function.update_of_ne (other.resolve_right Bool.false_ne_true)]
  rcases hookCode_cases hook with ⟨-, rfl, -⟩ | ⟨insn, heeded, -, executed⟩
  · exact ⟨rfl, fun _ _ => rfl⟩
  have running : stop = false := (Bool.or_eq_false_iff.mp heeded).1
  have same (view : e'.loopView = e.loopView) : e'.dirtyPages = e.dirtyPages ∧
      ∀ a, a ≠ address ∨ stop = true → e'.loopIterations a = e.loopIterations a := by
    injection view with counts pages
    exact ⟨pages, fun a _ => congrFun counts a⟩
  cases executed with
  | skipped => exact same rfl
  | handled _ scanned => exact same scanned.loopView_eq
  | called _ scanned _ call =>
    obtain ⟨u, heap, -, result, -⟩ := handleCall_cases call
    exact same (result.loopView_eq.trans scanned.loopView_eq)
  | explored _ scanned _ _ explore =>
    obtain ⟨count, view⟩ := exploreBranches_loopView explore
    obtain ⟨found, rfl⟩ := scanned.exists_stringList
    exact frame running view

/-- What the hook does at a branch backwards in a run with a limit. -/
theorem hookCode_backward [Host] (decoded : e.tryGetInsn address = some insn)
    (branch : isBranch insn.itype = true) (backward : insn.op1.addr ≤ address)
    (limited : e.loopIterationLimit ≠ 0)
    (hook : e.hookCode c address size false = .ok (e', c')) :
    e'.engine = (if e.Redirects address insn.op1.addr then
        regWrite e.engine .rip (address + size.setWidth 64) else e.engine) ∧
      e'.loopIterations address = if e.Redirects address insn.op1.addr then none
        else some ⟨e.nextHits address insn.op1.addr, insn.op1.addr⟩ := by
  obtain ⟨e₁, scanned, rfl⟩ := hookCode_branch decoded branch hook
  obtain ⟨found, rfl⟩ := scanned.exists_stringList
  obtain ⟨branches, c₁, -, scheduled, -⟩ := scheduleBranch_cases
    { e with stringList := found } (countInsn c) address (address + size.setWidth 64)
  rw [scheduled]
  -- Neither the strings nor the branches enter the decision.
  exact followBranch_backward { e with stringList := found, branches := branches } backward limited
    (address + size.setWidth 64) insn

end Hooks

/-- A store records its pages if writes are tracked; the rest of it is about mappings and
memory. -/
theorem guestStore_loopView {done : Bool} {address : Addr} {bytes : List Byte}
    (nonempty : bytes ≠ []) (stored : e.guestStore address bytes = .ok (done, e')) :
    e'.loopIterations = e.loopIterations ∧
      (e.enableWriteTracking = true ∧ recordWrite e.dirtyPages address
          (BitVec.ofNat 64 bytes.length) = .ok e'.dirtyPages ∨
        e.enableWriteTracking = false ∧ e'.dirtyPages = e.dirtyPages) := by
  obtain ⟨e₀, e₁, hooked, maps, result⟩ := guestStore_cases stored
  have view : e'.loopView = e₀.loopView := by
    rcases result with ⟨-, rfl⟩ | ⟨-, -, rfl⟩
    · exact maps.loopView_eq
    · exact maps.loopView_eq
  injection view with counts pages
  cases tracking : e.enableWriteTracking with
  | true =>
    rw [if_pos tracking] at hooked
    obtain ⟨dirtyPages, recorded, rfl⟩ := hookMemWrite_cases hooked
    rw [if_pos (List.length_pos_iff.mpr nonempty)] at recorded
    exact ⟨counts, .inl ⟨rfl, pages ▸ recorded⟩⟩
  | false =>
    rw [if_neg (Bool.eq_false_iff.mp tracking)] at hooked
    cases hooked
    exact ⟨counts, .inr ⟨rfl, pages⟩⟩

end Emulator

/-! ### Executions of a branch -/

/-- The hook meets the instruction at the address, and the stop flag is not set. -/
def RunEvent.executes (a : Addr) : RunEvent U → Bool
  | .code address _ stop => address = a && !stop
  | _ => false

/-- The step is a store by an emulated instruction. Only for these the write hook is called: what
the handler and the stubs write through the host is not among them. -/
def RunEvent.isStore : RunEvent U → Bool
  | .store _ _ => true
  | _ => false

/-- The executions of the instruction at an address, latest first, each with the state
before it and the steps before it. -/
def executions (a : Addr) : Past U → List ((Counters × RunState U) × Past U)
  | [] => []
  | (s, event) :: past =>
    if event.executes a then (s, past) :: executions a past else executions a past

section Steps

variable [Host] {s s' : Counters × RunState U} {event : RunEvent U} {a : Addr}

/-- Only the hook changes counts, and only a store makes pages dirty. -/
theorem RunStep.loopView_cases (step : RunStep event s s') :
    s'.2.emulator.loopView = s.2.emulator.loopView ∨
      (∃ address size stop, event = .code address size stop ∧
        s'.2.emulator.dirtyPages = s.2.emulator.dirtyPages ∧
        ∀ a, a ≠ address ∨ stop = true →
          s'.2.emulator.loopIterations a = s.2.emulator.loopIterations a) ∨
      ∃ address bytes, event = .store address bytes ∧
        s'.2.emulator.loopIterations = s.2.emulator.loopIterations ∧
        s.2.emulator.dirtyPages ⊆ s'.2.emulator.dirtyPages := by
  cases step with
  | @enter c r stop here =>
    rw [RunState.enterSlice]
    split_ifs <;> exact .inl rfl
  | code address size stop here hook =>
    exact .inr (.inl ⟨address, size, stop, rfl, Emulator.hookCode_loopView hook⟩)
  | store address bytes here nonempty small stored =>
    obtain ⟨counts, pages⟩ := Emulator.guestStore_loopView nonempty stored
    refine .inr (.inr ⟨address, bytes, rfl, counts, ?_⟩)
    rcases pages with ⟨-, recorded⟩ | ⟨-, same⟩
    · exact subset_of_recordWrite recorded
    · exact same.symm.subset
  | load address size here nonempty small loaded =>
    exact .inl (Emulator.guestLoad_cases loaded).loopView_eq
  | execute => exact .inl rfl
  | leave elapsedUs here left =>
    obtain ⟨e₁, scanned, continues⟩ := RunState.leaveSlice_cases left
    obtain ⟨found, rfl⟩ := scanned.exists_stringList
    cases continues <;> exact .inl rfl
  | interfere => exact .inl rfl

/-- A count changes only when the branch is executed. -/
theorem RunStep.loopIterations_eq (step : RunStep event s s') (other : event.executes a = false) :
    s'.2.emulator.loopIterations a = s.2.emulator.loopIterations a := by
  rcases step.loopView_cases with same | ⟨address, size, stop, rfl, -, counts⟩ |
    ⟨address, bytes, -, counts, -⟩
  · injection same with counts
    exact congrFun counts a
  · apply counts
    by_cases here : a = address
    · rw [RunEvent.executes, here, decide_eq_true rfl, Bool.true_and, Bool.not_eq_false'] at other
      exact .inr other
    · exact .inl here
  · exact congrFun counts a

/-- Only a store makes pages dirty. -/
theorem RunStep.dirtyPages_eq (step : RunStep event s s') (other : event.isStore = false) :
    s'.2.emulator.dirtyPages = s.2.emulator.dirtyPages := by
  rcases step.loopView_cases with same | ⟨_, _, _, -, pages, -⟩ | ⟨_, _, rfl, -⟩
  · injection same
  · exact pages
  · cases other

/-- No step forgets a dirty page. -/
theorem RunStep.dirtyPages_subset (step : RunStep event s s') :
    s.2.emulator.dirtyPages ⊆ s'.2.emulator.dirtyPages := by
  rcases step.loopView_cases with same | ⟨_, _, _, -, pages, -⟩ | ⟨_, _, -, -, grown⟩
  · injection same with _ pages
    exact pages.symm.subset
  · exact pages.symm.subset
  · exact grown

end Steps

/-! ### Counts along a trace -/

/-- The branch at the address is a conditional branch backwards whose hits are counted. -/
structure Emulator.CountsBranch (e : Emulator U) (a : Addr) (insn : Insn) : Prop where
  decoded : e.tryGetInsn a = some insn
  branch : isBranch insn.itype = true
  backward : insn.op1.addr ≤ a
  limited : e.loopIterationLimit ≠ 0

theorem Emulator.CountsBranch.of_settings_eq {e e' : Emulator U} {a : Addr} {insn : Insn}
    (counts : e.CountsBranch a insn) (same : e'.settings = e.settings) :
    e'.CountsBranch a insn := by
  injection same with _ decoded limit
  refine ⟨?_, counts.branch, counts.backward, ?_⟩
  · rw [tryGetInsn, decoded]
    exact counts.decoded
  · rw [limit]
    exact counts.limited

/-- What is stored for a count. -/
def storedCount (taken : Addr) (n : ℕ) : Option LoopState :=
  if n = 0 then none else some ⟨BitVec.ofNat 64 n, taken⟩

/-- The allowances of the executions of a branch. -/
def allowances (a taken : Addr) (past : Past U) : List ℕ :=
  (executions a past).map fun x => (x.1.2.emulator.loopAllowance a taken).toNat

namespace Emulator

variable {e : Emulator U} {a taken : Addr} {n : ℕ}

theorem toNat_nextHits (stored : e.loopIterations a = storedCount taken n)
    (small : n + 1 < 2 ^ 64) : (e.nextHits a taken).toNat = n + 1 := by
  rw [nextHits, stored, storedCount]
  by_cases zero : n = 0
  · rw [if_pos zero, zero]
    simp
  · rw [if_neg zero]
    simp only [Option.getD_some, ne_eq, not_true_eq_false, if_false]
    have one : (1 : BitVec 64).toNat = 1 := rfl
    rw [BitVec.toNat_add, BitVec.toNat_ofNat, one, Nat.mod_eq_of_lt (Nat.lt_of_succ_lt small),
      Nat.mod_eq_of_lt small]

/-- A branch is made to fall through where the counter refuses its use. -/
theorem redirects_iff (limited : e.loopIterationLimit ≠ 0)
    (stored : e.loopIterations a = storedCount taken n) (small : n + 1 < 2 ^ 64) :
    e.Redirects a taken ↔ (e.loopAllowance a taken).toNat ≤ n + 1 := by
  rw [Redirects, and_iff_right limited, BitVec.le_def, toNat_nextHits stored small]

end Emulator

section Traces

variable [Host] {s₀ s : Counters × RunState U} {past : Past U} {a : Addr} {insn : Insn}

/-- The steps before an execution are a trace of their own. -/
theorem trace_of_mem_executions (trace : Trace RunStep s₀ past s)
    {x : (Counters × RunState U) × Past U} (member : x ∈ executions a past) :
    Trace RunStep s₀ x.2 x.1 := by
  induction trace with
  | nil => exact absurd member List.not_mem_nil
  | @snoc past t u event before next ih =>
    rw [executions] at member
    split_ifs at member
    · rcases List.mem_cons.mp member with rfl | earlier
      · exact before
      · exact ih earlier
    · exact ih member

omit [Host] in
/-- The executions listed behind an execution are those before it. -/
theorem executions_of_append {x : (Counters × RunState U) × Past U}
    {later earlier : List ((Counters × RunState U) × Past U)}
    (split : executions a past = later ++ x :: earlier) : earlier = executions a x.2 := by
  induction past generalizing later with
  | nil => simp [executions] at split
  | cons step past ih =>
    obtain ⟨t, event⟩ := step
    rw [executions] at split
    split_ifs at split
    · cases later with
      | nil =>
        injection split with here rest
        rw [← here, rest]
      | cons y later =>
        injection split with here rest
        exact ih rest
    · exact ih split

omit [Host] in
/-- The executions before an execution are executions. -/
theorem executions_subset {x : (Counters × RunState U) × Past U}
    (member : x ∈ executions a past) : executions a x.2 ⊆ executions a past := by
  obtain ⟨later, earlier, split⟩ := List.append_of_mem member
  rw [← executions_of_append split, split]
  intro y older
  exact List.mem_append_right _ (List.mem_cons_of_mem _ older)

theorem settings_of_trace (trace : Trace RunStep s₀ past s) :
    s.2.emulator.settings = s₀.2.emulator.settings :=
  trace.invariant (P := fun _ t => t.2.emulator.settings = s₀.2.emulator.settings) rfl
    fun _ _ _ _ before step => step.settings_eq.trans before

theorem mem_allowances_bounds (counts : s₀.2.emulator.CountsBranch a insn)
    (trace : Trace RunStep s₀ past s) {n : ℕ} (member : n ∈ allowances a insn.op1.addr past) :
    0 < n ∧ n < 2 ^ 64 := by
  obtain ⟨x, execution, rfl⟩ := List.mem_map.mp member
  have here := counts.of_settings_eq (settings_of_trace (trace_of_mem_executions trace execution))
  exact ⟨Emulator.toNat_loopAllowance_pos here.limited here.backward, BitVec.isLt _⟩

/-- There is room for the next hit. -/
theorem hits_allowances_lt (counts : s₀.2.emulator.CountsBranch a insn)
    (trace : Trace RunStep s₀ past s) :
    HitCounter.hits (allowances a insn.op1.addr past) + 1 < 2 ^ 64 := by
  have bounds := fun n => mem_allowances_bounds (n := n) counts trace
  cases list : allowances a insn.op1.addr past with
  | nil => decide
  | cons n rest =>
    rw [list] at bounds
    obtain ⟨positive, bounded⟩ := bounds n List.mem_cons_self
    have below := HitCounter.hits_lt rest positive
    omega

/-- The stored count of a branch is that of a counter with the allowances of the run. -/
theorem loopIterations_of_trace (counts : s₀.2.emulator.CountsBranch a insn)
    (start : s₀.2.emulator.loopIterations a = none) (trace : Trace RunStep s₀ past s) :
    s.2.emulator.loopIterations a =
      storedCount insn.op1.addr (HitCounter.hits (allowances a insn.op1.addr past)) := by
  induction trace with
  | nil => exact start
  | @snoc past t u event before next ih =>
    have here := counts.of_settings_eq (settings_of_trace before)
    have room := hits_allowances_lt counts before
    rw [allowances, executions]
    cases executed : event.executes a with
    | false =>
      rw [next.loopIterations_eq executed, if_neg Bool.false_ne_true]
      exact ih
    | true =>
      rw [if_pos rfl, List.map_cons, ← allowances]
      have decision := Emulator.redirects_iff here.limited ih room
      cases next with
      | @code c c' r _ e address size stop slice hook =>
        rw [RunEvent.executes, Bool.and_eq_true, decide_eq_true_iff, Bool.not_eq_true'] at executed
        obtain ⟨rfl, rfl⟩ := executed
        obtain ⟨-, counted⟩ := Emulator.hookCode_backward here.decoded here.branch here.backward
          here.limited hook
        dsimp only
        rw [counted]
        by_cases redirects : r.emulator.Redirects address insn.op1.addr
        · rw [if_pos redirects, HitCounter.hits_cons_of_refused (decision.mp redirects)]
          rfl
        · rw [if_neg redirects, HitCounter.hits_cons_of_not_refused (mt decision.mpr redirects),
            storedCount, if_neg (Nat.succ_ne_zero _),
            ← Emulator.toNat_nextHits (e := r.emulator) ih room, BitVec.ofNat_toNat,
            BitVec.setWidth_eq]
      | _ => cases executed

/-- Before an execution of the branch the counter decides about it. -/
theorem redirects_iff_of_mem_executions (counts : s₀.2.emulator.CountsBranch a insn)
    (start : s₀.2.emulator.loopIterations a = none) (trace : Trace RunStep s₀ past s)
    {x : (Counters × RunState U) × Past U} (member : x ∈ executions a past) :
    x.1.2.emulator.Redirects a insn.op1.addr ↔
      HitCounter.Refused (x.1.2.emulator.loopAllowance a insn.op1.addr).toNat
        (allowances a insn.op1.addr x.2) := by
  have before := trace_of_mem_executions trace member
  have here := counts.of_settings_eq (settings_of_trace before)
  exact Emulator.redirects_iff here.limited (loopIterations_of_trace counts start before)
    (hits_allowances_lt counts before)

omit [Host] in
/-- More dirty pages do not make an allowance smaller. -/
theorem Emulator.loopAllowance_mono {e e' : Emulator U} (settings : e'.settings = e.settings)
    (pages : e.dirtyPages ⊆ e'.dirtyPages) {taken : Addr} (backward : taken ≤ a) :
    e.loopAllowance a taken ≤ e'.loopAllowance a taken := by
  injection settings with _ _ limit _ _ tracking
  have base : e.baseAllowance ≤ e'.baseAllowance := by
    rw [baseAllowance, baseAllowance, limit, tracking]
    by_cases raised : e.enableWriteTracking = true ∧ hasDirty e.dirtyPages = true
    · have still : hasDirty e'.dirtyPages = true := by
        have nonempty : e.dirtyPages ≠ ∅ := of_decide_eq_true raised.2
        apply decide_eq_true
        intro empty
        exact nonempty (Finset.subset_empty.mp (empty ▸ pages))
      rw [if_pos raised, if_pos ⟨raised.1, still⟩]
    · rw [if_neg raised]
      split_ifs
      · exact le_max_left _ _
      · exact le_rfl
  rw [BitVec.le_def, toNat_loopAllowance e backward, toNat_loopAllowance e' backward]
  omega

theorem dirtyPages_subset_of_mem_executions (trace : Trace RunStep s₀ past s)
    {x : (Counters × RunState U) × Past U} (member : x ∈ executions a past) :
    x.1.2.emulator.dirtyPages ⊆ s.2.emulator.dirtyPages := by
  induction trace with
  | nil => exact absurd member List.not_mem_nil
  | @snoc past t u event before next ih =>
    rw [executions] at member
    split_ifs at member
    · rcases List.mem_cons.mp member with rfl | earlier
      · exact next.dirtyPages_subset
      · exact (ih earlier).trans next.dirtyPages_subset
    · exact (ih member).trans next.dirtyPages_subset

/-- The allowance of an execution is not above the allowance in a later state. -/
theorem loopAllowance_le_of_mem_executions (trace : Trace RunStep s₀ past s) {taken : Addr}
    (backward : taken ≤ a) {x : (Counters × RunState U) × Past U}
    (member : x ∈ executions a past) :
    x.1.2.emulator.loopAllowance a taken ≤ s.2.emulator.loopAllowance a taken := by
  have settings := settings_of_trace (trace_of_mem_executions trace member)
  exact Emulator.loopAllowance_mono ((settings_of_trace trace).trans settings.symm)
    (dirtyPages_subset_of_mem_executions trace member) backward

/-! ### The law -/

omit [Host] in
/-- The largest allowance a branch can have. -/
def largestAllowance (limit : BitVec 64) (a taken : Addr) : ℕ :=
  min (max limit.toNat 2000 + (a.toNat - taken.toNat) / 4) (2 ^ 64 - 1)

omit [Host] in
theorem Emulator.loopAllowance_le_largestAllowance {e e' : Emulator U}
    (settings : e'.settings = e.settings) {taken : Addr} (backward : taken ≤ a) :
    (e'.loopAllowance a taken).toNat ≤ largestAllowance e.loopIterationLimit a taken := by
  injection settings with _ _ limit
  have base : e'.baseAllowance ≤ max e.loopIterationLimit.toNat 2000 := by
    rw [baseAllowance, limit]
    split_ifs
    · exact le_rfl
    · exact le_max_left _ _
  rw [toNat_loopAllowance e' backward, largestAllowance]
  omega

/-- What holds of a branch backwards after the steps of a run. -/
structure LimitLaw (limit : BitVec 64) (a taken : Addr) (past : Past U)
    (s : Counters × RunState U) : Prop where
  /-- The allowance is a sum of numbers that is cut off, not a sum that wraps around. -/
  saturates : ∀ x ∈ executions a past, (x.1.2.emulator.loopAllowance a taken).toNat =
    min (x.1.2.emulator.baseAllowance + (a.toNat - taken.toNat) / 4) (2 ^ 64 - 1)
  grows : (executions a past).Pairwise fun later earlier =>
    earlier.1.2.emulator.loopAllowance a taken ≤ later.1.2.emulator.loopAllowance a taken
  /-- The stored count is below the allowance of the last execution. -/
  below : ∀ count, s.2.emulator.loopIterations a = some count →
    ∃ x ∈ (executions a past).head?, count.hits < x.1.2.emulator.loopAllowance a taken
  /-- What it means that an execution is redirected. -/
  followed : ∀ x ∈ executions a past, ∀ size e c,
    x.1.2.emulator.hookCode x.1.1 a size false = .ok (e, c) →
    e.engine = if x.1.2.emulator.Redirects a taken then
      regWrite x.1.2.emulator.engine .rip (a + size.setWidth 64) else x.1.2.emulator.engine
  redirected : ∀ window, window <:+: executions a past →
    largestAllowance limit a taken ≤ window.length →
    ∃ x ∈ window, x.1.2.emulator.Redirects a taken

section Law

variable (counts : s₀.2.emulator.CountsBranch a insn)
  (start : s₀.2.emulator.loopIterations a = none) (trace : Trace RunStep s₀ past s)

include trace in
theorem pairwise_loopAllowance {taken : Addr} (backward : taken ≤ a) :
    (executions a past).Pairwise fun later earlier =>
      earlier.1.2.emulator.loopAllowance a taken ≤ later.1.2.emulator.loopAllowance a taken := by
  induction trace with
  | nil => exact .nil
  | @snoc past t u event before next ih =>
    rw [executions]
    split_ifs
    · refine .cons ?_ ih
      intro x earlier
      exact loopAllowance_le_of_mem_executions before backward earlier
    · exact ih

include counts start trace in
/-- The stored count is below the allowance of the last execution. -/
theorem hits_lt_loopAllowance {count : LoopState}
    (stored : s.2.emulator.loopIterations a = some count) :
    ∃ x ∈ (executions a past).head?,
      count.hits < x.1.2.emulator.loopAllowance a insn.op1.addr := by
  have room := hits_allowances_lt counts trace
  have bounds := fun n => mem_allowances_bounds (n := n) counts trace
  rw [loopIterations_of_trace counts start trace, storedCount] at stored
  split_ifs at stored with zero
  injection stored with stored
  rw [← stored]
  cases list : executions a past with
  | nil =>
    rw [allowances, list] at zero
    exact absurd rfl zero
  | cons x earlier =>
    refine ⟨x, rfl, ?_⟩
    rw [allowances, list, List.map_cons] at bounds room ⊢
    have below := HitCounter.hits_lt (earlier.map fun x =>
      (x.1.2.emulator.loopAllowance a insn.op1.addr).toNat) (bounds _ List.mem_cons_self).1
    rw [BitVec.lt_def, BitVec.toNat_ofNat, Nat.mod_eq_of_lt (by omega)]
    exact below

include counts start trace in
/-- Among as many consecutive executions as the largest allowance one is redirected. -/
theorem exists_redirected {window : List ((Counters × RunState U) × Past U)}
    (consecutive : window <:+: executions a past)
    (long : largestAllowance s₀.2.emulator.loopIterationLimit a insn.op1.addr ≤ window.length) :
    ∃ x ∈ window, x.1.2.emulator.Redirects a insn.op1.addr := by
  obtain ⟨later, earlier, split⟩ := consecutive
  have positive : 0 < largestAllowance s₀.2.emulator.loopIterationLimit a insn.op1.addr := by
    rw [largestAllowance]
    omega
  have bounded : ∀ n ∈ window.map fun x => (x.1.2.emulator.loopAllowance a insn.op1.addr).toNat,
      n ≤ largestAllowance s₀.2.emulator.loopIterationLimit a insn.op1.addr := by
    intro n member
    obtain ⟨x, inside, rfl⟩ := List.mem_map.mp member
    have execution : x ∈ executions a past := by
      rw [← split]
      exact List.mem_append_left _ (List.mem_append_right _ inside)
    have before := trace_of_mem_executions trace execution
    exact Emulator.loopAllowance_le_largestAllowance (settings_of_trace before) counts.backward
  obtain ⟨new, n, old, parts, refused⟩ := HitCounter.exists_refused
    (earlier.map fun x => (x.1.2.emulator.loopAllowance a insn.op1.addr).toNat) positive bounded
    (by rwa [List.length_map])
  obtain ⟨newer, rest, rfl, -, parts⟩ := List.map_eq_append_iff.mp parts
  obtain ⟨x, older, rfl, rfl, rfl⟩ := List.map_eq_cons_iff.mp parts
  refine ⟨x, List.mem_append_right _ List.mem_cons_self, ?_⟩
  -- What the counter has seen before this execution are the executions before it.
  have split : executions a past = (later ++ newer) ++ x :: (older ++ earlier) := by
    rw [← split]
    simp only [List.append_assoc, List.cons_append]
  have execution : x ∈ executions a past := by
    rw [split]
    exact List.mem_append_right _ List.mem_cons_self
  rw [redirects_iff_of_mem_executions counts start trace execution, allowances,
    ← executions_of_append split, List.map_append]
  exact refused

end Law

/-- A run starts without counts and without dirty pages, and with the limit it was given. -/
theorem startRun_loopView {e : Emulator U} {args : RunArgs} {r : RunState U}
    (started : e.startRun args = .ok r) :
    r.emulator.loopView = ⟨fun _ => none, ∅⟩ ∧
      r.emulator.loopIterationLimit = args.maxLoopIterations ∧
      r.emulator.decoded = e.decoded ∧
      r.emulator.enableWriteTracking = e.enableWriteTracking := by
  obtain ⟨e', reset, rfl⟩ := Emulator.startRun_cases started
  obtain ⟨u, heap, -, rfl⟩ := Emulator.resetForRun_cases reset
  exact ⟨rfl, rfl, rfl, rfl⟩

theorem countsBranch_of_startRun {e : Emulator U} {args : RunArgs} {r : RunState U}
    (started : e.startRun args = .ok r) (limited : args.maxLoopIterations ≠ 0)
    (decoded : e.tryGetInsn a = some insn) (branch : isBranch insn.itype = true)
    (backward : insn.op1.addr ≤ a) :
    r.emulator.CountsBranch a insn ∧ r.emulator.loopIterations a = none := by
  obtain ⟨view, limit, instructions, -⟩ := startRun_loopView started
  injection view with counts
  refine ⟨⟨?_, branch, backward, ?_⟩, congrFun counts a⟩
  · rw [Emulator.tryGetInsn, instructions]
    exact decoded
  · rwa [limit]

/-- In a run with a limit the law holds of every backward branch, after any steps. -/
theorem limitLaw_of_trace {e : Emulator U} {args : RunArgs} {r : RunState U} {c : Counters}
    (started : e.startRun args = .ok r) (limited : args.maxLoopIterations ≠ 0)
    (trace : Trace RunStep (c, r) past s) (decoded : e.tryGetInsn a = some insn)
    (branch : isBranch insn.itype = true) (backward : insn.op1.addr ≤ a) :
    LimitLaw args.maxLoopIterations a insn.op1.addr past s := by
  obtain ⟨counts, start⟩ := countsBranch_of_startRun started limited decoded branch backward
  have limit := (startRun_loopView started).2.1
  refine ⟨?_, pairwise_loopAllowance trace backward, ?_, ?_, ?_⟩
  · intro x _
    exact x.1.2.emulator.toNat_loopAllowance backward
  · intro count stored
    exact hits_lt_loopAllowance counts start trace stored
  · intro x execution size e₁ c₁ hook
    have here := counts.of_settings_eq (settings_of_trace (trace_of_mem_executions trace execution))
    exact (Emulator.hookCode_backward here.decoded branch backward here.limited hook).1
  · intro window consecutive long
    rw [← limit] at long
    exact exists_redirected counts start trace consecutive long

end Traces

namespace Example

/-- `jz 140000000h` at `140000002h`, a conditional jump backwards. -/
def loopInsn : Insn := ⟨.jz, 2, ⟨.near, 0, 0x140000000, 0⟩, .none, .none⟩

def loopDecoded : InstructionSnapshot := AList.insert 0x140000002 loopInsn ∅

/-- A run in which a loop may iterate twice. -/
def loopArgs : RunArgs := ⟨0x140000000, 0, 0, 2, true⟩

def loopStarted : RunState Machine := startedOf loopDecoded true loopArgs

theorem decoded_loopInsn : (freshOf loopDecoded true).tryGetInsn 0x140000002 = some loopInsn := rfl

/-- The loop is entered, left behind its branch, and entered again. -/
def loopTwice : List (RunEvent Machine) :=
  [.enter false, .code 0x140000000 2 false, .code 0x140000002 2 false, .code 0x140000004 2 false,
    .code 0x140000000 2 false, .code 0x140000002 2 false]

theorem exists_loopTwice : ∃ past s,
    Trace RunStep (noCounts, loopStarted) past s ∧
      (executions 0x140000002 past).map
        (fun x => (decide (x.1.2.emulator.Redirects 0x140000002 0x140000000), x.2.length)) =
        [(true, 5), (false, 2)] := by
  obtain ⟨⟨past, s⟩, performed, listed⟩ : ∃ p,
      Trace.performTrace RunEvent.perform [] (noCounts, loopStarted) loopTwice = some p ∧
      (executions 0x140000002 p.1).map
        (fun x => (decide (x.1.2.emulator.Redirects 0x140000002 0x140000000), x.2.length)) =
        [(true, 5), (false, 2)] :=
    ⟨_, rfl, by decide +kernel⟩
  exact ⟨past, s, RunEvent.trace_of_performTrace performed,
    listed⟩

end Example

theorem limitLaw_of_trace_loop : ∃ past s,
    Trace RunStep (Example.noCounts, Example.loopStarted) past s ∧
      (executions 0x140000002 past).length = 2 ∧
      LimitLaw 2 0x140000002 0x140000000 past s := by
  obtain ⟨past, s, trace, listed⟩ := Example.exists_loopTwice
  have length := congrArg List.length listed
  rw [List.length_map] at length
  have started := Example.startRun_eq_startedOf Example.loopDecoded true Example.loopArgs
  exact ⟨past, s, trace, length, limitLaw_of_trace started (by decide) trace
    Example.decoded_loopInsn rfl (by decide)⟩

end Unxorer
