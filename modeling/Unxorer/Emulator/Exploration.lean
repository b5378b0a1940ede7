import Unxorer.Emulator.Targets
import Unxorer.Lib.Worklist

/-!
# The exploration of branches

A run resumes every edge of the program that a hook offers to the branch manager and that
stays inside the image, once, in a slice of its own. The branch manager is a worklist of
edges, whatever the hooks offer and in whatever order.

## Main definitions

* `BranchManager.worklist` — the branch manager as a worklist
* `ExplorationLaw` — what a run has explored

## Main results

* `RunStep.exploring` — the invariant of the explorer
* `explorationLaw_of_run` — the law, for runs without limits and stop requests
-/

set_option autoImplicit false

namespace Unxorer

open Unicorn

section Generic

variable {U : Type} [Unicorn U]

/-- The worklist of edges behind a branch manager. -/
def BranchManager.worklist {C : Type} (b : BranchManager C) : Worklist BranchKey where
  pending := b.pending.map BranchState.key
  visited := b.visited
  offered := b.log.offered
  pushed := b.log.pushed
  taken := b.log.resumed

/-- The edge stays inside the image. -/
def ImageSnapshot.Inside (image : ImageSnapshot) (key : BranchKey) : Prop :=
  isInsideImage key.target image.imageMin image.imageMax = true

instance (image : ImageSnapshot) : DecidablePred image.Inside :=
  fun _ => inferInstanceAs (Decidable (_ = true))

/-- The invariant of a branch manager during a run. -/
structure BranchManager.Exploring {C : Type} (image : ImageSnapshot)
    (decoded : InstructionSnapshot) (b : BranchManager C) : Prop where
  sound : b.worklist.Sound image.Inside
  pc : ∀ state ∈ b.pending, state.pc = state.key.target
  source : ∀ key ∈ b.log.offered, key.rip ∈ decoded

theorem BranchManager.Exploring.empty {image : ImageSnapshot} {decoded : InstructionSnapshot} :
    (BranchManager.empty : BranchManager (Context U)).Exploring image decoded where
  sound := .empty
  pc _ mem := absurd mem List.not_mem_nil
  source _ mem := absurd mem List.not_mem_nil

/-- What hooks do to the branches: they resume none, and as long as every context is saved
they keep the invariant. -/
structure BranchManager.Offers {C : Type} (image : ImageSnapshot) (decoded : InstructionSnapshot)
    (b b' : BranchManager C) : Prop where
  resumed : b'.log.resumed = b.log.resumed
  failed : b'.log.failed = [] → b.log.failed = []
  exploring : b'.log.failed = [] → b.Exploring image decoded → b'.Exploring image decoded

namespace BranchManager.Offers

variable {image : ImageSnapshot} {decoded : InstructionSnapshot}
  {b b' b'' : BranchManager (Context U)}

theorem refl (b : BranchManager (Context U)) : Offers image decoded b b := ⟨rfl, id, fun _ => id⟩

theorem trans (first : Offers image decoded b b') (second : Offers image decoded b' b'') :
    Offers image decoded b b'' where
  resumed := second.resumed.trans first.resumed
  failed saved := first.failed (second.failed saved)
  exploring saved exploring :=
    second.exploring saved (first.exploring (second.failed saved) exploring)

/-- Scheduling a branch offers its edge to the worklist. -/
theorem schedule {e : Emulator U} {source target : Addr} (executed : source ∈ decoded)
    (scheduled : e.Scheduled source target b) : Offers e.image decoded e.branches b := by
  have sources (exploring : e.branches.Exploring e.image decoded) :
      ∀ key ∈ (⟨source, target⟩ : BranchKey) :: e.branches.log.offered, key.rip ∈ decoded := by
    intro key mem
    rcases List.mem_cons.mp mem with rfl | mem
    · exact executed
    · exact exploring.source key mem
  cases scheduled with
  -- The first two ways and the last one are offers to the worklist; the third is a failed save.
  | visited seen =>
    refine ⟨rfl, id, fun _ exploring => ⟨?_, exploring.pc, sources exploring⟩⟩
    have offer := exploring.sound.offer ⟨source, target⟩
    have known : ⟨source, target⟩ ∈ e.branches.worklist.visited := seen
    rwa [Worklist.offer, if_pos known] at offer
  | outside fresh out =>
    refine ⟨rfl, id, fun _ exploring => ⟨?_, exploring.pc, sources exploring⟩⟩
    have offer := exploring.sound.offer ⟨source, target⟩
    have unknown : ⟨source, target⟩ ∉ e.branches.worklist.visited := fresh
    have outside : ¬ e.image.Inside ⟨source, target⟩ := Bool.not_eq_true _ ▸ out
    rwa [Worklist.offer, if_neg unknown, if_neg outside] at offer
  | unsaved => exact ⟨rfl, (fun saved => by cases saved), fun saved => by cases saved⟩
  | saved fresh inside ctx log logged save =>
    subst logged
    refine ⟨rfl, id, fun _ exploring => ⟨?_, ?_, sources exploring⟩⟩
    · have offer := exploring.sound.offer ⟨source, target⟩
      have unknown : ⟨source, target⟩ ∉ e.branches.worklist.visited := fresh
      have admissible : e.image.Inside ⟨source, target⟩ := inside
      rwa [Worklist.offer, if_neg unknown, if_pos admissible] at offer
    · intro state mem
      rcases List.mem_cons.mp mem with rfl | mem
      · rfl
      · exact exploring.pc state mem

/-- The instruction hook only offers edges, from an instruction that was decoded. -/
theorem hookCode [Host] {e e' : Emulator U} {c c' : Counters} {address : Addr} {size : BitVec 32}
    {stop : Bool} (hook : e.hookCode c address size stop = .ok (e', c')) :
    Offers e.image e.decoded e.branches e'.branches := by
  have after := Emulator.branches_of_hookCode hook
  generalize e'.branches = b at after ⊢
  cases after with
  | kept => exact refl _
  | @offered insn target b running decoded leads scheduled =>
    have source : address ∈ e.decoded :=
      AList.lookup_isSome.mp (Option.isSome_iff_exists.mpr ⟨insn, decoded⟩)
    exact schedule source scheduled

end BranchManager.Offers

/-! ### Taking a branch -/

theorem BranchManager.pending_of_takeNext {b : BranchManager (Context U)}
    (empty : b.takeNext = none) : b.pending = [] := by
  have none := takeNext_eq_none.mp empty
  simpa [hasPending] using none

/-- Taking a branch is taking the top of the worklist. -/
theorem BranchManager.take_of_takeNext {b b' : BranchManager (Context U)}
    {state : BranchState (Context U)} (taken : b.takeNext = some (state, b')) :
    b.worklist.take = some (state.key, b'.worklist) ∧ b.pending = state :: b'.pending ∧
      b'.log.resumed = state.key :: b.log.resumed ∧ b'.log.failed = b.log.failed := by
  rw [takeNext] at taken
  split at taken
  · cases taken
  rename_i top rest pending
  cases taken
  refine ⟨?_, pending, rfl, rfl⟩
  simp only [Worklist.take, worklist, pending, List.map_cons]

/-- What taking a branch does: its edge is logged as resumed, and the branch leads to the
target of the edge. -/
structure BranchManager.Takes (image : ImageSnapshot) (decoded : InstructionSnapshot)
    (b : BranchManager (Context U)) (state : BranchState (Context U))
    (b' : BranchManager (Context U)) : Prop where
  resumed : b'.log.resumed = state.key :: b.log.resumed
  failed : b'.log.failed = b.log.failed
  exploring : b.Exploring image decoded → b'.Exploring image decoded
  pc : b.Exploring image decoded → state.pc = state.key.target

theorem BranchManager.takes_of_takeNext (image : ImageSnapshot) (decoded : InstructionSnapshot)
    {b b' : BranchManager (Context U)} {state : BranchState (Context U)}
    (taken : b.takeNext = some (state, b')) : b.Takes image decoded state b' := by
  obtain ⟨take, pending, resumed, failed⟩ := take_of_takeNext taken
  refine ⟨resumed, failed, fun exploring => ⟨exploring.sound.take take, fun other mem => ?_, ?_⟩,
    fun exploring => ?_⟩
  · apply exploring.pc other
    rw [pending]
    exact List.mem_cons_of_mem _ mem
  · have offered : b'.log.offered = b.log.offered :=
      congrArg Worklist.offered (Worklist.take_eq_some take).2
    rw [offered]
    exact exploring.source
  · apply exploring.pc state
    rw [pending]
    exact List.mem_cons_self

/-! ### Runs -/

/-- Something asks the run to stop. -/
def RunEvent.stopRequested : RunEvent U → Bool
  | .enter stop => stop
  | .code _ _ stop => stop
  | _ => false

namespace RunState

/-- No context save and no restore has failed so far. -/
structure Succeeds (r : RunState U) : Prop where
  saved : r.emulator.branches.log.failed = []
  restored : r.phase ≠ .finished .restoreFailed

/-- The invariant of a run without limits: one slice has been entered for the start and one
for each branch resumed, and the run ends with nothing pending. -/
structure Exploring (image : ImageSnapshot) (decoded : InstructionSnapshot) (start : Addr)
    (r : RunState U) : Prop where
  program : r.emulator.image = image ∧ r.emulator.decoded = decoded
  unlimited : r.limitTime = false ∧ r.limitInstr = false
  branches : r.emulator.branches.Exploring image decoded
  slices : r.slices = r.emulator.branches.log.resumed.length + if r.phase = .head then 0 else 1
  entry : r.entry = (r.emulator.branches.log.resumed.head?.map BranchKey.target).getD start
  finished : ∀ reason, r.phase = .finished reason → r.emulator.branches.pending = []

variable {image : ImageSnapshot} {decoded : InstructionSnapshot} {start : Addr} {r r' : RunState U}

/-- A restore can only have failed in a run that has ended. -/
theorem Succeeds.ofSlice {before : BitVec 64} (here : r.phase = .slice before)
    (saved : r.emulator.branches.log.failed = []) : r.Succeeds := by
  refine ⟨saved, ?_⟩
  rw [here]
  exact Phase.noConfusion

theorem Exploring.enterSlice (exploring : r.Exploring image decoded start) (here : r.phase = .head)
    (c : Counters) : (r.enterSlice c false).Exploring image decoded start := by
  obtain ⟨time, instr⟩ := exploring.unlimited
  have enters : r.enterSlice c false = { r with
      emulator := { r.emulator with engine := regWrite r.emulator.engine .rip r.entry }
      phase := .slice c.instructionsExecuted
      slices := r.slices + 1
      faulted := false } := by
    simp only [RunState.enterSlice, time, instr, Bool.false_eq_true, if_false, false_and, or_self]
  rw [enters]
  have slices := exploring.slices
  rw [if_pos here, Nat.add_zero] at slices
  exact ⟨exploring.program, exploring.unlimited, exploring.branches,
    congrArg (· + 1) slices, exploring.entry, fun _ done => by cases done⟩

/-- Within a slice the hooks may offer edges. -/
theorem Exploring.inSlice {before : BitVec 64} {e : Emulator U} {faulted : Bool}
    (exploring : r.Exploring image decoded start) (here : r.phase = .slice before)
    (settings : e.settings = r.emulator.settings)
    (offers : BranchManager.Offers image decoded r.emulator.branches e.branches)
    (saved : e.branches.log.failed = []) :
    ({ r with emulator := e, faulted } : RunState U).Exploring image decoded start where
  program :=
    ⟨(congrArg Emulator.Settings.image settings).trans exploring.program.1,
      (congrArg Emulator.Settings.decoded settings).trans exploring.program.2⟩
  unlimited := exploring.unlimited
  branches := offers.exploring saved exploring.branches
  slices := by
    rw [offers.resumed]
    exact exploring.slices
  entry := by
    rw [offers.resumed]
    exact exploring.entry
  finished reason done := by
    change r.phase = _ at done
    rw [here] at done
    cases done

/-- At the end of a slice a branch is taken, or none is left. -/
theorem Continues.exploring {before : BitVec 64} (continues : Continues r r')
    (here : r.phase = .slice before) (exploring : r.Exploring image decoded start)
    (succeeds : r'.Succeeds) : r'.Exploring image decoded start := by
  -- The slice that ends has been counted for the branch resumed before it, or for the start.
  have slices := exploring.slices
  rw [here, if_neg Phase.noConfusion] at slices
  cases continues with
  | nothingPending empty =>
    refine ⟨exploring.program, exploring.unlimited, exploring.branches, ?_, exploring.entry,
      fun _ _ => BranchManager.pending_of_takeNext empty⟩
    exact slices
  | restoreFailed => exact absurd rfl succeeds.restored
  | @resumed state branches u taken restored =>
    have takes := BranchManager.takes_of_takeNext image decoded taken
    refine ⟨exploring.program, exploring.unlimited, takes.exploring exploring.branches, ?_, ?_,
      fun _ done => by cases done⟩
    · change r.slices = branches.log.resumed.length + if Phase.head = Phase.head then 0 else 1
      rw [takes.resumed, slices, if_pos rfl, List.length_cons]
    · change state.pc = (branches.log.resumed.head?.map BranchKey.target).getD start
      rw [takes.resumed, takes.pc exploring.branches]
      rfl

theorem Continues.succeeds {before : BitVec 64} (continues : Continues r r')
    (here : r.phase = .slice before) (succeeds : r'.Succeeds) : r.Succeeds := by
  apply Succeeds.ofSlice here
  have saved := succeeds.saved
  cases continues with
  | nothingPending => exact saved
  | restoreFailed taken =>
    rwa [← (BranchManager.takes_of_takeNext r.emulator.image r.emulator.decoded taken).failed]
  | resumed taken =>
    rwa [← (BranchManager.takes_of_takeNext r.emulator.image r.emulator.decoded taken).failed]

end RunState

/-- Every step of a run that nobody stops keeps the invariant, as long as saves and
restores succeed. -/
theorem RunStep.exploring [Host] {image : ImageSnapshot} {decoded : InstructionSnapshot}
    {start : Addr} {event : RunEvent U} {s s' : Counters × RunState U}
    (step : RunStep event s s') (unstopped : event.stopRequested = false)
    (invariant : s.2.Succeeds → s.2.Exploring image decoded start) (succeeds : s'.2.Succeeds) :
    s'.2.Exploring image decoded start := by
  have settings := step.settings_eq
  -- Only the instruction hook and the end of a slice touch the branches.
  cases step with
  | @enter c r stop here =>
    cases unstopped
    refine (invariant ⟨?_, by rw [here]; exact Phase.noConfusion⟩).enterSlice here c
    have saved := succeeds.saved
    rw [RunState.enterSlice] at saved
    split_ifs at saved <;> exact saved
  | code address size stop here hook =>
    have offers := BranchManager.Offers.hookCode hook
    have before := invariant (.ofSlice here (offers.failed succeeds.saved))
    rw [before.program.1, before.program.2] at offers
    exact before.inSlice here settings offers succeeds.saved
  | store address bytes here nonempty small stored =>
    have kept := (Emulator.guestStore_kept stored).2
    have saved := succeeds.saved
    have before := invariant (.ofSlice here (kept ▸ saved))
    exact before.inSlice here settings (kept ▸ .refl _) saved
  | load address size here nonempty small loaded =>
    have kept := (Emulator.guestLoad_cases loaded).branches_eq
    have saved := succeeds.saved
    have before := invariant (.ofSlice here (kept ▸ saved))
    exact before.inSlice here settings (kept ▸ .refl _) saved
  | execute u here memory mappings =>
    have before := invariant (.ofSlice here succeeds.saved)
    exact before.inSlice here settings (.refl _) succeeds.saved
  | @leave c r r' instrBefore elapsedUs here left =>
    obtain ⟨e₁, scanned, continues⟩ := RunState.leaveSlice_cases left
    obtain ⟨found, rfl⟩ := scanned.exists_stringList
    have charged := continues.succeeds here succeeds
    have before := invariant (.ofSlice here charged.saved)
    refine continues.exploring here ?_ succeeds
    exact ⟨before.program, before.unlimited, before.branches, before.slices, before.entry,
      before.finished⟩
  | interfere => exact invariant succeeds

/-! ### The law -/

/-- The edges that start at a decoded instruction and stay inside the image are at most
as many as there are pairs of a decoded instruction and an address of the image. -/
theorem card_inside_le {image : ImageSnapshot} {decoded : InstructionSnapshot}
    {offered : List BranchKey} (source : ∀ key ∈ offered, key.rip ∈ decoded) :
    (offered.toFinset.filter image.Inside).card ≤
      decoded.keys.length * (image.imageMax.toNat - image.imageMin.toNat) := by
  -- An edge is determined by its source and its target.
  have bound : (decoded.keys.toFinset ×ˢ
      Finset.Ico image.imageMin.toNat image.imageMax.toNat).card ≤
        decoded.keys.length * (image.imageMax.toNat - image.imageMin.toNat) := by
    rw [Finset.card_product, Nat.card_Ico]
    exact Nat.mul_le_mul_right _ (List.toFinset_card_le _)
  refine (Finset.card_le_card_of_injOn (fun key => (key.rip, key.target.toNat)) ?_ ?_).trans bound
  · intro key mem
    obtain ⟨mem, inside⟩ := Finset.mem_filter.mp mem
    have within := Bool.and_eq_true_iff.mp (show isInsideImage _ _ _ = true from inside)
    refine Finset.mem_product.mpr ⟨?_, Finset.mem_Ico.mpr ?_⟩
    · exact List.mem_toFinset.mpr (AList.mem_keys.mp (source key (List.mem_toFinset.mp mem)))
    · exact ⟨of_decide_eq_true within.1, of_decide_eq_true within.2⟩
  · intro key _ other _ same
    obtain ⟨sources, targets⟩ := Prod.mk.inj same
    exact BranchKey.ext sources (BitVec.eq_of_toNat_eq targets)

/-- What is expected of the exploration of branches by a run: no edge is pushed twice,
slices after the first start at targets inside the image, their number is bounded, and
when the run has ended every edge that was offered and stays inside the image has been
resumed once, in a slice of its own. -/
structure ExplorationLaw (image : ImageSnapshot) (decoded : InstructionSnapshot) (start : Addr)
    (r : RunState U) : Prop where
  pushed : r.emulator.branches.log.pushed.Nodup
  inside : ∀ key ∈ r.emulator.branches.log.resumed, image.Inside key
  entry : r.entry = (r.emulator.branches.log.resumed.head?.map BranchKey.target).getD start
  bounded : r.slices ≤
    1 + decoded.keys.length * (image.imageMax.toNat - image.imageMin.toNat)
  once : ∀ reason, r.phase = .finished reason → ∀ key ∈ r.emulator.branches.log.offered,
    image.Inside key → r.emulator.branches.log.resumed.count key = 1
  slices : ∀ reason, r.phase = .finished reason →
    r.slices = 1 + (r.emulator.branches.log.offered.toFinset.filter image.Inside).card

theorem RunState.Exploring.law {image : ImageSnapshot} {decoded : InstructionSnapshot}
    {start : Addr} {r : RunState U} (exploring : r.Exploring image decoded start) :
    ExplorationLaw image decoded start r := by
  have sound := exploring.branches.sound
  have entered : r.slices ≤ r.emulator.branches.log.resumed.length + 1 := by
    rw [exploring.slices]
    split_ifs <;> omega
  have edges := sound.length_taken_le.trans (card_inside_le exploring.branches.source)
  have empty {reason : StopReason} (finished : r.phase = .finished reason) :
      r.emulator.branches.worklist.pending = [] :=
    List.map_eq_nil_iff.mpr (exploring.finished reason finished)
  refine ⟨sound.nodup, fun key taken => (sound.of_mem_taken taken).2, exploring.entry, ?_, ?_, ?_⟩
  -- Each slice but the first belongs to a branch taken from the worklist.
  · have resumed : r.emulator.branches.log.resumed.length ≤
        decoded.keys.length * (image.imageMax.toNat - image.imageMin.toNat) := edges
    omega
  · intro reason finished key offered inside
    exact sound.count_taken (empty finished) offered inside
  · intro reason finished
    have resumed : r.emulator.branches.log.resumed.length =
        (r.emulator.branches.log.offered.toFinset.filter image.Inside).card :=
      sound.length_taken (empty finished)
    rw [exploring.slices, finished, if_neg Phase.noConfusion, resumed, Nat.add_comm]

/-- In a run without limits and stop requests in which contexts are saved and restored,
the exploration of branches follows the law at every point. -/
theorem explorationLaw_of_run [Host] {e : Emulator U} {args : RunArgs} {c c' : Counters}
    {r₀ r : RunState U} (started : e.startRun args = .ok r₀)
    (unlimited : args.maxTimeMs = 0 ∧ args.maxInstr = 0)
    (run : Transition.Run RunStep (fun _ event => event.stopRequested = false) (c, r₀) (c', r))
    (succeeds : r.Succeeds) : ExplorationLaw e.image e.decoded args.start r := by
  have initial : r₀.Exploring e.image e.decoded args.start := by
    obtain ⟨e', reset, rfl⟩ := Emulator.startRun_cases started
    obtain ⟨u, heap, -, rfl⟩ := Emulator.resetForRun_cases reset
    exact ⟨⟨rfl, rfl⟩, by simp [unlimited], .empty, rfl, rfl, fun _ done => by cases done⟩
  have invariant := run.invariant
    (P := fun s => s.2.Succeeds → s.2.Exploring e.image e.decoded args.start)
    (fun _ => initial) fun event s s' holds unstopped step => step.exploring unstopped holds
  exact (invariant succeeds).law

end Generic

/-- A run from the conditional jump of the example resumes the branch that falls through. -/
theorem explorationLaw_of_run_jump : ∃ r : RunState Machine,
    r.phase = .finished .nothingPending ∧ r.slices = 2 ∧
      ExplorationLaw Example.image Example.decoded 0x140000012 r := by
  obtain ⟨⟨c, r⟩, performed, saved, phase, slices⟩ :
      ∃ s, Transition.performAll (fun _ event => event.stopRequested = false) RunEvent.perform
          (Example.noCounts, Example.started 0x140000012)
          [.enter false, .code 0x140000012 2 false, .leave 0, .enter false, .leave 0] = some s ∧
        s.2.emulator.branches.log.failed = [] ∧ s.2.phase = .finished .nothingPending ∧
        s.2.slices = 2 := ⟨_, rfl, rfl, rfl, rfl⟩
  have run : Transition.Run RunStep (fun _ event => event.stopRequested = false)
      (Example.noCounts, Example.started 0x140000012) (c, r) :=
    Transition.run_of_performAll (fun _ _ _ => RunEvent.step_of_perform) performed
  exact ⟨r, phase, slices, explorationLaw_of_run (Example.startRun_eq_started 0x140000012)
    ⟨rfl, rfl⟩ run ⟨saved, by rw [phase]; decide⟩⟩

end Unxorer
