import Unxorer.Emulator.Steps

/-!
# Registers at the start of a run

Before its loop `run` writes the sixteen general registers, and at the head of the loop it
writes RIP. The flags and the vector registers are those of the engine before the run, so
an emulator that has been used starts its next run with what is left of the earlier ones.

## Main definitions

* `entryRegister` — the registers in which the first slice of a run starts
* `Reused` — an emulator after any number of complete runs
* `SameRegisters` — two engines have the same registers

## Main results

* `Emulator.startRun_registers` — what the first slice starts with
* `sameRegisters_iff` — when that is what a fresh emulator starts with
-/

set_option autoImplicit false

namespace Unxorer

open Unicorn

section Generic

variable {U : Type} [Unicorn U]

/-! ### The reset -/

theorem reg_foldl_regWrite (u : U) (rs : List Reg) (value : BitVec 64) (r : Reg) :
    reg (rs.foldl (fun u r => regWrite u r value) u) r = if r ∈ rs then value else reg u r := by
  induction rs generalizing u with
  | nil => rfl
  | cons first rest ih =>
    rw [List.foldl_cons, ih, reg_regWrite]
    -- The last write of a register counts, and all writes have one value.
    by_cases later : r ∈ rest
    · rw [if_pos later, if_pos (List.mem_cons_of_mem _ later)]
    · by_cases here : r = first
      · rw [if_neg later, if_pos here, if_pos (here ▸ List.mem_cons_self)]
      · rw [if_neg later, if_neg here, if_neg (List.not_mem_cons_of_ne_of_not_mem here later)]

theorem ymm_foldl_regWrite (u : U) (rs : List Reg) (value : BitVec 64) :
    ymm (rs.foldl (fun u r => regWrite u r value) u) = ymm u := by
  induction rs generalizing u with
  | nil => rfl
  | cons first rest ih => rw [List.foldl_cons, ih, ymm_regWrite]

theorem ymm_resetRegisters (u : U) : ymm (resetRegisters u) = ymm u := by
  rw [resetRegisters, ymm_regWrite, overwriteAllRegisters, ymm_foldl_regWrite]

/-- The value of a register after the reset and the write of RIP. -/
def entryRegister (start eflags : BitVec 64) : Reg → BitVec 64
  | .rip => start
  | .eflags => eflags
  | .rsp => stackBase - 0x1000
  | _ => 0x2000

theorem reg_enter_resetRegisters (u : U) (start : Addr) :
    reg (regWrite (resetRegisters u) .rip start) = entryRegister start (reg u .eflags) := by
  funext r
  rw [reg_regWrite, resetRegisters, reg_regWrite, overwriteAllRegisters, reg_foldl_regWrite]
  cases r <;> rfl

/-- Two engines show the same vector registers and flags. -/
def SameLeftovers (u v : U) : Prop := reg u .eflags = reg v .eflags ∧ ymm u = ymm v

/-- Two engines show the same registers. -/
def SameRegisters (u v : U) : Prop := reg u = reg v ∧ ymm u = ymm v

section Kept

variable [Host] {u u' : U} {h h' : FakeHeap}

theorem FakeHeap.reset_registers (done : h.reset u = .ok (u', h')) :
    reg u' = reg u ∧ ymm u' = ymm u := by
  rcases reset_cases done with ⟨-, rfl, -⟩ | ⟨-, -, ⟨-, rfl⟩ | rfl⟩
  · exact ⟨rfl, rfl⟩
  · exact ⟨rfl, rfl⟩
  · exact ⟨reg_memWrite _ _ _, ymm_memWrite _ _ _⟩

end Kept

theorem Emulator.clearTransientMappings_registers (e : Emulator U) :
    reg e.clearTransientMappings.engine = reg e.engine ∧
      ymm e.clearTransientMappings.engine = ymm e.engine := by
  rw [clearTransientMappings]
  dsimp only
  generalize e.transientMappings = bases
  generalize e.engine = u
  induction bases generalizing u with
  | nil => exact ⟨rfl, rfl⟩
  | cons base rest ih =>
    obtain ⟨regs, vectors⟩ := ih (memUnmap u base transientMapSize.toNat)
    exact ⟨regs.trans (reg_memUnmap _ _ _), vectors.trans (ymm_memUnmap _ _ _)⟩

/-- The first slice of a run starts with the registers the reset has written, and with the
flags and vector registers of the engine before the run. -/
theorem Emulator.startRun_registers [Host] {e : Emulator U} {args : RunArgs} {r : RunState U}
    {c : Counters} {before : BitVec 64} (started : e.startRun args = .ok r)
    (entered : (r.enterSlice c false).phase = .slice before) :
    reg (r.enterSlice c false).emulator.engine =
        entryRegister args.start (reg e.engine .eflags) ∧
      ymm (r.enterSlice c false).emulator.engine = ymm e.engine := by
  obtain ⟨e', reset, rfl⟩ := startRun_cases started
  obtain ⟨u, heap, heapReset, rfl⟩ := resetForRun_cases reset
  -- Unmapping pages and zeroing the arena change no register.
  have kept : reg u = reg e.engine ∧ ymm u = ymm e.engine := by
    have cleared := e.clearTransientMappings_registers
    split_ifs at heapReset
    · have same := FakeHeap.reset_registers heapReset
      exact ⟨same.1.trans cleared.1, same.2.trans cleared.2⟩
    · cases heapReset
      exact cleared
  rw [RunState.enterSlice_cases entered]
  refine ⟨(reg_enter_resetRegisters _ _).trans ?_, ?_⟩
  · rw [restoreMemory, reg_storeBytes, reg_storeBytes, kept.1]
  · change ymm (regWrite (resetRegisters (restoreMemory u e.image)) .rip args.start) = _
    rw [ymm_regWrite, ymm_resetRegisters, restoreMemory, ymm_storeBytes, ymm_storeBytes, kept.2]

/-! ### Emulators that have been used -/

/-- A complete run leaves the emulator behind. -/
def Emulator.FullRun [Host] (e e' : Emulator U) : Prop :=
  ∃ args c c' r r' reason, e.startRun args = .ok r ∧
    Transition.Run RunStep (fun _ _ => True) (c, r) (c', r') ∧
    r'.phase = .finished reason ∧ r'.emulator = e'

/-- An emulator after any number of complete runs, with the one that was constructed. -/
structure Reused (U : Type) [Unicorn U] [Host] where
  opened : U
  image : ImageSnapshot
  decoded : InstructionSnapshot
  config : EmulatorConfig
  fresh : Emulator U
  created : Emulator.create opened image decoded config = some fresh
  emulator : Emulator U
  history : Relation.ReflTransGen Emulator.FullRun fresh emulator

/-- The first slice of a run on a used emulator starts with the registers with which it
starts on a fresh one exactly when the earlier runs have left the flags and the vector
registers as they were. -/
theorem sameRegisters_iff [Host] (e : Reused U) {args : RunArgs} {r r₀ : RunState U}
    {c c₀ : Counters} {before before₀ : BitVec 64}
    (started : e.emulator.startRun args = .ok r) (startedFresh : e.fresh.startRun args = .ok r₀)
    (entered : (r.enterSlice c false).phase = .slice before)
    (enteredFresh : (r₀.enterSlice c₀ false).phase = .slice before₀) :
    SameRegisters (r.enterSlice c false).emulator.engine
        (r₀.enterSlice c₀ false).emulator.engine ↔
      SameLeftovers e.emulator.engine e.fresh.engine := by
  obtain ⟨regs, vectors⟩ := Emulator.startRun_registers started entered
  obtain ⟨freshRegs, freshVectors⟩ := Emulator.startRun_registers startedFresh enteredFresh
  rw [SameRegisters, SameLeftovers]
  rw [regs, vectors, freshRegs, freshVectors]
  -- All but the flags are written by the reset, so the flags decide the general part.
  refine and_congr_left fun _ => ⟨fun same => congrFun same .eflags, fun same => ?_⟩
  rw [same]

end Generic

/-! ### A vector register that survives the reset -/

namespace Example

/-- A run of the example that executes its first instruction leaves `0x2000` in XMM0, and
the next run can be started. -/
theorem reused_move : ∃ (e : Reused Machine) (r : RunState Machine), e.fresh = fresh ∧
    e.emulator.startRun ⟨0x140000000, 0, 0, 0, true⟩ = .ok r ∧
    (r.enterSlice noCounts false).phase = .slice 0 ∧ ymm e.emulator.engine 0 1 = 0x20 := by
  obtain ⟨⟨c, r⟩, performed, phase, heap, stubs, moved⟩ : ∃ s,
      Transition.performAll (fun _ _ => True) RunEvent.perform (noCounts, started 0x140000000)
        [.enter false, .code 0x140000000 4 false, .leave 0] = some s ∧
      s.2.phase = .finished .nothingPending ∧
      s.2.emulator.heap = ⟨0x140010000, 0x140010000, fun _ => none, true⟩ ∧
      s.2.emulator.enableHeapStubs = true ∧ ymm s.2.emulator.engine 0 1 = 0x20 :=
    ⟨_, rfl, rfl, rfl, rfl, by decide +kernel⟩
  have run := Transition.run_of_performAll (fun _ _ _ => RunEvent.step_of_perform) performed
  have reset := Emulator.reset_of_unused stubs heap
  exact ⟨⟨Machine.empty, image, decoded, ⟨true, true⟩, fresh, create_eq_fresh, r.emulator,
    .single ⟨_, _, _, _, r, _, startRun_eq_started 0x140000000, run, phase, rfl⟩⟩, _, rfl,
    Emulator.startRun_of_reset reset, rfl, moved⟩

end Example

theorem sameRegisters_iff_move : ∃ (e : Reused Machine) (r : RunState Machine),
    e.fresh = Example.fresh ∧ e.emulator.startRun ⟨0x140000000, 0, 0, 0, true⟩ = .ok r ∧
    (SameRegisters (r.enterSlice Example.noCounts false).emulator.engine
      ((Example.started 0x140000000).enterSlice Example.noCounts false).emulator.engine ↔
      SameLeftovers e.emulator.engine e.fresh.engine) := by
  obtain ⟨e, r, fresh, started, entered, -⟩ := Example.reused_move
  have startedFresh : e.fresh.startRun ⟨0x140000000, 0, 0, 0, true⟩ =
      .ok (Example.started 0x140000000) := fresh ▸ Example.startRun_eq_started 0x140000000
  exact ⟨e, r, fresh, started, sameRegisters_iff e started startedFresh entered rfl⟩

/-- After a run that has executed `movd xmm0, eax` the next run starts with another value
in XMM0 than a run on a fresh emulator. -/
theorem move_survives_reset : ∃ (e : Reused Machine) (r r₀ : RunState Machine),
    e.emulator.startRun ⟨0x140000000, 0, 0, 0, true⟩ = .ok r ∧
    e.fresh.startRun ⟨0x140000000, 0, 0, 0, true⟩ = .ok r₀ ∧
    (r.enterSlice Example.noCounts false).phase = .slice 0 ∧
    (r₀.enterSlice Example.noCounts false).phase = .slice 0 ∧
    ¬ SameRegisters (r.enterSlice Example.noCounts false).emulator.engine
      (r₀.enterSlice Example.noCounts false).emulator.engine := by
  obtain ⟨e, r, fresh, started, entered, moved⟩ := Example.reused_move
  have startedFresh : e.fresh.startRun ⟨0x140000000, 0, 0, 0, true⟩ =
      .ok (Example.started 0x140000000) := fresh ▸ Example.startRun_eq_started 0x140000000
  refine ⟨e, r, _, started, startedFresh, entered, rfl, fun same => ?_⟩
  have vectors := (Emulator.startRun_registers started entered).2
  have freshVectors := (Emulator.startRun_registers (c := Example.noCounts) startedFresh rfl).2
  have equal := congrFun (congrFun same.2 0) 1
  rw [vectors, freshVectors, moved, fresh] at equal
  revert equal
  decide +kernel

end Unxorer
