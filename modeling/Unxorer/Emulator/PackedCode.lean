import Unxorer.Emulator.Steps
import Unxorer.Vector.Programs

/-!
# Packed code in a run

The instruction hook carries out one packed instruction after the other: each time it moves RIP
behind the instruction, and Unicorn goes on from there. Over such a stretch of a run the engine
goes through the states of the packed machine, whatever the other emulators do meanwhile, and
of the emulator's own state only the found strings change.

## Main definitions

* `Loaded` — the snapshot holds the instructions of a straight line
* `InLine` — the hook is called at RIP, or another emulator does something
* `PackedLaw` — where the run stands in the straight line

## Main results

* `Emulator.hookCode_encodes` — the hook takes the step of the packed machine
* `packedLaw_of_trace` — a stretch of the run carries out the straight line
-/

set_option autoImplicit false

namespace Unxorer

open Unicorn InstructionClassifier Transition
open PackedMachine (Step Runs Program)

variable {U : Type} [Unicorn U]

/-! ### One instruction -/

/-- The handler is called for the instructions of its groups. -/
theorem shouldHandle_of_group {itype : Itype}
    (group : Handler.isMove itype = true ∨ Handler.isBinary itype = true ∨
      Handler.isShift itype = true ∨ Handler.isAes itype = true ∨ itype = .vzeroupper) :
    shouldHandle itype = true := by
  simp only [Handler.isMove, Handler.isBinary, Handler.isShift, Handler.isAes,
    List.elem_iff] at group
  rcases group with move | two | shift | aes | rfl
  · revert itype
    decide +kernel
  · revert itype
    decide +kernel
  · revert itype
    decide +kernel
  · revert itype
    decide +kernel
  · rfl

theorem Encodes.shouldHandle {insn : Insn}
    {instruction : PackedMachine.Instruction (Fin 16) General}
    (encodes : Encodes insn instruction) : shouldHandle insn.itype = true := by
  apply shouldHandle_of_group
  cases encodes with
  | packed known => exact .inr (.inl (isBinary_of_operation known))
  | shift known => exact .inr (.inr (.inl (Handler.isShift_of_packedShift known)))
  | round known => exact .inr (.inr (.inr (.inl (Handler.isAes_of_standardRound known))))
  | inverseMix itype => exact .inr (.inr (.inr (.inl (by rw [itype]; rfl))))
  | load full | store full => exact .inl (isMove_of_isFullMove full)
  | insertGeneral itype | insertMemory itype =>
    exact .inl (moveSize_of_isScalarMove (Handler.isScalarMove_of_legacy itype)).1
  | clearUpper itype => exact .inr (.inr (.inr (.inr itype)))

/-- What the handler is called for is neither skipped nor a call. -/
theorem plain_of_shouldHandle {itype : Itype} (handle : shouldHandle itype = true) :
    shouldSkip itype = false ∧ isCallOrRet itype = false := by
  rw [InstructionClassifier.shouldHandle, List.elem_iff] at handle
  revert itype
  decide +kernel

namespace Emulator

variable [Host]

/-- Nothing can go wrong in the scans before an instruction that is no call or return. -/
theorem exists_dumpBefore (e : Emulator U) {itype : Itype} (plain : isCallOrRet itype = false) :
    ∃ e', e.dumpBefore itype = .ok e' := by
  rw [dumpBefore, plain]
  split_ifs <;> first | exact ⟨_, rfl⟩ | contradiction

/-- The hook takes the step of the packed machine, and finds strings. -/
theorem hookCode_encodes {e : Emulator U} {c : Counters} {insn : Insn}
    {instruction : PackedMachine.Instruction (Fin 16) General}
    {t : PackedMachine.State (Fin 16) General}
    (fetched : e.tryGetInsn (reg e.engine .rip) = some insn) (encodes : Encodes insn instruction)
    (step : Step instruction (view e.engine) t) (size : BitVec 32) :
    ∃ u found,
      e.hookCode c (reg e.engine .rip) size false =
        .ok ({ e with engine := u, stringList := found }, countInsn c) ∧
      view u = t.advance (insn.size.setWidth 64) := by
  have handle := encodes.shouldHandle
  obtain ⟨skip, plain⟩ := plain_of_shouldHandle handle
  obtain ⟨e', scanned⟩ := e.exists_dumpBefore plain
  obtain ⟨found, rfl⟩ := (SameButStrings.before scanned).exists_stringList
  have length : (insn.size.setWidth 32).setWidth 64 = insn.size.setWidth 64 := by
    apply BitVec.eq_of_toNat_eq
    simp only [BitVec.toNat_setWidth]
    omega
  refine ⟨Handler.handle e.engine (reg e.engine .rip) (insn.size.setWidth 32) insn, found, ?_, ?_⟩
  · simp only [hookCode, Bool.false_eq_true, if_false, fetched, skip, scanned, handle, if_true]
    rfl
  · rw [← length]
    exact Handler.view_handle _ encodes rfl step

end Emulator

/-! ### A straight line -/

/-- The snapshot holds the instructions of a straight line, from an address on. -/
inductive Loaded (decoded : InstructionSnapshot) : Addr → Program (Fin 16) General → Prop
  | nil {a : Addr} : Loaded decoded a []
  | cons {a : Addr} {insn : Insn} {instruction : PackedMachine.Instruction (Fin 16) General}
      {program : Program (Fin 16) General} (fetched : decoded.lookup a = some insn)
      (encodes : Encodes insn instruction)
      (rest : Loaded decoded (a + insn.size.setWidth 64) program) :
      Loaded decoded a ((instruction, insn.size.setWidth 64) :: program)

/-- The instruction hook is called at RIP and sees no request to stop, or another emulator
advances the shared counters. -/
def InLine (p : (Counters × RunState U) × RunEvent U) : Prop :=
  match p.2 with
  | .code address _ stop => address = reg p.1.2.emulator.engine .rip ∧ stop = false
  | .interfere _ => True
  | _ => False

def RunEvent.isCode : RunEvent U → Bool
  | .code .. => true
  | _ => false

/-- The number of calls of the instruction hook. -/
def hooked (past : Past U) : ℕ := past.countP fun p => p.2.isCode

theorem hooked_cons (s : Counters × RunState U) (event : RunEvent U) (past : Past U) :
    hooked ((s, event) :: past) = hooked past + if event.isCode then 1 else 0 :=
  List.countP_cons

/-- What is left of a straight line leads from where the engine is to the final state. Nothing
else in the run has changed but the found strings, and the hook goes on. -/
structure PackedLaw [Host] (program : Program (Fin 16) General)
    (final : PackedMachine.State (Fin 16) General) (r : RunState U) (past : Past U)
    (s : Counters × RunState U) : Prop where
  remaining : Runs (program.drop (hooked past)) (view s.2.emulator.engine) final
  done : hooked past = program.length → view s.2.emulator.engine = final
  others : ∃ u found, s.2 = { r with emulator := { r.emulator with
    engine := u, stringList := found } }
  proceeds : hooked past < program.length → ∀ size, ∃ e c,
    s.2.emulator.hookCode s.1 (reg s.2.emulator.engine .rip) size false = .ok (e, c)

/-- What the trace keeps: the rest of the straight line is loaded at RIP and leads to the final
state. -/
structure Standing (program : Program (Fin 16) General)
    (final : PackedMachine.State (Fin 16) General) (r : RunState U) (past : Past U)
    (s : Counters × RunState U) : Prop where
  remaining : Runs (program.drop (hooked past)) (view s.2.emulator.engine) final
  loaded : Loaded r.emulator.decoded (reg s.2.emulator.engine .rip) (program.drop (hooked past))
  others : ∃ u found, s.2 = { r with emulator := { r.emulator with
    engine := u, stringList := found } }

namespace Standing

variable [Host] {program : Program (Fin 16) General} {final : PackedMachine.State (Fin 16) General}
  {r : RunState U} {past : Past U} {s s' : Counters × RunState U} {event : RunEvent U}

/-- As long as there is an instruction left, the hook takes its step. -/
theorem proceeds (standing : Standing program final r past s)
    (more : hooked past < program.length) (size : BitVec 32) :
    ∃ u found, s.2.emulator.hookCode s.1 (reg s.2.emulator.engine .rip) size false =
        .ok ({ s.2.emulator with engine := u, stringList := found }, Emulator.countInsn s.1) ∧
      Runs (program.drop (hooked past + 1)) (view u) final ∧
      Loaded r.emulator.decoded (reg u .rip) (program.drop (hooked past + 1)) := by
  obtain ⟨remaining, loaded, u, found, same⟩ := standing
  have decoded : s.2.emulator.decoded = r.emulator.decoded := by rw [same]
  rw [List.drop_eq_getElem_cons more] at remaining loaded
  generalize program[hooked past] = step at remaining loaded
  cases loaded with
  | cons fetched encodes rest =>
    cases remaining with
    | cons now later =>
      rw [← decoded] at fetched
      obtain ⟨u', found', hook, moved⟩ :=
        Emulator.hookCode_encodes fetched encodes now (c := s.1) size
      refine ⟨u', found', hook, ?_, ?_⟩
      · rw [moved]
        exact later
      · have pc : reg u' .rip = reg s.2.emulator.engine .rip + _ :=
          (congrArg PackedMachine.State.pc moved).trans (congrArg (· + _) now.pc)
        rw [pc]
        exact rest

/-- Each call of the hook is one instruction. -/
theorem step (standing : Standing program final r past s) (line : InLine (s, event))
    (bounded : hooked ((s, event) :: past) ≤ program.length) (next : RunStep event s s') :
    Standing program final r ((s, event) :: past) s' := by
  obtain ⟨c₁, r₁⟩ := s
  cases next with
  | code address size stop here hook running =>
    obtain ⟨rfl, rfl⟩ : address = reg r₁.emulator.engine .rip ∧ stop = false := line
    rw [hooked_cons] at bounded
    obtain ⟨u, found, hook', remaining, loaded⟩ := standing.proceeds bounded size
    obtain ⟨rfl, rfl⟩ := Prod.mk.inj (Except.ok.inj (hook.symm.trans hook'))
    obtain ⟨-, -, u₀, found₀, same⟩ := standing
    refine ⟨?_, ?_, u, found, ?_⟩
    · rw [hooked_cons]
      exact remaining
    · rw [hooked_cons]
      exact loaded
    · simp only at same ⊢
      rw [same]
  | interfere c' =>
    obtain ⟨remaining, loaded, others⟩ := standing
    refine ⟨?_, ?_, others⟩
    · rw [hooked_cons]
      exact remaining
    · rw [hooked_cons]
      exact loaded
  | enter | store | load | execute | leave => exact absurd line id

theorem of_trace {c : Counters}
    (loaded : Loaded r.emulator.decoded (reg r.emulator.engine .rip) program)
    (runs : Runs program (view r.emulator.engine) final) (trace : Trace RunStep (c, r) past s)
    (line : ∀ p ∈ past, InLine p) (bounded : hooked past ≤ program.length) :
    Standing program final r past s := by
  induction trace with
  | nil => exact ⟨runs, loaded, r.emulator.engine, r.emulator.stringList, rfl⟩
  | snoc _ next ih =>
    have earlier := ih (fun p member => line p (List.mem_cons_of_mem _ member))
      ((List.sublist_cons_self _ _).countP_le.trans bounded)
    exact earlier.step (line _ List.mem_cons_self) bounded next

omit [Host] in
/-- Behind the last instruction the engine is in the final state. -/
theorem done (standing : Standing program final r past s)
    (all : hooked past = program.length) : view s.2.emulator.engine = final := by
  have runs := standing.remaining
  rw [all, List.drop_length] at runs
  cases runs
  rfl

end Standing

/-- Every stretch of a run in which the hook is called at RIP carries out the straight line that
the snapshot holds there, as far as it goes. -/
theorem packedLaw_of_trace [Host] {program : Program (Fin 16) General}
    {final : PackedMachine.State (Fin 16) General} {r : RunState U} {c : Counters} {past : Past U}
    {s : Counters × RunState U}
    (loaded : Loaded r.emulator.decoded (reg r.emulator.engine .rip) program)
    (runs : Runs program (view r.emulator.engine) final) (trace : Trace RunStep (c, r) past s)
    (line : ∀ p ∈ past, InLine p) (bounded : hooked past ≤ program.length) :
    PackedLaw program final r past s := by
  have standing := Standing.of_trace loaded runs trace line bounded
  refine ⟨standing.remaining, standing.done, standing.others, fun more size => ?_⟩
  obtain ⟨u, found, hook, -⟩ := standing.proceeds more size
  exact ⟨_, _, hook⟩

/-- There is such a stretch for every straight line that the snapshot holds at RIP. -/
theorem exists_packedTrace [Host] {program : Program (Fin 16) General}
    {final : PackedMachine.State (Fin 16) General} {r : RunState U} {before : BitVec 64}
    (c : Counters) (here : r.phase = .slice before) (running : r.faulted = false)
    (loaded : Loaded r.emulator.decoded (reg r.emulator.engine .rip) program)
    (runs : Runs program (view r.emulator.engine) final) :
    ∀ n ≤ program.length, ∃ past s, Trace RunStep (c, r) past s ∧ (∀ p ∈ past, InLine p) ∧
      hooked past = n := by
  intro n
  induction n with
  | zero => exact fun _ => ⟨[], (c, r), .nil, fun _ member => absurd member List.not_mem_nil, rfl⟩
  | succ n ih =>
    intro more
    obtain ⟨past, s, trace, line, count⟩ := ih (by omega)
    have standing := Standing.of_trace loaded runs trace line (by omega)
    obtain ⟨u', found', hook, -⟩ := standing.proceeds (by omega) 0
    have phase : s.2.phase = .slice before ∧ s.2.faulted = false := by
      obtain ⟨u, found, same⟩ := standing.others
      rw [same]
      exact ⟨here, running⟩
    refine ⟨_, _, trace.snoc (.code _ 0 false phase.1 hook phase.2), ?_, ?_⟩
    · intro p member
      rcases List.mem_cons.mp member with rfl | earlier
      · exact ⟨rfl, rfl⟩
      · exact line p earlier
    · rw [hooked_cons, count]
      rfl

/-! #### A store of a moved element -/

namespace Example

def xmm0 : Fin 16 := ⟨0, Nat.succ_pos 15⟩

theorem rax_ne_rip : Reg.rax ≠ .rip := Reg.noConfusion

theorem rbx_ne_rip : Reg.rbx ≠ .rip := Reg.noConfusion

/-- The move and the store at the start of the image. -/
def packedProgram : Program (Fin 16) General :=
  [(.insert 4 xmm0 (.general ⟨.rax, rax_ne_rip⟩), 4),
    (.store 16 ⟨.rbx, rbx_ne_rip⟩ 0x13FFFE030 xmm0, 8)]

/-- The example in its first slice. -/
def packedSlice : RunState Machine := (started 0x140000000).enterSlice noCounts false

theorem loaded_packedProgram : Loaded decoded 0x140000000 packedProgram := by
  have register : IsRegister ⟨.reg, 64, 0, 0⟩ 16 xmm0 := ⟨rfl, rfl, rfl, by decide⟩
  have fetchedMove : decoded.lookup 0x140000000 = some moveInsn := rfl
  have fetchedStore : decoded.lookup 0x140000004 = some storeInsn := rfl
  exact .cons fetchedMove (.insertGeneral (.inl rfl) register rfl rfl)
    (.cons fetchedStore (.store rfl rfl rfl register) .nil)

theorem runs_packedProgram :
    ∃ final, Runs packedProgram (view packedSlice.emulator.engine) final := by
  have mappings : ∀ j < 16, mapped engine (0x140000030 + BitVec.ofNat 64 j) = true := by
    decide +kernel
  have room : (view packedSlice.emulator.engine).Present 0x140000030 16 := mappings
  exact ⟨_, .cons (.insert (.general _ (by decide))) (.cons (.store (.vector xmm0) room) .nil)⟩

end Example

theorem packedLaw_of_trace_store : ∃ final past s,
    PackedLaw Example.packedProgram final Example.packedSlice past s ∧ hooked past = 2 := by
  obtain ⟨final, runs⟩ := Example.runs_packedProgram
  obtain ⟨past, s, trace, line, count⟩ := exists_packedTrace Example.noCounts
    rfl rfl Example.loaded_packedProgram runs 2 (le_refl 2)
  exact ⟨final, past, s,
    packedLaw_of_trace Example.loaded_packedProgram runs trace line count.le, count⟩

end Unxorer
