import Unxorer.Emulator.Steps
import Unxorer.Stubs.Destination
import Unxorer.Vector.Correctness

/-!
# Dirty pages

The write tracker learns of stores by emulated instructions, through the write hook. What
the handler or an API stub writes through the host interface it learns nothing of, so the
pages of such a write are recorded only if stores have touched them before.

## Main definitions

* `Emulator.hostDestination` — what the instruction hook writes through the host
* `WritesTracked` — the steps of a run whose writes are on recorded pages
* `Modified` — a byte has changed since the start of a run

## Main results

* `hookCode_hostWrites` — the instruction hook changes nothing else and records nothing
* `pageOf_mem_dirtyPages_of_run` — the pages of modified bytes are recorded in runs of such
  steps
-/

set_option autoImplicit false

namespace Unxorer

open Unicorn InstructionClassifier ApiStubs WriteTracker VectorOperations RegisterMapper

section Generic

variable {U : Type} [Unicorn U]

/-! ### The handler -/

namespace Handler

/-- The instruction is a move, and `handle_move` cannot read what it should move. -/
def moveFails (u : U) (insn : Insn) : Bool :=
  isMove insn.itype && (readOperand u insn.op2 (Buf.zero 32) (moveSize insn)).isNone

/-- The range a handled instruction writes through the host. -/
def destination (u : U) (insn : Insn) : Destination :=
  if moveFails u insn then .nowhere
  else if isMemoryOperand insn.op1 then
    .block u (calculateEffectiveAddress u insn.op1) (writeSize insn)
  else .nowhere

theorem writeVectorRegister_memory {n : ℕ} {u u' : U} {r : ℕ} {data : Buf n} {size : ℕ}
    (written : writeVectorRegister u r data size = some u') :
    byte u' = byte u ∧ mapped u' = mapped u := by
  rw [writeVectorRegister] at written
  split_ifs at written with xmm wide
  · split at written
    · cases written
    · cases written
      exact ⟨byte_ymmWrite _ _ _, mapped_ymmWrite _ _ _⟩
  · split at written
    · cases written
    · cases written
      exact ⟨byte_xmmWrite _ _ _, mapped_xmmWrite _ _ _⟩
  · split at written
    · cases written
    · cases written
      exact ⟨byte_ymmWrite _ _ _, mapped_ymmWrite _ _ _⟩

/-- A write of an operand changes memory only where the operand is in memory. -/
theorem writeOperand_hostWrites {n : ℕ} (u : U) (op : Operand) (src : Buf n) (size : ℕ) :
    HostWrites (if isMemoryOperand op then
      Destination.block u (calculateEffectiveAddress u op) size else .nowhere).addresses u
      ((writeOperand u op src size).getD u) := by
  have memory := HostWrites.memWrite_of_length u (calculateEffectiveAddress u op)
    (src.length_take size)
  rw [writeOperand, isMemoryOperand]
  -- Operands of any other kind are registers, or are not written.
  cases kind : op.type with
  | mem | displ => exact memory
  | reg =>
    dsimp only
    by_cases vector : vectorRegSize op.reg > 0
    · rw [if_pos vector]
      cases written : writeVectorRegister u op.reg src size with
      | none => exact .refl u
      | some u' =>
        have kept := writeVectorRegister_memory written
        exact .of_byte_eq kept.1 kept.2
    · rw [if_neg vector]
      cases idaToUnicorn op.reg with
      | none => exact .refl u
      | some r =>
        rw [Option.map_some, Option.getD_some]
        by_cases four : size = 4
        · rw [if_pos four]
          exact (HostWrites.refl u).regWrite _ _
        · rw [if_neg four]
          exact (HostWrites.refl u).regWrite _ _
  | _ => exact .refl u

/-- A move that cannot be read is skipped over. -/
theorem handle_of_moveFails {u : U} {insn : Insn} (fails : moveFails u insn = true)
    (address : Addr) (size : BitVec 32) :
    handle u address size insn = updateRip u address size := by
  obtain ⟨move, unread⟩ := Bool.and_eq_true_iff.mp fails
  rw [handle_move u address size move, handleMove, readOperand_updateRip,
    Option.isNone_iff_eq_none.mp unread]

theorem handleVzeroupper_memory (u : U) :
    byte (handleVzeroupper u) = byte u ∧ mapped (handleVzeroupper u) = mapped u := by
  rw [handleVzeroupper]
  -- The induction is over any list of registers.
  generalize List.finRange 16 = registers
  induction registers generalizing u with
  | nil => exact ⟨rfl, rfl⟩
  | cons i rest ih =>
    obtain ⟨bytes, mappings⟩ := ih (clearUpper u i)
    exact ⟨bytes.trans (byte_ymmWrite _ _ _), mappings.trans (mapped_ymmWrite _ _ _)⟩

/-- The handler changes no memory outside its destination. -/
theorem handle_hostWrites (u : U) (address : Addr) (size : BitVec 32) (insn : Insn) :
    HostWrites (destination u insn).addresses u (handle u address size insn) := by
  have advanced : HostWrites (destination u insn).addresses u (updateRip u address size) :=
    (HostWrites.refl u).regWrite _ _
  by_cases fails : moveFails u insn = true
  · rwa [handle_of_moveFails fails]
  by_cases upper : insn.itype = .vzeroupper
  · have result : handle u address size insn = handleVzeroupper (updateRip u address size) := by
      simp only [handle, upper]
    rw [result]
    have kept := handleVzeroupper_memory (updateRip u address size)
    exact advanced.trans (.of_byte_eq kept.1 kept.2)
  · rcases handle_cases u address size upper with same | ⟨n, res, written⟩
    · rwa [same]
    · have writes := writeOperand_hostWrites (updateRip u address size) insn.op1 res
        (writeSize insn)
      rw [calculateEffectiveAddress_updateRip,
        Destination.block_congr (mapped_updateRip u address size), ← written] at writes
      rw [destination, if_neg fails] at advanced ⊢
      exact advanced.trans writes

end Handler

/-! ### The instruction hook -/

namespace Emulator

variable {e e' : Emulator U} {c c' : Counters} {address : Addr} {size : BitVec 32} {insn : Insn}

/-- The stub that a call leads to. -/
def calledStub (e : Emulator U) (insn : Insn) : Option Stub :=
  if insn.itype ∉ callTypes then none
  else
    match resolveOperandTarget e.engine insn.op1 with
    | none => none
    | some target =>
      if !e.insideImage target || e.isExternalThunk target then
        (e.importName target).bind resolveStub
      else none

/-- The range the hook writes through the host for an instruction it executes. -/
def hostDestination (e : Emulator U) (address : Addr) (size : BitVec 32) (insn : Insn) :
    Destination :=
  if shouldSkip insn.itype then .nowhere
  else if shouldHandle insn.itype then Handler.destination e.engine insn
  else
    match e.calledStub insn with
    | some stub =>
      stub.destination (regWrite e.engine .rip (address + size.setWidth 64)) e.heap
    | none => .nowhere

section Hook

variable [Host]

theorem calledStub_of_handleCall {stub : Option Stub}
    {result : Except HostFault (Emulator U × Counters)}
    (call : e.handleCall c address size insn = some (stub, result)) :
    e.calledStub insn = stub := by
  rw [handleCall] at call
  rw [calledStub]
  by_cases calls : insn.itype ∉ callTypes
  · rw [if_pos calls] at call
    cases call
  rw [if_neg calls] at call ⊢
  cases resolved : resolveOperandTarget e.engine insn.op1 with
  | none =>
    rw [resolved] at call
    cases call
  | some target =>
    rw [resolved] at call
    dsimp only at call ⊢
    -- The call is external by its target or by the thunk it leads to.
    by_cases outside : (!e.insideImage target) = true
    · rw [if_pos outside] at call
      rw [outside, Bool.true_or, if_pos rfl, ← stubOf, ← e.callExternal_fst c address size]
      exact congrArg Prod.fst (Option.some.inj call)
    rw [if_neg outside] at call
    by_cases thunk : e.isExternalThunk target = true
    · rw [if_pos thunk] at call
      rw [thunk, Bool.or_true, if_pos rfl, ← stubOf, ← e.callExternal_fst _ address size]
      exact congrArg Prod.fst (Option.some.inj call)
    · rw [if_neg thunk] at call
      cases call

omit [Host] in
theorem ExploreStep.kept {s s' : Emulator U × Counters} (step : ExploreStep address s s') :
    byte s'.1.engine = byte s.1.engine ∧ mapped s'.1.engine = mapped s.1.engine ∧
      s'.1.dirtyPages = s.1.dirtyPages := by
  cases step with
  | @schedule e c target =>
    obtain ⟨branches, c', -, result, -⟩ := e.scheduleBranch_cases c address target
    rw [result]
    exact ⟨rfl, rfl, rfl⟩
  | adjust u counts memory mappings => exact ⟨memory, mappings, rfl⟩

omit [Host] in
theorem exploreBranches_kept (explore : e.exploreBranches c address size insn = (e', c')) :
    byte e'.engine = byte e.engine ∧ mapped e'.engine = mapped e.engine ∧
      e'.dirtyPages = e.dirtyPages := by
  apply exploreBranches_invariant (P := fun s => byte s.1.engine = byte e.engine ∧
    mapped s.1.engine = mapped e.engine ∧ s.1.dirtyPages = e.dirtyPages) explore ⟨rfl, rfl, rfl⟩
  intro s s' before step
  obtain ⟨bytes, mappings, pages⟩ := step.kept
  exact ⟨bytes.trans before.1, mappings.trans before.2.1, pages.trans before.2.2⟩

/-- The instruction hook changes no memory but its destination, and records no page. -/
theorem Executed.hostWrites (executed : e.Executed c address size insn e' c') :
    HostWrites (e.hostDestination address size insn).addresses e.engine e'.engine ∧
      e'.dirtyPages = e.dirtyPages := by
  cases executed with
  | skipped => exact ⟨(HostWrites.refl _).regWrite _ _, rfl⟩
  | handled skip scanned handle =>
    obtain ⟨found, rfl⟩ := scanned.exists_stringList
    rw [hostDestination, if_neg (Bool.eq_false_iff.mp skip), if_pos handle]
    exact ⟨Handler.handle_hostWrites _ _ _ _, rfl⟩
  | @called e₁ _ _ stub skip scanned handle call =>
    -- The scan before the call has changed nothing the lookup depends on.
    have scannedStub := calledStub_of_handleCall call
    obtain ⟨found, rfl⟩ := scanned.exists_stringList
    have same : e.calledStub insn = stub := scannedStub
    obtain ⟨u, heap, ran, result, -⟩ := handleCall_cases call
    obtain ⟨found', rfl⟩ := result.exists_stringList
    refine ⟨?_, rfl⟩
    rw [hostDestination, if_neg (Bool.eq_false_iff.mp skip), if_neg (Bool.eq_false_iff.mp handle),
      same]
    have moved {range : Set Addr} : HostWrites range e.engine
        (regWrite e.engine .rip (address + size.setWidth 64)) := (HostWrites.refl _).regWrite _ _
    cases stub with
    | some stub => exact moved.trans (Stub.run_hostWrites ran)
    | none =>
      obtain ⟨rfl, -⟩ := ran
      exact moved.regWrite _ _
  | @explored e₁ _ _ skip scanned handle call explore =>
    have kept := exploreBranches_kept explore
    obtain ⟨found, rfl⟩ := scanned.exists_stringList
    exact ⟨.of_byte_eq kept.1 kept.2.1, kept.2.2⟩

end Hook

end Emulator

/-! ### Modified bytes -/

/-- What a byte holds at the start of a run: memory that is mapped later reads as zero. -/
def initialByte (u₀ : U) (x : Addr) : Byte := if mapped u₀ x then byte u₀ x else 0

/-- A guest byte has changed since the engine was in state `u₀`. -/
def Modified (u₀ u : U) (x : Addr) : Prop := mapped u x = true ∧ byte u x ≠ initialByte u₀ x

/-- The tracker has recorded the pages of all modified bytes. -/
structure Tracks (u₀ u : U) (dirtyPages : Finset Addr) : Prop where
  mapped : ∀ x, mapped u₀ x = true → mapped u x = true
  dirty : ∀ x, Modified u₀ u x → pageOf x ∈ dirtyPages

namespace Tracks

variable {u₀ u u' : U} {dirtyPages dirtyPages' : Finset Addr}

theorem refl (u₀ : U) : Tracks u₀ u₀ dirtyPages where
  mapped _ := id
  dirty x modified := by
    have same : initialByte u₀ x = byte u₀ x := if_pos modified.1
    exact absurd same.symm modified.2

theorem mono (tracks : Tracks u₀ u dirtyPages) (subset : dirtyPages ⊆ dirtyPages') :
    Tracks u₀ u dirtyPages' :=
  ⟨tracks.mapped, fun x modified => subset (tracks.dirty x modified)⟩

/-- Host code may write to recorded pages. -/
theorem hostWrites {range : Set Addr} (tracks : Tracks u₀ u dirtyPages)
    (writes : HostWrites range u u')
    (recorded : ∀ x ∈ range, Unicorn.mapped u x = true → pageOf x ∈ dirtyPages) :
    Tracks u₀ u' dirtyPages where
  mapped x initially := by
    rw [writes.mapped_eq]
    exact tracks.mapped x initially
  dirty x modified := by
    -- A byte is modified by this write, or it was before and its page is recorded.
    by_cases same : byte u' x = byte u x
    · refine tracks.dirty x ⟨?_, same ▸ modified.2⟩
      rw [← writes.mapped_eq]
      exact modified.1
    · obtain ⟨inside, present⟩ := writes.within x same
      exact recorded x inside present

theorem registers (tracks : Tracks u₀ u dirtyPages) (memory : byte u' = byte u)
    (mappings : Unicorn.mapped u' = Unicorn.mapped u) : Tracks u₀ u' dirtyPages := by
  have writes : HostWrites ∅ u u' := .of_byte_eq memory mappings
  exact tracks.hostWrites writes fun _ inside => inside.elim

/-- New memory has its initial contents. -/
theorem memMap {a : Addr} {n : ℕ} (tracks : Tracks u₀ u dirtyPages)
    (done : Unicorn.memMap u a n = .ok u') : Tracks u₀ u' dirtyPages where
  mapped x initially := by
    rw [mapped_memMap u a n u' done, tracks.mapped x initially, Bool.true_or]
  dirty x modified := by
    have contents := byte_memMap u a n u' done x
    by_cases inside : (x - a).toNat < n
    · have free := (memMap_free u a n u' done).2 x inside
      -- It was not mapped at the start of the run either, so its initial value is 0.
      have fresh : Unicorn.mapped u₀ x = false := by
        by_contra initially
        rw [tracks.mapped x (Bool.eq_true_of_not_eq_false initially)] at free
        cases free
      rw [if_pos inside] at contents
      refine absurd ?_ modified.2
      rw [contents, initialByte, fresh, if_neg Bool.false_ne_true]
    · rw [if_neg inside] at contents
      refine tracks.dirty x ⟨?_, contents ▸ modified.2⟩
      have present := modified.1
      rwa [mapped_memMap u a n u' done, decide_eq_false inside, Bool.or_false] at present

theorem mapsMemory {e e' : Emulator U} (tracks : Tracks u₀ e.engine e.dirtyPages)
    (maps : e.MapsMemory e') : Tracks u₀ e'.engine e'.dirtyPages := by
  have pages : e'.dirtyPages = e.dirtyPages := by rw [maps.same]
  rw [pages]
  suffices ∀ u, Relation.ReflTransGen (fun u u' : U => ∃ a n, Unicorn.memMap u a n = .ok u')
      e.engine u → Tracks u₀ u e.dirtyPages from this _ maps.engine
  intro u steps
  induction steps with
  | refl => exact tracks
  | tail _ last ih =>
    obtain ⟨a, n, done⟩ := last
    exact ih.memMap done

end Tracks

/-! ### Runs -/

/-- The mapped part of a range is on recorded pages. -/
def Emulator.Records (e : Emulator U) (d : Destination) : Prop :=
  ∀ k < d.size, mapped e.engine (d.start + BitVec.ofNat 64 k) = true →
    pageOf (d.start + BitVec.ofNat 64 k) ∈ e.dirtyPages

instance (e : Emulator U) (d : Destination) : Decidable (e.Records d) :=
  inferInstanceAs (Decidable (∀ k < d.size, _ → _))

/-- The steps that record what they write: a store does not wrap around the end of the
address space, and what the instruction hook writes through the host is on pages that are
recorded already. -/
def WritesTracked (s : Counters × RunState U) : RunEvent U → Prop
  | .code address size stop =>
    stop = false → ∀ insn ∈ s.2.emulator.tryGetInsn address,
      s.2.emulator.Records (s.2.emulator.hostDestination address size insn)
  | .store address bytes => address.toNat + bytes.length ≤ 2 ^ 64
  | _ => True

instance (s : Counters × RunState U) (event : RunEvent U) : Decidable (WritesTracked s event) :=
  match event with
  | .code _ _ _ => inferInstanceAs (Decidable (_ → ∀ insn ∈ _, Emulator.Records _ _))
  | .store _ _ => inferInstanceAs (Decidable (_ ≤ _))
  | .enter _ | .load _ _ | .execute _ | .leave _ | .interfere _ => inferInstanceAs (Decidable True)

section Steps

variable [Host] {u₀ : U} {e e' : Emulator U}

theorem Tracks.hookCode {c c' : Counters} {address : Addr} {size : BitVec 32} {stop : Bool}
    {r : RunState U} (tracks : Tracks u₀ r.emulator.engine r.emulator.dirtyPages)
    (tracked : WritesTracked (c, r) (.code address size stop))
    (hook : r.emulator.hookCode c address size stop = .ok (e', c')) :
    Tracks u₀ e'.engine e'.dirtyPages := by
  rcases Emulator.hookCode_cases hook with ⟨-, rfl, -⟩ | ⟨insn, heeded, decoded, executed⟩
  · exact tracks
  obtain ⟨writes, pages⟩ := executed.hostWrites
  have running : stop = false := (Bool.or_eq_false_iff.mp heeded).1
  rw [pages]
  refine tracks.hostWrites writes ?_
  rintro x ⟨k, inside, rfl⟩ present
  exact tracked running insn decoded k inside present

omit [Host] in
theorem Tracks.guestStore {done : Bool} {address : Addr} {bytes : List Byte}
    (tracks : Tracks u₀ e.engine e.dirtyPages) (enabled : e.enableWriteTracking = true)
    (nonempty : bytes ≠ []) (small : bytes.length < 2 ^ 31)
    (room : address.toNat + bytes.length ≤ 2 ^ 64)
    (stored : e.guestStore address bytes = .ok (done, e')) :
    Tracks u₀ e'.engine e'.dirtyPages := by
  obtain ⟨e₀, e₁, hooked, maps, result⟩ := Emulator.guestStore_cases stored
  rw [if_pos enabled] at hooked
  -- The hook records the pages first, then the store may happen.
  obtain ⟨dirtyPages, recorded, rfl⟩ := Emulator.hookMemWrite_cases hooked
  rw [if_pos (List.length_pos_iff.mpr nonempty)] at recorded
  have size : (BitVec.ofNat 64 bytes.length).toNat = bytes.length := by
    rw [BitVec.toNat_ofNat]
    omega
  have kept : Tracks u₀ ({ e with dirtyPages } : Emulator U).engine dirtyPages :=
    tracks.mono (subset_of_recordWrite recorded)
  have mapped := kept.mapsMemory maps
  rcases result with ⟨-, rfl⟩ | ⟨-, present, rfl⟩
  · exact mapped
  · have pages : e₁.dirtyPages = dirtyPages := by rw [maps.same]
    refine mapped.hostWrites (.store present) fun x inside _ => ?_
    rw [pages]
    refine pageOf_mem_of_recordWrite recorded ?_ ?_
    · rwa [size]
    · rwa [size]

/-- Every step that records what it writes keeps the pages of modified bytes recorded. -/
theorem RunStep.tracks {event : RunEvent U} {s s' : Counters × RunState U}
    (step : RunStep event s s') (tracked : WritesTracked s event)
    (enabled : s.2.emulator.enableWriteTracking = true)
    (tracks : Tracks u₀ s.2.emulator.engine s.2.emulator.dirtyPages) :
    Tracks u₀ s'.2.emulator.engine s'.2.emulator.dirtyPages := by
  cases step with
  | @enter c r stop here =>
    rw [RunState.enterSlice]
    split_ifs
    · exact tracks
    · exact tracks
    · exact tracks.registers (byte_regWrite _ _ _) (mapped_regWrite _ _ _)
  | code address size stop here hook => exact tracks.hookCode tracked hook
  | store address bytes here nonempty small stored =>
    exact tracks.guestStore enabled nonempty small tracked stored
  | load address size here nonempty small loaded =>
    exact tracks.mapsMemory (Emulator.guestLoad_cases loaded)
  | execute u here memory mappings => exact tracks.registers memory mappings
  | leave elapsedUs here left =>
    obtain ⟨e₁, scanned, continues⟩ := RunState.leaveSlice_cases left
    obtain ⟨found, rfl⟩ := scanned.exists_stringList
    cases continues with
    | nothingPending => exact tracks
    | restoreFailed => exact tracks
    | resumed taken restored =>
      have memory := contextRestore_memory _ _ _ restored
      exact tracks.registers memory.1 memory.2
  | interfere => exact tracks

end Steps

/-- In a run with write tracking whose steps all record what they write, the page of every
byte that has changed since the start of the run is dirty. -/
theorem pageOf_mem_dirtyPages_of_run [Host] {e : Emulator U} {args : RunArgs} {c c' : Counters}
    {r₀ r : RunState U} (tracking : e.enableWriteTracking = true)
    (started : e.startRun args = .ok r₀)
    (run : Transition.Run RunStep WritesTracked (c, r₀) (c', r)) {x : Addr}
    (modified : Modified r₀.emulator.engine r.emulator.engine x) :
    pageOf x ∈ r.emulator.dirtyPages := by
  have enabled : r₀.emulator.enableWriteTracking = true := by
    obtain ⟨e', reset, rfl⟩ := Emulator.startRun_cases started
    obtain ⟨u, heap, -, rfl⟩ := Emulator.resetForRun_cases reset
    exact tracking
  have invariant := run.invariant
    (P := fun s => s.2.emulator.enableWriteTracking = true ∧
      Tracks r₀.emulator.engine s.2.emulator.engine s.2.emulator.dirtyPages)
    ⟨enabled, .refl _⟩ fun event s s' holds tracked step =>
      ⟨(congrArg Emulator.Settings.enableWriteTracking step.settings_eq).trans holds.1,
        step.tracks tracked holds.1 holds.2⟩
  exact invariant.2.dirty x modified

end Generic

/-! ### A vector store into the image -/

/-- The byte at the destination of the example's vector store, at the start of a run. -/
theorem initialByte_example :
    initialByte (Example.started 0x140000004).emulator.engine 0x140000030 = 0x90 := by
  decide +kernel

/-- A native store records the page of the image before the handler stores XMM0 there. -/
theorem pageOf_mem_dirtyPages_of_run_store : ∃ r : RunState Machine,
    Modified (Example.started 0x140000004).emulator.engine r.emulator.engine 0x140000030 ∧
      pageOf 0x140000030 ∈ r.emulator.dirtyPages := by
  obtain ⟨⟨c, r⟩, performed, present, changed⟩ : ∃ s,
      Transition.performAll WritesTracked RunEvent.perform
        (Example.noCounts, Example.started 0x140000004)
        [.enter false, .store 0x140000040 [1], .code 0x140000004 8 false] = some s ∧
      mapped s.2.emulator.engine 0x140000030 = true ∧
      byte s.2.emulator.engine 0x140000030 = 0 := ⟨_, rfl, rfl, by decide +kernel⟩
  have run := Transition.run_of_performAll (fun _ _ _ => RunEvent.step_of_perform) performed
  have modified : Modified (Example.started 0x140000004).emulator.engine r.emulator.engine
      0x140000030 := by
    refine ⟨present, ?_⟩
    rw [changed, initialByte_example]
    decide
  exact ⟨r, modified, pageOf_mem_dirtyPages_of_run (e := Example.fresh) rfl
    (Example.startRun_eq_started 0x140000004) run modified⟩

/-- The handler's store alone changes a byte of the image and no page is recorded. -/
theorem handler_store_not_tracked : ∃ (c : Counters) (r : RunState Machine),
    Example.fresh.startRun ⟨0x140000004, 0, 0, 0, true⟩ = .ok (Example.started 0x140000004) ∧
    Transition.Run RunStep (fun _ _ => True) (Example.noCounts, Example.started 0x140000004)
      (c, r) ∧
    r.emulator.enableWriteTracking = true ∧
    Modified (Example.started 0x140000004).emulator.engine r.emulator.engine 0x140000030 ∧
    pageOf 0x140000030 ∉ r.emulator.dirtyPages := by
  obtain ⟨⟨c, r⟩, performed, tracking, present, changed, clean⟩ : ∃ s,
      Transition.performAll (fun _ _ => True) RunEvent.perform
        (Example.noCounts, Example.started 0x140000004)
        [.enter false, .code 0x140000004 8 false] = some s ∧
      s.2.emulator.enableWriteTracking = true ∧
      mapped s.2.emulator.engine 0x140000030 = true ∧
      byte s.2.emulator.engine 0x140000030 = 0 ∧ s.2.emulator.dirtyPages = ∅ :=
    ⟨_, rfl, rfl, rfl, by decide +kernel, rfl⟩
  have run := Transition.run_of_performAll (fun _ _ _ => RunEvent.step_of_perform) performed
  refine ⟨c, r, Example.startRun_eq_started 0x140000004, run, tracking, ⟨present, ?_⟩, ?_⟩
  · rw [changed, initialByte_example]
    decide
  · rw [clean]
    exact Finset.notMem_empty _

end Unxorer
