import Unxorer.Emulator.Mappings

/-!
# Memory at the start of a run

A run restores the image, clears the stack and the transient pages, and has the heap zero
what it has handed out. The image and the stack are written as a whole. The arena is
written up to the cursor only, so what the emulated program has stored beyond it stays.

## Main definitions

* `FreshMemory` — guest memory as the constructor leaves it
* `Emulator.ArenaRecorded` — what is not zero in the arena was handed out

## Main results

* `freshMemory_iff` — a run starts with fresh memory exactly when the arena is recorded
-/

set_option autoImplicit false

namespace Unxorer

open Unicorn WriteTracker

section Generic

variable {U : Type} [Unicorn U]

/-- Exactly the image, the stack and the arena are mapped, with their initial contents. -/
structure FreshMemory (e : Emulator U) : Prop where
  mapped_iff : ∀ x, mapped e.engine x = true ↔ e.InCore x
  image : ∀ x, e.InImage x → byte e.engine x = e.image.contents (x - e.image.mapStart).toNat
  stack : ∀ x, Emulator.InStack x → byte e.engine x = 0
  arena : ∀ x, e.InArena x → byte e.engine x = 0

/-- The address lies between the base of the arena and the cursor. -/
def FakeHeap.HandedOut (h : FakeHeap) (x : Addr) : Prop :=
  (x - h.arenaBase).toNat < (h.cursor - h.arenaBase).toNat

/-- What is not zero in the arena was handed out, and then all that was handed out is
memory of the core, which the cursor leaves only if it has wrapped around. -/
def Emulator.ArenaRecorded (e : Emulator U) : Prop :=
  ∀ x, e.InArena x → byte e.engine x ≠ 0 →
    e.heap.HandedOut x ∧ ∀ y, e.heap.HandedOut y → e.InCore y

/-! ### The steps of the reset -/

/-- A range is mapped when all addresses at a small offset are. -/
theorem mapped_range_iff {u : U} {a : Addr} {n : ℕ} (bounded : n ≤ 2 ^ 64) :
    Mapped u a n ↔ ∀ x, (x - a).toNat < n → mapped u x = true := by
  constructor
  · intro present x inside
    rw [← add_offset a x]
    exact present _ inside
  · intro present i inside
    apply present
    rwa [add_sub_cancel_left, BitVec.toNat_ofNat, Nat.mod_eq_of_lt (inside.trans_le bounded)]

/-- Memory outside the removed pages is not touched. -/
theorem byte_foldl_memUnmap (pages : List Addr) (u : U) (aligned : ∀ p ∈ pages, pageOf p = p)
    {x : Addr} (outside : pageOf x ∉ pages) :
    byte (pages.foldl (fun u p => memUnmap u p Emulator.transientMapSize.toNat) u) x =
      byte u x := by
  induction pages generalizing u with
  | nil => rfl
  | cons p rest ih =>
    obtain ⟨here, later⟩ := not_or.mp (List.mem_cons.not.mp outside)
    have kept : byte (memUnmap u p Emulator.transientMapSize.toNat) x = byte u x := by
      apply byte_memUnmap
      change ¬ (x - p).toNat < 0x1000
      rwa [offset_lt_iff (aligned p List.mem_cons_self)]
    rw [List.foldl_cons, ih _ (fun q member => aligned q (List.mem_cons_of_mem p member)) later,
      kept]

theorem Emulator.WellMapped.byte_clear {e : Emulator U} (well : e.WellMapped) {x : Addr}
    (core : e.InCore x) : byte e.clearTransientMappings.engine x = byte e.engine x :=
  byte_foldl_memUnmap e.transientMappings e.engine
    (fun p member => mem_range_pageOf_iff.mp (well.overlay.range p member))
    (well.overlay.apart x core)

theorem byte_resetRegisters (u : U) : byte (resetRegisters u) = byte u := by
  rw [resetRegisters, byte_regWrite, overwriteAllRegisters]
  generalize Emulator.gprRegisters = rs
  induction rs generalizing u with
  | nil => rfl
  | cons r rest ih => rw [List.foldl_cons, ih, byte_regWrite]

/-- Image and stack are written as a whole, and nothing else is. -/
theorem byte_restore (e : Emulator U) (u : U) (x : Addr) :
    byte (resetRegisters (restoreMemory u e.image)) x =
      if Emulator.InStack x then 0
      else if e.InImage x then e.image.contents (x - e.image.mapStart).toNat else byte u x := by
  rw [byte_resetRegisters, restoreMemory, byte_storeBytes, byte_storeBytes]
  rfl

section Heap

variable [Host] {u u' : U} {h h' : FakeHeap}

open Classical in
/-- The reset of the heap zeroes what was handed out if all of it is mapped, and otherwise
nothing. -/
theorem FakeHeap.byte_reset (ready : h.initialized = true) (done : h.reset u = .ok (u', h'))
    (x : Addr) : byte u' x =
      if h.HandedOut x ∧ ∀ y, h.HandedOut y → mapped u y = true then 0 else byte u x := by
  rcases reset_cases done with ⟨closed, -⟩ | ⟨-, -, ⟨unused, rfl⟩ | rfl⟩
  · rw [ready] at closed
    cases closed
  · -- Nothing was handed out.
    rw [if_neg]
    rintro ⟨inside, -⟩
    rw [HandedOut, unused] at inside
    exact Nat.not_lt_zero _ inside
  · have whole : Mapped u h.arenaBase (h.cursor - h.arenaBase).toNat ↔
        ∀ y, h.HandedOut y → mapped u y = true := mapped_range_iff (BitVec.isLt _).le
    rw [memWrite_getD, List.length_replicate]
    by_cases present : Mapped u h.arenaBase (h.cursor - h.arenaBase).toNat
    · rw [if_pos present]
      by_cases inside : h.HandedOut x
      · rw [if_pos ⟨inside, whole.mp present⟩, byte_store_of_lt _ _ _
          (by rw [List.length_replicate]; exact inside), List.getElem_replicate]
      · rw [if_neg fun both => inside both.1, byte_store_of_le]
        rw [List.length_replicate]
        exact Nat.le_of_not_lt inside
    · rw [if_neg present, if_neg fun both => present (whole.mpr both.2)]

end Heap

/-! ### The start of a run -/

section Start

variable [Host] {e : Emulator U} {args : RunArgs} {r : RunState U}

/-- A run starts with the bytes the restore has written. -/
theorem Emulator.WellMapped.startRun_image_stack (well : e.WellMapped)
    (started : e.startRun args = .ok r) :
    (∀ x, e.InImage x → byte r.emulator.engine x =
        e.image.contents (x - e.image.mapStart).toNat) ∧
      ∀ x, InStack x → byte r.emulator.engine x = 0 := by
  obtain ⟨e', reset, rfl⟩ := startRun_cases started
  obtain ⟨u, heap, heapReset, rfl⟩ := resetForRun_cases reset
  constructor
  · intro x inside
    refine (byte_restore e u x).trans ?_
    rw [if_neg (well.image_stack x inside), if_pos inside]
  · intro x inside
    refine (byte_restore e u x).trans ?_
    rw [if_pos inside]

open Classical in
/-- A byte of the arena is zeroed if it was handed out and all that was handed out belongs
to the core; otherwise it is kept. -/
theorem Emulator.WellMapped.startRun_arena (well : e.WellMapped)
    (started : e.startRun args = .ok r) {x : Addr} (arena : e.InArena x) :
    byte r.emulator.engine x =
      if e.heap.HandedOut x ∧ ∀ y, e.heap.HandedOut y → e.InCore y then 0
      else byte e.engine x := by
  obtain ⟨e', reset, rfl⟩ := startRun_cases started
  obtain ⟨u, heap, heapReset, rfl⟩ := resetForRun_cases reset
  rw [if_pos arena.1] at heapReset
  have zeroed := FakeHeap.byte_reset (well.heapReady arena.1) heapReset x
  have image : ¬ e.InImage x := fun inside => well.image_arena x inside arena
  have stack : ¬ InStack x := fun inside => well.stack_arena x inside arena
  refine (byte_restore e u x).trans ?_
  rw [if_neg stack, if_neg image, zeroed, well.byte_clear (.inr (.inr arena))]
  simp only [well.mapped_clear]

/-- A run starts with the memory of a fresh emulator exactly when the guest has left nothing
but zeros in the part of the arena that the heap has not handed out. -/
theorem freshMemory_iff (e : Reused U) (empty : ∀ x, mapped e.opened x = false)
    (started : e.emulator.startRun args = .ok r) :
    FreshMemory r.emulator ↔ e.emulator.ArenaRecorded := by
  have well := e.wellMapped empty
  have cleared := (Emulator.startRun_wellMapped well started).1
  obtain ⟨image, stack⟩ := well.startRun_image_stack started
  obtain ⟨⟨sameImage, sameStubs, sameBase⟩, noPages⟩ := Emulator.startRun_sameCore started
  have inImage : r.emulator.InImage = e.emulator.InImage := by
    unfold Emulator.InImage
    rw [sameImage]
  have inArena : r.emulator.InArena = e.emulator.InArena := by
    unfold Emulator.InArena
    rw [sameStubs, sameBase]
  constructor
  · intro fresh x arena nonzero
    -- A byte that is zero now and was not before has been zeroed.
    by_contra kept
    have unchanged := well.startRun_arena started arena
    rw [if_neg kept, fresh.arena x (inArena ▸ arena)] at unchanged
    exact nonzero unchanged.symm
  · intro recorded
    refine ⟨?_, ?_, stack, ?_⟩
    · intro x
      rw [cleared.law.mapped_iff x, noPages]
      exact or_iff_left List.not_mem_nil
    · intro x inside
      rw [sameImage]
      exact image x (inImage ▸ inside)
    · intro x inside
      have arena : e.emulator.InArena x := inArena ▸ inside
      rw [well.startRun_arena started arena]
      split_ifs with zeroed
      · rfl
      · by_contra nonzero
        exact zeroed (recorded x arena nonzero)

end Start

end Generic

/-! ### Stores below and beyond the cursor -/

namespace Example

variable {decoded : InstructionSnapshot} {args : RunArgs} {events : List (RunEvent Machine)}
  {s : Counters × RunState Machine} {reason : StopReason}

/-- A complete run on the emulator of the example leaves a used emulator. -/
theorem exists_reused (performed : Transition.performAll (fun _ _ => True) RunEvent.perform
    (noCounts, startedOf decoded false args) events = some s)
    (finished : s.2.phase = .finished reason) :
    ∃ e : Reused Machine, (∀ x, mapped e.opened x = false) ∧ e.emulator = s.2.emulator := by
  have run := Transition.run_of_performAll (fun _ _ _ => RunEvent.step_of_perform) performed
  have full : (freshOf decoded false).FullRun s.2.emulator :=
    ⟨args, _, s.1, _, s.2, reason, startRun_eq_startedOf decoded false args, run, finished, rfl⟩
  exact ⟨⟨Machine.empty, image, decoded, ⟨true, false⟩, freshOf decoded false,
    create_eq_freshOf decoded false, s.2.emulator, .single full⟩, fun _ => rfl, rfl⟩

/-- A run of the example that stores a byte into the arena, of which nothing was handed out,
and the next run. -/
theorem reused_store : ∃ (e : Reused Machine) (r : RunState Machine),
    (∀ x, mapped e.opened x = false) ∧
    e.emulator.startRun ⟨0x140000000, 0, 0, 0, true⟩ = .ok r ∧
    e.emulator.InArena 0x140010100 ∧ byte r.emulator.engine 0x140010100 = 0x41 := by
  obtain ⟨s, performed, phase, heap, stubs, outside, stored⟩ : ∃ s,
      Transition.performAll (fun _ _ => True) RunEvent.perform
        (noCounts, startedOf ∅ false ⟨0x140000000, 0, 0, 0, true⟩)
        [.enter false, .store 0x140010100 [0x41], .leave 0] = some s ∧
      s.2.phase = .finished .nothingPending ∧
      s.2.emulator.heap = ⟨0x140010000, 0x140010000, fun _ => none, true⟩ ∧
      s.2.emulator.enableHeapStubs = true ∧ ¬ s.2.emulator.InImage 0x140010100 ∧
      byte s.2.emulator.clearTransientMappings.engine 0x140010100 = 0x41 :=
    ⟨_, rfl, rfl, rfl, rfl, by decide +kernel, by decide +kernel⟩
  obtain ⟨e, empty, same⟩ := exists_reused performed phase
  rw [← same] at heap stubs outside stored
  have reset := Emulator.reset_of_unused stubs heap
  have arena : e.emulator.InArena 0x140010100 := by
    refine ⟨stubs, ?_⟩
    rw [heap]
    decide
  refine ⟨e, _, empty, Emulator.startRun_of_reset reset, arena, ?_⟩
  refine (byte_restore e.emulator _ _).trans ?_
  rw [if_neg (by decide), if_neg outside, stored]

/-- A run that allocates a block and stores a byte into it. -/
def allocating : List (RunEvent Machine) :=
  [.enter false, .code 0x14000000C 5 false, .store 0x140010000 [0x41], .leave 0]

/-- After that run the byte lies below the cursor. -/
theorem reused_block : ∃ e : Reused Machine, (∀ x, mapped e.opened x = false) ∧
    e.emulator.heap.cursor = 0x140012000 ∧ e.emulator.heap.arenaBase = 0x140010000 ∧
    byte e.emulator.engine 0x140010000 = 0x41 := by
  have ran : (Transition.performAll (fun _ _ => True) RunEvent.perform
      (noCounts, startedOf thunkCall false ⟨0x14000000C, 0, 0, 0, true⟩) allocating).any
      (fun s => decide (s.2.phase = .finished .nothingPending ∧
        s.2.emulator.heap.cursor = 0x140012000 ∧ s.2.emulator.heap.arenaBase = 0x140010000 ∧
        byte s.2.emulator.engine 0x140010000 = 0x41)) = true := by
    decide +kernel
  obtain ⟨s, performed, found⟩ := (Option.any_eq_true _ _).mp ran
  obtain ⟨phase, cursor, base, stored⟩ := of_decide_eq_true found
  obtain ⟨e, empty, same⟩ := exists_reused performed phase
  rw [← same] at cursor base stored
  exact ⟨e, empty, cursor, base, stored⟩

end Example

/-- After a run that has allocated a block and stored into it. -/
theorem freshMemory_iff_block : ∃ (e : Reused Machine) (r : RunState Machine),
    (∀ x, mapped e.opened x = false) ∧
    e.emulator.startRun ⟨0x140000000, 0, 0, 0, true⟩ = .ok r ∧
    e.emulator.heap.HandedOut 0x140010000 ∧ byte e.emulator.engine 0x140010000 = 0x41 ∧
    (FreshMemory r.emulator ↔ e.emulator.ArenaRecorded) := by
  obtain ⟨e, empty, cursor, base, stored⟩ := Example.reused_block
  have handedOut : e.emulator.heap.HandedOut 0x140010000 := by
    rw [FakeHeap.HandedOut, cursor, base]
    decide
  obtain ⟨r, started⟩ : ∃ r, e.emulator.startRun ⟨0x140000000, 0, 0, 0, true⟩ = .ok r := by
    apply Emulator.exists_startRun
    rw [cursor, base]
    decide
  exact ⟨e, r, empty, started, handedOut, stored, freshMemory_iff e empty started⟩

/-- A byte stored in the arena beyond the cursor is still there when the next run starts. -/
theorem store_survives_reset : ∃ (e : Reused Machine) (r : RunState Machine),
    (∀ x, mapped e.opened x = false) ∧
    e.emulator.startRun ⟨0x140000000, 0, 0, 0, true⟩ = .ok r ∧ ¬ FreshMemory r.emulator := by
  obtain ⟨e, r, empty, started, arena, stored⟩ := Example.reused_store
  refine ⟨e, r, empty, started, fun fresh => ?_⟩
  obtain ⟨⟨-, stubs, base⟩, -⟩ := Emulator.startRun_sameCore started
  have still : r.emulator.InArena 0x140010100 := by
    rw [Emulator.InArena, stubs, base]
    exact arena
  rw [fresh.arena _ still] at stored
  revert stored
  decide

end Unxorer
