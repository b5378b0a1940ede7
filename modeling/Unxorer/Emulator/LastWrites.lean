import Unxorer.Emulator.FaultingStores
import Unxorer.Emulator.Provenance
import Unxorer.Emulator.Restart

/-!
# Who writes guest memory

During a run guest memory is written by the stores of executed instructions and by the host code
that stands in for an instruction or a function. A fault maps pages of zeros. Everything else the
emulator does, the scans, the switch to another branch and what other emulators do, leaves every
byte as it is.

## Main definitions

* `Puts` — an event of a run writes a byte
* `LastWrite` — where the byte at an address comes from
* `Emulator.Accounted` — what is not zero belongs to the image or has been written

## Main results

* `RunStep.byteStep` — what a step of a run does to a byte
* `lastWrite_of_trace` — every byte is as at the start of the run or as its last write has left it
-/

set_option autoImplicit false

namespace Unxorer

open Unicorn Transition

variable {U : Type} [Unicorn U]

/-! ### Events that write -/

/-- The event takes `e` to `e'` and writes this byte: a store that succeeds and whose bytes
include it, or host code that stands in for an instruction, whose range it is in and which leaves
it there. -/
inductive Puts (e e' : Emulator U) : RunEvent U → Addr → Byte → Prop
  | stored {address x : Addr} {bytes : List Byte}
      (succeeds : e.guestStore address bytes = .ok (true, e'))
      (inside : (x - address).toNat < bytes.length) :
      Puts e e' (.store address bytes) x bytes[(x - address).toNat]
  | written {address x : Addr} {size : BitVec 32} {insn : Insn} {value : Byte}
      (decoded : e.tryGetInsn address = some insn)
      (inside : x ∈ (e.hostDestination address size insn).addresses)
      (left : guestByte e'.engine x = some value) : Puts e e' (.code address size false) x value

/-- The event is an access of an executed instruction to memory. -/
def RunEvent.accesses : RunEvent U → Bool
  | .store _ _ | .load _ _ => true
  | _ => false

/-- The event is one of the loop of the run, of the registers or of another emulator. -/
def RunEvent.isQuiet : RunEvent U → Bool
  | .store _ _ | .load _ _ | .code _ _ _ => false
  | _ => true

/-- What a step does to a byte. -/
inductive ByteStep (e e' : Emulator U) (event : RunEvent U) (x : Addr) : Prop
  | kept (same : guestByte e'.engine x = guestByte e.engine x)
  | put {value : Byte} (puts : Puts e e' event x value)
  | mapped (accesses : event.accesses = true) (missing : guestByte e.engine x = none)
      (now : guestByte e'.engine x = some 0)

namespace ByteStep

variable {e e' : Emulator U} {event : RunEvent U} {x : Addr}

theorem of_memory (bytes : byte e'.engine = byte e.engine)
    (mappings : Unicorn.mapped e'.engine = Unicorn.mapped e.engine) : ByteStep e e' event x := by
  refine .kept ?_
  rw [guestByte, guestByte, bytes, mappings]

/-- An event that is quiet leaves every byte. -/
theorem eq_of_isQuiet (byteStep : ByteStep e e' event x) (quiet : event.isQuiet = true) :
    guestByte e'.engine x = guestByte e.engine x := by
  cases byteStep with
  | kept same => exact same
  | put puts => cases puts <;> cases quiet
  | mapped accesses =>
    cases event with
    | store | load => cases quiet
    | _ => cases accesses

end ByteStep

/-! ### Steps -/

namespace Emulator

variable {e e' : Emulator U}

/-- A fault leaves a byte as it is or maps it, and then it is zero. -/
theorem MapsMemory.guestByte_cases (maps : e.MapsMemory e') (x : Addr) :
    guestByte e'.engine x = guestByte e.engine x ∨
      guestByte e.engine x = none ∧ guestByte e'.engine x = some 0 := by
  have steps := maps.engine
  generalize e'.engine = u at steps
  induction steps with
  | refl => exact .inl rfl
  | tail _ last ih =>
    rename_i u u' _
    obtain ⟨a, n, done⟩ := last
    have bytes := byte_memMap _ _ _ _ done x
    have mappings := mapped_memMap _ _ _ _ done x
    by_cases inside : (x - a).toNat < n
    · have free := (memMap_free _ _ _ _ done).2 x inside
      have missing : guestByte u x = none := by
        rw [guestByte, free]
        rfl
      have now : guestByte u' x = some 0 := by
        rw [guestByte, mappings, decide_eq_true inside, Bool.or_true, bytes, if_pos inside]
        rfl
      rcases ih with same | ⟨-, zero⟩
      · exact .inr ⟨same.symm.trans missing, now⟩
      · rw [missing] at zero
        cases zero
    · have same : guestByte u' x = guestByte u x := by
        rw [guestByte, guestByte, mappings, bytes, decide_eq_false inside, Bool.or_false,
          if_neg inside]
      rwa [same]

variable {address : Addr} {x : Addr}

theorem guestLoad_byteStep {done : Bool} {size : ℕ}
    (loaded : e.guestLoad address size = .ok (done, e')) :
    ByteStep e e' (.load address size) x := by
  rcases (guestLoad_cases loaded).guestByte_cases x with same | ⟨missing, now⟩
  · exact .kept same
  · exact .mapped rfl missing now

/-- A store that succeeds leaves its bytes in memory. -/
theorem guestByte_of_guestStore {bytes : List Byte}
    (stored : e.guestStore address bytes = .ok (true, e'))
    (inside : (x - address).toNat < bytes.length) :
    guestByte e'.engine x = some bytes[(x - address).toNat] := by
  obtain ⟨e₀, e₁, -, -, ⟨failed, -⟩ | ⟨-, present, rfl⟩⟩ := guestStore_cases stored
  · cases failed
  · have mapped := present _ inside
    rw [add_offset] at mapped
    rw [guestByte, mapped_store, if_pos mapped, byte_store_of_lt _ _ _ inside]

/-- A store writes its bytes, or only the fault it has caused has changed memory. -/
theorem guestStore_byteStep {done : Bool} {bytes : List Byte}
    (stored : e.guestStore address bytes = .ok (done, e')) :
    ByteStep e e' (.store address bytes) x := by
  obtain ⟨e₀, e₁, hooked, maps, result⟩ := guestStore_cases stored
  obtain ⟨dirtyPages, rfl⟩ := beforeStore_cases hooked
  have faulted := maps.guestByte_cases x
  rcases result with ⟨-, rfl⟩ | ⟨rfl, present, rfl⟩
  · rcases faulted with same | ⟨missing, now⟩
    · exact .kept same
    · exact .mapped rfl missing now
  by_cases inside : (x - address).toNat < bytes.length
  · exact .put (.stored stored inside)
  · -- Beyond its bytes the store has changed nothing.
    have same : guestByte (store e₁.engine address bytes) x = guestByte e₁.engine x := by
      rw [guestByte, guestByte, mapped_store, byte_store_of_le _ _ _ (Nat.le_of_not_lt inside)]
    rcases faulted with unchanged | ⟨missing, now⟩
    · exact .kept (same.trans unchanged)
    · exact .mapped rfl missing (same.trans now)

variable {c c' : Counters} {size : BitVec 32} {stop : Bool}

theorem hookCode_byteStep [Host] (hook : e.hookCode c address size stop = .ok (e', c')) :
    ByteStep e e' (.code address size stop) x := by
  rcases hookCode_cases hook with ⟨-, rfl, -⟩ | ⟨insn, heeds, decoded, executed⟩
  · exact .kept rfl
  obtain ⟨writes, -⟩ := executed.hostWrites
  have going : stop = false := by
    rw [ignores, Bool.or_eq_false_iff] at heeds
    exact heeds.1
  subst going
  by_cases inside : x ∈ (e.hostDestination address size insn).addresses
  · cases present : mapped e'.engine x with
    | true => exact .put (.written decoded inside (if_pos present))
    | false =>
      -- The hook maps nothing, so the byte was not there before either.
      have missing := present
      rw [writes.mapped_eq] at missing
      refine .kept ?_
      rw [guestByte, guestByte, present, missing]
      rfl
  · exact .kept (writes.guestByte_eq inside)

end Emulator

/-- What an event writes is there afterwards. -/
theorem Puts.now {e e' : Emulator U} {event : RunEvent U} {x : Addr} {value : Byte}
    (puts : Puts e e' event x value) :
    guestByte e'.engine x = some value := by
  cases puts with
  | stored succeeds inside => exact Emulator.guestByte_of_guestStore succeeds inside
  | written decoded inside left => exact left

theorem RunState.Continues.memory_eq {r r' : RunState U} (continues : Continues r r') :
    byte r'.emulator.engine = byte r.emulator.engine ∧
      mapped r'.emulator.engine = mapped r.emulator.engine := by
  cases continues with
  | nothingPending => exact ⟨rfl, rfl⟩
  | restoreFailed => exact ⟨rfl, rfl⟩
  | resumed taken restored => exact contextRestore_memory _ _ _ restored

section Runs

variable [Host] {event : RunEvent U} {s s' : Counters × RunState U} {past : Past U}

/-- What a step of a run does to a byte. -/
theorem RunStep.byteStep (step : RunStep event s s') (x : Addr) :
    ByteStep s.2.emulator s'.2.emulator event x := by
  cases step with
  | @enter c r stop here =>
    rw [RunState.enterSlice]
    split_ifs
    · exact .kept rfl
    · exact .kept rfl
    · exact .of_memory (byte_regWrite _ _ _) (mapped_regWrite _ _ _)
  | code address size stop here hook => exact Emulator.hookCode_byteStep hook
  | store address bytes here nonempty small stored => exact Emulator.guestStore_byteStep stored
  | load address size here nonempty small loaded => exact Emulator.guestLoad_byteStep loaded
  | execute u here memory mappings => exact .of_memory memory mappings
  | leave elapsedUs here left =>
    obtain ⟨e₁, scanned, continues⟩ := RunState.leaveSlice_cases left
    obtain ⟨found, rfl⟩ := scanned.exists_stringList
    exact .of_memory continues.memory_eq.1 continues.memory_eq.2
  | interfere => exact .kept rfl

/-! ### Runs -/

/-- Where the byte at an address comes from: it has always been as at the start of the run, or it
is as the event has left it by which it has changed last. That event has written it, or has mapped
it for an access. -/
inductive LastWrite (r : RunState U) (past : Past U) (s : Counters × RunState U) (x : Addr) : Prop
  | initial (now : guestByte s.2.emulator.engine x = guestByte r.emulator.engine x)
      (since : ∀ p ∈ past, guestByte p.1.2.emulator.engine x = guestByte r.emulator.engine x)
  | put {later earlier : Past U} {t v : Counters × RunState U} {event : RunEvent U} {value : Byte}
      (split : past = later ++ (t, event) :: earlier) (step : RunStep event t v)
      (puts : Puts t.2.emulator v.2.emulator event x value)
      (changed : guestByte t.2.emulator.engine x ≠ some value)
      (now : guestByte s.2.emulator.engine x = some value)
      (since : ∀ p ∈ later, guestByte p.1.2.emulator.engine x = some value)
  | mapped {later earlier : Past U} {t : Counters × RunState U} {event : RunEvent U}
      (split : past = later ++ (t, event) :: earlier) (accesses : event.accesses = true)
      (missing : guestByte t.2.emulator.engine x = none)
      (now : guestByte s.2.emulator.engine x = some 0)
      (since : ∀ p ∈ later, guestByte p.1.2.emulator.engine x = some 0)

/-- Every byte of guest memory is as at the start of the run or as its last write has left it,
whichever slices the run has gone through and whatever other emulators have done. No step changes
it but a store, a load or a call of the instruction hook. -/
theorem lastWrite_of_trace {c : Counters} {r : RunState U} (trace : Trace RunStep (c, r) past s)
    (x : Addr) : LastWrite r past s x ∧ ∀ event s', RunStep event s s' → event.isQuiet = true →
      guestByte s'.2.emulator.engine x = guestByte s.2.emulator.engine x := by
  refine ⟨?_, fun event s' step quiet => (step.byteStep x).eq_of_isQuiet quiet⟩
  rcases trace.eq_or_exists_last_change fun s => guestByte s.2.emulator.engine x with
    ⟨now, since⟩ | ⟨later, t, event, earlier, v, split, step, change, value, since⟩
  · exact .initial now since
  cases step.byteStep x with
  | kept same => exact absurd same change
  | put puts =>
    rw [puts.now] at value change
    refine .put split step puts change.symm value.symm fun p member => ?_
    rw [since p member, value]
  | mapped accesses missing now =>
    rw [now] at value
    refine .mapped split accesses missing value.symm fun p member => ?_
    rw [since p member, value]

end Runs

/-! ### Bytes that are not zero -/

/-- A byte of memory that is not zero is the one of the image or has been written. -/
def Emulator.Accounted (e : Emulator U) (written : Addr → Byte → Prop) : Prop :=
  ∀ x value, guestByte e.engine x = some value → value ≠ 0 →
    e.InImage x ∧ e.image.contents (x - e.image.mapStart).toNat = value ∨ written x value

namespace Emulator

variable {e : Emulator U} {written written' : Addr → Byte → Prop}

theorem Accounted.mono (accounted : e.Accounted written)
    (more : ∀ x value, written x value → written' x value) : e.Accounted written' :=
  fun x value found nonzero => (accounted x value found nonzero).imp_right (more x value)

theorem mapped_of_guestByte {u : U} {x : Addr} {value : Byte} (found : guestByte u x = some value) :
    mapped u x = true ∧ byte u x = value := by
  rw [guestByte] at found
  split_ifs at found with present
  exact ⟨present, Option.some.inj found⟩

/-- The constructor leaves the image in memory and zeros in the rest of what it maps. -/
theorem byte_of_create {opened : U} {image : ImageSnapshot} {decoded : InstructionSnapshot}
    {config : EmulatorConfig} (created : Emulator.create opened image decoded config = some e)
    {x : Addr} (core : e.InCore x) :
    e.InImage x ∧ byte e.engine x = e.image.contents (x - e.image.mapStart).toNat ∨
      byte e.engine x = 0 := by
  obtain ⟨u₁, u₂, imageMapped, stackMapped, rest⟩ := create_cases created
  have before : InStack x ∨ (x - image.mapStart).toNat < image.mapSize.toNat →
      (x - image.mapStart).toNat < image.mapSize.toNat ∧
        byte (storeBytes u₂ (stackBase - stackSize) stackSize.toNat fun _ => 0) x =
          image.contents (x - image.mapStart).toNat ∨
        byte (storeBytes u₂ (stackBase - stackSize) stackSize.toNat fun _ => 0) x = 0 := by
    intro inside
    rw [byte_storeBytes]
    by_cases stack : (x - (stackBase - stackSize)).toNat < stackSize.toNat
    · exact .inr (if_pos stack)
    · have within := inside.resolve_left stack
      rw [if_neg stack, byte_memMap _ _ _ _ stackMapped, if_neg stack, byte_storeBytes,
        if_pos within]
      exact .inl ⟨within, rfl⟩
  rcases rest with ⟨heap, rfl⟩ | ⟨base, u₃, -, arenaMapped, rfl⟩
  · rcases core with inside | stack | arena
    · exact before (.inr inside)
    · exact before (.inl stack)
    · exact absurd arena.1 Bool.false_ne_true
  · have bytes := byte_memMap _ _ _ _ arenaMapped x
    by_cases arena : (x - base).toNat < FakeHeap.arenaSize.toNat
    · rw [if_pos arena] at bytes
      exact .inr bytes
    · rw [if_neg arena] at bytes
      have outside : InStack x ∨ (x - image.mapStart).toNat < image.mapSize.toNat := by
        rcases core with inside | stack | inArena
        · exact .inr inside
        · exact .inl stack
        · exact absurd inArena.2 arena
      change _ ∧ byte u₃ x = _ ∨ byte u₃ x = 0
      rw [bytes]
      exact before outside

/-- A new emulator has nothing but the image in memory. -/
theorem accounted_of_create {opened : U} {image : ImageSnapshot} {decoded : InstructionSnapshot}
    {config : EmulatorConfig} (created : Emulator.create opened image decoded config = some e)
    (empty : ∀ x, mapped opened x = false) : e.Accounted written := by
  intro x value found nonzero
  obtain ⟨present, rfl⟩ := mapped_of_guestByte found
  have well := create_wellMapped created empty
  have core : e.InCore x := by
    rcases (well.law.mapped_iff x).mp present with core | transient
    · exact core
    · obtain ⟨u₁, u₂, -, -, ⟨heap, rfl⟩ | ⟨base, u₃, -, -, rfl⟩⟩ := create_cases created
      · exact absurd transient List.not_mem_nil
      · exact absurd transient List.not_mem_nil
  rcases byte_of_create created core with ⟨inside, contents⟩ | zero
  · exact .inl ⟨inside, contents.symm⟩
  · exact absurd zero nonzero

variable [Host]

/-- The reset before a run brings nothing new into memory. -/
theorem Accounted.startRun {args : RunArgs} {r : RunState U} (accounted : e.Accounted written)
    (well : e.WellMapped) (started : e.startRun args = .ok r) :
    r.emulator.Accounted written := by
  intro x value found nonzero
  obtain ⟨present, rfl⟩ := mapped_of_guestByte found
  have cleared := (startRun_wellMapped well started).1
  obtain ⟨image, stack⟩ := well.startRun_image_stack started
  obtain ⟨⟨sameImage, sameStubs, sameBase⟩, noPages⟩ := startRun_sameCore started
  have core : e.InCore x := by
    rw [cleared.law.mapped_iff x, noPages] at present
    have same := present.resolve_right List.not_mem_nil
    exact (InCore.congr sameImage sameStubs sameBase x).mp same
  rw [InImage, sameImage]
  rcases core with inside | inside | arena
  · exact .inl ⟨inside, (image x inside).symm⟩
  · exact absurd (stack x inside) nonzero
  · -- What the heap has handed out is zero now, the rest is as it was.
    have kept := well.startRun_arena started arena
    split_ifs at kept
    · exact absurd kept nonzero
    · rw [kept] at nonzero ⊢
      refine accounted x _ ?_ nonzero
      rw [guestByte, if_pos ((well.law.mapped_iff x).mpr (.inl (.inr (.inr arena))))]

/-- A step of a run brings into memory what it writes. -/
theorem Accounted.step {event : RunEvent U} {s s' : Counters × RunState U}
    (accounted : s.2.emulator.Accounted written) (step : RunStep event s s') :
    s'.2.emulator.Accounted fun x value =>
      written x value ∨ Puts s.2.emulator s'.2.emulator event x value := by
  intro x value found nonzero
  have image : s'.2.emulator.image = s.2.emulator.image := step.sameCore.image
  rw [InImage, image]
  cases step.byteStep x with
  | kept same =>
    rw [same] at found
    exact (accounted x value found nonzero).imp_right .inl
  | put puts =>
    cases found.symm.trans puts.now
    exact .inr (.inr puts)
  | mapped accesses missing now =>
    cases found.symm.trans now
    exact absurd rfl nonzero

end Emulator

/-- A run that stores characters on the stack. -/
theorem lastWrite_of_trace_pushWord : ∃ past s,
    Trace RunStep (Example.noCounts, Example.plainRun) past s ∧
      LastWrite Example.plainRun past s (stackBase - 0x1000) ∧
      ∀ event s', RunStep event s s' → event.isQuiet = true →
        guestByte s'.2.emulator.engine (stackBase - 0x1000) =
          guestByte s.2.emulator.engine (stackBase - 0x1000) := by
  obtain ⟨past, s, t, trace, -⟩ := Example.exists_pushWord
  exact ⟨past, s, trace, lastWrite_of_trace trace _⟩

end Unxorer
