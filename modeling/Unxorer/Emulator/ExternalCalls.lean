import Unxorer.Emulator.Counting
import Unxorer.Emulator.DirtyPages
import Unxorer.Stubs.StringCopies

/-!
# Calls that leave the image

A call that leaves the image is not executed: the hook runs the stub for its name, or clears
RAX where there is none, and goes on behind the call. For the emulated program this is a call
of a Win64 function that has returned: RAX holds a result, no other register has changed, and
guest memory has changed in the destination of the stub at most.

## Main definitions

* `ApiStubs.KeepsRegisters` — all registers but RAX are as they were
* `Emulator.Returned` — a call that has returned
* `ApiStubs.Stub.Contract` — what a caller of the memory functions relies on

## Main results

* `ApiStubs.Stub.run_keepsRegisters` — no stub changes a register but RAX
* `returned_of_step` — a call that leaves the image has returned after the hook
* `contract_of_step` — the memory functions do what they are called for
-/

set_option autoImplicit false

namespace Unxorer

open Unicorn InstructionClassifier Transition

variable {U : Type} [Unicorn U]

namespace ApiStubs

/-! ### Registers -/

/-- All registers but RAX are as they were. -/
structure KeepsRegisters (u u' : U) : Prop where
  registers : ∀ r, r ≠ Reg.rax → reg u' r = reg u r
  vectors : ymm u' = ymm u

namespace KeepsRegisters

variable {u u' u'' : U}

theorem refl (u : U) : KeepsRegisters u u := ⟨fun _ _ => rfl, rfl⟩

theorem trans (first : KeepsRegisters u u') (second : KeepsRegisters u' u'') :
    KeepsRegisters u u'' where
  registers r other := (second.registers r other).trans (first.registers r other)
  vectors := second.vectors.trans first.vectors

theorem writeRet (keeps : KeepsRegisters u u') (value : BitVec 64) :
    KeepsRegisters u (writeRet u' value) where
  registers r other := by
    rw [ApiStubs.writeRet, reg_regWrite, if_neg other]
    exact keeps.registers r other
  vectors := (ymm_regWrite _ _ _).trans keeps.vectors

theorem memWrite (u : U) (a : Addr) (bs : List Byte) :
    KeepsRegisters u ((Unicorn.memWrite u a bs).getD u) :=
  ⟨fun r _ => congrFun (reg_memWrite u a bs) r, ymm_memWrite u a bs⟩

theorem copyLoop (w : ℕ) (src dest : Addr) (fuel i : ℕ) (u : U) :
    KeepsRegisters u (copyLoop w src dest fuel i u).1 := by
  induction fuel generalizing i u with
  | zero => exact refl u
  | succ fuel ih =>
    rw [ApiStubs.copyLoop]
    cases memRead u (charAddr w src i) w with
    | none => exact refl u
    | some ch =>
      dsimp only
      split_ifs
      · exact memWrite u _ ch
      · exact (memWrite u _ ch).trans (ih _ _)

theorem copyNLoop (w : ℕ) (src dest : Addr) (n i : ℕ) (hitNull : Bool) (u : U) :
    KeepsRegisters u (copyNLoop w src dest n i hitNull u) := by
  induction n generalizing i hitNull u with
  | zero => exact refl u
  | succ n ih =>
    unfold ApiStubs.copyNLoop
    dsimp only
    -- Each round writes one character, whichever branch it takes.
    cases if hitNull = true then none else memRead u (charAddr w src i) w with
    | none => exact (memWrite u _ _).trans (ih _ _ _)
    | some ch =>
      dsimp only
      split_ifs
      · exact (memWrite u _ _).trans (ih _ _ _)
      · exact (memWrite u _ _).trans (ih _ _ _)

section Host

variable [Host] {h h' : FakeHeap} {ptr : Addr} {size : BitVec 64}

theorem fill {byte : Byte} (filled : fill u ptr byte size = .ok u') : KeepsRegisters u u' := by
  rw [ApiStubs.fill] at filled
  split_ifs at filled
  · obtain ⟨-, -, returned⟩ := exists_of_bind_ok filled
    cases returned
    exact memWrite u ptr _
  · cases filled
    exact refl u

theorem zeroFill (filled : FakeHeap.zeroFill u ptr size = .ok u') : KeepsRegisters u u' := by
  obtain ⟨-, -, returned⟩ := exists_of_bind_ok filled
  cases returned
  exact memWrite u ptr _

theorem callocAlloc {count : BitVec 64} (done : h.callocAlloc u count size = .ok (ptr, u', h')) :
    KeepsRegisters u u' := by
  rw [FakeHeap.callocAlloc] at done
  by_cases block : (h.alloc (count * size)).1 ≠ 0
  · simp only [if_pos block] at done
    obtain ⟨u₁, filled, returned⟩ := exists_of_bind_ok done
    cases returned
    exact zeroFill filled
  · simp only [if_neg block] at done
    cases done
    exact refl u

theorem moveBlock {newPtr : Addr} (moved : FakeHeap.moveBlock u ptr newPtr size = .ok u') :
    KeepsRegisters u u' := by
  obtain ⟨-, -, returned⟩ := exists_of_bind_ok moved
  split at returned
  · cases returned
    exact memWrite u newPtr _
  · cases returned
    exact refl u

theorem reallocAlloc {newPtr : Addr} (done : h.reallocAlloc u ptr size = .ok (newPtr, u', h')) :
    KeepsRegisters u u' := by
  rw [FakeHeap.reallocAlloc] at done
  by_cases first : ptr = 0
  · rw [if_pos first] at done
    cases done
    exact refl u
  rw [if_neg first] at done
  by_cases empty : size = 0
  · rw [if_pos empty] at done
    cases done
    exact refl u
  rw [if_neg empty] at done
  by_cases refused : (h.alloc size).1 = 0
  · simp only [if_pos refused] at done
    cases done
    exact refl u
  simp only [if_neg refused] at done
  by_cases known : (h.allocSizes ptr).getD 0 > 0
  · rw [if_pos known] at done
    obtain ⟨u₁, moved, returned⟩ := exists_of_bind_ok done
    cases returned
    exact moveBlock moved
  · rw [if_neg known] at done
    cases done
    exact refl u

theorem allocZeroed {zeroed : Bool} (ran : allocZeroed u h size zeroed = .ok (u', h')) :
    KeepsRegisters u u' := by
  rw [ApiStubs.allocZeroed] at ran
  by_cases fills : (h.alloc size).1 ≠ 0 ∧ zeroed = true
  · simp only [if_pos fills] at ran
    obtain ⟨u₁, filled, returned⟩ := exists_of_bind_ok ran
    cases returned
    exact (zeroFill filled).writeRet _
  · simp only [if_neg fills] at ran
    cases ran
    exact (refl u).writeRet _

theorem stubMemcpy (ran : stubMemcpy u h = .ok (u', h')) : KeepsRegisters u u' := by
  rw [ApiStubs.stubMemcpy] at ran
  by_cases accepted : acceptsCount (readArg u 2) = true
  · simp only [if_pos accepted] at ran
    obtain ⟨-, -, returned⟩ := exists_of_bind_ok ran
    split at returned
    · cases returned
      exact (memWrite u _ _).writeRet _
    · cases returned
      exact (refl u).writeRet _
  · simp only [if_neg accepted] at ran
    cases ran
    exact (refl u).writeRet _

theorem stubMemcmp (ran : stubMemcmp u h = .ok (u', h')) : KeepsRegisters u u' := by
  rw [ApiStubs.stubMemcmp] at ran
  by_cases accepted : acceptsCount (readArg u 2) = true
  · simp only [if_pos accepted] at ran
    obtain ⟨-, -, rest⟩ := exists_of_bind_ok ran
    obtain ⟨-, -, returned⟩ := exists_of_bind_ok rest
    cases returned
    exact (refl u).writeRet _
  · simp only [if_neg accepted] at ran
    cases ran
    exact (refl u).writeRet _

end Host

end KeepsRegisters

/-- No stub changes a register but RAX. -/
theorem Stub.run_keepsRegisters [Host] {u u' : U} {heap heap' : FakeHeap} {stub : Stub}
    (ran : stub.run u heap = .ok (u', heap')) : KeepsRegisters u u' := by
  cases stub with
  | malloc | free | getProcessHeap | strlen | wcslen =>
    cases ran
    exact (KeepsRegisters.refl u).writeRet _
  | calloc =>
    obtain ⟨⟨ptr, u₁, heap₁⟩, done, returned⟩ := exists_of_bind_ok ran
    cases returned
    exact (KeepsRegisters.callocAlloc done).writeRet _
  | realloc | heapRealloc =>
    obtain ⟨⟨ptr, u₁, heap₁⟩, done, returned⟩ := exists_of_bind_ok ran
    cases returned
    exact (KeepsRegisters.reallocAlloc done).writeRet _
  | heapAlloc | virtualAlloc | localAlloc => exact .allocZeroed ran
  | memcpy => exact .stubMemcpy ran
  | memcmp => exact .stubMemcmp ran
  | memset =>
    obtain ⟨u₁, filled, returned⟩ := exists_of_bind_ok ran
    cases returned
    exact (KeepsRegisters.fill filled).writeRet _
  | rtlZeroMemory | rtlFillMemory =>
    obtain ⟨u₁, filled, returned⟩ := exists_of_bind_ok ran
    cases returned
    exact .fill filled
  | strcpy | wcscpy | strcat | wcscat =>
    cases ran
    exact (KeepsRegisters.copyLoop _ _ _ _ _ u).writeRet _
  | strncpy | wcsncpy =>
    cases ran
    exact (KeepsRegisters.copyNLoop _ _ _ _ _ _ u).writeRet _

end ApiStubs

/-! ### Calls that have returned -/

namespace Emulator

/-- The call `insn` at `address` has returned in `e'`: RIP is behind it, RAX is the result, and
no other register, vector register or mapping has changed. Guest memory has changed in the
destination of the stub at most; where there is no stub, RAX is 0 and nothing has changed. Of
the emulator itself only the heap and the found strings may differ. -/
structure Returned (e : Emulator U) (address : Addr) (size : BitVec 32) (insn : Insn)
    (e' : Emulator U) : Prop where
  rip : reg e'.engine .rip = address + size.setWidth 64
  registers : ∀ r, r ≠ .rip → r ≠ .rax → reg e'.engine r = reg e.engine r
  vectors : ymm e'.engine = ymm e.engine
  memory : HostWrites (e.hostDestination address size insn).addresses e.engine e'.engine
  unknown : e.calledStub insn = none →
    reg e'.engine .rax = 0 ∧ byte e'.engine = byte e.engine ∧ e'.heap = e.heap
  others : e' = { e with
    engine := e'.engine
    heap := e'.heap
    stringList := e'.stringList }

variable [Host] {e e' : Emulator U} {c c' : Counters} {address : Addr} {size : BitVec 32}
  {insn : Insn}

/-- The hook leaves a call that leaves the image returned, with the stub for it, if there is
one, run. -/
theorem returned_of_hookCode (hook : e.hookCode c address size false = .ok (e', c'))
    (decoded : e.tryGetInsn address = some insn) (leaves : e.leaves insn = true) :
    e.Returned address size insn e' ∧ ∀ stub, e.calledStub insn = some stub →
      stub.run (regWrite e.engine .rip (address + size.setWidth 64)) e.heap =
        .ok (e'.engine, e'.heap) := by
  rcases hookCode_cases hook with ⟨ignored, -⟩ | ⟨insn', -, decoded', executed⟩
  · rw [ignores, decoded] at ignored
    cases ignored
  cases decoded.symm.trans decoded'
  have writes := executed.hostWrites.1
  have calls : insn.itype ∈ callTypes := by
    by_contra other
    rw [(leaves_eq_false other).1] at leaves
    cases leaves
  obtain ⟨noSkip, noHandle⟩ := plain_of_callTypes calls
  cases executed with
  | skipped skip => exact absurd (noSkip.symm.trans skip) Bool.false_ne_true
  | handled _ _ handle => exact absurd (noHandle.symm.trans handle) Bool.false_ne_true
  | @explored e₁ _ _ _ scanned _ call =>
    rcases e₁.handleCall_counted (countInsn c) address size insn with ⟨-, stays, -⟩ | ⟨-, some, -⟩
    · rw [(scanned.leaves_eq insn).1, leaves] at stays
      cases stays
    · exact absurd call some
  | @called e₁ _ _ stub _ scanned _ call =>
    have scannedStub := calledStub_of_handleCall call
    obtain ⟨found, rfl⟩ := scanned.exists_stringList
    have same : e.calledStub insn = stub := scannedStub
    obtain ⟨u, heap, ran, result, -⟩ := handleCall_cases call
    obtain ⟨found', rfl⟩ := result.exists_stringList
    -- The stub changes RAX and memory only, so RIP is where the call would return.
    have keeps :
        ApiStubs.KeepsRegisters (regWrite e.engine .rip (address + size.setWidth 64)) u := by
      cases stub with
      | some stub => exact ApiStubs.Stub.run_keepsRegisters ran
      | none =>
        obtain ⟨rfl, -⟩ := ran
        exact (ApiStubs.KeepsRegisters.refl _).writeRet 0
    refine ⟨⟨?_, fun r notRip notRax => ?_, ?_, writes, fun none => ?_, rfl⟩, fun s known => ?_⟩
    · exact (keeps.registers .rip (by decide)).trans ((reg_regWrite _ _ _ _).trans (if_pos rfl))
    · exact (keeps.registers r notRax).trans ((reg_regWrite _ _ _ _).trans (if_neg notRip))
    · exact keeps.vectors.trans (ymm_regWrite _ _ _)
    · cases same.symm.trans none
      obtain ⟨rfl, rfl⟩ := ran
      exact ⟨(reg_regWrite _ _ _ _).trans (if_pos rfl),
        (byte_regWrite _ _ _).trans (byte_regWrite _ _ _), rfl⟩
    · cases same.symm.trans known
      exact ran

end Emulator

/-- Whenever the hook of a run meets a call that leaves the image, the call has returned. -/
theorem returned_of_step [Host] {s s' : Counters × RunState U} {address : Addr}
    {size : BitVec 32} {insn : Insn} (step : RunStep (.code address size false) s s')
    (decoded : s.2.emulator.tryGetInsn address = some insn)
    (leaves : s.2.emulator.leaves insn = true) :
    s.2.emulator.Returned address size insn s'.2.emulator := by
  cases step with
  | code address size stop here hook => exact (Emulator.returned_of_hookCode hook decoded leaves).1

/-! ### The memory functions -/

namespace ApiStubs

/-- Of the bytes of memory those of the range from `dest` on are given by their offset, and the
others are as they were. -/
def Overwrites (u u' : U) (dest : Addr) (n : ℕ) (value : ℕ → Byte) : Prop :=
  ∀ x, byte u' x = if (x - dest).toNat < n then value (x - dest).toNat else byte u x

/-- A range is filled with one byte, or nothing happens: if the count is 0 or above the limit,
or the range is not mapped throughout. -/
def Filled (u u' : U) (dest : Addr) (count : BitVec 64) (value : Byte) : Prop :=
  if acceptsCount count ∧ Mapped u dest count.toNat then
    Overwrites u u' dest count.toNat fun _ => value
  else byte u' = byte u

/-- The sign of a value is the order of two lists of bytes: that of the first bytes that
differ. -/
inductive Compares (value : BitVec 64) (first second : List Byte) : Prop
  | less (negative : value.toInt < 0) (before : first < second)
  | equal (zero : value = 0) (same : first = second)
  | greater (positive : 0 < value.toInt) (behind : second < first)

/-- The length of a string: up to the limit, all characters before it can be read and none is a
NUL; below the limit, the next one is a NUL or cannot be read. -/
structure Measures (w : ℕ) (u : U) (str : Addr) (length : ℕ) : Prop where
  limit : length ≤ maxBuffer
  chars : ∀ i < length, ∃ ch, memRead u (charAddr w str i) w = some ch ∧ ch ≠ nul w
  stop : length < maxBuffer → memRead u (charAddr w str length) w = none ∨
    memRead u (charAddr w str length) w = some (nul w)

/-- What a caller of a memory function relies on, from the registers of its arguments. The
copying of characters and the allocation of blocks are not among these functions. -/
def Stub.MemoryContract (u u' : U) : Stub → Prop
  | memcpy =>
    -- The source is read as a whole before anything is written, so ranges may overlap.
    reg u' .rax = reg u .rcx ∧
      if acceptsCount (reg u .r8) ∧ Mapped u (reg u .rdx) (reg u .r8).toNat ∧
          Mapped u (reg u .rcx) (reg u .r8).toNat then
        Overwrites u u' (reg u .rcx) (reg u .r8).toNat fun i =>
          byte u (reg u .rdx + BitVec.ofNat 64 i)
      else byte u' = byte u
  | memset =>
    reg u' .rax = reg u .rcx ∧ Filled u u' (reg u .rcx) (reg u .r8) ((reg u .rdx).setWidth 8)
  | rtlZeroMemory => reg u' .rax = reg u .rax ∧ Filled u u' (reg u .rcx) (reg u .rdx) 0
  | rtlFillMemory =>
    reg u' .rax = reg u .rax ∧ Filled u u' (reg u .rcx) (reg u .rdx) ((reg u .r8).setWidth 8)
  | memcmp =>
    byte u' = byte u ∧
      if acceptsCount (reg u .r8) ∧ Mapped u (reg u .rcx) (reg u .r8).toNat ∧
          Mapped u (reg u .rdx) (reg u .r8).toNat then
        Compares (reg u' .rax) (bytesAt u (reg u .rcx) (reg u .r8).toNat)
          (bytesAt u (reg u .rdx) (reg u .r8).toNat)
      else reg u' .rax = 0
  | strlen => byte u' = byte u ∧ Measures 1 u (reg u .rcx) (reg u' .rax).toNat
  | wcslen => byte u' = byte u ∧ Measures 2 u (reg u .rcx) (reg u' .rax).toNat
  | free => byte u' = byte u ∧ reg u' .rax = 0
  | getProcessHeap => byte u' = byte u ∧ reg u' .rax = 0xBEEF0000
  | _ => True

section Contracts

variable {u u' : U}

theorem overwrites_store {dest : Addr} {bs : List Byte} {n : ℕ} {value : ℕ → Byte}
    (length : bs.length = n) (values : ∀ i < n, bs[i]? = some (value i)) :
    Overwrites u (store u dest bs) dest n value := by
  intro x
  rw [store, byte_storeBytes, length]
  by_cases inside : (x - dest).toNat < n
  · rw [if_pos inside, if_pos inside, values _ inside, Option.getD_some]
  · rw [if_neg inside, if_neg inside]

theorem Overwrites.writeRet {dest : Addr} {n : ℕ} {value : ℕ → Byte}
    (done : Overwrites u u' dest n value) (result : BitVec 64) :
    Overwrites u (writeRet u' result) dest n value := by
  intro x
  rw [ApiStubs.writeRet, byte_regWrite]
  exact done x

theorem filled_fill [Host] {dest : Addr} {count : BitVec 64} {value : Byte}
    (filled : fill u dest value count = .ok u') :
    reg u' = reg u ∧ Filled u u' dest count value := by
  rw [fill] at filled
  rw [Filled]
  by_cases accepted : acceptsCount count = true
  · rw [if_pos accepted] at filled
    obtain ⟨-, -, returned⟩ := exists_of_bind_ok filled
    cases returned
    have length : (List.replicate count.toNat value).length = count.toNat := List.length_replicate
    refine ⟨reg_memWrite _ _ _, ?_⟩
    rw [memWrite_getD, length]
    by_cases present : Mapped u dest count.toNat
    · rw [if_pos present, if_pos ⟨accepted, present⟩]
      exact overwrites_store length fun i inside => List.getElem?_replicate_of_lt inside
    · rw [if_neg present, if_neg fun both => present both.2]
  · rw [if_neg accepted] at filled
    cases filled
    rw [if_neg fun both => accepted both.1]
    exact ⟨rfl, rfl⟩

theorem Filled.writeRet {dest : Addr} {count : BitVec 64} {value : Byte}
    (filled : Filled u u' dest count value) (result : BitVec 64) :
    Filled u (writeRet u' result) dest count value := by
  rw [Filled] at filled ⊢
  split_ifs at filled ⊢
  · exact filled.writeRet result
  · exact (byte_regWrite _ _ _).trans filled

theorem stubMemcpy_memoryContract [Host] {heap heap' : FakeHeap}
    (ran : stubMemcpy u heap = .ok (u', heap')) : Stub.memcpy.MemoryContract u u' := by
  rw [stubMemcpy] at ran
  by_cases accepted : acceptsCount (readArg u 2) = true
  · simp only [if_pos accepted] at ran
    obtain ⟨-, -, returned⟩ := exists_of_bind_ok ran
    by_cases readable : Mapped u (readArg u 1) (readArg u 2).toNat
    · rw [memRead_of_mapped readable] at returned
      cases returned
      refine ⟨rax_writeRet _ _, ?_⟩
      rw [memWrite_getD, length_bytesAt]
      by_cases present : Mapped u (readArg u 0) (readArg u 2).toNat
      · rw [if_pos present, if_pos ⟨accepted, readable, present⟩]
        exact (overwrites_store (length_bytesAt _ _ _) fun i => getElem?_bytesAt).writeRet _
      · rw [if_neg present, if_neg fun all => present all.2.2]
        exact byte_regWrite _ _ _
    · rw [memRead_of_not_mapped readable] at returned
      cases returned
      refine ⟨rax_writeRet _ _, ?_⟩
      rw [if_neg fun all => readable all.2.1]
      exact byte_regWrite _ _ _
  · simp only [if_neg accepted] at ran
    cases ran
    refine ⟨rax_writeRet _ _, ?_⟩
    rw [if_neg fun all => accepted all.1]
    exact byte_regWrite _ _ _

theorem memcmp_cases {first second : List Byte} (length : first.length = second.length) :
    (memcmp first second = -1 ∧ first < second) ∨ (memcmp first second = 0 ∧ first = second) ∨
      (memcmp first second = 1 ∧ second < first) := by
  induction first generalizing second with
  | nil =>
    cases second with
    | nil => exact .inr (.inl ⟨rfl, rfl⟩)
    | cons => cases length
  | cons x xs ih =>
    cases second with
    | nil => cases length
    | cons y ys =>
      rw [memcmp]
      by_cases less : x < y
      · rw [if_pos less]
        exact .inl ⟨rfl, List.cons_lt_cons_iff.mpr (.inl less)⟩
      rw [if_neg less]
      by_cases greater : y < x
      · rw [if_pos greater]
        exact .inr (.inr ⟨rfl, List.cons_lt_cons_iff.mpr (.inl greater)⟩)
      rw [if_neg greater]
      -- Equal bytes leave the decision to those behind them.
      obtain rfl : x = y := BitVec.le_antisymm (BitVec.not_lt.mp greater) (BitVec.not_lt.mp less)
      simp only [List.cons_lt_cons_iff, BitVec.lt_irrefl, false_or, true_and, List.cons.injEq]
      exact ih (Nat.succ.inj length)

theorem compares_memcmp {first second : List Byte} (length : first.length = second.length) :
    Compares (BitVec.ofInt 64 (memcmp first second)) first second := by
  rcases memcmp_cases length with ⟨result, less⟩ | ⟨result, same⟩ | ⟨result, greater⟩
  · rw [result]
    exact .less (by decide) less
  · rw [result]
    exact .equal rfl same
  · rw [result]
    exact .greater (by decide) greater

theorem measures_scanLength (w : ℕ) (u : U) (str : Addr) :
    Measures w u str (scanLength w u str maxBuffer 0) := by
  obtain ⟨limit, source⟩ := sourceText_scanLength w u str maxBuffer
  exact ⟨limit, fun i before => ⟨_, source.chars i (before.trans_le limit) before⟩, source.stop⟩

theorem stubMemcmp_memoryContract [Host] {heap heap' : FakeHeap}
    (ran : stubMemcmp u heap = .ok (u', heap')) : Stub.memcmp.MemoryContract u u' := by
  rw [stubMemcmp] at ran
  by_cases accepted : acceptsCount (readArg u 2) = true
  · simp only [if_pos accepted] at ran
    obtain ⟨-, -, rest⟩ := exists_of_bind_ok ran
    obtain ⟨-, -, returned⟩ := exists_of_bind_ok rest
    cases returned
    refine ⟨byte_regWrite _ _ _, ?_⟩
    rw [rax_writeRet]
    by_cases readable : Mapped u (readArg u 0) (readArg u 2).toNat
    · rw [memRead_of_mapped readable]
      by_cases readable' : Mapped u (readArg u 1) (readArg u 2).toNat
      · rw [memRead_of_mapped readable', if_pos ⟨accepted, readable, readable'⟩]
        exact compares_memcmp ((length_bytesAt _ _ _).trans (length_bytesAt _ _ _).symm)
      · rw [memRead_of_not_mapped readable', if_neg fun all => readable' all.2.2]
        rfl
    · rw [memRead_of_not_mapped readable, if_neg fun all => readable all.2.1]
      rfl
  · simp only [if_neg accepted] at ran
    cases ran
    refine ⟨byte_regWrite _ _ _, ?_⟩
    rw [if_neg fun all => accepted all.1]
    exact rax_writeRet _ _

theorem stubLength_memoryContract {w : ℕ} {heap heap' : FakeHeap}
    (ran : stubLength u heap w = .ok (u', heap')) :
    byte u' = byte u ∧ Measures w u (reg u .rcx) (reg u' .rax).toNat := by
  cases ran
  have measures := measures_scanLength w u (readArg u 0)
  have small : scanLength w u (readArg u 0) maxBuffer 0 < 2 ^ 64 :=
    measures.limit.trans_lt (by decide)
  refine ⟨byte_regWrite _ _ _, ?_⟩
  rw [rax_writeRet, BitVec.toNat_ofNat, Nat.mod_eq_of_lt small]
  exact measures

/-- The memory functions keep their contract. -/
theorem Stub.run_memoryContract [Host] {heap heap' : FakeHeap} {stub : Stub}
    (ran : stub.run u heap = .ok (u', heap')) : stub.MemoryContract u u' := by
  cases stub with
  | memcpy => exact stubMemcpy_memoryContract ran
  | memset =>
    obtain ⟨u₁, filled, returned⟩ := exists_of_bind_ok ran
    cases returned
    exact ⟨rax_writeRet _ _, (filled_fill filled).2.writeRet _⟩
  | rtlZeroMemory | rtlFillMemory =>
    obtain ⟨u₁, filled, returned⟩ := exists_of_bind_ok ran
    cases returned
    obtain ⟨registers, done⟩ := filled_fill filled
    exact ⟨congrFun registers .rax, done⟩
  | memcmp => exact stubMemcmp_memoryContract ran
  | strlen | wcslen => exact stubLength_memoryContract ran
  | free | getProcessHeap =>
    cases ran
    exact ⟨byte_regWrite _ _ _, rax_writeRet _ _⟩
  | _ => trivial

/-- A contract is about memory and the registers of arguments and results. -/
theorem Stub.MemoryContract.congr {v : U} {stub : Stub} (contract : stub.MemoryContract u u')
    (registers : ∀ r, r ≠ Reg.rip → reg u r = reg v r) (bytes : byte u = byte v)
    (mappings : mapped u = mapped v) : stub.MemoryContract v u' := by
  have rax := registers .rax (by decide)
  have rcx := registers .rcx (by decide)
  have rdx := registers .rdx (by decide)
  have r8 := registers .r8 (by decide)
  have present (a : Addr) (n : ℕ) : Mapped u a n ↔ Mapped v a n := mapped_congr mappings a n
  have content (a : Addr) (n : ℕ) : bytesAt u a n = bytesAt v a n := by simp only [bytesAt, bytes]
  have lengths {w : ℕ} {str : Addr} {n : ℕ} (measures : Measures w u str n) :
      Measures w v str n := by
    obtain ⟨limit, chars, stop⟩ := measures
    have read := memRead_congr mappings bytes
    exact ⟨limit, by simpa only [read] using chars, by simpa only [read] using stop⟩
  cases stub with
  | strlen | wcslen =>
    simp only [MemoryContract, rcx, bytes] at contract ⊢
    exact ⟨contract.1, lengths contract.2⟩
  | _ =>
    simp only [MemoryContract, Filled, Overwrites, rax, rcx, rdx, r8, bytes, present, content]
      at contract ⊢ <;>
    exact contract

end Contracts

end ApiStubs

/-- A call for which there is a stub leaves the image. -/
theorem Emulator.leaves_of_calledStub {e : Emulator U} {insn : Insn} {stub : ApiStubs.Stub}
    (called : e.calledStub insn = some stub) : e.leaves insn = true := by
  rw [calledStub] at called
  rw [leaves]
  by_cases calls : insn.itype ∉ callTypes
  · rw [if_pos calls] at called
    cases called
  rw [if_neg calls] at called
  rw [List.elem_iff.mpr (not_not.mp calls), Bool.true_and]
  cases resolved : resolveOperandTarget e.engine insn.op1 with
  | none =>
    rw [resolved] at called
    cases called
  | some target =>
    rw [resolved] at called
    dsimp only at called
    by_cases out : (!e.insideImage target || e.isExternalThunk target) = true
    · exact out
    · rw [if_neg out] at called
      cases called

/-- Whenever the hook of a run meets a call of a memory function, it leaves memory and RAX as
the contract of the function says, whatever the registers and the memory before. -/
theorem memoryContract_of_step [Host] {s s' : Counters × RunState U} {address : Addr}
    {size : BitVec 32} {insn : Insn} {stub : ApiStubs.Stub}
    (step : RunStep (.code address size false) s s')
    (decoded : s.2.emulator.tryGetInsn address = some insn)
    (called : s.2.emulator.calledStub insn = some stub) :
    stub.MemoryContract s.2.emulator.engine s'.2.emulator.engine := by
  cases step with
  | code address size stop here hook =>
    have ran := (Emulator.returned_of_hookCode hook decoded
      (Emulator.leaves_of_calledStub called)).2 stub called
    refine (ApiStubs.Stub.run_memoryContract ran).congr (fun r other => ?_) (byte_regWrite _ _ _)
      (mapped_regWrite _ _ _)
    rw [reg_regWrite, if_neg other]

namespace Example

/-- A call of `memset` by way of the thunk, for four bytes at the top of the stack. -/
def atThunkCall : RunState Machine :=
  let r := startedOf thunkCall true ⟨0x14000000C, 0, 0, 0, false⟩
  let u := regWrite (regWrite r.emulator.engine .rcx (stackBase - 0x1000)) .r8 4
  let named : ImageSnapshot :=
    { image with importMap := fun a => if a = 0x140000020 then some "memset" else none }
  { r with emulator := { r.emulator with engine := u, image := named }, phase := .slice 0 }

theorem calledStub_thunkCall : atThunkCall.emulator.calledStub
    ⟨.call, 5, ⟨.near, 0, 0x140000020, 0⟩, .none, .none⟩ = some .memset := by
  decide +kernel

theorem exists_thunkCall :
    ∃ s, RunStep (.code 0x14000000C 5 false) (noCounts, atThunkCall) s := by
  obtain ⟨s, performed⟩ : ∃ s, (RunEvent.code 0x14000000C 5 false).perform
      (noCounts, atThunkCall) = some s := Option.isSome_iff_exists.mp (by decide +kernel)
  exact ⟨s, RunEvent.step_of_perform performed⟩

end Example

theorem returned_of_step_thunk : ∃ s,
    RunStep (.code 0x14000000C 5 false) (Example.noCounts, Example.atThunkCall) s ∧
      reg s.2.emulator.engine .rip = 0x140000011 := by
  obtain ⟨s, step⟩ := Example.exists_thunkCall
  exact ⟨s, step, (returned_of_step step rfl
    (Emulator.leaves_of_calledStub Example.calledStub_thunkCall)).rip⟩

theorem memoryContract_of_step_memset : ∃ s,
    RunStep (.code 0x14000000C 5 false) (Example.noCounts, Example.atThunkCall) s ∧
      ApiStubs.Stub.memset.MemoryContract Example.atThunkCall.emulator.engine
        s.2.emulator.engine := by
  obtain ⟨s, step⟩ := Example.exists_thunkCall
  exact ⟨s, step, memoryContract_of_step step rfl Example.calledStub_thunkCall⟩

end Unxorer
