import Unxorer.Emulator.FoundStrings
import Unxorer.Emulator.Loops
import Unxorer.Emulator.MemoryMap
import Unxorer.Emulator.RegisterStrings

/-!
# Where found strings come from

Whatever a run reports has been in the memory of the emulated program, as a text of the
scanner's alphabet with a NUL behind it, at the reported address and while RIP was the reported
one. And what a scan has come across is not lost before the run ends.

## Main definitions

* `HoldsText` — a text lies in guest memory
* `Shows` — a found string is what is stored for a text in guest memory
* `Emulator.Finds` — what a step may do to the found strings
* `TextLaw` — what holds of the strings a run has found

## Main results

* `RunStep.strings` — what a step of a run does to the found strings
* `textLaw_of_trace` — the law holds in every state of every run
* `stackText_found_of_trace` — a text in the used part of the stack is found
-/

set_option autoImplicit false

namespace Unxorer

open Unicorn InstructionClassifier Strings TerminatedRuns Transition

variable {U : Type} [Unicorn U]

/-! ### Texts in memory -/

/-- At `p` lies a text of the scanner's alphabet with a NUL behind it. -/
structure HoldsText (u : U) (p : Addr) (text : List Byte) : Prop where
  long : 4 ≤ text.length
  alphabet : ∀ c ∈ text, isAsciiPrintable c = true
  bytes : bytesAt u p (text.length + 1) = text ++ [0]

/-- A run in the bytes of a range is a text at its place. -/
theorem holdsText_of_runAt {u : U} {q : Addr} {size i : ℕ} {text : List Byte}
    (run : RunAt isAsciiPrintable (0 : Byte) 4 (bytesAt u q size) i text) :
    HoldsText u (q + BitVec.ofNat 64 i) text := by
  obtain ⟨stop, run, rfl⟩ := run
  have front := run.lt_length
  have long := run.long
  rw [length_bytesAt] at front
  have here : ((bytesAt u q size).drop i).take (stop - i) =
      bytesAt u (q + BitVec.ofNat 64 i) (stop - i) := take_drop_bytesAt (by omega)
  rw [here]
  refine ⟨by rw [length_bytesAt]; omega, fun c member => ?_, ?_⟩
  · rw [← here] at member
    obtain ⟨k, inside, rfl⟩ := List.mem_iff_getElem.mp member
    rw [here, length_bytesAt] at inside
    obtain ⟨a, entry, printable⟩ := run.inside (i + k) (by omega) (by omega)
    rw [List.getElem?_eq_getElem (by rw [length_bytesAt]; omega)] at entry
    rw [List.getElem_take, List.getElem_drop, Option.some.inj entry]
    exact printable
  · -- The byte behind the run is the NUL.
    have last := run.terminated
    rw [getElem?_bytesAt front] at last
    have place : q + BitVec.ofNat 64 i + BitVec.ofNat 64 (stop - i) = q + BitVec.ofNat 64 stop := by
      rw [add_assoc, ← BitVec.ofNat_add, Nat.add_sub_cancel' (by omega)]
    rw [length_bytesAt, bytesAt, List.ofFn_succ_last]
    simp only [Fin.val_castSucc, Fin.val_last, place, Option.some.inj last]
    rfl

/-- Every byte of a range is mapped or belongs to the stack. -/
def Readable (u : U) (p : Addr) (n : ℕ) : Prop :=
  ∀ k < n, Emulator.InStack (p + BitVec.ofNat 64 k) ∨ mapped u (p + BitVec.ofNat 64 k) = true

/-- A found string is what is stored for a text in memory, with its address and RIP. -/
structure Shows (u : U) (f : FoundString) : Prop where
  text : ∃ text, HoldsText u f.ptr text ∧ Readable u f.ptr (text.length + 1) ∧
    f.data = stored text
  nonempty : f.data ≠ []
  rip : f.rip = reg u .rip
  hash : f.hash = hashString f.data

/-- The call of `push_string` for a text in memory. -/
structure Quotes (u : U) (c : Candidate) : Prop where
  rip : c.rip = reg u .rip
  text : HoldsText u c.ptr c.bytes
  readable : Readable u c.ptr (c.bytes.length + 1)

/-- A run in the bytes of a readable range is readable, and so is the NUL behind it. -/
theorem Readable.of_runAt {u : U} {q : Addr} {size i : ℕ} {text : List Byte}
    (readable : Readable u q size)
    (run : RunAt isAsciiPrintable (0 : Byte) 4 (bytesAt u q size) i text) :
    Readable u (q + BitVec.ofNat 64 i) (text.length + 1) := by
  obtain ⟨stop, run, rfl⟩ := run
  have front := run.lt_length
  have long := run.long
  rw [length_bytesAt] at front
  intro k inside
  rw [List.length_take, List.length_drop, length_bytesAt] at inside
  have place := readable (i + k) (by omega)
  rwa [BitVec.ofNat_add, ← add_assoc] at place

theorem shows_of_entry {u : U} {c : Candidate} {f : FoundString} (quotes : Quotes u c)
    (made : c.entry = some f) : Shows u f := by
  obtain ⟨nonempty, data, rip, ptr, hash⟩ := Candidate.entry_eq_some_iff.mp made
  exact ⟨⟨c.bytes, ptr ▸ quotes.text, ptr ▸ quotes.readable, data.symm⟩, nonempty,
    rip.trans quotes.rip, hash⟩

theorem quotes_of_buffer {u : U} {base : Addr} {size : ℕ} {c : Candidate}
    (readable : Readable u base size)
    (member : c ∈ bufferCandidates (reg u .rip) base (bytesAt u base size)) : Quotes u c := by
  obtain ⟨⟨i, text⟩, inside, rfl⟩ := List.mem_map.mp member
  obtain ⟨k, rfl, run⟩ := (mem_scanFrom_iff 0 _ i text).mp inside
  rw [Nat.zero_add]
  exact ⟨rfl, holdsText_of_runAt run, readable.of_runAt run⟩

theorem quotes_of_memory {u : U} {base : Addr} {size : ℕ} {c : Candidate}
    (member : c ∈ Emulator.memoryCandidates u (reg u .rip) base size) : Quotes u c := by
  rw [Emulator.memoryCandidates] at member
  cases read : memRead u base size with
  | none =>
    rw [read] at member
    exact absurd member List.not_mem_nil
  | some buffer =>
    rw [read, ← bytesAt_of_memRead read] at member
    exact quotes_of_buffer (fun k inside => .inr (mapped_of_memRead read k inside)) member

/-! ### The set of found strings -/

theorem FoundString.mem_emplace_of_mem {found : List FoundString} {f : FoundString}
    (member : f ∈ found) (s : FoundString) : f ∈ emplace found s := by
  rw [emplace]
  split_ifs
  · exact member
  · exact List.mem_append_left _ member

theorem FoundString.mem_or_eq_of_mem_emplace {found : List FoundString} {f s : FoundString}
    (member : f ∈ emplace found s) : f ∈ found ∨ f = s := by
  rw [emplace] at member
  split_ifs at member
  · exact .inl member
  · exact (List.mem_append.mp member).imp_right List.mem_singleton.mp

/-- After an insertion the string is there, if not with these addresses. -/
theorem FoundString.exists_mem_emplace (found : List FoundString) (s : FoundString) :
    ∃ t ∈ emplace found s, t.data = s.data := by
  rw [emplace]
  split_ifs with known
  · obtain ⟨t, member, same⟩ := List.any_eq_true.mp known
    rw [Bool.and_eq_true, beq_iff_eq, beq_iff_eq] at same
    exact ⟨t, member, same.2⟩
  · exact ⟨s, List.mem_append_right _ List.mem_cons_self, rfl⟩

theorem pushAll_cons (c : Candidate) (cs : List Candidate) (found : List FoundString) :
    pushAll (c :: cs) found = pushAll cs (c.entry.elim found (FoundString.emplace found)) := by
  rw [← pushString_eq]
  rfl

theorem mem_pushAll_of_mem {f : FoundString} (cs : List Candidate) {found : List FoundString}
    (member : f ∈ found) : f ∈ pushAll cs found := by
  induction cs generalizing found with
  | nil => exact member
  | cons c cs ih =>
    rw [pushAll_cons]
    apply ih
    cases c.entry with
    | none => exact member
    | some s => exact FoundString.mem_emplace_of_mem member s

theorem mem_or_entry_of_mem_pushAll {f : FoundString} {cs : List Candidate}
    {found : List FoundString} (member : f ∈ pushAll cs found) :
    f ∈ found ∨ ∃ c ∈ cs, c.entry = some f := by
  induction cs generalizing found with
  | nil => exact .inl member
  | cons c cs ih =>
    rw [pushAll_cons] at member
    rcases ih member with old | ⟨c', later, made⟩
    · cases entry : c.entry with
      | none =>
        rw [entry] at old
        exact .inl old
      | some s =>
        rw [entry] at old
        rcases FoundString.mem_or_eq_of_mem_emplace old with old | rfl
        · exact .inl old
        · exact .inr ⟨c, List.mem_cons_self, entry⟩
    · exact .inr ⟨c', List.mem_cons_of_mem _ later, made⟩

/-- Every candidate whose string is not empty leaves it in the set. -/
theorem exists_mem_pushAll {c : Candidate} {cs : List Candidate} (member : c ∈ cs)
    (nonempty : stored c.bytes ≠ []) (found : List FoundString) :
    ∃ f ∈ pushAll cs found, f.data = stored c.bytes := by
  induction cs generalizing found with
  | nil => exact absurd member List.not_mem_nil
  | cons c' cs ih =>
    rw [pushAll_cons]
    rcases List.mem_cons.mp member with rfl | later
    · rw [Candidate.entry, if_neg nonempty, Option.elim_some]
      obtain ⟨f, inside, same⟩ := FoundString.exists_mem_emplace found
        ⟨c.rip, c.ptr, hashString (stored c.bytes), stored c.bytes⟩
      exact ⟨f, mem_pushAll_of_mem cs inside, same⟩
    · exact ih later _

/-! ### Scans -/

namespace Emulator

/-- Nothing has changed but the found strings: those that are new show texts in memory, and
none is gone. -/
structure Finds (e e' : Emulator U) : Prop where
  same : SameButStrings e e'
  kept : ∀ f ∈ e.stringList, f ∈ e'.stringList
  new : ∀ f ∈ e'.stringList, f ∈ e.stringList ∨ Shows e.engine f

namespace Finds

variable {e e' e'' : Emulator U}

theorem refl (e : Emulator U) : Finds e e := ⟨.refl e, fun _ => id, fun _ => .inl⟩

theorem push {cs : List Candidate} (quotes : ∀ c ∈ cs, Quotes e.engine c) :
    Finds e (e.push cs) := by
  refine ⟨rfl, fun f => mem_pushAll_of_mem cs, fun f member => ?_⟩
  rcases mem_or_entry_of_mem_pushAll member with old | ⟨c, inside, made⟩
  · exact .inl old
  · exact .inr (shows_of_entry (quotes c inside) made)

end Finds

/-- The stack above RSP is readable up to its end. -/
theorem readable_stack {u : U} {rsp : Addr} (low : stackBase - stackSize ≤ rsp)
    (high : rsp < stackBase) : Readable u rsp (min (stackBase - rsp).toNat 0x8000) := by
  intro k inside
  have limits : (stackBase - stackSize).toNat + stackSize.toNat = stackBase.toNat := by decide
  have room : (stackBase - rsp).toNat = stackBase.toNat - rsp.toNat :=
    BitVec.toNat_sub_of_le (BitVec.le_of_lt high)
  have place : (rsp + BitVec.ofNat 64 k).toNat = rsp.toNat + k :=
    toNat_add_ofNat (by have bound := stackBase.isLt; omega)
  rw [BitVec.le_def] at low
  refine .inl ?_
  rw [InStack, BitVec.toNat_sub_of_le (by rw [BitVec.le_def]; omega), place]
  omega

theorem quotes_stack (e : Emulator U) : ∀ c ∈ e.stackCandidates, Quotes e.engine c := by
  intro c member
  simp only [stackCandidates] at member
  split_ifs at member with used
  · exact absurd member List.not_mem_nil
  · obtain ⟨low, high⟩ := not_or.mp used
    exact quotes_of_buffer (readable_stack (BitVec.not_lt.mp low) (BitVec.not_le.mp high)) member

theorem quotes_registers (e : Emulator U) : ∀ c ∈ e.registerCandidates, Quotes e.engine c := by
  intro c member
  obtain ⟨r, -, -, -, -, inside⟩ := (mem_candidatesBehind_iff _ _ _ _ c).mp member
  exact quotes_of_memory inside

theorem quotes_tracked (e : Emulator U) : ∀ c ∈ e.trackedCandidates, Quotes e.engine c := by
  intro c member
  obtain ⟨region, -, inside⟩ := List.mem_flatMap.mp member
  exact quotes_of_memory inside

/-- The candidates of the scans before an instruction. -/
def candidatesBefore (e : Emulator U) (itype : Itype) : List Candidate :=
  if e.enableWriteTracking then
    if isCallOrRet itype then e.trackedCandidates else []
  else if shouldDump itype then
    e.stackCandidates ++ if e.scanRegisterStrings then e.registerCandidates else []
  else []

theorem quotes_before (e : Emulator U) (itype : Itype) :
    ∀ c ∈ e.candidatesBefore itype, Quotes e.engine c := by
  intro c member
  rw [candidatesBefore] at member
  split_ifs at member
  · exact e.quotes_tracked c member
  · exact absurd member List.not_mem_nil
  · rcases List.mem_append.mp member with stack | registers
    · exact e.quotes_stack c stack
    · exact e.quotes_registers c registers
  · rw [List.append_nil] at member
    exact e.quotes_stack c member
  · exact absurd member List.not_mem_nil

variable {e e' : Emulator U} {itype : Itype}

/-- The scans before an instruction push their candidates. -/
theorem dumpBefore_eq_push [Host] (done : e.dumpBefore itype = .ok e') :
    e' = e.push (e.candidatesBefore itype) := by
  rw [dumpBefore] at done
  rw [candidatesBefore]
  split_ifs at done ⊢
  · exact dumpTrackedWrites_eq_push done
  · cases done
    rfl
  · cases done
    rename_i registers
    rw [dumpStackStrings_eq_push, dumpRegisterStrings_eq_push, push_append]
    exact if_pos registers
  · cases done
    rename_i registers
    rw [dumpStackStrings_eq_push, List.append_nil]
    exact if_neg registers
  · cases done
    rfl

theorem finds_before [Host] (done : e.dumpBefore itype = .ok e') : Finds e e' := by
  rw [dumpBefore_eq_push done]
  exact .push (e.quotes_before itype)

theorem finds_tracked [Host] {tracking : Bool}
    (done : (if tracking then e.dumpTrackedWrites else .ok e) = .ok e') : Finds e e' := by
  split_ifs at done
  · rw [dumpTrackedWrites_eq_push done]
    exact .push e.quotes_tracked
  · cases done
    exact .refl e

/-! ### Steps -/

/-- What a step does to the found strings: none is gone, and those that are new show texts in
the memory before or after the step. -/
structure Tells (e e' : Emulator U) : Prop where
  kept : ∀ f ∈ e.stringList, f ∈ e'.stringList
  new : ∀ f ∈ e'.stringList, f ∈ e.stringList ∨ Shows e.engine f ∨ Shows e'.engine f

theorem Tells.of_eq (same : e'.stringList = e.stringList) : Tells e e' := by
  refine ⟨fun f member => ?_, fun f member => .inl ?_⟩
  · rwa [same]
  · rwa [← same]

/-- A scan before a step that leaves the found strings alone. -/
theorem Finds.tells {e₁ : Emulator U} (finds : Finds e e₁)
    (same : e'.stringList = e₁.stringList) : Tells e e' := by
  refine ⟨fun f member => ?_, fun f member => ?_⟩
  · rw [same]
    exact finds.kept f member
  · rw [same] at member
    exact (finds.new f member).imp_right .inl

/-- A scan before and one after a step that leaves the found strings alone. -/
theorem Finds.tells_finds {e₁ e₂ : Emulator U} (before : Finds e e₁)
    (same : e₂.stringList = e₁.stringList) (after : Finds e₂ e') : Tells e e' := by
  have engine : e'.engine = e₂.engine := by rw [after.same]
  refine ⟨fun f member => ?_, fun f member => ?_⟩
  · apply after.kept
    rw [same]
    exact before.kept f member
  · rw [engine]
    rcases after.new f member with earlier | shown
    · rw [same] at earlier
      exact (before.new f earlier).imp_right .inl
    · exact .inr (.inr shown)

variable {c c' : Counters} {address : Addr} {size : BitVec 32} {insn : Insn}

/-- An external call scans after its stub has run. -/
theorem handleCall_finds [Host] {stub : Option ApiStubs.Stub}
    (call : e.handleCall c address size insn = some (stub, .ok (e', c'))) :
    ∃ e₂, e₂.stringList = e.stringList ∧ Finds e₂ e' := by
  have finished {c : Counters} {name : Option String}
      (call : e.callExternal c address size name = (stub, .ok (e', c'))) :
      ∃ e₂, e₂.stringList = e.stringList ∧ Finds e₂ e' := by
    simp only [callExternal, Prod.mk.injEq] at call
    obtain ⟨-, finish⟩ := call
    obtain ⟨⟨u, heap⟩, -, finish⟩ := exists_of_bind_ok finish
    obtain ⟨e₁, scan, finish⟩ := exists_of_bind_ok finish
    cases finish
    exact ⟨_, by rfl, finds_tracked scan⟩
  rw [handleCall] at call
  split_ifs at call
  split at call
  · cases call
  · split_ifs at call
    · exact finished (Option.some.inj call)
    · exact finished (Option.some.inj call)

theorem exploreBranches_stringList
    (explore : e.exploreBranches c address size insn = (e', c')) :
    e'.stringList = e.stringList := by
  refine exploreBranches_invariant (P := fun s => s.1.stringList = e.stringList) explore rfl ?_
  intro s s' kept step
  rw [← kept]
  cases step with
  | @schedule e c target =>
    obtain ⟨branches, c', -, result, -⟩ := e.scheduleBranch_cases c address target
    rw [result]
  | adjust => rfl

/-- The hook scans before an instruction it does not skip; after that it leaves the found
strings alone or scans once more. -/
theorem hookCode_scans [Host] (decoded : e.tryGetInsn address = some insn)
    (skip : shouldSkip insn.itype = false)
    (hook : e.hookCode c address size false = .ok (e', c')) :
    ∃ e₁, e.dumpBefore insn.itype = .ok e₁ ∧ (e'.stringList = e₁.stringList ∨
      ∃ e₂, e₂.stringList = e₁.stringList ∧ Finds e₂ e') := by
  simp only [hookCode, decoded, skip, Bool.false_eq_true, if_false] at hook
  obtain ⟨e₁, before, rest⟩ := exists_of_bind_ok hook
  refine ⟨e₁, before, ?_⟩
  split_ifs at rest
  · cases rest
    exact .inl rfl
  · split at rest
    · rename_i result call
      obtain ⟨stub, outcome⟩ := result
      rw [show outcome = .ok (e', c') from rest] at call
      exact .inr (handleCall_finds call)
    · exact .inl (exploreBranches_stringList ((explore_cases rest).1))

/-- The candidates of the scans before the instruction leave their strings. -/
theorem hookCode_found [Host] (decoded : e.tryGetInsn address = some insn)
    (skip : shouldSkip insn.itype = false)
    (hook : e.hookCode c address size false = .ok (e', c')) {cand : Candidate}
    (member : cand ∈ e.candidatesBefore insn.itype) (nonempty : stored cand.bytes ≠ []) :
    ∃ f ∈ e'.stringList, f.data = stored cand.bytes := by
  obtain ⟨e₁, before, after⟩ := hookCode_scans decoded skip hook
  rw [dumpBefore_eq_push before] at after
  obtain ⟨f, inside, same⟩ := exists_mem_pushAll member nonempty e.stringList
  refine ⟨f, ?_, same⟩
  rcases after with kept | ⟨e₂, kept, finds⟩
  · rw [kept]
    exact inside
  · apply finds.kept
    rw [kept]
    exact inside

theorem hookCode_tells [Host] {stop : Bool}
    (hook : e.hookCode c address size stop = .ok (e', c')) : Tells e e' := by
  rcases hookCode_cases hook with ⟨-, rfl, -⟩ | ⟨insn, heeds, decoded, executed⟩
  · exact .of_eq rfl
  · have going : stop = false := by
      rw [ignores, Bool.or_eq_false_iff] at heeds
      exact heeds.1
    subst going
    cases skip : shouldSkip insn.itype with
    | true =>
      cases executed with
      | skipped => exact .of_eq rfl
      | handled proceed | called proceed | explored proceed =>
        exact absurd (skip.symm.trans proceed) Bool.false_ne_true.symm
    | false =>
      obtain ⟨e₁, before, kept | ⟨e₂, kept, after⟩⟩ := hookCode_scans decoded skip hook
      · exact (finds_before before).tells kept
      · exact (finds_before before).tells_finds kept after

theorem guestStore_stringList {done : Bool} {bytes : List Byte}
    (stored : e.guestStore address bytes = .ok (done, e')) : e'.stringList = e.stringList := by
  obtain ⟨e₀, e₁, hooked, maps, result⟩ := guestStore_cases stored
  obtain ⟨dirtyPages, rfl⟩ := beforeStore_cases hooked
  have kept : e₁.stringList = e.stringList := by rw [maps.same]
  rcases result with ⟨-, rfl⟩ | ⟨-, -, rfl⟩
  · exact kept
  · exact kept

end Emulator

/-! ### Runs -/

namespace RunState

variable {r r' : RunState U} {c : Counters}

theorem enterSlice_stringList (r : RunState U) (c : Counters) (stop : Bool) :
    (r.enterSlice c stop).emulator.stringList = r.emulator.stringList := by
  rw [enterSlice]
  split_ifs <;> rfl

theorem Continues.stringList_eq (continues : Continues r r') :
    r'.emulator.stringList = r.emulator.stringList := by
  cases continues <;> rfl

/-- The end of a slice scans the tracked pages, if they are tracked, and finds nothing else. -/
theorem leaveSlice_scan [Host] {before elapsedUs : BitVec 64}
    (left : r.leaveSlice c before elapsedUs = .ok r') :
    ∃ e₁, (if r.emulator.enableWriteTracking then r.emulator.dumpTrackedWrites
        else .ok r.emulator) = .ok e₁ ∧ r'.emulator.stringList = e₁.stringList := by
  rw [leaveSlice] at left
  obtain ⟨e₁, scan, returned⟩ := exists_of_bind_ok left
  cases returned
  refine ⟨e₁, ?_, (nextBranch_continues _).stringList_eq⟩
  -- The budgets are charged before the scan and are none of its business.
  split_ifs at scan ⊢ <;> exact scan

end RunState

theorem RunStep.strings [Host] {event : RunEvent U} {s s' : Counters × RunState U}
    (step : RunStep event s s') : Emulator.Tells s.2.emulator s'.2.emulator := by
  cases step with
  | enter stop => exact .of_eq (RunState.enterSlice_stringList _ _ stop)
  | code address size stop here hook => exact Emulator.hookCode_tells hook
  | store address bytes here nonempty small stored =>
    exact .of_eq (Emulator.guestStore_stringList stored)
  | load address size here nonempty small loaded =>
    refine .of_eq ?_
    rw [(Emulator.guestLoad_cases loaded).same]
  | execute => exact .of_eq rfl
  | leave elapsedUs here left =>
    obtain ⟨e₁, scan, kept⟩ := RunState.leaveSlice_scan left
    exact (Emulator.finds_tracked scan).tells kept
  | interfere => exact .of_eq rfl

/-- The states a run has been in, the present one first. -/
def states (past : Past U) (s : Counters × RunState U) : List (Counters × RunState U) :=
  s :: past.map Prod.fst

/-- The strings of all these candidates have been found. -/
def Emulator.HasFound (e : Emulator U) (cs : List Candidate) : Prop :=
  ∀ c ∈ cs, stored c.bytes ≠ [] → ∃ f ∈ e.stringList, f.data = stored c.bytes

theorem Emulator.HasFound.mono {e e' : Emulator U} {cs : List Candidate} (found : e.HasFound cs)
    (kept : ∀ f ∈ e.stringList, f ∈ e'.stringList) : e'.HasFound cs := by
  intro c member nonempty
  obtain ⟨f, inside, same⟩ := found c member nonempty
  exact ⟨f, kept f inside, same⟩

/-- What holds of the strings a run has found so far: each of them shows a text that was in
guest memory, at its address and while RIP was the one given with it; the strings of all
candidates there were before an instruction that was not skipped are among them, and so are
those in the tracked pages at the end of a slice. -/
structure TextLaw (past : Past U) (s : Counters × RunState U) : Prop where
  shown : ∀ f ∈ s.2.emulator.stringList, ∃ t ∈ states past s, Shows t.2.emulator.engine f
  before : ∀ t address size insn, (t, RunEvent.code address size false) ∈ past →
    t.2.emulator.tryGetInsn address = some insn → shouldSkip insn.itype = false →
      s.2.emulator.HasFound (t.2.emulator.candidatesBefore insn.itype)
  leaving : ∀ t elapsedUs, (t, RunEvent.leave elapsedUs) ∈ past →
    t.2.emulator.enableWriteTracking = true → s.2.emulator.HasFound t.2.emulator.trackedCandidates

section Law

variable [Host] {past : Past U} {s s' t : Counters × RunState U} {event : RunEvent U}

theorem RunStep.found_before {address : Addr} {size : BitVec 32} {insn : Insn}
    (step : RunStep (.code address size false) s s')
    (decoded : s.2.emulator.tryGetInsn address = some insn)
    (skip : shouldSkip insn.itype = false) :
    s'.2.emulator.HasFound (s.2.emulator.candidatesBefore insn.itype) := by
  cases step with
  | code address size stop here hook =>
    intro c member nonempty
    exact Emulator.hookCode_found decoded skip hook member nonempty

theorem RunStep.found_leaving {elapsedUs : BitVec 64} (step : RunStep (.leave elapsedUs) s s')
    (tracking : s.2.emulator.enableWriteTracking = true) :
    s'.2.emulator.HasFound s.2.emulator.trackedCandidates := by
  cases step with
  | leave elapsedUs here left =>
    intro c member nonempty
    obtain ⟨e₁, scan, kept⟩ := RunState.leaveSlice_scan left
    rw [if_pos tracking] at scan
    rw [kept, Emulator.dumpTrackedWrites_eq_push scan]
    exact exists_mem_pushAll member nonempty _

theorem TextLaw.step (law : TextLaw past s) (step : RunStep event s s') :
    TextLaw ((s, event) :: past) s' := by
  have strings := step.strings
  have earlier : ∀ {t}, t ∈ states past s → t ∈ states ((s, event) :: past) s' :=
    fun member => List.mem_cons_of_mem s' member
  refine ⟨fun f member => ?_, ?_, ?_⟩
  · rcases strings.new f member with old | before | after
    · obtain ⟨t, inside, shows⟩ := law.shown f old
      exact ⟨t, earlier inside, shows⟩
    · exact ⟨s, earlier List.mem_cons_self, before⟩
    · exact ⟨s', List.mem_cons_self, after⟩
  · intro t address size insn member decoded skip
    rcases List.mem_cons.mp member with same | old
    · cases same
      exact step.found_before decoded skip
    · exact (law.before t address size insn old decoded skip).mono strings.kept
  · intro t elapsedUs member tracking
    rcases List.mem_cons.mp member with same | old
    · cases same
      exact step.found_leaving tracking
    · exact (law.leaving t elapsedUs old tracking).mono strings.kept

theorem startRun_stringList {e : Emulator U} {args : RunArgs} {r : RunState U}
    (started : e.startRun args = .ok r) : r.emulator.stringList = [] := by
  obtain ⟨e', reset, rfl⟩ := Emulator.startRun_cases started
  obtain ⟨u, heap, -, rfl⟩ := Emulator.resetForRun_cases reset
  rfl

theorem textLaw_initial {e : Emulator U} {args : RunArgs} {r : RunState U} {c : Counters}
    (started : e.startRun args = .ok r) : TextLaw [] (c, r) := by
  refine ⟨fun f member => ?_, ?_, ?_⟩
  · rw [startRun_stringList started] at member
    exact absurd member List.not_mem_nil
  · intro t address size insn member
    exact absurd member List.not_mem_nil
  · intro t elapsedUs member
    exact absurd member List.not_mem_nil

/-- In every state of every run the law holds of the strings found so far. -/
theorem textLaw_of_trace {e : Emulator U} {args : RunArgs} {r : RunState U} {c : Counters}
    (started : e.startRun args = .ok r) (trace : Trace RunStep (c, r) past s) : TextLaw past s :=
  trace.invariant (textLaw_initial started) fun _ _ _ _ law step => law.step step

end Law

/-! ### Texts on the stack -/

section Stack

theorem HoldsText.getElem? {u : U} {p : Addr} {text : List Byte} (holds : HoldsText u p text)
    {k : ℕ} (inside : k ≤ text.length) :
    some (byte u (p + BitVec.ofNat 64 k)) = (text ++ [0])[k]? := by
  rw [← holds.bytes, getElem?_bytesAt (by omega)]

/-- A text inside a range is a run of its bytes, unless a printable byte precedes it there. -/
theorem HoldsText.runAt {u : U} {p q : Addr} {size : ℕ} {text : List Byte}
    (holds : HoldsText u p text) (inside : (p - q).toNat + text.length < size)
    (first : p = q ∨ isAsciiPrintable (byte u (p - 1)) = false) :
    RunAt isAsciiPrintable (0 : Byte) 4 (bytesAt u q size) (p - q).toNat text := by
  have place := add_offset q p
  have shift (k : ℕ) : q + BitVec.ofNat 64 ((p - q).toNat + k) = p + BitVec.ofNat 64 k := by
    rw [BitVec.ofNat_add, ← add_assoc, place]
  have front : text = bytesAt u p text.length := by
    refine List.ext_getElem? fun k => ?_
    by_cases short : k < text.length
    · rw [getElem?_bytesAt short, holds.getElem? short.le, List.getElem?_append_left short]
    · rw [List.getElem?_eq_none (by omega), List.getElem?_eq_none (by simp; omega)]
  refine ⟨(p - q).toNat + text.length, (textRun_bytesAt_iff holds.long ?_ ?_).mpr ⟨inside, ?_⟩, ?_⟩
  · intro k short
    have entry := holds.getElem? short.le
    rw [List.getElem?_append_left short, List.getElem?_eq_getElem short] at entry
    rw [shift, Option.some.inj entry]
    exact holds.alphabet _ (List.getElem_mem short)
  · have entry := holds.getElem? le_rfl
    rw [List.getElem?_append_right le_rfl, Nat.sub_self] at entry
    rw [shift]
    exact Option.some.inj entry
  · rcases first with rfl | stops
    · exact .inl (by rw [sub_self]; rfl)
    · by_cases start : (p - q).toNat = 0
      · exact .inl start
      · -- The byte before the run is the one before the text.
        obtain ⟨j, offset⟩ : ∃ j, (p - q).toNat = j + 1 := ⟨_, (Nat.succ_pred start).symm⟩
        rw [offset] at place
        have back : q + BitVec.ofNat 64 ((p - q).toNat - 1) = p - 1 := by
          rw [offset, ← place, Nat.add_sub_cancel, BitVec.ofNat_add, ← add_assoc]
          exact (add_sub_cancel_right _ _).symm
        rw [back]
        exact .inr stops
  · rw [Nat.add_sub_cancel_left, take_drop_bytesAt (by omega), place, ← front]

/-- The part of the stack that is scanned. -/
structure InScannedStack (u : U) (p : Addr) (length : ℕ) : Prop where
  low : stackBase - stackSize ≤ reg u .rsp
  high : reg u .rsp < stackBase
  inside : (p - reg u .rsp).toNat + length < min (stackBase - reg u .rsp).toNat 0x8000
  first : p = reg u .rsp ∨ isAsciiPrintable (byte u (p - 1)) = false

theorem Emulator.mem_stackCandidates {e : Emulator U} {p : Addr} {text : List Byte}
    (holds : HoldsText e.engine p text) (scanned : InScannedStack e.engine p text.length) :
    ⟨reg e.engine .rip, p, text⟩ ∈ e.stackCandidates := by
  have used : ¬ (reg e.engine .rsp < stackBase - stackSize ∨ reg e.engine .rsp ≥ stackBase) := by
    rintro (below | above)
    · exact absurd scanned.low (BitVec.not_le.mpr below)
    · exact absurd scanned.high (BitVec.not_lt.mpr above)
  have run := (mem_scanFrom_iff 0 _ _ text).mpr
    ⟨_, (Nat.zero_add _).symm, holds.runAt scanned.inside scanned.first⟩
  simp only [stackCandidates, if_neg used, bufferCandidates, List.mem_map, Prod.exists]
  exact ⟨_, text, run, by rw [add_offset]⟩

/-- Without write tracking, a text that lies on the used part of the stack when an instruction
is reached before which the stack is scanned is among the strings the run finds. -/
theorem stackText_found_of_trace [Host] {e : Emulator U} {args : RunArgs} {r : RunState U}
    {c : Counters} {past : Past U} {s t : Counters × RunState U} {address p : Addr}
    {size : BitVec 32} {insn : Insn} {text : List Byte} (untracked : e.enableWriteTracking = false)
    (started : e.startRun args = .ok r) (trace : Trace RunStep (c, r) past s)
    (hooked : (t, .code address size false) ∈ past)
    (decoded : e.decoded.lookup address = some insn) (skip : shouldSkip insn.itype = false)
    (dump : shouldDump insn.itype = true) (holds : HoldsText t.2.emulator.engine p text)
    (scanned : InScannedStack t.2.emulator.engine p text.length) (nonempty : stored text ≠ []) :
    ∃ f ∈ s.2.emulator.stringList, f.data = stored text := by
  -- Neither the switches nor the decoded instructions change.
  obtain ⟨earlier, before⟩ := trace.exists_of_mem hooked
  have settings := settings_of_trace before
  obtain ⟨e', reset, rfl⟩ := Emulator.startRun_cases started
  obtain ⟨u, heap, -, rfl⟩ := Emulator.resetForRun_cases reset
  injection settings with _ decodedKept _ _ _ trackingKept
  have law : TextLaw past s :=
    trace.invariant (textLaw_initial started) fun _ _ _ _ law step => law.step step
  have found := law.before t address size insn hooked
    ((congrArg (AList.lookup address) decodedKept).trans decoded) skip
  rw [Emulator.candidatesBefore, trackingKept, if_neg (by exact untracked ▸ Bool.false_ne_true),
    if_pos dump] at found
  exact found _ (List.mem_append_left _ (Emulator.mem_stackCandidates holds scanned)) nonempty

end Stack

namespace Example

/-- The characters `abcd` and a NUL. -/
def word : List Byte := [0x61, 0x62, 0x63, 0x64, 0]

/-- The characters are stored at the top of the stack, and then an instruction is reached. -/
def pushWord : List (RunEvent Machine) :=
  [.enter false, .store (stackBase - 0x1000) word, .code 0x140000000 4 false, .leave 0]

/-- A run without limits and without write tracking. -/
def plainRun : RunState Machine := startedOf decoded false ⟨0x140000000, 0, 0, 0, false⟩

theorem exists_pushWord : ∃ past s t, Trace RunStep (noCounts, plainRun) past s ∧
    (t, .code 0x140000000 4 false) ∈ past ∧
      HoldsText t.2.emulator.engine (stackBase - 0x1000) [0x61, 0x62, 0x63, 0x64] ∧
      InScannedStack t.2.emulator.engine (stackBase - 0x1000) 4 := by
  obtain ⟨⟨past, s⟩, performed, t, hooked, holds, scanned⟩ : ∃ p,
      Trace.performTrace RunEvent.perform [] (noCounts, plainRun) pushWord = some p ∧
      ∃ t, (t, .code 0x140000000 4 false) ∈ p.1 ∧
        HoldsText t.2.emulator.engine (stackBase - 0x1000) [0x61, 0x62, 0x63, 0x64] ∧
        InScannedStack t.2.emulator.engine (stackBase - 0x1000) 4 := by
    refine ⟨_, rfl, _, List.mem_cons_of_mem _ List.mem_cons_self, ⟨?_, ?_, ?_⟩, ⟨?_, ?_, ?_, ?_⟩⟩
    · decide
    · decide
    · decide +kernel
    · decide +kernel
    · decide +kernel
    · decide +kernel
    · exact .inl (by decide +kernel)
  exact ⟨past, s, t, RunEvent.trace_of_performTrace performed, hooked, holds, scanned⟩

end Example

/-- A run that finds a text on the stack. -/
theorem textLaw_of_trace_pushWord : ∃ past s,
    Trace RunStep (Example.noCounts, Example.plainRun) past s ∧ TextLaw past s := by
  obtain ⟨past, s, t, trace, -⟩ := Example.exists_pushWord
  have started := Example.startRun_eq_startedOf Example.decoded false ⟨0x140000000, 0, 0, 0, false⟩
  exact ⟨past, s, trace, textLaw_of_trace started trace⟩

theorem stackText_found_of_trace_pushWord : ∃ past s,
    Trace RunStep (Example.noCounts, Example.plainRun) past s ∧
      ∃ f ∈ s.2.emulator.stringList, f.data = [0x61, 0x62, 0x63, 0x64] := by
  obtain ⟨past, s, t, trace, hooked, holds, scanned⟩ := Example.exists_pushWord
  have started := Example.startRun_eq_startedOf Example.decoded false ⟨0x140000000, 0, 0, 0, false⟩
  have decoded : Example.decoded.lookup 0x140000000 = some Example.moveInsn := rfl
  have whole : stored [0x61, 0x62, 0x63, 0x64] = [0x61, 0x62, 0x63, 0x64] := by decide
  have found := stackText_found_of_trace rfl started trace hooked
    decoded rfl rfl holds scanned (by decide)
  rw [whole] at found
  exact ⟨past, s, trace, found⟩

end Unxorer
