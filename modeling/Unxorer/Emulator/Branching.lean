import Unxorer.Emulator.State

/-!
# Scheduling and forcing branches

A branch the emulated program does not take is saved with its context and resumed later;
the taken side of a conditional instruction is forced by setting the flags it reads.

## Main definitions

* `Emulator.scheduleBranch` — `schedule_branch`
* `Emulator.discoverIndirectTargets` — `discover_indirect_targets`
* `Emulator.forceBranch` — `force_branch`

## Main results

* `Emulator.scheduleBranch_cases` — what scheduling a branch can do
-/

set_option autoImplicit false

namespace Unxorer.Emulator

open Unicorn InstructionClassifier

variable {U : Type} [Unicorn U]

/-- The edge is offered to the branch manager. -/
def logOffer (b : BranchManager (Context U)) (key : BranchKey) : BranchManager (Context U) :=
  { b with log := { b.log with offered := key :: b.log.offered } }

/-- The context for the edge could not be saved. -/
def logFailure (b : BranchManager (Context U)) (key : BranchKey) : BranchManager (Context U) :=
  { b with log := { b.log with failed := key :: b.log.failed } }

/-- `schedule_branch`, with the value it returns. -/
def scheduleBranch (e : Emulator U) (c : Counters) (source target : Addr) :
    Bool × Emulator U × Counters :=
  let key : BranchKey := ⟨source, target⟩
  let branches := logOffer e.branches key
  if branches.isVisited key then
    (false, { e with branches }, { c with alreadyVisited := c.alreadyVisited + 1 })
  else if !e.insideImage target then (false, { e with branches := branches.markVisited key }, c)
  else
    -- An edge whose context cannot be saved is not tried again.
    match branches.saveBranch e.engine target key with
    | none => (false, { e with branches := (logFailure branches key).markVisited key }, c)
    | some branches =>
      (true, { e with branches := branches.markVisited key }, { c with branched := c.branched + 1 })

/-- The branches after an edge was offered: it was offered before, leads out of the image,
could not be saved, or is pending now. -/
inductive Scheduled (e : Emulator U) (source target : Addr) : BranchManager (Context U) → Prop
  | visited (seen : ⟨source, target⟩ ∈ e.branches.visited) :
      Scheduled e source target (logOffer e.branches ⟨source, target⟩)
  | outside (fresh : ⟨source, target⟩ ∉ e.branches.visited) (out : e.insideImage target = false) :
      Scheduled e source target
        ((logOffer e.branches ⟨source, target⟩).markVisited ⟨source, target⟩)
  | unsaved (failed : contextSave e.engine = none) :
      Scheduled e source target
        ((logFailure (logOffer e.branches ⟨source, target⟩) ⟨source, target⟩).markVisited
          ⟨source, target⟩)
  | saved (fresh : ⟨source, target⟩ ∉ e.branches.visited) (inside : e.insideImage target = true)
      (ctx : Context U) (log : BranchLog) (logged : log = { e.branches.log with
        offered := ⟨source, target⟩ :: e.branches.log.offered
        pushed := ⟨source, target⟩ :: e.branches.log.pushed })
      (save : contextSave e.engine = some ctx) :
      Scheduled e source target ⟨⟨ctx, target, ⟨source, target⟩⟩ :: e.branches.pending,
        insert ⟨source, target⟩ e.branches.visited, log⟩

/-- Scheduling a branch changes the branches and none but the counters of branches. -/
theorem scheduleBranch_cases (e : Emulator U) (c : Counters) (source target : Addr) :
    ∃ branches c', Scheduled e source target branches ∧
      (e.scheduleBranch c source target).2 = ({ e with branches }, c') ∧
      c'.instructionsExecuted = c.instructionsExecuted := by
  simp only [scheduleBranch]
  -- The cases follow the returns of the source.
  by_cases seen : ⟨source, target⟩ ∈ e.branches.visited
  · have skip : (logOffer e.branches ⟨source, target⟩).isVisited ⟨source, target⟩ = true :=
      decide_eq_true seen
    rw [if_pos skip]
    exact ⟨_, _, .visited seen, rfl, rfl⟩
  have proceed : ¬ (logOffer e.branches ⟨source, target⟩).isVisited ⟨source, target⟩ = true :=
    fun skip => seen (of_decide_eq_true skip)
  rw [if_neg proceed]
  by_cases inside : e.insideImage target = true
  · rw [inside, Bool.not_true, if_neg Bool.false_ne_true]
    cases save : contextSave e.engine with
    | none =>
      simp only [BranchManager.saveBranch, save, Option.map_none]
      exact ⟨_, _, .unsaved save, rfl, rfl⟩
    | some ctx =>
      simp only [BranchManager.saveBranch, save, Option.map_some]
      exact ⟨_, _, .saved seen inside ctx _ rfl save, rfl, rfl⟩
  · rw [Bool.not_eq_true] at inside
    rw [inside, Bool.not_false, if_pos rfl]
    exact ⟨_, _, .outside seen inside, rfl, rfl⟩

def discoverIndirectTargets (e : Emulator U) (c : Counters) (address : Addr) (insn : Insn) :
    Emulator U × Counters :=
  if insn.itype ∉ indirectControlTypes then (e, c)
  else if insn.op1.type ≠ .mem ∧ insn.op1.type ≠ .displ then (e, c)
  else
    match resolveOperandTarget e.engine insn.op1 with
    | some target => (e.scheduleBranch c address target).2
    | none => (e, c)

theorem discoverIndirectTargets_cases (e : Emulator U) (c : Counters) (address : Addr)
    (insn : Insn) : e.discoverIndirectTargets c address insn = (e, c) ∨
      ∃ target, e.discoverIndirectTargets c address insn =
        (e.scheduleBranch c address target).2 := by
  rw [discoverIndirectTargets]
  by_cases control : insn.itype ∉ indirectControlTypes
  · exact .inl (if_pos control)
  rw [if_neg control]
  by_cases memory : insn.op1.type ≠ .mem ∧ insn.op1.type ≠ .displ
  · exact .inl (if_pos memory)
  rw [if_neg memory]
  cases resolveOperandTarget e.engine insn.op1 with
  | some target => exact .inr ⟨target, rfl⟩
  | none => exact .inl rfl

def flagCf : BitVec 64 := 0x00000001
def flagPf : BitVec 64 := 0x00000004
def flagZf : BitVec 64 := 0x00000040
def flagSf : BitVec 64 := 0x00000080
def flagOf : BitVec 64 := 0x00000800

/-- The flags `force_branch` writes back. -/
def forcedFlags (itype : Itype) (eflags : BitVec 64) : BitVec 64 :=
  let set (mask : BitVec 64) := eflags ||| mask
  let clear (mask : BitVec 64) := eflags &&& ~~~mask
  match itype with
  | .jz | .je | .cmovz | .sete | .setz => set flagZf
  | .jnz | .jne | .cmovnz | .setne | .setnz => clear flagZf
  | .jc | .jb | .jnae | .cmovb | .setb | .setc => set flagCf
  | .jnc | .jnb | .jae | .setae => clear flagCf
  | .js | .cmovs | .sets => set flagSf
  | .jns | .cmovns | .setns => clear flagSf
  | .jo | .cmovo | .seto => set flagOf
  | .jno | .cmovno | .setno => clear flagOf
  | .jp | .jpe | .cmovp | .setp => set flagPf
  | .jnp | .jpo | .cmovnp | .setnp | .setpo => clear flagPf
  | .ja | .jnbe | .cmova | .seta => clear (flagCf ||| flagZf)
  | .jbe | .jna | .cmovbe | .setbe => set flagCf
  | .jg | .jnle | .cmovg | .setg => clear (flagZf ||| flagSf ||| flagOf)
  | .jge | .jnl | .cmovge | .setge => clear (flagSf ||| flagOf)
  | .jl | .jnge | .cmovl | .setl => set flagSf &&& ~~~flagOf
  | .jle | .jng | .cmovle | .setle => set flagZf
  | _ => eflags

def forceBranch (u : U) (insn : Insn) : U :=
  let eflags := reg u .eflags
  let u :=
    match insn.itype with
    | .jcxz | .jecxz | .jrcxz => regWrite u .rcx 0
    | _ => u
  regWrite u .eflags (forcedFlags insn.itype eflags)

end Unxorer.Emulator
