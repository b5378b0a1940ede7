import Unxorer.Lib.PackedInteger
import Unxorer.Lib.PackedShift

/-!
# A machine with packed instructions

Vector registers of 32 bytes, general registers, byte-addressed memory and a program counter,
with the instructions of a vector unit on them. What an instruction makes of its sources is
a relation; an instruction with a source that is not present in memory has no step. Programs
here are straight lines: lists of instructions with the lengths of their encodings.

## Main definitions

* `PackedMachine.State` — registers, memory and the program counter
* `PackedMachine.Instruction` — the instructions, over any register names
* `PackedMachine.Step`, `PackedMachine.Runs` — one instruction, and a straight line of them
* `PackedMachine.blocks` — a register taken through a function with one block after the other

## Main results

* `PackedMachine.runs_append` — straight lines compose
* `PackedMachine.runs_blocks` — a chain of blocks folds its function
-/

set_option autoImplicit false

namespace PackedMachine

open Lanes Packed

/-- Registers and memory; `present` are the addresses that can be read and written. -/
@[ext]
structure State (ι κ : Type*) where
  vector : ι → Fin 32 → BitVec 8
  general : κ → BitVec 64
  memory : BitVec 64 → BitVec 8
  present : BitVec 64 → Prop
  pc : BitVec 64

/-- Where a value comes from. Memory is addressed from a general register. -/
inductive Source (ι κ : Type*)
  | vector (i : ι)
  | general (r : κ)
  | memory (base : κ) (displacement : BitVec 64)

/-- The instructions, with the number of bytes they work on where they come in several sizes.
A `block` instruction computes any function of two blocks of 16 bytes. -/
inductive Instruction (ι κ : Type*)
  | packed (op : Operation) (size : ℕ) (destination : ι) (first second : Source ι κ)
  | shift (op : Shift) (w size : ℕ) (destination : ι) (source : Source ι κ) (count : ℕ)
  | block (f : (Fin 16 → BitVec 8) → (Fin 16 → BitVec 8) → Fin 16 → BitVec 8) (destination : ι)
      (first second : Source ι κ)
  | load (size : ℕ) (destination : ι) (source : Source ι κ)
  | store (size : ℕ) (base : κ) (displacement : BitVec 64) (source : ι)
  | insert (size : ℕ) (destination : ι) (source : Source ι κ)
  | clearUpper

/-- A straight line: instructions with the lengths of their encodings. -/
abbrev Program (ι κ : Type*) := List (Instruction ι κ × BitVec 64)

variable {ι κ : Type*}

namespace State

variable (s : State ι κ)

def address (base : κ) (displacement : BitVec 64) : BitVec 64 := displacement + s.general base

/-- All bytes of a range are present. -/
def Present (a : BitVec 64) (size : ℕ) : Prop := ∀ j < size, s.present (a + BitVec.ofNat 64 j)

/-- The low bytes of a source. -/
inductive Holds (size : ℕ) : Source ι κ → (Fin size → BitVec 8) → Prop
  | vector (i : ι) : Holds size (.vector i) fun j => byteAt (s.vector i) j
  | general (r : κ) (small : size ≤ 8) :
      Holds size (.general r) fun j => (s.general r).extractLsb' (8 * j) 8
  | memory (base : κ) (displacement : BitVec 64)
      (room : s.Present (s.address base displacement) size) :
      Holds size (.memory base displacement) fun j =>
        s.memory (s.address base displacement + BitVec.ofNat 64 j)

/-- A vector register with its low bytes replaced. -/
def load [DecidableEq ι] (i : ι) {size : ℕ} (v : Fin size → BitVec 8) : State ι κ :=
  { s with vector := Function.update s.vector i fun j =>
      if h : j.1 < size then v ⟨j, h⟩ else s.vector i j }

/-- Memory with the bytes of a range replaced. -/
def store (a : BitVec 64) {size : ℕ} (v : Fin size → BitVec 8) : State ι κ :=
  { s with memory := fun x =>
      if h : (x - a).toNat < size then v ⟨(x - a).toNat, h⟩ else s.memory x }

/-- All vector registers with their upper halves cleared. -/
def clearUpper : State ι κ :=
  { s with vector := fun i j => if j.1 < 16 then s.vector i j else 0 }

/-- The program counter behind an instruction. -/
def advance (length : BitVec 64) : State ι κ := { s with pc := s.pc + length }

end State

/-- A value in front of zeros. -/
def extend {size : ℕ} (v : Fin size → BitVec 8) : Fin 16 → BitVec 8 :=
  fun j => if h : j.1 < size then v ⟨j, h⟩ else 0

variable [DecidableEq ι]

/-- What an instruction does, the program counter apart. -/
inductive Step : Instruction ι κ → State ι κ → State ι κ → Prop
  | packed {op : Operation} {size : ℕ} {d : ι} {first second : Source ι κ} {s : State ι κ}
      {a b r : Fin size → BitVec 8} (left : s.Holds size first a) (right : s.Holds size second b)
      (computes : op.Computes a b r) : Step (.packed op size d first second) s (s.load d r)
  | shift {op : Shift} {w size count : ℕ} {d : ι} {source : Source ι κ} {s : State ι κ}
      {a r : Fin size → BitVec 8} (holds : s.Holds size source a)
      (shifts : ∀ k, w * (k + 1) ≤ size → op.Shifts (lane w a k) (lane w r k) count) :
      Step (.shift op w size d source count) s (s.load d r)
  | block {f : (Fin 16 → BitVec 8) → (Fin 16 → BitVec 8) → Fin 16 → BitVec 8} {d : ι}
      {first second : Source ι κ} {s : State ι κ} {a b : Fin 16 → BitVec 8}
      (left : s.Holds 16 first a) (right : s.Holds 16 second b) :
      Step (.block f d first second) s (s.load d (f a b))
  | load {size : ℕ} {d : ι} {source : Source ι κ} {s : State ι κ} {a : Fin size → BitVec 8}
      (holds : s.Holds size source a) : Step (.load size d source) s (s.load d a)
  | store {size : ℕ} {base : κ} {displacement : BitVec 64} {i : ι} {s : State ι κ}
      {a : Fin size → BitVec 8} (holds : s.Holds size (.vector i) a)
      (room : s.Present (s.address base displacement) size) :
      Step (.store size base displacement i) s (s.store (s.address base displacement) a)
  | insert {size : ℕ} {d : ι} {source : Source ι κ} {s : State ι κ} {a : Fin size → BitVec 8}
      (holds : s.Holds size source a) : Step (.insert size d source) s (s.load d (extend a))
  | clearUpper {s : State ι κ} : Step .clearUpper s s.clearUpper

/-- A straight line of instructions, each from where the one before has left off. -/
inductive Runs : Program ι κ → State ι κ → State ι κ → Prop
  | nil {s : State ι κ} : Runs [] s s
  | cons {instruction : Instruction ι κ} {length : BitVec 64} {program : Program ι κ}
      {s t u : State ι κ} (step : Step instruction s t) (rest : Runs program (t.advance length) u) :
      Runs ((instruction, length) :: program) s u

variable {s t u : State ι κ} {instruction : Instruction ι κ} {program : Program ι κ}

theorem vector_load_of_ne {i d : ι} (other : i ≠ d) {size : ℕ} (v : Fin size → BitVec 8) :
    (s.load d v).vector i = s.vector i :=
  Function.update_of_ne other _ _

theorem Step.pc (step : Step instruction s t) : t.pc = s.pc := by
  cases step <;> rfl

/-! ### Straight lines -/

theorem runs_append {first second : Program ι κ} :
    Runs (first ++ second) s u ↔ ∃ t, Runs first s t ∧ Runs second t u := by
  constructor
  · induction first generalizing s with
    | nil => exact fun runs => ⟨s, .nil, runs⟩
    | cons step first ih =>
      rintro (_ | ⟨now, rest⟩)
      obtain ⟨t, before, after⟩ := ih rest
      exact ⟨t, .cons now before, after⟩
  · rintro ⟨t, before, after⟩
    induction before with
    | nil => exact after
    | cons now _ ih => exact .cons now (ih after)

/-! ### Chains of blocks -/

namespace State

variable (s : State ι κ) (d : ι)

/-- The lower half of a vector register. -/
def low (s : State ι κ) (i : ι) : Fin 16 → BitVec 8 := fun j => byteAt (s.vector i) j

theorem low_load (v : Fin 16 → BitVec 8) : (s.load d v).low d = v := by
  funext j
  have inside : j.1 < 32 := by omega
  simp only [low, load, byteAt, dif_pos inside, Function.update_self, dif_pos j.2]

theorem load_load {size : ℕ} (v w : Fin size → BitVec 8) : (s.load d v).load d w = s.load d w := by
  ext1
  · funext i
    by_cases same : i = d
    · subst same
      simp only [load, Function.update_self]
      funext j
      split_ifs <;> rfl
    · rw [vector_load_of_ne same, vector_load_of_ne same, vector_load_of_ne same]
  all_goals rfl

/-- A loaded register is overwritten by the next load. -/
theorem load_advance_load {size : ℕ} (v w : Fin size → BitVec 8) (a b : BitVec 64) :
    (((s.load d v).advance a).load d w).advance b = (s.load d w).advance (a + b) := by
  have overwritten := congrArg State.vector (s.load_load d v w)
  exact State.ext overwritten rfl rfl rfl (add_assoc _ _ _)

end State

/-- One block instruction on a register for each source. -/
def blocks (f : (Fin 16 → BitVec 8) → (Fin 16 → BitVec 8) → Fin 16 → BitVec 8) (d : ι)
    (sources : List (Source ι κ × BitVec 64)) : Program ι κ :=
  sources.map fun source => (.block f d (.vector d) source.1, source.2)

/-- The sources hold the blocks, and none of them is the register. -/
def HoldsAll (s : State ι κ) (d : ι) (sources : List (Source ι κ × BitVec 64))
    (keys : List (Fin 16 → BitVec 8)) : Prop :=
  List.Forall₂ (fun source key => s.Holds 16 source.1 key ∧ source.1 ≠ .vector d) sources keys

section Blocks

variable {d : ι} {sources : List (Source ι κ × BitVec 64)} {keys : List (Fin 16 → BitVec 8)}

/-- A register that a source does not name can be written without losing its value. -/
theorem Holds.load {size : ℕ} {source : Source ι κ} {a : Fin size → BitVec 8}
    (holds : s.Holds size source a) (other : source ≠ .vector d) (v : Fin 16 → BitVec 8)
    (length : BitVec 64) : ((s.load d v).advance length).Holds size source a := by
  cases holds with
  | vector i =>
    have apart : i ≠ d := fun same => other (congrArg Source.vector same)
    rw [← vector_load_of_ne apart v]
    exact .vector i
  | general r small => exact .general r small
  | memory base displacement room => exact .memory base displacement room

/-- A chain of block instructions folds its function over the blocks. -/
theorem runs_blocks (f : (Fin 16 → BitVec 8) → (Fin 16 → BitVec 8) → Fin 16 → BitVec 8)
    (held : HoldsAll s d sources keys) (v : Fin 16 → BitVec 8) (length : BitVec 64) :
    Runs (blocks f d sources) ((s.load d v).advance length)
      ((s.load d (keys.foldl f v)).advance (length + (sources.map Prod.snd).sum)) := by
  induction held generalizing v length with
  | nil =>
    have unmoved : length + 0 = length := add_zero length
    rw [List.map_nil, List.sum_nil, unmoved]
    exact .nil
  | cons first _ ih =>
    rename_i source key sources keys _
    have here := Holds.load first.1 first.2 v length
    -- Before the instruction the register holds `v`.
    have lower : ((s.load d v).advance length).low d = v := s.low_load d v
    have step := Step.block (f := f) (d := d) (.vector d) here
    rw [List.foldl_cons, List.map_cons, List.sum_cons, ← add_assoc]
    refine .cons step ?_
    rw [State.load_advance_load]
    have result : f (((s.load d v).advance length).low d) key = f v key := by rw [lower]
    exact result ▸ ih (f v key) (length + source.2)

end Blocks

end PackedMachine
