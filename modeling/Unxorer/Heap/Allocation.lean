import Unxorer.Lib.BumpArena
import Unxorer.Lib.Transition
import Unxorer.Machine.Reference
import Unxorer.Stubs.ApiStubs

/-!
# Histories of allocation requests

Every way to ask the fake heap for memory comes down to `alloc`. As long as no size wraps
around, a history of requests, frees and resets is a run of a bump arena, so the blocks it
hands out lie in the arena and are disjoint. The rounding and the bound check of `alloc`
are computed modulo `2 ^ 64`, and a size that wraps there is served from nothing.

## Main definitions

* `Request` — the allocation functions and the stubs over them
* `SessionStep` — a request, a free or a reset, with the blocks handed out
* `HeapLaw` — what is expected of the heap between them
* `FakeHeap.Fits` — the sizes for which `alloc` computes without wrapping

## Main results

* `heapLaw_of_run` — the law holds along every history of sizes that fit
* `not_heapLaw_of_wrap` — a size that does not fit breaks it
-/

set_option autoImplicit false

namespace Unxorer

open Unicorn FakeHeap ApiStubs BumpArena Transition

/-! ### Sizes that fit -/

/-- A number of bytes rounded up to the alignment, without wrapping. -/
def roundUp (n : ℕ) : ℕ := (n + 15) / 16 * 16

theorem le_roundUp (n : ℕ) : n ≤ roundUp n := by
  unfold roundUp
  omega

/-- A multiple of the alignment that holds `n` bytes holds the rounded number as well. -/
theorem roundUp_le {n m : ℕ} (le : n ≤ 16 * m) : roundUp n ≤ 16 * m := by
  unfold roundUp
  omega

namespace FakeHeap

/-- A request for nothing, one the bound check refuses, or one whose end is computed
without wrapping. -/
def Fits (h : FakeHeap) (n : BitVec 64) : Prop :=
  n = 0 ∨ h.exceedsArena (roundSize n) = true ∨ h.cursor.toNat + roundUp n.toNat < 2 ^ 64

theorem toNat_roundSize (n : BitVec 64) :
    (roundSize n).toNat = (n.toNat + 15) % 2 ^ 64 / 16 * 16 := by
  have grouped : n + allocAlignment - 1 = n + 15 := by
    rw [allocAlignment]
    ring
  rw [roundSize, grouped]
  exact (toNat_and_not_mask (n + 15) 4).trans (by rw [BitVec.toNat_add]; rfl)

/-- Short of the last fifteen sizes the rounding does not wrap. -/
theorem toNat_roundSize_of_lt {n : BitVec 64} (small : roundUp n.toNat < 2 ^ 64) :
    (roundSize n).toNat = roundUp n.toNat := by
  rw [roundUp] at small
  rw [toNat_roundSize, roundUp, Nat.mod_eq_of_lt (by omega)]

/-- What `alloc` can do: refuse, or serve a block at the cursor. -/
theorem alloc_cases (h : FakeHeap) (n : BitVec 64) :
    (h.alloc n = (0, h) ∧
        (h.initialized = false ∨ n = 0 ∨ h.exceedsArena (roundSize n) = true)) ∨
      (h.initialized = true ∧ n ≠ 0 ∧ h.exceedsArena (roundSize n) = false ∧
        h.alloc n = (h.cursor, { h with
          cursor := h.cursor + roundSize n
          allocSizes := Function.update h.allocSizes h.cursor (some (roundSize n)) })) := by
  by_cases ready : h.initialized = true
  · by_cases empty : n = 0
    · exact .inl ⟨by rw [empty, alloc_zero], .inr (.inl empty)⟩
    · by_cases exceeds : h.exceedsArena (roundSize n) = true
      · exact .inl ⟨by simp [alloc, exceeds], .inr (.inr exceeds)⟩
      · have accepted : ¬ (!h.initialized || n == 0) = true := by
          rw [ready, Bool.not_true, Bool.false_or, beq_iff_eq]
          exact empty
        exact .inr ⟨ready, empty, Bool.not_eq_true _ ▸ exceeds, by
          simp only [alloc, if_neg accepted, if_neg exceeds]⟩
  · rw [Bool.not_eq_true] at ready
    exact .inl ⟨by simp [alloc, ready], .inl ready⟩

/-- A block of a size that fits is reserved without wrapping and ends inside the arena. -/
theorem served_of_fits {h : FakeHeap} {n : BitVec 64} (fits : h.Fits n) (nonzero : n ≠ 0)
    (room : h.exceedsArena (roundSize n) = false) :
    (h.cursor + roundSize n).toNat = h.cursor.toNat + roundUp n.toNat ∧
      h.cursor.toNat + roundUp n.toNat ≤ h.arenaBase.toNat + arenaSize.toNat := by
  have small : h.cursor.toNat + roundUp n.toNat < 2 ^ 64 := by
    rcases fits with zero | exceeds | small
    · exact absurd zero nonzero
    · rw [exceeds] at room
      exact absurd room (by decide)
    · exact small
  have rounded := toNat_roundSize_of_lt (n := n) (by omega)
  have cursor : (h.cursor + roundSize n).toNat = h.cursor.toNat + roundUp n.toNat := by
    rw [BitVec.toNat_add, rounded, Nat.mod_eq_of_lt small]
  refine ⟨cursor, ?_⟩
  -- If the end of the arena wraps around, the check is only stricter.
  have checked : ¬ h.arenaBase + arenaSize < h.cursor + roundSize n := by
    simpa [exceedsArena] using room
  rw [BitVec.lt_def, cursor, BitVec.toNat_add] at checked
  exact (Nat.not_lt.mp checked).trans (Nat.mod_le _ _)

end FakeHeap

section Histories

variable {U : Type} [Unicorn U] [Host]

/-! ### Requests -/

/-- The ways to request memory. The stubs find their arguments in the engine. -/
inductive Request
  | alloc (size : BitVec 64)
  | realloc (oldPtr : Addr) (newSize : BitVec 64)
  | malloc | stubRealloc | heapAlloc | heapReAlloc | virtualAlloc | localAlloc
deriving DecidableEq

namespace Request

/-- The number of bytes requested. -/
def size (u : U) : Request → BitVec 64
  | alloc n => n
  | realloc _ n => n
  | malloc => readArg u 0
  | stubRealloc => readArg u 1
  | heapAlloc => readArg u 2
  | heapReAlloc => readArg u 3
  | virtualAlloc => readArg u 1
  | localAlloc => readArg u 1

/-- A stub's result with the pointer it left in RAX. -/
def fromRax (result : Except HostFault (U × FakeHeap)) :
    Except HostFault (Addr × U × FakeHeap) := do
  let (u, h) ← result
  return (reg u .rax, u, h)

/-- The pointer a request returns, with the engine and the heap after it. -/
def serve (u : U) (h : FakeHeap) : Request → Except HostFault (Addr × U × FakeHeap)
  | alloc n => .ok ((h.alloc n).1, u, (h.alloc n).2)
  | realloc oldPtr n => h.reallocAlloc u oldPtr n
  | malloc => fromRax (stubMalloc u h)
  | stubRealloc => fromRax (ApiStubs.stubRealloc u h)
  | heapAlloc => fromRax (stubHeapAlloc u h)
  | heapReAlloc => fromRax (stubHeapRealloc u h)
  | virtualAlloc => fromRax (stubVirtualAlloc u h)
  | localAlloc => fromRax (stubLocalAlloc u h)

end Request

/-- A reallocation takes its block from `alloc`. -/
theorem reallocAlloc_eq_alloc {u u' : U} {h h' : FakeHeap} {oldPtr p : Addr} {n : BitVec 64}
    (served : h.reallocAlloc u oldPtr n = .ok (p, u', h')) : (p, h') = h.alloc n := by
  rw [reallocAlloc] at served
  -- Three early returns, then a block with or without contents to move into it.
  by_cases absent : oldPtr = 0
  · rw [if_pos absent] at served
    cases served
    rfl
  by_cases empty : n = 0
  · rw [if_neg absent, if_pos empty] at served
    cases served
    rw [empty, alloc_zero]
  rw [if_neg absent, if_neg empty] at served
  by_cases refused : (h.alloc n).1 = 0
  · simp only [refused, if_true] at served
    cases served
    exact Prod.ext refused.symm rfl
  simp only [if_neg refused] at served
  by_cases known : (h.allocSizes oldPtr).getD 0 > 0
  · simp only [if_pos known] at served
    obtain ⟨engine, -, returned⟩ := exists_of_bind_ok served
    cases returned
    rfl
  · simp only [if_neg known] at served
    cases served
    rfl

/-- The zeroing allocation stubs take their block from `alloc`. -/
theorem allocZeroed_eq_alloc {u u' : U} {h h' : FakeHeap} {n : BitVec 64} {zeroed : Bool}
    (served : allocZeroed u h n zeroed = .ok (u', h')) : (reg u' .rax, h') = h.alloc n := by
  rw [allocZeroed] at served
  by_cases zeroing : (h.alloc n).1 ≠ 0 ∧ zeroed = true
  · simp only [if_pos zeroing] at served
    obtain ⟨engine, -, returned⟩ := exists_of_bind_ok served
    cases returned
    rw [rax_writeRet]
  · simp only [if_neg zeroing] at served
    cases served
    rw [rax_writeRet]

/-- Every request is served by `alloc`. -/
theorem serve_eq_alloc {u u' : U} {h h' : FakeHeap} {p : Addr} (r : Request)
    (served : r.serve u h = .ok (p, u', h')) : (p, h') = h.alloc (r.size u) := by
  have stub : ∀ {result : Except HostFault (U × FakeHeap)},
      Request.fromRax result = .ok (p, u', h') → result = .ok (u', h') ∧ p = reg u' .rax := by
    intro result ok
    obtain ⟨after, done, returned⟩ := exists_of_bind_ok ok
    cases returned
    exact ⟨done, rfl⟩
  have reallocated : ∀ {oldPtr n : BitVec 64},
      (h.reallocAlloc u oldPtr n >>= fun s => .ok (writeRet s.2.1 s.1, s.2.2)) = .ok (u', h') →
      p = reg u' .rax → (p, h') = h.alloc n := by
    intro oldPtr n ok rax
    obtain ⟨⟨ptr, engine, heap⟩, moved, returned⟩ := exists_of_bind_ok ok
    cases returned
    rw [rax, rax_writeRet]
    exact reallocAlloc_eq_alloc moved
  cases r with
  | alloc n =>
    cases served
    rfl
  | realloc oldPtr n => exact reallocAlloc_eq_alloc served
  | malloc =>
    obtain ⟨ok, rax⟩ := stub served
    cases ok
    rw [rax, rax_writeRet]
    rfl
  | stubRealloc =>
    obtain ⟨ok, rax⟩ := stub served
    exact reallocated ok rax
  | heapReAlloc =>
    obtain ⟨ok, rax⟩ := stub served
    exact reallocated ok rax
  | heapAlloc | virtualAlloc | localAlloc =>
    obtain ⟨ok, rax⟩ := stub served
    rw [rax]
    exact allocZeroed_eq_alloc ok

/-! ### Sessions -/

/-- The heap, with the blocks it has returned since the last reset. -/
structure Session where
  heap : FakeHeap
  blocks : List Block

/-- What happens to a heap: the engine of each operation is arbitrary. -/
inductive HeapEvent (U : Type)
  | request (r : Request) (u : U)
  | free (ptr : Addr)
  | reset (u : U)

/-- One operation on the heap; a returned pointer other than 0 is a block of the
requested length. -/
inductive SessionStep : HeapEvent U → Session → Session → Prop
  | request {s : Session} {r : Request} {u u' : U} {p : Addr} {h' : FakeHeap}
      (served : r.serve u s.heap = .ok (p, u', h')) :
      SessionStep (.request r u) s
        ⟨h', if p = 0 then s.blocks else ⟨p.toNat, (r.size u).toNat⟩ :: s.blocks⟩
  | free {s : Session} (ptr : Addr) :
      SessionStep (.free ptr) s ⟨s.heap.freeAlloc ptr, s.blocks⟩
  | reset {s : Session} {u u' : U} {h' : FakeHeap} (done : s.heap.reset u = .ok (u', h')) :
      SessionStep (.reset u) s ⟨h', []⟩

/-- What is expected of the heap in every state of a session. -/
structure HeapLaw (U : Type) [Unicorn U] (s : Session) : Prop where
  lower : s.heap.arenaBase.toNat ≤ s.heap.cursor.toNat
  upper : s.heap.cursor.toNat ≤ s.heap.arenaBase.toNat + arenaSize.toNat
  inside : ∀ b ∈ s.blocks, s.heap.arenaBase.toNat ≤ b.start ∧
    b.start + b.length ≤ s.heap.arenaBase.toNat + arenaSize.toNat
  aligned : 16 ∣ s.heap.arenaBase.toNat → ∀ b ∈ s.blocks, 16 ∣ b.start
  disjoint : s.blocks.Pairwise Block.Disjoint
  refused : ∀ (r : Request) (u u' : U) (h' : FakeHeap), r.serve u s.heap = .ok (0, u', h') →
    h'.cursor = s.heap.cursor ∧ h'.allocSizes = s.heap.allocSizes

/-! ### Sessions of sizes that fit -/

/-- The sizes of all requests fit. -/
def RequestFits (s : Session) : HeapEvent U → Prop
  | .request r u => s.heap.Fits (r.size u)
  | _ => True

/-- A session as the state of a bump arena. -/
def Session.arena (s : Session) : BumpArena.State := ⟨s.heap.cursor.toNat, s.blocks⟩

/-- The heap of the session is ready and its arena starts at `base`. -/
def Session.IsReady (base : Addr) (s : Session) : Prop :=
  s.heap.initialized = true ∧ s.heap.arenaBase = base

theorem isReady_step {base : Addr} {e : HeapEvent U} {s t : Session} (ready : s.IsReady base)
    (step : SessionStep e s t) : t.IsReady base := by
  obtain ⟨initialized, start⟩ := ready
  cases step with
  | request served =>
    rename_i r u u' p h'
    have result := serve_eq_alloc r served
    rcases s.heap.alloc_cases (r.size u) with ⟨refused, -⟩ | ⟨-, -, -, accepted⟩
    · cases result.trans refused
      exact ⟨initialized, start⟩
    · cases result.trans accepted
      exact ⟨initialized, start⟩
  | free ptr => exact ⟨initialized, start⟩
  | reset done =>
    rw [reset_ok initialized done]
    exact ⟨initialized, start⟩

/-- A session whose sizes fit moves as a bump arena does. -/
theorem arena_step {base : Addr} {e : HeapEvent U} {s t : Session} (ready : s.IsReady base)
    (positive : s.heap.cursor ≠ 0) (fits : RequestFits s e) (step : SessionStep e s t) :
    Relation.ReflTransGen (BumpArena.Step base.toNat (base.toNat + arenaSize.toNat) 16)
      s.arena t.arena := by
  obtain ⟨initialized, start⟩ := ready
  cases step with
  | request served =>
    rename_i r u u' p h'
    have result := serve_eq_alloc r served
    rcases s.heap.alloc_cases (r.size u) with ⟨refused, -⟩ | ⟨-, nonzero, room, accepted⟩
    · cases result.trans refused
      rw [if_pos rfl]
    · cases result.trans accepted
      obtain ⟨cursor, bound⟩ := served_of_fits fits nonzero room
      rw [start] at bound
      have served : BumpArena.Step base.toNat (base.toNat + arenaSize.toNat) 16 s.arena _ :=
        .serve (r.size u).toNat (roundUp (r.size u).toNat) (le_roundUp _)
          (Nat.dvd_mul_left 16 _) bound
      simp only [if_neg positive, Session.arena, cursor]
      exact .single served
  | free ptr => exact .refl
  | reset done =>
    rw [reset_ok initialized done]
    simp only [Session.arena, start]
    exact .single .empty

/-- The bump arena a ready session works in. -/
abbrev Session.IsSound (base : Addr) (s : Session) : Prop :=
  Sound base.toNat (base.toNat + arenaSize.toNat) 16 s.arena

/-- Above address 0 a sound session satisfies the law. -/
theorem heapLaw_of_isSound {base : Addr} {s : Session} (ready : s.IsReady base)
    (sound : s.IsSound base) (positive : base ≠ 0) : HeapLaw U s := by
  obtain ⟨initialized, rfl⟩ := ready
  have start : 0 < s.heap.arenaBase.toNat := toNat_pos_of_ne_zero positive
  refine ⟨sound.lower, sound.upper, ?_, ?_, sound.disjoint, ?_⟩
  · intro b member
    obtain ⟨above, below, -⟩ := sound.inside b member
    exact ⟨above, below.trans sound.upper⟩
  · intro aligned b member
    obtain ⟨above, -, multiple⟩ := sound.inside b member
    have split : b.start = s.heap.arenaBase.toNat + (b.start - s.heap.arenaBase.toNat) := by omega
    rw [split]
    exact Nat.dvd_add aligned multiple
  · intro r u u' h' served
    have result := serve_eq_alloc r served
    rcases s.heap.alloc_cases (r.size u) with ⟨refused, -⟩ | ⟨-, -, -, accepted⟩
    · cases result.trans refused
      exact ⟨rfl, rfl⟩
    -- A block that is served starts at the cursor, which is above address 0.
    · have cursor : s.heap.cursor.toNat = 0 := by
        have zero : (0 : Addr) = s.heap.cursor := congrArg Prod.fst (result.trans accepted)
        rw [← zero]
        rfl
      have lower : s.heap.arenaBase.toNat ≤ s.heap.cursor.toNat := sound.lower
      omega

/-- The heap law holds in every state of every session whose sizes fit. -/
theorem heapLaw_of_run {u u' : U} {base : Addr} {h : FakeHeap} {s : Session}
    (initialized : FakeHeap.fresh.init u base = (true, u', h)) (positive : base ≠ 0)
    (run : Run (SessionStep (U := U)) RequestFits ⟨h, []⟩ s) : HeapLaw U s := by
  have fresh : h = ⟨base, base, fun _ => none, true⟩ := by
    cases mapped : memMap u base arenaSize.toNat with
    | error cause => simp [FakeHeap.init, FakeHeap.fresh, mapped] at initialized
    | ok engine =>
      simp [FakeHeap.init, FakeHeap.fresh, mapped] at initialized
      exact initialized.2.symm
  subst fresh
  have start : 0 < base.toNat := toNat_pos_of_ne_zero positive
  have invariant : s.IsReady base ∧ s.IsSound base := by
    refine run.invariant (P := fun a => a.IsReady base ∧ a.IsSound base)
      ⟨⟨rfl, rfl⟩, Sound.initial (Nat.le_add_right _ _)⟩ ?_
    intro e a b inv fits step
    obtain ⟨ready, sound⟩ := inv
    have cursor : a.heap.cursor ≠ 0 := by
      intro zero
      have lower : base.toNat ≤ a.heap.cursor.toNat := sound.lower
      rw [zero] at lower
      exact absurd lower (Nat.not_le.mpr start)
    exact ⟨isReady_step ready step, sound.reachable (arena_step ready cursor fits step)⟩
  exact heapLaw_of_isSound invariant.1 invariant.2 positive

/-- In an aligned arena, a request whose size does not fit breaks the law: the block
it returns ends outside the arena, or the cursor has wrapped below its base. -/
theorem not_heapLaw_of_wrap {base : Addr} {s t : Session} {r : Request} {u : U}
    (ready : s.IsReady base) (sound : s.IsSound base) (positive : base ≠ 0)
    (aligned : 16 ∣ base.toNat) (bounded : base.toNat + arenaSize.toNat ≤ 2 ^ 64)
    (wraps : ¬ s.heap.Fits (r.size u)) (step : SessionStep (.request r u) s t) :
    ¬ HeapLaw U t := by
  obtain ⟨initialized, rfl⟩ := ready
  have start : 0 < s.heap.arenaBase.toNat := toNat_pos_of_ne_zero positive
  have lower : s.heap.arenaBase.toNat ≤ s.heap.cursor.toNat := sound.lower
  have upper : s.heap.cursor.toNat ≤ s.heap.arenaBase.toNat + arenaSize.toNat := sound.upper
  have multiple : 16 ∣ s.heap.cursor.toNat - s.heap.arenaBase.toNat := sound.aligned
  have cursor : s.heap.cursor ≠ 0 := by
    intro zero
    rw [zero] at lower
    exact absurd lower (Nat.not_le.mpr start)
  simp only [FakeHeap.Fits, not_or, Bool.not_eq_true, Nat.not_lt] at wraps
  obtain ⟨nonzero, room, wrapped⟩ := wraps
  intro law
  cases step with
  | request served =>
    have result := serve_eq_alloc r served
    rcases s.heap.alloc_cases (r.size u) with ⟨-, refused⟩ | ⟨-, -, -, accepted⟩
    · rcases refused with closed | zero | exceeds
      · rw [initialized] at closed
        exact absurd closed (by decide)
      · exact nonzero zero
      · rw [room] at exceeds
        exact absurd exceeds (by decide)
    · cases result.trans accepted
      have returned : ⟨s.heap.cursor.toNat, (r.size u).toNat⟩ ∈
          if s.heap.cursor = 0 then s.blocks
          else ⟨s.heap.cursor.toNat, (r.size u).toNat⟩ :: s.blocks := by
        rw [if_neg cursor]
        exact List.mem_cons_self
      have block := (law.inside _ returned).2
      have above : s.heap.arenaBase.toNat ≤ (s.heap.cursor + roundSize (r.size u)).toNat :=
        law.lower
      -- By `block` the end of the block is at most `2 ^ 64`, so the new cursor could only be 0.
      have size : arenaSize.toNat = 16 * 0x100000 := rfl
      simp only at block
      rw [BitVec.toNat_add, toNat_roundSize] at above
      rw [roundUp] at wrapped
      omega

end Histories

/-! ### Two histories -/

/-- An arena at 0x10000 on the reference engine. -/
def exampleHeap : FakeHeap := ⟨0x10000, 0x10000, fun _ => none, true⟩

/-- A reference engine that calls a stub with the same value in every register. -/
def callWith (n : BitVec 64) : Machine :=
  ⟨fun _ => n, fun _ => Buf.zero 32, fun _ => 0, fun _ => false⟩

theorem init_exampleHeap : FakeHeap.fresh.init Machine.empty 0x10000 =
    (true, Machine.empty.map 0x10000 arenaSize.toNat, exampleHeap) :=
  init_of_memMap rfl (Machine.memMap_of_free (by decide) fun _ _ => rfl)

/-- A call of `malloc` on the example heap. -/
theorem malloc_step (n : BitVec 64) :
    SessionStep (.request .malloc (callWith n)) ⟨exampleHeap, []⟩
      ⟨(exampleHeap.alloc n).2, if (exampleHeap.alloc n).1 = 0 then []
        else [⟨(exampleHeap.alloc n).1.toNat, n.toNat⟩]⟩ :=
  .request rfl

/-- `malloc(24)` on a fresh arena. -/
theorem heapLaw_of_run_malloc :
    HeapLaw Machine ⟨(exampleHeap.alloc 24).2, [⟨0x10000, 24⟩]⟩ :=
  heapLaw_of_run init_exampleHeap (by decide)
    (Run.refl.tail (e := .request .malloc (callWith 24)) (.inr (.inr (by decide)))
      (malloc_step 24))

/-- `malloc(2^64 - 1)` on the same arena returns its base. -/
theorem malloc_max_breaks_heapLaw :
    ¬ ∀ (u u' : Machine) (base : Addr) (h : FakeHeap) (s : Session),
      FakeHeap.fresh.init u base = (true, u', h) → base ≠ 0 →
      Run (SessionStep (U := Machine)) (fun _ _ => True) ⟨h, []⟩ s → HeapLaw Machine s := by
  intro always
  have run : Run (SessionStep (U := Machine)) (fun _ _ => True) ⟨exampleHeap, []⟩ _ :=
    Run.refl.tail (e := .request .malloc (callWith (-1))) trivial (malloc_step (-1))
  have law := always _ _ 0x10000 exampleHeap _ init_exampleHeap (by decide) run
  have returned : (⟨0x10000, 2 ^ 64 - 1⟩ : Block) ∈ if (exampleHeap.alloc (-1)).1 = 0 then []
      else [⟨(exampleHeap.alloc (-1)).1.toNat, (-1 : BitVec 64).toNat⟩] := by decide
  have block := (law.inside _ returned).2
  exact absurd block (by decide)

end Unxorer
