import Unxorer.Emulator.State

/-!
# String scans

The three scans that look for strings while a function is emulated: over the used part of
the stack, behind the pointers in registers and over the pages of the write tracker. A
scan reads registers and memory and changes nothing but the set of found strings.

## Main definitions

* `Emulator.scanBufferForStrings` — one scan
* `Emulator.dumpStackStrings`, `dumpRegisterStrings`, `dumpTrackedWrites`
-/

set_option autoImplicit false

namespace Unxorer.Emulator

open Unicorn WriteTracker

variable {U : Type} [Unicorn U]

/-- `gpr_registers`. -/
def gprRegisters : List Reg :=
  [.rax, .rbx, .rcx, .rdx, .rsi, .rdi, .rbp, .rsp, .r8, .r9, .r10, .r11, .r12, .r13, .r14, .r15]

/-- `push_string` on the set of found strings. -/
def pushString (rip ptr : Addr) (str : List Byte) (found : List FoundString) : List FoundString :=
  if str = [] then found
  else
    let str := Strings.trim (Strings.escapeControlChars str)
    if str = [] then found
    else FoundString.emplace found ⟨rip, ptr, Strings.hashString str, str⟩

def scanBufferForStrings (e : Emulator U) (rip base : Addr) (buffer : List Byte) : Emulator U :=
  { e with
    stringList := (Strings.scanFrom 0 buffer).foldl
      (fun found c => pushString rip (base + BitVec.ofNat 64 c.1) c.2 found) e.stringList }

def dumpStackStrings (e : Emulator U) : Emulator U :=
  let rsp := reg e.engine .rsp
  let rip := reg e.engine .rip
  if rsp < stackBase - stackSize ∨ rsp ≥ stackBase then e
  else
    -- The used part of the stack lies between RSP and the stack base.
    let maxScan := 0x8000
    let scanSize := min (stackBase - rsp).toNat maxScan
    e.scanBufferForStrings rip rsp (bytesAt e.engine rsp scanSize)

/-- One round of the loop of `dump_register_strings`, with the pointers scanned so far. -/
def dumpRegister (rip : Addr) (s : Emulator U × List Addr) (r : Reg) : Emulator U × List Addr :=
  let ptr := reg s.1.engine r
  if r = .rsp ∨ ptr = 0 ∨ ptr ∈ s.2 then s
  else
    match memRead s.1.engine ptr 0x200 with
    | none => (s.1, ptr :: s.2)
    | some buffer => (s.1.scanBufferForStrings rip ptr buffer, ptr :: s.2)

def dumpRegisterStrings (e : Emulator U) : Emulator U :=
  (gprRegisters.foldl (dumpRegister (reg e.engine .rip)) (e, [])).1

/-- The loop of `dump_tracked_writes` over the remaining regions. -/
def dumpRegions [Host] (rip : Addr) : List DirtyRegion → Emulator U → Except HostFault (Emulator U)
  | [], e => .ok e
  | region :: rest, e => do
    let scanSize := min region.size.toNat 0x10000
    hostVector scanSize
    -- A region that is not mapped throughout is passed over.
    match memRead e.engine region.start scanSize with
    | none => dumpRegions rip rest e
    | some buffer => dumpRegions rip rest (e.scanBufferForStrings rip region.start buffer)

def dumpTrackedWrites [Host] (e : Emulator U) : Except HostFault (Emulator U) :=
  if !hasDirty e.dirtyPages then .ok e
  else dumpRegions (reg e.engine .rip) (getDirtyRegions e.dirtyPages) e

/-! ### What a scan leaves alone -/

/-- Two emulators that differ at most in the strings they have found. -/
def SameButStrings (e e' : Emulator U) : Prop := e' = { e with stringList := e'.stringList }

namespace SameButStrings

variable {e e' e'' : Emulator U}

theorem refl (e : Emulator U) : SameButStrings e e := rfl

theorem trans (first : SameButStrings e e') (second : SameButStrings e' e'') :
    SameButStrings e e'' := by
  rw [SameButStrings] at first second ⊢
  rw [second, first]

/-- The found strings are all there is to compare. -/
theorem exists_stringList (same : SameButStrings e e') :
    ∃ found, e' = { e with stringList := found } := ⟨_, same⟩

theorem scan (rip base : Addr) (buffer : List Byte) :
    SameButStrings e (e.scanBufferForStrings rip base buffer) := rfl

theorem stack (e : Emulator U) : SameButStrings e e.dumpStackStrings := by
  simp only [dumpStackStrings]
  split_ifs
  · exact refl e
  · exact scan _ _ _

theorem register {s : Emulator U × List Addr} (same : SameButStrings e s.1) (rip : Addr) (r : Reg) :
    SameButStrings e (dumpRegister rip s r).1 := by
  simp only [dumpRegister]
  split_ifs
  · exact same
  · split
    · exact same
    · exact same.trans (scan _ _ _)

theorem registers (e : Emulator U) : SameButStrings e e.dumpRegisterStrings := by
  have loop : ∀ (rs : List Reg) (s : Emulator U × List Addr), SameButStrings e s.1 →
      SameButStrings e (rs.foldl (dumpRegister (reg e.engine .rip)) s).1 := by
    intro rs
    induction rs with
    | nil => exact fun s same => same
    | cons r rs ih => exact fun s same => ih _ (same.register _ r)
  exact loop _ _ (refl e)

theorem regions [Host] {rip : Addr} {rs : List DirtyRegion} {e e' : Emulator U}
    (done : dumpRegions rip rs e = .ok e') : SameButStrings e e' := by
  induction rs generalizing e with
  | nil =>
    cases done
    exact refl _
  | cons region rest ih =>
    rw [dumpRegions] at done
    obtain ⟨-, -, returned⟩ := exists_of_bind_ok done
    split at returned
    · exact ih returned
    · exact (scan _ _ _).trans (ih returned)

theorem trackedWrites [Host] (done : e.dumpTrackedWrites = .ok e') : SameButStrings e e' := by
  rw [dumpTrackedWrites] at done
  split_ifs at done
  · cases done
    exact refl e
  · exact regions done

/-- The scan of the tracked pages that is done only with write tracking. -/
theorem ifTracking [Host] {tracking : Bool}
    (done : (if tracking then e.dumpTrackedWrites else .ok e) = .ok e') : SameButStrings e e' := by
  split_ifs at done
  · exact trackedWrites done
  · cases done
    exact refl e

end SameButStrings

end Unxorer.Emulator
