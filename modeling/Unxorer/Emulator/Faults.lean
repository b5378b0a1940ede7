import Unxorer.Emulator.State

/-!
# Memory faults

An access to unmapped memory maps the pages it needs for the rest of the run, up to a
limit on their number.

## Main definitions

* `Emulator.mapFaultRegion` — `map_fault_region`
* `Emulator.clearTransientMappings` — `clear_transient_mappings`
* `Emulator.MapsMemory` — emulators that differ at most in memory mapped by faults

## Main results

* `Emulator.MapsMemory.region` — all that handling a fault does
-/

set_option autoImplicit false

namespace Unxorer.Emulator

open Unicorn

variable {U : Type} [Unicorn U]

def transientMapSize : BitVec 64 := 0x1000

def transientMapMask : BitVec 64 := ~~~(transientMapSize - 1)

def maxTransientRegions : ℕ := 2048

def isCoreMappedAddress (e : Emulator U) (address : Addr) : Bool :=
  let imageEnd := e.image.mapStart + e.image.mapSize
  if address ≥ e.image.mapStart ∧ address < imageEnd then true
  else address ≥ stackBase - stackSize && address < stackBase

def isTransientMappedAddress (e : Emulator U) (address : Addr) : Bool :=
  address ∈ e.transientMappings

/-- `map_transient_page`, with the value it returns. -/
def mapTransientPage (e : Emulator U) (pageBase : Addr) : Bool × Emulator U :=
  if e.transientMappings.length ≥ maxTransientRegions then
    (false, { e with
      transientLimitReached := true
      transientLimitHits := e.transientLimitHits + 1 })
  else
    match memMap e.engine pageBase transientMapSize.toNat with
    -- A page that is mapped already is as good as mapped now.
    | .error .map => (true, e)
    | .error .other => (false, e)
    | .ok u => (true, { e with
        engine := u
        transientMappings := e.transientMappings ++ [pageBase] })

/-- The body of the loop of `map_fault_region`: the page needs no mapping, or it is
mapped now. -/
def mapPage (e : Emulator U) (page : Addr) : Bool × Emulator U :=
  if e.isCoreMappedAddress page || e.isTransientMappedAddress page then (true, e)
  else
    match memRead e.engine page 1 with
    | some _ => (true, e)
    | none => e.mapTransientPage page

/-- The loop of `map_fault_region`, for at most `fuel` tests of its condition. -/
def mapPages (last : Addr) : ℕ → Addr → Emulator U → Except HostFault (Bool × Emulator U)
  | 0, _, _ => .error .hang
  | fuel + 1, page, e =>
    if page < last then
      match e.mapPage page with
      | (false, e) => .ok (false, e)
      | (true, e) => mapPages last fuel (page + transientMapSize) e
    else .ok (true, e)

def mapFaultRegion (e : Emulator U) (faultAddress : Addr) (accessSize : BitVec 64) :
    Except HostFault (Bool × Emulator U) :=
  let start := faultAddress &&& transientMapMask
  let last := faultAddress + (accessSize - 1)
  mapPages ((last + transientMapSize) &&& transientMapMask) (2 ^ 52 + 1) start e

def clearTransientMappings (e : Emulator U) : Emulator U :=
  { e with
    engine := e.transientMappings.foldl (fun u base => memUnmap u base transientMapSize.toNat)
      e.engine
    transientMappings := [] }

/-! ### What a fault changes -/

/-- One emulator is the other after some successful calls of `uc_mem_map`, up to the
record of the transient pages. -/
structure MapsMemory (e e' : Emulator U) : Prop where
  same : e' = { e with
    engine := e'.engine
    transientMappings := e'.transientMappings
    transientLimitReached := e'.transientLimitReached
    transientLimitHits := e'.transientLimitHits }
  engine : Relation.ReflTransGen (fun u u' : U => ∃ a n, memMap u a n = .ok u') e.engine e'.engine

namespace MapsMemory

variable {e e' e'' : Emulator U}

theorem refl (e : Emulator U) : MapsMemory e e := ⟨rfl, .refl⟩

theorem trans (first : MapsMemory e e') (second : MapsMemory e' e'') : MapsMemory e e'' := by
  refine ⟨?_, first.engine.trans second.engine⟩
  rw [second.same, first.same]

theorem transientPage (e : Emulator U) (pageBase : Addr) :
    MapsMemory e (e.mapTransientPage pageBase).2 := by
  unfold mapTransientPage
  split_ifs
  · exact ⟨rfl, .refl⟩
  · split
    · exact refl e
    · exact refl e
    · rename_i u mapped
      exact ⟨rfl, .single ⟨_, _, mapped⟩⟩

theorem page (e : Emulator U) (page : Addr) : MapsMemory e (e.mapPage page).2 := by
  rw [mapPage]
  split_ifs
  · exact refl e
  · split
    · exact refl e
    · exact transientPage e page

/-- The loop of `map_fault_region` maps pages, however it ends. -/
theorem pages {last : Addr} {fuel : ℕ} {page : Addr} {retry : Bool}
    (done : mapPages last fuel page e = .ok (retry, e')) : MapsMemory e e' := by
  -- A round that fails ends the loop, but it has mapped no page.
  induction fuel generalizing page e with
  | zero => cases done
  | succ fuel ih =>
    rw [mapPages] at done
    split_ifs at done
    · have first := MapsMemory.page e page
      split at done
      · rename_i e₁ failed
        cases done
        rwa [failed] at first
      · rename_i e₁ mapped
        rw [mapped] at first
        exact first.trans (ih done)
    · cases done
      exact refl _

theorem region {faultAddress : Addr} {accessSize : BitVec 64} {retry : Bool}
    (done : e.mapFaultRegion faultAddress accessSize = .ok (retry, e')) : MapsMemory e e' :=
  pages done

end MapsMemory

end Unxorer.Emulator
