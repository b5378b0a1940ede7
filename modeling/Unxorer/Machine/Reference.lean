import Unxorer.Machine.Host
import Unxorer.Machine.Unicorn

/-!
# A reference engine

The promises about the engine are satisfiable: a state that holds the registers, the
bytes of guest memory and which addresses are mapped keeps all of them. Concrete runs
of the model are evaluated on this engine.
-/

set_option autoImplicit false

namespace Unxorer

/-- Registers and memory, and nothing else; memory is mapped by pages. -/
structure Machine where
  reg : Reg → BitVec 64
  ymm : Fin 16 → Buf 32
  byte : Addr → Byte
  mappedPage : ℕ → Bool

namespace Machine

/-- An engine as `uc_open` leaves it: no memory and cleared registers. -/
def empty : Machine := ⟨fun _ => 0, fun _ => Buf.zero 32, fun _ => 0, fun _ => false⟩

/-- A range of whole pages inside the address space. -/
def WholePages (a : Addr) (n : ℕ) : Prop :=
  a.toNat % 0x1000 = 0 ∧ n % 0x1000 = 0 ∧ a.toNat + n ≤ 2 ^ 64

instance (a : Addr) (n : ℕ) : Decidable (WholePages a n) := inferInstanceAs (Decidable (_ ∧ _ ∧ _))

/-- The offset of an address from an earlier one. -/
theorem toNat_sub_of_le {a x : Addr} (le : a.toNat ≤ x.toNat) :
    (x - a).toNat = x.toNat - a.toNat := by
  rw [BitVec.toNat_sub]
  omega

/-- A range of whole pages holds an address exactly when it holds its page. -/
theorem WholePages.mem_iff {a : Addr} {n : ℕ} (whole : WholePages a n) (x : Addr) :
    (x - a).toNat < n ↔ a.toNat / 0x1000 ≤ x.toNat / 0x1000 ∧
      x.toNat / 0x1000 < a.toNat / 0x1000 + n / 0x1000 := by
  obtain ⟨aligned, multiple, bounded⟩ := whole
  have := x.isLt
  -- The offset of an address below the range wraps around and is too large.
  by_cases le : a.toNat ≤ x.toNat
  · rw [toNat_sub_of_le le]
    omega
  · rw [BitVec.toNat_sub]
    omega

/-- A machine with a range of pages mapped and zeroed. -/
def map (m : Machine) (a : Addr) (n : ℕ) : Machine :=
  { m with
    byte := fun x => if (x - a).toNat < n then 0 else m.byte x
    mappedPage := fun p => m.mappedPage p ||
      decide (a.toNat / 0x1000 ≤ p ∧ p < a.toNat / 0x1000 + n / 0x1000) }

instance : Unicorn Machine where
  Context := (Reg → BitVec 64) × (Fin 16 → Buf 32)
  reg := Machine.reg
  ymm := Machine.ymm
  byte := Machine.byte
  mapped m x := m.mappedPage (x.toNat / 0x1000)
  contextReg := Prod.fst
  contextYmm := Prod.snd
  regWrite m r v := { m with reg := fun r' => if r' = r then v else m.reg r' }
  xmmWrite m i d := { m with ymm := fun i' =>
    if i' = i then fun j => if h : j.1 < 16 then d ⟨j, h⟩ else m.ymm i' j else m.ymm i' }
  ymmWrite m i d := { m with ymm := fun i' => if i' = i then d else m.ymm i' }
  storeBytes m a n f :=
    { m with byte := fun x => if (x - a).toNat < n then f (x - a).toNat else m.byte x }
  memMap m a n :=
    if WholePages a n then
      if ∀ i < n / 0x1000, m.mappedPage (a.toNat / 0x1000 + i) = false then
        .ok (m.map a n)
      else .error .map
    else .error .other
  memUnmap m a n :=
    if WholePages a n then
      { m with mappedPage := fun p => m.mappedPage p &&
          !decide (a.toNat / 0x1000 ≤ p ∧ p < a.toNat / 0x1000 + n / 0x1000) }
    else m
  contextSave m := some (m.reg, m.ymm)
  contextRestore m c := some { m with reg := c.1, ymm := c.2 }
  reg_regWrite _ _ _ _ := rfl
  ymm_regWrite _ _ _ := rfl
  byte_regWrite _ _ _ := rfl
  mapped_regWrite _ _ _ := rfl
  reg_xmmWrite _ _ _ := rfl
  ymm_xmmWrite _ _ _ _ := rfl
  byte_xmmWrite _ _ _ := rfl
  mapped_xmmWrite _ _ _ := rfl
  reg_ymmWrite _ _ _ := rfl
  ymm_ymmWrite _ _ _ _ := rfl
  byte_ymmWrite _ _ _ := rfl
  mapped_ymmWrite _ _ _ := rfl
  reg_storeBytes _ _ _ _ := rfl
  ymm_storeBytes _ _ _ _ := rfl
  byte_storeBytes _ _ _ _ _ := rfl
  mapped_storeBytes _ _ _ _ := rfl
  reg_memMap := by
    intro u a n u' ok
    split_ifs at ok
    cases ok
    rfl
  ymm_memMap := by
    intro u a n u' ok
    split_ifs at ok
    cases ok
    rfl
  byte_memMap := by
    intro u a n u' ok x
    split_ifs at ok
    cases ok
    rfl
  mapped_memMap := by
    intro u a n u' ok x
    split_ifs at ok with whole
    cases ok
    simp only [map, whole.mem_iff x]
  memMap_free := by
    intro u a n u' ok
    split_ifs at ok with whole free
    refine ⟨whole.2.2, fun x inside => ?_⟩
    obtain ⟨above, below⟩ := (whole.mem_iff x).mp inside
    have unmapped := free (x.toNat / 0x1000 - a.toNat / 0x1000) (by omega)
    rwa [Nat.add_sub_cancel' above] at unmapped
  memMap_taken := by
    intro u a n x aligned multiple bounded inside taken
    have whole : WholePages a n := ⟨aligned, multiple, bounded⟩
    obtain ⟨above, below⟩ := (whole.mem_iff x).mp inside
    -- The page of `x` is one of the pages that would have to be free.
    have blocked : ¬ ∀ i < n / 0x1000, u.mappedPage (a.toNat / 0x1000 + i) = false := by
      intro free
      have unmapped := free (x.toNat / 0x1000 - a.toNat / 0x1000) (by omega)
      rw [Nat.add_sub_cancel' above, taken] at unmapped
      exact Bool.noConfusion unmapped
    rw [if_pos whole, if_neg blocked]
  reg_memUnmap := by
    intro u a n
    split_ifs <;> rfl
  ymm_memUnmap := by
    intro u a n
    split_ifs <;> rfl
  byte_memUnmap := by
    intro u a n x _
    split_ifs <;> rfl
  mapped_memUnmap := by
    intro u a n aligned multiple bounded _ x
    have whole : WholePages a n := ⟨aligned, multiple, bounded⟩
    simp only [if_pos whole, whole.mem_iff x]
  contextSave_registers := by
    rintro u c ⟨⟩
    exact ⟨rfl, rfl⟩
  contextRestore_registers := by
    rintro u c u' ⟨⟩
    exact ⟨rfl, rfl⟩
  contextRestore_memory := by
    rintro u c u' ⟨⟩
    exact ⟨rfl, rfl⟩

/-- The pages of a range are free when none of them is mapped by an earlier mapping. -/
theorem mappedPage_map_eq_false {m : Machine} {a : Addr} {n p : ℕ} (free : m.mappedPage p = false)
    (apart : p < a.toNat / 0x1000 ∨ a.toNat / 0x1000 + n / 0x1000 ≤ p) :
    (m.map a n).mappedPage p = false := by
  have outside : ¬ (a.toNat / 0x1000 ≤ p ∧ p < a.toNat / 0x1000 + n / 0x1000) := by omega
  simp only [map, free, Bool.false_or, decide_eq_false_iff_not]
  exact outside

theorem mappedPage_storeBytes (m : Machine) (a : Addr) (n : ℕ) (f : ℕ → Byte) :
    (Unicorn.storeBytes m a n f).mappedPage = m.mappedPage := rfl

/-- A range of free pages is mapped. -/
theorem memMap_of_free {m : Machine} {a : Addr} {n : ℕ} (whole : WholePages a n)
    (free : ∀ i < n / 0x1000, m.mappedPage (a.toNat / 0x1000 + i) = false) :
    Unicorn.memMap m a n = .ok (m.map a n) :=
  (if_pos whole).trans (if_pos free)

end Machine

/-- A 64-bit host. -/
instance : Host := ⟨2 ^ 63 - 1, 2 ^ 63 - 1, by decide⟩

end Unxorer
