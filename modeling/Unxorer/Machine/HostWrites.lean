import Unxorer.Machine.Unicorn

/-!
# Writes of the host to guest memory

The code that stands in for an instruction or a function writes guest memory through
`uc_mem_write`. What it may change is a range of addresses that is known beforehand.

## Main definitions

* `Destination` — a range of guest addresses
* `HostWrites` — engines that differ at most in registers and in mapped bytes of a set
-/

set_option autoImplicit false

namespace Unxorer

open Unicorn

/-- `size` addresses from `start` on. -/
structure Destination where
  start : Addr
  size : ℕ

namespace Destination

/-- No address. -/
def nowhere : Destination := ⟨0, 0⟩

/-- The addresses of the range. -/
def addresses (d : Destination) : Set Addr := {x | ∃ k < d.size, x = d.start + BitVec.ofNat 64 k}

/-- A range that does not wrap around is an interval. -/
theorem mem_addresses_iff {a x : Addr} {n : ℕ} (bounded : a.toNat + n ≤ 2 ^ 64) :
    x ∈ (Destination.mk a n).addresses ↔ a.toNat ≤ x.toNat ∧ x.toNat < a.toNat + n := by
  constructor
  · rintro ⟨k, inside, rfl⟩
    change k < n at inside
    change a.toNat ≤ (a + BitVec.ofNat 64 k).toNat ∧ (a + BitVec.ofNat 64 k).toNat < a.toNat + n
    rw [toNat_add_ofNat (by omega)]
    omega
  · rintro ⟨lower, upper⟩
    have offset : (x - a).toNat = x.toNat - a.toNat := BitVec.toNat_sub_of_le lower
    refine ⟨(x - a).toNat, ?_, (add_offset a x).symm⟩
    change (x - a).toNat < n
    omega

/-- Ranges one after the other are disjoint. -/
theorem disjoint_of_le {a b : Addr} {m n : ℕ} (before : a.toNat + m ≤ b.toNat)
    (bounded : b.toNat + n ≤ 2 ^ 64) :
    Disjoint (Destination.mk a m).addresses (Destination.mk b n).addresses := by
  rw [Set.disjoint_left]
  intro x left right
  rw [mem_addresses_iff (by omega)] at left
  rw [mem_addresses_iff bounded] at right
  omega

/-- Parts of one region are disjoint when one ends before the other begins. -/
theorem disjoint_of_offsets {a : Addr} {i j m n : ℕ} (before : i + m ≤ j)
    (room : j + n ≤ 2 ^ 64) :
    Disjoint (Destination.mk (a + BitVec.ofNat 64 i) m).addresses
      (Destination.mk (a + BitVec.ofNat 64 j) n).addresses := by
  rw [Set.disjoint_left]
  rintro x ⟨k, first, rfl⟩ ⟨l, second, same⟩
  change k < m at first
  change l < n at second
  simp only [add_assoc, ← BitVec.ofNat_add, add_right_inj] at same
  have offsets := congrArg BitVec.toNat same
  rw [BitVec.toNat_ofNat, BitVec.toNat_ofNat, Nat.mod_eq_of_lt (by omega),
    Nat.mod_eq_of_lt (by omega)] at offsets
  omega

variable {U : Type} [Unicorn U]

/-- The range of one call of `uc_mem_write`, which writes all of it or nothing. -/
def block (u : U) (a : Addr) (n : ℕ) : Destination := if Mapped u a n then ⟨a, n⟩ else nowhere

theorem block_congr {u u' : U} (mappings : mapped u' = mapped u) (a : Addr) (n : ℕ) :
    block u' a n = block u a n := by
  simp only [block, mapped_congr mappings]

theorem not_mem_nowhere (x : Addr) : x ∉ nowhere.addresses :=
  fun ⟨_, inside, _⟩ => Nat.not_lt_zero _ inside

theorem mem_addresses {d : Destination} {x : Addr} (inside : (x - d.start).toNat < d.size) :
    x ∈ d.addresses := ⟨_, inside, (add_offset d.start x).symm⟩

end Destination

variable {U : Type} [Unicorn U]

/-- Host code has taken `u` to `u'` and has changed no memory but mapped bytes of `range`. -/
structure HostWrites (range : Set Addr) (u u' : U) : Prop where
  mapped_eq : mapped u' = mapped u
  within : ∀ x, byte u' x ≠ byte u x → x ∈ range ∧ mapped u x = true

namespace HostWrites

variable {range range' : Set Addr} {u u' u'' : U}

/-- Registers may change freely. -/
theorem of_byte_eq (bytes : byte u' = byte u) (mappings : mapped u' = mapped u) :
    HostWrites range u u' :=
  ⟨mappings, fun x changed => absurd (congrFun bytes x) changed⟩

theorem refl (u : U) : HostWrites range u u := of_byte_eq rfl rfl

theorem trans (first : HostWrites range u u') (second : HostWrites range u' u'') :
    HostWrites range u u'' where
  mapped_eq := second.mapped_eq.trans first.mapped_eq
  within x changed := by
    -- A byte that the first part has left alone was changed by the second.
    by_cases same : byte u' x = byte u x
    · have later := second.within x fun equal => changed (equal.trans same)
      rwa [first.mapped_eq] at later
    · exact first.within x same

theorem mono (writes : HostWrites range u u') (subset : range ⊆ range') :
    HostWrites range' u u' :=
  ⟨writes.mapped_eq, fun x changed => (writes.within x changed).imp_left (@subset x)⟩

theorem guestByte_eq (writes : HostWrites range u u') {x : Addr} (outside : x ∉ range) :
    guestByte u' x = guestByte u x := by
  have same : byte u' x = byte u x := by
    by_contra changed
    exact outside (writes.within x changed).1
  rw [guestByte, guestByte, writes.mapped_eq, same]

/-- What is read outside the range stays as it was. -/
theorem memRead_eq (writes : HostWrites range u u') {a : Addr} {n : ℕ}
    (apart : Disjoint (Destination.mk a n).addresses range) :
    memRead u' a n = memRead u a n := by
  have bytes : bytesAt u' a n = bytesAt u a n := by
    refine List.ofFn_inj.mpr (funext fun i => ?_)
    by_contra changed
    exact Set.disjoint_left.mp apart ⟨i, i.2, rfl⟩ (writes.within _ changed).1
  simp only [memRead, bytes, mapped_congr writes.mapped_eq]

theorem regWrite (writes : HostWrites range u u') (r : Reg) (v : BitVec 64) :
    HostWrites range u (Unicorn.regWrite u' r v) :=
  writes.trans (of_byte_eq (byte_regWrite _ _ _) (mapped_regWrite _ _ _))

/-- A store to mapped memory changes its range. -/
theorem store {a : Addr} {bs : List Byte} (present : Mapped u a bs.length) :
    HostWrites {x | (x - a).toNat < bs.length} u (Unicorn.store u a bs) where
  mapped_eq := mapped_store u a bs
  within x changed := by
    have inside : (x - a).toNat < bs.length := by
      by_contra outside
      exact changed (byte_store_of_le u a bs (Nat.le_of_not_lt outside))
    have mapped := present _ inside
    rw [add_offset] at mapped
    exact ⟨inside, mapped⟩

/-- A host write changes its block, or nothing. -/
theorem memWrite (u : U) (a : Addr) (bs : List Byte) :
    HostWrites (Destination.block u a bs.length).addresses u
      ((Unicorn.memWrite u a bs).getD u) := by
  rw [memWrite_getD, Destination.block]
  -- A block that is not mapped throughout is not written at all.
  by_cases present : Mapped u a bs.length
  · rw [if_pos present, if_pos present]
    exact (store present).mono fun x inside => Destination.mem_addresses inside
  · rw [if_neg present, if_neg present]
    exact refl u

theorem memWrite_of_length (u : U) (a : Addr) {bs : List Byte} {n : ℕ} (length : bs.length = n) :
    HostWrites (Destination.block u a n).addresses u ((Unicorn.memWrite u a bs).getD u) := by
  rw [← length]
  exact memWrite u a bs

end HostWrites

/-! ### The bytes of a write -/

/-- A part of a mapped range is mapped. -/
theorem mapped_part {u : U} {base p : Addr} {size n : ℕ} (present : Mapped u base size)
    (lower : base.toNat ≤ p.toNat) (upper : p.toNat + n ≤ base.toNat + size) : Mapped u p n := by
  intro i inside
  have offset : base + BitVec.ofNat 64 (p.toNat - base.toNat + i) = p + BitVec.ofNat 64 i := by
    have split : BitVec.ofNat 64 (p.toNat - base.toNat) = p - base := by
      rw [← BitVec.toNat_sub_of_le lower, BitVec.ofNat_toNat, BitVec.setWidth_eq]
    rw [BitVec.ofNat_add, split, ← add_assoc, add_sub_cancel]
  rw [← offset]
  exact present _ (by omega)

section StoredBytes

variable {u : U} {a : Addr} {bs : List Byte}

theorem guestByte_store_of_lt (present : Mapped u a bs.length) {i : ℕ} (inside : i < bs.length)
    (short : i < 2 ^ 64) : guestByte (store u a bs) (a + BitVec.ofNat 64 i) = some bs[i] := by
  have offset := toNat_offset a short
  have within : (a + BitVec.ofNat 64 i - a).toNat < bs.length := offset.symm ▸ inside
  rw [guestByte, mapped_store, if_pos (present i inside), byte_store_of_lt _ _ _ within]
  simp only [offset]

theorem guestByte_store_of_ne {x : Addr}
    (outside : ∀ i < bs.length, x ≠ a + BitVec.ofNat 64 i) :
    guestByte (store u a bs) x = guestByte u x := by
  have beyond : bs.length ≤ (x - a).toNat := by
    by_contra inside
    exact outside _ (Nat.not_le.mp inside) (add_offset a x).symm
  rw [guestByte, guestByte, mapped_store, byte_store_of_le _ _ _ beyond]

/-- A store leaves what the guest sees exactly when its bytes are there already. -/
theorem guestByte_store_eq_iff (present : Mapped u a bs.length) (short : bs.length ≤ 2 ^ 64) :
    (∀ x, guestByte u x = guestByte (store u a bs) x) ↔
      ∀ i < bs.length, bs[i]? = some (byte u (a + BitVec.ofNat 64 i)) := by
  have seen {i : ℕ} (inside : i < bs.length) :
      guestByte u (a + BitVec.ofNat 64 i) = guestByte (store u a bs) (a + BitVec.ofNat 64 i) ↔
        bs[i]? = some (byte u (a + BitVec.ofNat 64 i)) := by
    rw [guestByte_store_of_lt present inside (inside.trans_le short), guestByte,
      if_pos (present i inside), List.getElem?_eq_getElem inside]
    exact eq_comm
  constructor
  · intro same i inside
    exact (seen inside).mp (same _)
  · intro there x
    by_cases outside : ∀ i < bs.length, x ≠ a + BitVec.ofNat 64 i
    · exact (guestByte_store_of_ne outside).symm
    · push Not at outside
      obtain ⟨i, inside, rfl⟩ := outside
      exact (seen inside).mpr (there i inside)

/-- A write puts its bytes where they are read back. -/
theorem memRead_store_self (present : Mapped u a bs.length) (short : bs.length ≤ 2 ^ 64) :
    memRead (store u a bs) a bs.length = some bs := by
  rw [memRead_of_mapped ((mapped_congr (mapped_store u a bs) _ _).mpr present)]
  refine congrArg some (List.ext_getElem (length_bytesAt _ _ _) fun i inside below => ?_)
  have offset := toNat_offset a (below.trans_le short)
  simp only [bytesAt, List.getElem_ofFn]
  rw [byte_store_of_lt _ _ _ (offset.symm ▸ below)]
  simp only [offset]

/-- A write leaves what is read elsewhere. -/
theorem memRead_store_of_disjoint {x : Addr} {n : ℕ}
    (apart : Disjoint (Destination.mk x n).addresses (Destination.mk a bs.length).addresses) :
    memRead (store u a bs) x n = memRead u x n := by
  have bytes : bytesAt (store u a bs) x n = bytesAt u x n := by
    refine List.ofFn_inj.mpr (funext fun i => byte_store_of_le _ _ _ ?_)
    by_contra inside
    have read : x + BitVec.ofNat 64 i ∈ (Destination.mk x n).addresses := ⟨i, i.2, rfl⟩
    exact Set.disjoint_left.mp apart read (Destination.mem_addresses (Nat.not_le.mp inside))
  simp only [memRead, bytes, mapped_congr (mapped_store u a bs)]

end StoredBytes

end Unxorer
