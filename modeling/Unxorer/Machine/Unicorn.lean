import Unxorer.Machine.Bytes

/-!
# The engine the plugin drives

Unicorn is a library outside this repository, so the model takes it as a parameter:
a type of engine states with the operations of its interface and, as named fields,
what its documentation promises about them. Registers and guest memory are what an
engine shows of itself; nothing else about its state is used.

An XMM register is the low half of the YMM register with its number. A read or write
of guest memory from the host fails as a whole when a byte of the range is not
mapped, and calls no hook.

## Main definitions

* `Unicorn` — engine states, their operations and the promises about them
* `Unicorn.memRead`, `Unicorn.memWrite` — `uc_mem_read` and `uc_mem_write`
* `Unicorn.guestByte` — guest memory as the emulated program sees it
-/

set_option autoImplicit false

namespace Unxorer

/-- The registers the code reads or writes through `uc_reg_read` and `uc_reg_write`,
vector registers excepted. -/
inductive Reg
  | rax | rbx | rcx | rdx | rsi | rdi | rbp | rsp
  | r8 | r9 | r10 | r11 | r12 | r13 | r14 | r15
  | rip | eflags
deriving DecidableEq, Repr

/-- The outcomes of `uc_mem_map` that the code tells apart from success. -/
inductive MapError
  | map
  | other
deriving DecidableEq, Repr

/-- The engine: `reg`, `ymm`, `byte` and `mapped` are what a state shows, the other
functions are the operations of the interface. -/
class Unicorn (U : Type) where
  /-- `uc_context`. -/
  Context : Type
  reg : U → Reg → BitVec 64
  ymm : U → Fin 16 → Buf 32
  byte : U → Addr → Byte
  mapped : U → Addr → Bool
  contextReg : Context → Reg → BitVec 64
  contextYmm : Context → Fin 16 → Buf 32
  /-- `uc_reg_write` of a 64-bit register. -/
  regWrite : U → Reg → BitVec 64 → U
  /-- `uc_reg_write` of an XMM register. -/
  xmmWrite : U → Fin 16 → Buf 16 → U
  /-- `uc_reg_write` of a YMM register. -/
  ymmWrite : U → Fin 16 → Buf 32 → U
  /-- `n` bytes placed in mapped guest memory, by a guest store, by `uc_mem_write` or
  through a host buffer given to `uc_mem_map_ptr`. -/
  storeBytes : U → Addr → ℕ → (ℕ → Byte) → U
  /-- `uc_mem_map`. -/
  memMap : U → Addr → ℕ → Except MapError U
  /-- `uc_mem_unmap`. -/
  memUnmap : U → Addr → ℕ → U
  /-- `uc_context_alloc` followed by `uc_context_save`. -/
  contextSave : U → Option Context
  /-- `uc_context_restore`. -/
  contextRestore : U → Context → Option U
  reg_regWrite : ∀ u r v r', reg (regWrite u r v) r' = if r' = r then v else reg u r'
  ymm_regWrite : ∀ u r v, ymm (regWrite u r v) = ymm u
  byte_regWrite : ∀ u r v, byte (regWrite u r v) = byte u
  mapped_regWrite : ∀ u r v, mapped (regWrite u r v) = mapped u
  reg_xmmWrite : ∀ u i d, reg (xmmWrite u i d) = reg u
  /-- A write of an XMM register replaces bits 127:0 and leaves bits 255:128. -/
  ymm_xmmWrite : ∀ u i d i', ymm (xmmWrite u i d) i' =
    if i' = i then fun j : Fin 32 => if h : j.1 < 16 then d ⟨j, h⟩ else ymm u i' j else ymm u i'
  byte_xmmWrite : ∀ u i d, byte (xmmWrite u i d) = byte u
  mapped_xmmWrite : ∀ u i d, mapped (xmmWrite u i d) = mapped u
  reg_ymmWrite : ∀ u i d, reg (ymmWrite u i d) = reg u
  ymm_ymmWrite : ∀ u i d i', ymm (ymmWrite u i d) i' = if i' = i then d else ymm u i'
  byte_ymmWrite : ∀ u i d, byte (ymmWrite u i d) = byte u
  mapped_ymmWrite : ∀ u i d, mapped (ymmWrite u i d) = mapped u
  reg_storeBytes : ∀ u a n f, reg (storeBytes u a n f) = reg u
  ymm_storeBytes : ∀ u a n f, ymm (storeBytes u a n f) = ymm u
  byte_storeBytes : ∀ u a n f x, byte (storeBytes u a n f) x =
    if (x - a).toNat < n then f (x - a).toNat else byte u x
  mapped_storeBytes : ∀ u a n f, mapped (storeBytes u a n f) = mapped u
  reg_memMap : ∀ u a n u', memMap u a n = .ok u' → reg u' = reg u
  ymm_memMap : ∀ u a n u', memMap u a n = .ok u' → ymm u' = ymm u
  /-- Memory mapped by `uc_mem_map` reads as zero. -/
  byte_memMap : ∀ u a n u', memMap u a n = .ok u' →
    ∀ x, byte u' x = if (x - a).toNat < n then 0 else byte u x
  mapped_memMap : ∀ u a n u', memMap u a n = .ok u' →
    ∀ x, mapped u' x = (mapped u x || decide ((x - a).toNat < n))
  /-- A mapping succeeds only on a range inside the address space with no page mapped. -/
  memMap_free : ∀ u a n u', memMap u a n = .ok u' →
    a.toNat + n ≤ 2 ^ 64 ∧ ∀ x, (x - a).toNat < n → mapped u x = false
  /-- `UC_ERR_MAP` where a page of the range is mapped already. -/
  memMap_taken : ∀ u a n x, a.toNat % 0x1000 = 0 → n % 0x1000 = 0 → a.toNat + n ≤ 2 ^ 64 →
    (x - a).toNat < n → mapped u x = true → memMap u a n = .error .map
  reg_memUnmap : ∀ u a n, reg (memUnmap u a n) = reg u
  ymm_memUnmap : ∀ u a n, ymm (memUnmap u a n) = ymm u
  byte_memUnmap : ∀ u a n x, ¬ (x - a).toNat < n → byte (memUnmap u a n) x = byte u x
  /-- Whole pages that are mapped are unmapped. -/
  mapped_memUnmap : ∀ u a n, a.toNat % 0x1000 = 0 → n % 0x1000 = 0 → a.toNat + n ≤ 2 ^ 64 →
    (∀ x, (x - a).toNat < n → mapped u x = true) →
    ∀ x, mapped (memUnmap u a n) x = (mapped u x && !decide ((x - a).toNat < n))
  /-- A context holds the registers at the time of the save, and no memory. -/
  contextSave_registers : ∀ u c, contextSave u = some c →
    contextReg c = reg u ∧ contextYmm c = ymm u
  contextRestore_registers : ∀ u c u', contextRestore u c = some u' →
    reg u' = contextReg c ∧ ymm u' = contextYmm c
  contextRestore_memory : ∀ u c u', contextRestore u c = some u' →
    byte u' = byte u ∧ mapped u' = mapped u

namespace Unicorn

variable {U : Type} [Unicorn U]

attribute [simp] reg_regWrite ymm_regWrite byte_regWrite mapped_regWrite
attribute [simp] reg_xmmWrite ymm_xmmWrite byte_xmmWrite mapped_xmmWrite
attribute [simp] reg_ymmWrite ymm_ymmWrite byte_ymmWrite mapped_ymmWrite
attribute [simp] reg_storeBytes ymm_storeBytes mapped_storeBytes
attribute [simp] reg_memUnmap ymm_memUnmap

/-- A list of bytes placed in mapped guest memory. -/
def store (u : U) (a : Addr) (bs : List Byte) : U := storeBytes u a bs.length fun i => bs[i]?.getD 0

section Store

variable (u : U) (a : Addr) (bs : List Byte)

@[simp] theorem reg_store : reg (store u a bs) = reg u := reg_storeBytes _ _ _ _

@[simp] theorem ymm_store : ymm (store u a bs) = ymm u := ymm_storeBytes _ _ _ _

@[simp] theorem mapped_store : mapped (store u a bs) = mapped u := mapped_storeBytes _ _ _ _

theorem byte_store_of_lt {x : Addr} (inside : (x - a).toNat < bs.length) :
    byte (store u a bs) x = bs[(x - a).toNat] := by
  rw [store, byte_storeBytes, if_pos inside, List.getElem?_eq_getElem inside, Option.getD_some]

theorem byte_store_of_le {x : Addr} (outside : bs.length ≤ (x - a).toNat) :
    byte (store u a bs) x = byte u x := by
  rw [store, byte_storeBytes, if_neg (Nat.not_lt.mpr outside)]

end Store

/-- The low half of a YMM register, as `uc_reg_read` of the XMM register returns it. -/
def xmm (u : U) (i : Fin 16) : Buf 16 := (ymm u i).resize 16

/-- Every byte of a range is mapped. -/
def Mapped (u : U) (a : Addr) (n : ℕ) : Prop := ∀ i < n, mapped u (a + BitVec.ofNat 64 i) = true

instance (u : U) (a : Addr) (n : ℕ) : Decidable (Mapped u a n) :=
  inferInstanceAs (Decidable (∀ i < n, _))

/-- The bytes of a range, mapped or not. -/
def bytesAt (u : U) (a : Addr) (n : ℕ) : List Byte :=
  List.ofFn fun i : Fin n => byte u (a + BitVec.ofNat 64 i)

/-- `uc_mem_read`: all the bytes, or an error. -/
def memRead (u : U) (a : Addr) (n : ℕ) : Option (List Byte) :=
  if Mapped u a n then some (bytesAt u a n) else none

/-- `uc_mem_write`: all the bytes, or an error and no change. -/
def memWrite (u : U) (a : Addr) (bs : List Byte) : Option U :=
  if Mapped u a bs.length then some (store u a bs) else none

/-- What the guest reads at an address; `none` where nothing is mapped. -/
def guestByte (u : U) (a : Addr) : Option Byte := if mapped u a then some (byte u a) else none

/-- The little-endian bytes of a 64-bit value. -/
def leBytes (v : BitVec 64) : List Byte :=
  List.ofFn fun i : Fin 8 => v.extractLsb' (8 * i) 8

/-- The 64-bit value at the front of a list of bytes. -/
def leWord (bs : List Byte) : BitVec 64 :=
  BitVec.ofFnLE fun i : Fin 64 => (bs[i.1 / 8]?.getD 0).getLsbD (i.1 % 8)

@[simp] theorem length_bytesAt (u : U) (a : Addr) (n : ℕ) : (bytesAt u a n).length = n := by
  simp [bytesAt]

theorem getElem?_bytesAt {u : U} {a : Addr} {n i : ℕ} (inside : i < n) :
    (bytesAt u a n)[i]? = some (byte u (a + BitVec.ofNat 64 i)) := by
  simp [bytesAt, inside]

theorem memRead_of_mapped {u : U} {a : Addr} {n : ℕ} (mapped : Mapped u a n) :
    memRead u a n = some (bytesAt u a n) := if_pos mapped

theorem memRead_of_not_mapped {u : U} {a : Addr} {n : ℕ} (missing : ¬ Mapped u a n) :
    memRead u a n = none := if_neg missing

theorem bytesAt_of_memRead {u : U} {a : Addr} {n : ℕ} {bs : List Byte}
    (read : memRead u a n = some bs) : bytesAt u a n = bs := by
  rw [memRead] at read
  split_ifs at read
  exact Option.some.inj read

theorem mapped_of_memRead {u : U} {a : Addr} {n : ℕ} {bs : List Byte}
    (read : memRead u a n = some bs) : Mapped u a n := by
  rw [memRead] at read
  split_ifs at read with present
  exact present

theorem length_of_memRead {u : U} {a : Addr} {n : ℕ} {bs : List Byte}
    (read : memRead u a n = some bs) : bs.length = n := by
  rw [← bytesAt_of_memRead read, length_bytesAt]

/-- Which ranges are mapped follows from which addresses are. -/
theorem mapped_congr {u u' : U} (mappings : mapped u' = mapped u) (a : Addr) (n : ℕ) :
    Mapped u' a n ↔ Mapped u a n := by
  unfold Mapped
  rw [mappings]

theorem memRead_congr {u u' : U} (mappings : mapped u' = mapped u) (bytes : byte u' = byte u)
    (a : Addr) (n : ℕ) : memRead u' a n = memRead u a n := by
  simp only [memRead, mapped_congr mappings, bytesAt, bytes]

/-- What the guest sees at an address shows whether it is mapped. -/
theorem mapped_eq_of_guestByte_eq {u u' : U} {x : Addr} (same : guestByte u x = guestByte u' x) :
    mapped u x = mapped u' x := by
  have isSome (v : U) : (guestByte v x).isSome = mapped v x := by
    rw [guestByte]
    cases mapped v x <;> rfl
  rw [← isSome u, same, isSome u']

/-- A read sees what the guest sees. -/
theorem memRead_of_guestByte_eq {u u' : U} (same : ∀ x, guestByte u' x = guestByte u x) (a : Addr)
    (n : ℕ) : memRead u' a n = memRead u a n := by
  have mappings : mapped u' = mapped u := funext fun x => mapped_eq_of_guestByte_eq (same x)
  by_cases present : Mapped u a n
  · rw [memRead_of_mapped present, memRead_of_mapped ((mapped_congr mappings a n).mpr present)]
    refine congrArg some (List.ofFn_inj.mpr (funext fun i => ?_))
    have seen := same (a + BitVec.ofNat 64 i)
    rw [guestByte, guestByte, mappings, if_pos (present i i.2), if_pos (present i i.2)] at seen
    exact Option.some.inj seen
  · rw [memRead_of_not_mapped present,
      memRead_of_not_mapped ((mapped_congr mappings a n).not.mpr present)]

theorem memWrite_of_mapped {u : U} {a : Addr} {bs : List Byte} (mapped : Mapped u a bs.length) :
    memWrite u a bs = some (store u a bs) := if_pos mapped

/-- A host write changes nothing unless it succeeds, and then it is the store. -/
theorem memWrite_getD (u : U) (a : Addr) (bs : List Byte) :
    (memWrite u a bs).getD u = if Mapped u a bs.length then store u a bs else u := by
  rw [memWrite]
  split_ifs <;> rfl

section HostWrite

variable (u : U) (a : Addr) (bs : List Byte)

@[simp] theorem reg_memWrite : reg ((memWrite u a bs).getD u) = reg u := by
  rw [memWrite_getD]
  split_ifs <;> simp

@[simp] theorem ymm_memWrite : ymm ((memWrite u a bs).getD u) = ymm u := by
  rw [memWrite_getD]
  split_ifs <;> simp

end HostWrite

end Unicorn

end Unxorer
