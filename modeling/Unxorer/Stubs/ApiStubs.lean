import Unxorer.Heap.FakeHeap

/-!
# The Win64 API stubs

The stubs that stand in for imported functions. A stub takes its arguments from the
registers of the Win64 calling convention, works on guest memory through the host
interface of the engine and leaves its result in RAX; failed reads and writes are not
reported. The 8-bit and the 16-bit string functions are one function of the width of a
character.

## Main definitions

* `Stub`, `stubTable` — the stubs and the names they are bound to
* `Stub.run` — what a stub does
* `tryDispatch` — the lookup of a stub by an import name and its run
-/

set_option autoImplicit false

namespace Unxorer.ApiStubs

open Unicorn

variable {U : Type} [Unicorn U]

def maxBuffer : ℕ := 0x100000

/-- The registers of the first four arguments. -/
def argRegs : List Reg := [.rcx, .rdx, .r8, .r9]

def readArg (u : U) (index : ℕ) : BitVec 64 :=
  match argRegs[index]? with
  | some r => reg u r
  -- The other arguments are on the stack; an unreadable one counts as 0.
  | none =>
    match memRead u (reg u .rsp + 0x20 + BitVec.ofNat 64 (index - 4) * 8) 8 with
    | some bs => leWord bs
    | none => 0

def writeRet (u : U) (value : BitVec 64) : U := regWrite u .rax value

@[simp] theorem rax_writeRet (u : U) (v : BitVec 64) : reg (writeRet u v) .rax = v := by
  rw [writeRet, reg_regWrite, if_pos rfl]

/-! ### Loops over characters of `w` bytes -/

/-- The character with every byte zero. -/
def nul (w : ℕ) : List Byte := List.replicate w 0

/-- The address of character `i` of a string. -/
def charAddr (w : ℕ) (str : Addr) (i : ℕ) : Addr := str + BitVec.ofNat 64 (i * w)

/-- The length loop: it stops at a NUL, at an unreadable character or after `fuel` more
characters. -/
def scanLength (w : ℕ) (u : U) (str : Addr) : ℕ → ℕ → ℕ
  | 0, len => len
  | fuel + 1, len =>
    match memRead u (charAddr w str len) w with
    | some ch => if ch = nul w then len else scanLength w u str fuel (len + 1)
    | none => len

/-- The copy loop: it stops after a NUL, at an unreadable character or after `fuel` more
characters. The result is the engine and the number of characters copied. -/
def copyLoop (w : ℕ) (src dest : Addr) : ℕ → ℕ → U → U × ℕ
  | 0, i, u => (u, i)
  | fuel + 1, i, u =>
    match memRead u (charAddr w src i) w with
    | none => (u, i)
    | some ch =>
      let u := (memWrite u (charAddr w dest i) ch).getD u
      if ch = nul w then (u, i + 1) else copyLoop w src dest fuel (i + 1) u

/-- The bounded copy loop over the next `n` characters. -/
def copyNLoop (w : ℕ) (src dest : Addr) : ℕ → ℕ → Bool → U → U
  | 0, _, _, u => u
  | n + 1, i, hitNull, u =>
    let read := if hitNull then none else memRead u (charAddr w src i) w
    match read with
    | some ch =>
      if ch = nul w then
        copyNLoop w src dest n (i + 1) true ((memWrite u (charAddr w dest i) (nul w)).getD u)
      else copyNLoop w src dest n (i + 1) hitNull ((memWrite u (charAddr w dest i) ch).getD u)
    | none =>
      copyNLoop w src dest n (i + 1) true ((memWrite u (charAddr w dest i) (nul w)).getD u)

/-- The buffer a stub allocates for `count` bytes, where it accepts the count. -/
def acceptsCount (count : BitVec 64) : Bool := 0 < count.toNat && count.toNat ≤ maxBuffer

/-! ### Stubs -/

section Stubs

variable [Host] (u : U) (heap : FakeHeap)

def stubMalloc : Except HostFault (U × FakeHeap) :=
  let (ptr, heap) := heap.alloc (readArg u 0)
  .ok (writeRet u ptr, heap)

def stubCalloc : Except HostFault (U × FakeHeap) := do
  let (ptr, u, heap) ← heap.callocAlloc u (readArg u 0) (readArg u 1)
  return (writeRet u ptr, heap)

def stubRealloc : Except HostFault (U × FakeHeap) := do
  let (ptr, u, heap) ← heap.reallocAlloc u (readArg u 0) (readArg u 1)
  return (writeRet u ptr, heap)

def stubFree : Except HostFault (U × FakeHeap) :=
  .ok (writeRet u 0, heap.freeAlloc (readArg u 0))

/-- The body of the stubs that fill memory with one byte. -/
def fill (dest : Addr) (byte : Byte) (count : BitVec 64) : Except HostFault U := do
  if acceptsCount count then
    hostVector count.toNat
    return (memWrite u dest (List.replicate count.toNat byte)).getD u
  else return u

def stubMemcpy : Except HostFault (U × FakeHeap) := do
  let dest := readArg u 0
  let src := readArg u 1
  let count := readArg u 2
  if acceptsCount count then
    hostVector count.toNat
    match memRead u src count.toNat with
    | some buf => return (writeRet ((memWrite u dest buf).getD u) dest, heap)
    | none => return (writeRet u dest, heap)
  else return (writeRet u dest, heap)

def stubMemset : Except HostFault (U × FakeHeap) := do
  let dest := readArg u 0
  let u ← fill u dest ((readArg u 1).setWidth 8) (readArg u 2)
  return (writeRet u dest, heap)

/-- `std::memcmp`, whose result is determined up to its magnitude. -/
def memcmp : List Byte → List Byte → Int
  | x :: xs, y :: ys => if x < y then -1 else if y < x then 1 else memcmp xs ys
  | _, _ => 0

def stubMemcmp : Except HostFault (U × FakeHeap) := do
  let a := readArg u 0
  let b := readArg u 1
  let count := readArg u 2
  if acceptsCount count then
    hostVector count.toNat
    hostVector count.toNat
    -- If either read fails, the buffers are not compared.
    let result : Int :=
      match memRead u a count.toNat, memRead u b count.toNat with
      | some bufA, some bufB => memcmp bufA bufB
      | _, _ => 0
    return (writeRet u (BitVec.ofInt 64 result), heap)
  else return (writeRet u 0, heap)

/-- `stub_strlen` and `stub_wcslen`. -/
def stubLength (w : ℕ) : Except HostFault (U × FakeHeap) :=
  .ok (writeRet u (BitVec.ofNat 64 (scanLength w u (readArg u 0) maxBuffer 0)), heap)

/-- `stub_strcpy` and `stub_wcscpy`. -/
def stubCopy (w : ℕ) : Except HostFault (U × FakeHeap) :=
  let dest := readArg u 0
  let src := readArg u 1
  .ok (writeRet (copyLoop w src dest maxBuffer 0 u).1 dest, heap)

/-- `stub_strncpy` and `stub_wcsncpy`. -/
def stubCopyN (w : ℕ) : Except HostFault (U × FakeHeap) :=
  let dest := readArg u 0
  let src := readArg u 1
  let count := min (readArg u 2).toNat maxBuffer
  .ok (writeRet (copyNLoop w src dest count 0 false u) dest, heap)

/-- `stub_strcat` and `stub_wcscat`. -/
def stubConcat (w : ℕ) : Except HostFault (U × FakeHeap) :=
  let dest := readArg u 0
  let src := readArg u 1
  let destLen := scanLength w u dest maxBuffer 0
  .ok (writeRet (copyLoop w src (charAddr w dest destLen) (maxBuffer - destLen) 0 u).1 dest, heap)

def stubRtlZeroMemory : Except HostFault (U × FakeHeap) := do
  let u ← fill u (readArg u 0) 0 (readArg u 1)
  return (u, heap)

def stubRtlFillMemory : Except HostFault (U × FakeHeap) := do
  let u ← fill u (readArg u 0) ((readArg u 2).setWidth 8) (readArg u 1)
  return (u, heap)

def stubGetProcessHeap : Except HostFault (U × FakeHeap) := .ok (writeRet u 0xBEEF0000, heap)

/-- The body of the allocation stubs that zero the requested bytes of a block. -/
def allocZeroed (size : BitVec 64) (zeroed : Bool) : Except HostFault (U × FakeHeap) := do
  let (ptr, heap) := heap.alloc size
  if ptr ≠ 0 ∧ zeroed then
    let u ← FakeHeap.zeroFill u ptr size
    return (writeRet u ptr, heap)
  else return (writeRet u ptr, heap)

def stubHeapAlloc : Except HostFault (U × FakeHeap) :=
  let flags := (readArg u 1).setWidth 32
  allocZeroed u heap (readArg u 2) (flags &&& 0x00000008 ≠ 0)

def stubHeapRealloc : Except HostFault (U × FakeHeap) := do
  let (ptr, u, heap) ← heap.reallocAlloc u (readArg u 2) (readArg u 3)
  return (writeRet u ptr, heap)

def stubVirtualAlloc : Except HostFault (U × FakeHeap) := allocZeroed u heap (readArg u 1) true

def stubLocalAlloc : Except HostFault (U × FakeHeap) :=
  let flags := (readArg u 0).setWidth 32
  allocZeroed u heap (readArg u 1) (flags &&& 0x0040 ≠ 0)

end Stubs

/-- The functions `stub_table` holds pointers to. -/
inductive Stub
  | malloc | calloc | realloc | free | heapAlloc | heapRealloc | virtualAlloc | localAlloc
  | getProcessHeap | memcpy | memset | memcmp | strlen | wcslen | strcpy | strncpy | wcscpy
  | wcsncpy | strcat | wcscat | rtlZeroMemory | rtlFillMemory
deriving DecidableEq, Repr

/-- The call through a pointer of `stub_table`. -/
def Stub.run [Host] (u : U) (heap : FakeHeap) : Stub → Except HostFault (U × FakeHeap)
  | malloc => stubMalloc u heap
  | calloc => stubCalloc u heap
  | realloc => stubRealloc u heap
  | free => stubFree u heap
  | heapAlloc => stubHeapAlloc u heap
  | heapRealloc => stubHeapRealloc u heap
  | virtualAlloc => stubVirtualAlloc u heap
  | localAlloc => stubLocalAlloc u heap
  | getProcessHeap => stubGetProcessHeap u heap
  | memcpy => stubMemcpy u heap
  | memset => stubMemset u heap
  | memcmp => stubMemcmp u heap
  | strlen => stubLength u heap 1
  | wcslen => stubLength u heap 2
  | strcpy => stubCopy u heap 1
  | strncpy => stubCopyN u heap 1
  | wcscpy => stubCopy u heap 2
  | wcsncpy => stubCopyN u heap 2
  | strcat => stubConcat u heap 1
  | wcscat => stubConcat u heap 2
  | rtlZeroMemory => stubRtlZeroMemory u heap
  | rtlFillMemory => stubRtlFillMemory u heap

def stubTable : List (String × Stub) :=
  [("malloc", .malloc), ("calloc", .calloc), ("realloc", .realloc), ("free", .free),
    ("HeapAlloc", .heapAlloc), ("HeapFree", .free), ("HeapReAlloc", .heapRealloc),
    ("VirtualAlloc", .virtualAlloc), ("VirtualFree", .free), ("LocalAlloc", .localAlloc),
    ("LocalFree", .free), ("GlobalAlloc", .localAlloc), ("GlobalFree", .free),
    ("GetProcessHeap", .getProcessHeap), ("memcpy", .memcpy), ("memmove", .memcpy),
    ("memset", .memset), ("memcmp", .memcmp), ("strlen", .strlen), ("wcslen", .wcslen),
    ("strcpy", .strcpy), ("strncpy", .strncpy), ("wcscpy", .wcscpy), ("wcsncpy", .wcsncpy),
    ("strcat", .strcat), ("wcscat", .wcscat), ("RtlMoveMemory", .memcpy),
    ("RtlZeroMemory", .rtlZeroMemory), ("RtlFillMemory", .rtlFillMemory), ("lstrlenA", .strlen),
    ("lstrlenW", .wcslen), ("lstrcpyA", .strcpy), ("lstrcpyW", .wcscpy), ("lstrcpynA", .strncpy),
    ("lstrcpynW", .wcsncpy)]

def findStub (name : String) : Option Stub := stubTable.lookup name

/-! ### Dispatch -/

/-- The name without its leading underscores. -/
def stripUnderscores (name : String) : String :=
  String.ofList (name.toList.dropWhile (· = '_'))

/-- What follows the last underscore of a name, where there is one that is not last. -/
def moduleSuffix (name : String) : Option String :=
  let suffix := (name.toList.reverse.takeWhile (· ≠ '_')).reverse
  if '_' ∈ name.toList ∧ suffix ≠ [] then some (String.ofList suffix) else none

/-- The three lookups of `try_dispatch`, in their order. -/
def resolveStub (importName : String) : Option Stub :=
  let stripped := stripUnderscores importName
  -- First the name as it is, then without leading underscores, then what follows the last.
  match findStub importName with
  | some stub => some stub
  | none =>
    match if stripped ≠ importName then findStub stripped else none with
    | some stub => some stub
    | none =>
      match moduleSuffix importName with
      | some suffix => if suffix ≠ stripped then findStub suffix else none
      | none => none

/-- `try_dispatch`. The stub it runs is part of the result: `none` stands for the
returned `false`, which leaves engine and heap alone. -/
def tryDispatch [Host] (u : U) (importName : String) (heap : FakeHeap) :
    Option Stub × Except HostFault (U × FakeHeap) :=
  match resolveStub importName with
  | some stub => (some stub, stub.run u heap)
  | none => (none, .ok (u, heap))

end Unxorer.ApiStubs
