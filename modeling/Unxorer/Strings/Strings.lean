import Unxorer.Machine.Bytes

/-!
# Strings

The character classes and string functions of `strings.hpp` and the set of found strings.
A `std::string` is a list of bytes.

## Main definitions

* `Strings.escapeControlChars`, `Strings.trim`, `Strings.hashString`
* `FoundString.emplace` — insertion into the set of found strings
-/

set_option autoImplicit false

namespace Unxorer

namespace Strings

def isAsciiPrintable (c : Byte) : Bool :=
  (0x20 ≤ c && c ≤ 0x7E) || c == 0x09 || c == 0x0A || c == 0x0D

def isUtf16Printable (w : BitVec 16) : Bool :=
  (0x20 ≤ w && w ≤ 0x7E) || w == 0x09 || w == 0x0A || w == 0x0D

def isTrimSpace (c : Byte) : Bool := List.elem c [0x20, 0x09, 0x0A, 0x0D, 0x0B, 0x0C]

/-- `read_u16le`. -/
def readU16le (lo hi : Byte) : BitVec 16 := hi ++ lo

/-- The low bytes of the first `chars` pairs of bytes. -/
def utf16leToAscii : List Byte → ℕ → List Byte
  | lo :: _ :: rest, chars + 1 => lo :: utf16leToAscii rest chars
  | _, _ => []

def trim (s : List Byte) : List Byte :=
  ((s.dropWhile isTrimSpace).reverse.dropWhile isTrimSpace).reverse

/-- What `escape_control_chars` appends for one character. -/
def escapeChar (c : Byte) : List Byte :=
  let backslash : Byte := 0x5C
  if c = 0x0A then [backslash, 0x6E]
  else if c = 0x0D then [backslash, 0x72]
  else if c = 0x09 then [backslash, 0x74]
  else if c = 0x0B then [backslash, 0x76]
  else if c = 0x0C then [backslash, 0x66]
  else if c = 0x07 then [backslash, 0x61]
  else if c = 0x08 then [backslash, 0x62]
  else [c]

def escapeControlChars (input : List Byte) : List Byte := input.flatMap escapeChar

/-- `hash_string`, 64-bit FNV-1a with the offset of the source. -/
def hashString (value : List Byte) : BitVec 64 :=
  value.foldl (fun hash c => (hash ^^^ c.setWidth 64) * 1099511628211) 1469598103934665603

end Strings

/-- `found_string_t`. -/
structure FoundString where
  rip : Addr
  ptr : Addr
  hash : BitVec 64
  data : List Byte
deriving DecidableEq

/-- `emplace` on the set of found strings, where elements with the same hash and the same
data are equal and the first one stays. -/
def FoundString.emplace (set : List FoundString) (s : FoundString) : List FoundString :=
  if set.any fun t => t.hash == s.hash && t.data == s.data then set else set ++ [s]

/-! ### The scan of a buffer -/

namespace Strings

/-- The number of bytes of the run of printable UTF-16LE code units at the front. -/
def utf16Run : List Byte → ℕ
  | lo :: hi :: rest => if isUtf16Printable (readU16le lo hi) then utf16Run rest + 2 else 0
  | _ => 0

/-- The code unit at the front of a list of bytes is printable. -/
def startsUtf16 : List Byte → Bool
  | lo :: hi :: _ => isUtf16Printable (readU16le lo hi)
  | _ => false

/-- `scan_buffer_for_strings` from position `i` on, where `rest` is what is left of the
buffer: the candidates it passes to `push_string`, each with its position. -/
def scanFrom (i : ℕ) (rest : List Byte) : List (ℕ × List Byte) :=
  match rest with
  | [] => []
  | c :: tail =>
    if isAsciiPrintable c then
      -- The run counts only with a NUL behind it, and the byte behind it is passed over.
      let run := (c :: tail).takeWhile isAsciiPrintable
      let found := if run.length ≥ 4 ∧ (c :: tail)[run.length]? = some 0 then [(i, run)] else []
      found ++ scanFrom (i + run.length + 1) (tail.drop run.length)
    else if startsUtf16 (c :: tail) then
      let n := utf16Run (c :: tail)
      let found :=
        if n / 2 ≥ 4 ∧ (c :: tail)[n]? = some 0 ∧ (c :: tail)[n + 1]? = some 0 then
          [(i, utf16leToAscii (c :: tail) (n / 2))]
        else []
      found ++ scanFrom (i + n + 2) (tail.drop (n + 1))
    else scanFrom (i + 1) tail
termination_by rest.length
decreasing_by all_goals simp only [List.length_drop, List.length_cons]; omega

end Strings

end Unxorer
