import Unxorer.Machine.Bytes

/-!
# Software AES rounds

The block cipher steps of `aes_impl.hpp` on a 16-byte block in memory order. The
AES state is column-major, so byte `row + 4 * col` is the entry at that row and
column. Each step is written as the source performs it: table lookups byte by
byte, rotations of a row through one temporary, and a bit-serial field product.
-/

namespace Unxorer.AesImpl

/-- The 16 bytes of an AES state or round key. -/
abbrev Block := Buf 16

def sboxTable : List Byte := [
    0x63, 0x7c, 0x77, 0x7b, 0xf2, 0x6b, 0x6f, 0xc5, 0x30, 0x01, 0x67, 0x2b, 0xfe, 0xd7, 0xab, 0x76,
    0xca, 0x82, 0xc9, 0x7d, 0xfa, 0x59, 0x47, 0xf0, 0xad, 0xd4, 0xa2, 0xaf, 0x9c, 0xa4, 0x72, 0xc0,
    0xb7, 0xfd, 0x93, 0x26, 0x36, 0x3f, 0xf7, 0xcc, 0x34, 0xa5, 0xe5, 0xf1, 0x71, 0xd8, 0x31, 0x15,
    0x04, 0xc7, 0x23, 0xc3, 0x18, 0x96, 0x05, 0x9a, 0x07, 0x12, 0x80, 0xe2, 0xeb, 0x27, 0xb2, 0x75,
    0x09, 0x83, 0x2c, 0x1a, 0x1b, 0x6e, 0x5a, 0xa0, 0x52, 0x3b, 0xd6, 0xb3, 0x29, 0xe3, 0x2f, 0x84,
    0x53, 0xd1, 0x00, 0xed, 0x20, 0xfc, 0xb1, 0x5b, 0x6a, 0xcb, 0xbe, 0x39, 0x4a, 0x4c, 0x58, 0xcf,
    0xd0, 0xef, 0xaa, 0xfb, 0x43, 0x4d, 0x33, 0x85, 0x45, 0xf9, 0x02, 0x7f, 0x50, 0x3c, 0x9f, 0xa8,
    0x51, 0xa3, 0x40, 0x8f, 0x92, 0x9d, 0x38, 0xf5, 0xbc, 0xb6, 0xda, 0x21, 0x10, 0xff, 0xf3, 0xd2,
    0xcd, 0x0c, 0x13, 0xec, 0x5f, 0x97, 0x44, 0x17, 0xc4, 0xa7, 0x7e, 0x3d, 0x64, 0x5d, 0x19, 0x73,
    0x60, 0x81, 0x4f, 0xdc, 0x22, 0x2a, 0x90, 0x88, 0x46, 0xee, 0xb8, 0x14, 0xde, 0x5e, 0x0b, 0xdb,
    0xe0, 0x32, 0x3a, 0x0a, 0x49, 0x06, 0x24, 0x5c, 0xc2, 0xd3, 0xac, 0x62, 0x91, 0x95, 0xe4, 0x79,
    0xe7, 0xc8, 0x37, 0x6d, 0x8d, 0xd5, 0x4e, 0xa9, 0x6c, 0x56, 0xf4, 0xea, 0x65, 0x7a, 0xae, 0x08,
    0xba, 0x78, 0x25, 0x2e, 0x1c, 0xa6, 0xb4, 0xc6, 0xe8, 0xdd, 0x74, 0x1f, 0x4b, 0xbd, 0x8b, 0x8a,
    0x70, 0x3e, 0xb5, 0x66, 0x48, 0x03, 0xf6, 0x0e, 0x61, 0x35, 0x57, 0xb9, 0x86, 0xc1, 0x1d, 0x9e,
    0xe1, 0xf8, 0x98, 0x11, 0x69, 0xd9, 0x8e, 0x94, 0x9b, 0x1e, 0x87, 0xe9, 0xce, 0x55, 0x28, 0xdf,
    0x8c, 0xa1, 0x89, 0x0d, 0xbf, 0xe6, 0x42, 0x68, 0x41, 0x99, 0x2d, 0x0f, 0xb0, 0x54, 0xbb, 0x16]

def invSboxTable : List Byte := [
    0x52, 0x09, 0x6a, 0xd5, 0x30, 0x36, 0xa5, 0x38, 0xbf, 0x40, 0xa3, 0x9e, 0x81, 0xf3, 0xd7, 0xfb,
    0x7c, 0xe3, 0x39, 0x82, 0x9b, 0x2f, 0xff, 0x87, 0x34, 0x8e, 0x43, 0x44, 0xc4, 0xde, 0xe9, 0xcb,
    0x54, 0x7b, 0x94, 0x32, 0xa6, 0xc2, 0x23, 0x3d, 0xee, 0x4c, 0x95, 0x0b, 0x42, 0xfa, 0xc3, 0x4e,
    0x08, 0x2e, 0xa1, 0x66, 0x28, 0xd9, 0x24, 0xb2, 0x76, 0x5b, 0xa2, 0x49, 0x6d, 0x8b, 0xd1, 0x25,
    0x72, 0xf8, 0xf6, 0x64, 0x86, 0x68, 0x98, 0x16, 0xd4, 0xa4, 0x5c, 0xcc, 0x5d, 0x65, 0xb6, 0x92,
    0x6c, 0x70, 0x48, 0x50, 0xfd, 0xed, 0xb9, 0xda, 0x5e, 0x15, 0x46, 0x57, 0xa7, 0x8d, 0x9d, 0x84,
    0x90, 0xd8, 0xab, 0x00, 0x8c, 0xbc, 0xd3, 0x0a, 0xf7, 0xe4, 0x58, 0x05, 0xb8, 0xb3, 0x45, 0x06,
    0xd0, 0x2c, 0x1e, 0x8f, 0xca, 0x3f, 0x0f, 0x02, 0xc1, 0xaf, 0xbd, 0x03, 0x01, 0x13, 0x8a, 0x6b,
    0x3a, 0x91, 0x11, 0x41, 0x4f, 0x67, 0xdc, 0xea, 0x97, 0xf2, 0xcf, 0xce, 0xf0, 0xb4, 0xe6, 0x73,
    0x96, 0xac, 0x74, 0x22, 0xe7, 0xad, 0x35, 0x85, 0xe2, 0xf9, 0x37, 0xe8, 0x1c, 0x75, 0xdf, 0x6e,
    0x47, 0xf1, 0x1a, 0x71, 0x1d, 0x29, 0xc5, 0x89, 0x6f, 0xb7, 0x62, 0x0e, 0xaa, 0x18, 0xbe, 0x1b,
    0xfc, 0x56, 0x3e, 0x4b, 0xc6, 0xd2, 0x79, 0x20, 0x9a, 0xdb, 0xc0, 0xfe, 0x78, 0xcd, 0x5a, 0xf4,
    0x1f, 0xdd, 0xa8, 0x33, 0x88, 0x07, 0xc7, 0x31, 0xb1, 0x12, 0x10, 0x59, 0x27, 0x80, 0xec, 0x5f,
    0x60, 0x51, 0x7f, 0xa9, 0x19, 0xb5, 0x4a, 0x0d, 0x2d, 0xe5, 0x7a, 0x9f, 0x93, 0xc9, 0x9c, 0xef,
    0xa0, 0xe0, 0x3b, 0x4d, 0xae, 0x2a, 0xf5, 0xb0, 0xc8, 0xeb, 0xbb, 0x3c, 0x83, 0x53, 0x99, 0x61,
    0x17, 0x2b, 0x04, 0x7e, 0xba, 0x77, 0xd6, 0x26, 0xe1, 0x69, 0x14, 0x63, 0x55, 0x21, 0x0c, 0x7d]

/-- `sbox[x]`. -/
def sbox (x : Byte) : Byte := sboxTable.getD x.toNat 0

/-- `inv_sbox[x]`. -/
def invSbox (x : Byte) : Byte := invSboxTable.getD x.toNat 0

/-- One iteration of the loop of `gmul` on `p`, `a` and `b`. -/
def gmulStep (s : Byte × Byte × Byte) : Byte × Byte × Byte :=
  let (p, a, b) := s
  let p := if b &&& 1 ≠ 0 then p ^^^ a else p
  let hi := a &&& 0x80 ≠ 0
  let a := a <<< 1
  let a := if hi then a ^^^ 0x1b else a
  (p, a, b >>> 1)

def gmul (a b : Byte) : Byte := (gmulStep^[8] (0, a, b)).1

def subBytes (state : Block) : Block := fun i => sbox (state i)

def invSubBytes (state : Block) : Block := fun i => invSbox (state i)

def shiftRows (s : Block) : Block :=
  let set := Function.update (α := Fin 16) (β := fun _ => Byte)
  -- row 1: shift left 1
  let t := s 1
  let s := set s 1 (s 5)
  let s := set s 5 (s 9)
  let s := set s 9 (s 13)
  let s := set s 13 t
  -- row 2: shift left 2
  let t := s 2
  let s := set s 2 (s 10)
  let s := set s 10 t
  let t := s 6
  let s := set s 6 (s 14)
  let s := set s 14 t
  -- row 3: shift left 3
  let t := s 15
  let s := set s 15 (s 11)
  let s := set s 11 (s 7)
  let s := set s 7 (s 3)
  set s 3 t

def invShiftRows (s : Block) : Block :=
  let set := Function.update (α := Fin 16) (β := fun _ => Byte)
  -- row 1: shift right 1
  let t := s 13
  let s := set s 13 (s 9)
  let s := set s 9 (s 5)
  let s := set s 5 (s 1)
  let s := set s 1 t
  -- row 2: shift right 2
  let t := s 2
  let s := set s 2 (s 10)
  let s := set s 10 t
  let t := s 6
  let s := set s 6 (s 14)
  let s := set s 14 t
  -- row 3: shift right 3
  let t := s 3
  let s := set s 3 (s 7)
  let s := set s 7 (s 11)
  let s := set s 11 (s 15)
  set s 15 t

/-- The byte of column `c` at row `row`. -/
def cell (row c : Fin 4) : Fin 16 := ⟨4 * c.1 + row.1, by omega⟩

/-- The four assignments with which both column mixes store a new column. -/
def setColumn (s : Block) (c : Fin 4) (b0 b1 b2 b3 : Byte) : Block :=
  Function.update (Function.update (Function.update (Function.update s
    (cell 0 c) b0) (cell 1 c) b1) (cell 2 c) b2) (cell 3 c) b3

/-- The body of the loop of `mix_columns`. -/
def mixColumn (s : Block) (c : Fin 4) : Block :=
  let a0 := s (cell 0 c)
  let a1 := s (cell 1 c)
  let a2 := s (cell 2 c)
  let a3 := s (cell 3 c)
  setColumn s c
    (gmul a0 2 ^^^ gmul a1 3 ^^^ a2 ^^^ a3)
    (a0 ^^^ gmul a1 2 ^^^ gmul a2 3 ^^^ a3)
    (a0 ^^^ a1 ^^^ gmul a2 2 ^^^ gmul a3 3)
    (gmul a0 3 ^^^ a1 ^^^ a2 ^^^ gmul a3 2)

/-- The body of the loop of `inv_mix_columns`. -/
def invMixColumn (s : Block) (c : Fin 4) : Block :=
  let a0 := s (cell 0 c)
  let a1 := s (cell 1 c)
  let a2 := s (cell 2 c)
  let a3 := s (cell 3 c)
  setColumn s c
    (gmul a0 14 ^^^ gmul a1 11 ^^^ gmul a2 13 ^^^ gmul a3 9)
    (gmul a0 9 ^^^ gmul a1 14 ^^^ gmul a2 11 ^^^ gmul a3 13)
    (gmul a0 13 ^^^ gmul a1 9 ^^^ gmul a2 14 ^^^ gmul a3 11)
    (gmul a0 11 ^^^ gmul a1 13 ^^^ gmul a2 9 ^^^ gmul a3 14)

def mixColumns (s : Block) : Block := [0, 1, 2, 3].foldl mixColumn s

def invMixColumns (s : Block) : Block := [0, 1, 2, 3].foldl invMixColumn s

def xorBlock (dst key : Block) : Block := fun i => dst i ^^^ key i

def subWord (x : BitVec 32) : BitVec 32 :=
  (sbox (x &&& 0xff |>.setWidth 8)).setWidth 32 |||
    ((sbox ((x >>> 8) &&& 0xff |>.setWidth 8)).setWidth 32 <<< 8) |||
    ((sbox ((x >>> 16) &&& 0xff |>.setWidth 8)).setWidth 32 <<< 16) |||
    ((sbox ((x >>> 24) &&& 0xff |>.setWidth 8)).setWidth 32 <<< 24)

def rotWord (x : BitVec 32) : BitVec 32 := (x <<< 8) ||| (x >>> 24)

def aesenc (state roundKey : Block) : Block :=
  xorBlock (mixColumns (subBytes (shiftRows state))) roundKey

def aesenclast (state roundKey : Block) : Block :=
  xorBlock (subBytes (shiftRows state)) roundKey

def aesdec (state roundKey : Block) : Block :=
  xorBlock (invMixColumns (invSubBytes (invShiftRows state))) roundKey

def aesdeclast (state roundKey : Block) : Block :=
  xorBlock (invSubBytes (invShiftRows state)) roundKey

def aesimc (src : Block) : Block := invMixColumns src

/-- `std::memcpy(&x, src + 4 * i, 4)` on a little-endian host. -/
def loadWord (src : Block) (i : Fin 4) : BitVec 32 :=
  src (cell 3 i) ++ src (cell 2 i) ++ src (cell 1 i) ++ src (cell 0 i)

/-- Byte `i` of a word in memory order. -/
def wordByte (x : BitVec 32) (i : Fin 4) : Byte := x.extractLsb' (8 * i) 8

def aeskeygenassist (src : Block) (rcon : Byte) : Block :=
  let x1 := loadWord src 1
  let x3 := loadWord src 3
  let sw1 := subWord x1
  let sw3 := subWord x3
  let rw1 := rotWord sw1 ^^^ rcon.setWidth 32
  let rw3 := rotWord sw3 ^^^ rcon.setWidth 32
  let words : Fin 4 → BitVec 32 := ![sw1, rw1, sw3, rw3]
  fun i => wordByte (words ⟨i.1 / 4, by omega⟩) ⟨i.1 % 4, by omega⟩

/-! ### The mix of one column -/

/-- `mix_columns` on one column. -/
def mixWord (a : Fin 4 → Byte) : Fin 4 → Byte :=
  ![gmul (a 0) 2 ^^^ gmul (a 1) 3 ^^^ a 2 ^^^ a 3,
    a 0 ^^^ gmul (a 1) 2 ^^^ gmul (a 2) 3 ^^^ a 3,
    a 0 ^^^ a 1 ^^^ gmul (a 2) 2 ^^^ gmul (a 3) 3,
    gmul (a 0) 3 ^^^ a 1 ^^^ a 2 ^^^ gmul (a 3) 2]

/-- `inv_mix_columns` on one column. -/
def invMixWord (a : Fin 4 → Byte) : Fin 4 → Byte :=
  ![gmul (a 0) 14 ^^^ gmul (a 1) 11 ^^^ gmul (a 2) 13 ^^^ gmul (a 3) 9,
    gmul (a 0) 9 ^^^ gmul (a 1) 14 ^^^ gmul (a 2) 11 ^^^ gmul (a 3) 13,
    gmul (a 0) 13 ^^^ gmul (a 1) 9 ^^^ gmul (a 2) 14 ^^^ gmul (a 3) 11,
    gmul (a 0) 11 ^^^ gmul (a 1) 13 ^^^ gmul (a 2) 9 ^^^ gmul (a 3) 14]

end Unxorer.AesImpl
