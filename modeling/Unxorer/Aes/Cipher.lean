import Unxorer.Aes.Fips197

/-!
# The ciphers of FIPS-197

Encryption and decryption of a block under a list of round keys, in the order of the steps in the
standard. The instructions of AES-NI take the row rotation before the substitution, and those for
decryption are made for the equivalent inverse cipher, whose middle round keys have gone through
the inverse column mix.

## Main definitions

* `Fips197.cipher`, `Fips197.invCipher` — `Cipher` and `InvCipher`, for any number of rounds

## Main results

* `Fips197.cipher_eq`, `Fips197.invCipher_eq` — the same out of the rounds of AES-NI
* `Fips197.invCipher_cipher`, `Fips197.cipher_invCipher` — decryption and encryption undo each
  other
-/

set_option autoImplicit false

noncomputable section

namespace Unxorer.Fips197

open AesImpl (Block)

/-- `Cipher` with the round keys in their order. -/
def cipher (first : Block) (middle : List Block) (last input : Block) : Block :=
  let state := addRoundKey input first
  let state := middle.foldl
    (fun state key => addRoundKey (mixColumns (shiftRows (subBytes state))) key) state
  addRoundKey (shiftRows (subBytes state)) last

/-- `InvCipher` with the round keys in the order of encryption. -/
def invCipher (first : Block) (middle : List Block) (last input : Block) : Block :=
  let state := addRoundKey input last
  let state := middle.reverse.foldl
    (fun state key => invMixColumns (addRoundKey (invSubBytes (invShiftRows state)) key)) state
  addRoundKey (invSubBytes (invShiftRows state)) first

/-! ### The steps in another order -/

/-- Substitution acts on every byte alike, so it passes through a rotation. -/
theorem shiftRows_subBytes (s : Block) : shiftRows (subBytes s) = subBytes (shiftRows s) := by
  rw [← shiftRows_eq, ← subBytes_eq]
  exact AesImpl.block_ext fun c => funext fun row => by
    rw [AesImpl.column, AesImpl.column, AesImpl.shiftRows_cell, AesImpl.subBytes,
      AesImpl.subBytes, AesImpl.shiftRows_cell]

theorem addRoundKey_eq : addRoundKey = AesImpl.xorBlock := rfl

/-- The inverse mix is additive, so it can be taken of state and key apart. -/
theorem invMixColumns_addRoundKey (s key : Block) :
    invMixColumns (addRoundKey s key) = addRoundKey (invMixColumns s) (invMixColumns key) := by
  rw [← invMixColumns_eq, addRoundKey_eq, AesImpl.invMixColumns_xorBlock]

/-- Encryption consists of the rounds of AES-NI. -/
theorem cipher_eq (first : Block) (middle : List Block) (last input : Block) :
    cipher first middle last input =
      aesenclast (middle.foldl aesenc (addRoundKey input first)) last := by
  have rounds : (fun state key => addRoundKey (mixColumns (shiftRows (subBytes state))) key) =
      aesenc := by
    funext state key
    rw [shiftRows_subBytes, aesenc]
  rw [cipher, rounds, shiftRows_subBytes, aesenclast]

/-- Decryption consists of the rounds of AES-NI with round keys that were mixed. -/
theorem invCipher_eq (first : Block) (middle : List Block) (last input : Block) :
    invCipher first middle last input =
      aesdeclast ((middle.reverse.map aesimc).foldl aesdec (addRoundKey input last)) first := by
  have rounds :
      (fun state key => invMixColumns (addRoundKey (invSubBytes (invShiftRows state)) key)) =
        fun state key => aesdec state (aesimc key) := by
    funext state key
    rw [invMixColumns_addRoundKey, aesdec, aesimc]
  rw [invCipher, rounds, List.foldl_map, aesdeclast]

/-! ### Decryption after encryption -/

/-- Decryption undoes encryption, for any round keys. -/
theorem invCipher_cipher (first : Block) (middle : List Block) (last input : Block) :
    invCipher first middle last (cipher first middle last input) = input := by
  rw [invCipher_eq, cipher_eq, ← aesenc_eq, ← aesenclast_eq, ← aesdec_eq, ← aesdeclast_eq,
    ← aesimc_eq, addRoundKey_eq, List.foldl_map, AesImpl.aesdeclast, AesImpl.aesdec_rounds_cancel,
    AesImpl.xorBlock_xorBlock]

/-- Every block is an encrypted one: blocks are finite in number. -/
theorem cipher_invCipher (first : Block) (middle : List Block) (last output : Block) :
    cipher first middle last (invCipher first middle last output) = output := by
  have left : Function.LeftInverse (invCipher first middle last) (cipher first middle last) :=
    invCipher_cipher first middle last
  exact left.rightInverse_of_surjective (Finite.surjective_of_injective left.injective) output

end Unxorer.Fips197

end
