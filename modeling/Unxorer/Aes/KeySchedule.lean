import Unxorer.Aes.Fips197

/-!
# The key schedule

`aeskeygenassist` prepares two words of a round key. The instruction substitutes the bytes
of a word and rotates it towards its first byte; `rot_word` rotates a little-endian word to
the left, which in memory order is the other direction. The two agree on words whose halves
are equal, and a key schedule that is built on the function is right as long as it meets no
other word.

## Main definitions

* `Fips197.subWord`, `Fips197.rotWord`, `Fips197.rcon` — the word functions of FIPS-197
* `KeySchedule.words` — a key schedule built on a function of four words
* `KeySchedule.AssistLaw` — what the instruction returns

## Main results

* `KeySchedule.column_aeskeygenassist` — what the function returns
* `KeySchedule.assist_iff` — when that is the same, for one call and for a whole schedule
-/

set_option autoImplicit false

noncomputable section

namespace Unxorer

open AesImpl hiding subWord rotWord

/-! ### The standard -/

namespace Fips197

/-- The four bytes of a word, in memory order. -/
abbrev Word := Fin 4 → Byte

def subWord (x : Word) : Word := fun i => subByte (x i)

/-- `[b0, b1, b2, b3]` becomes `[b1, b2, b3, b0]`. -/
def rotWord (x : Word) : Word := x ∘ finRotate 4

def addWord (x y : Word) : Word := fun i => x i ^^^ y i

/-- The word with a byte in front and zeros behind it. -/
def frontWord (b : Byte) : Word := ![b, 0, 0, 0]

/-- The first byte of `Rcon[j]`. -/
def rcon (j : ℕ) : Byte := byteEquiv.symm (toField 2 ^ (j - 1))

theorem addWord_left_inj (x : Word) {y z : Word} : addWord x y = addWord x z ↔ y = z := by
  constructor
  · intro same
    funext i
    exact BitVec.xor_right_inj (x i) |>.mp (congrFun same i)
  · rintro rfl
    rfl

theorem addWord_right_inj {x y : Word} (z : Word) : addWord x z = addWord y z ↔ x = y := by
  constructor
  · intro same
    funext i
    exact BitVec.xor_left_inj (z i) |>.mp (congrFun same i)
  · rintro rfl
    rfl

theorem subByte_injective : Function.Injective subByte := by
  intro x y same
  rw [← sbox_eq_subByte, ← sbox_eq_subByte] at same
  rw [← invSbox_sbox x, same, invSbox_sbox]

theorem subWord_injective : Function.Injective subWord := by
  intro x y same
  funext i
  exact subByte_injective (congrFun same i)

end Fips197

/-! ### Words as numbers -/

namespace AesImpl

theorem getLsbD_wordByte (x : BitVec 32) (i : Fin 4) {k : ℕ} (inside : k < 8) :
    (wordByte x i).getLsbD k = x.getLsbD (8 * i + k) := by
  rw [wordByte, BitVec.getLsbD_extractLsb', decide_eq_true inside, Bool.true_and]

theorem wordByte_loadWord (src : Block) (c i : Fin 4) :
    wordByte (loadWord src c) i = column src c i := by
  apply BitVec.eq_of_getLsbD_eq
  intro k inside
  rw [getLsbD_wordByte _ _ inside, loadWord, column]
  simp only [BitVec.getLsbD_append]
  fin_cases i <;> grind

theorem wordByte_xor (x y : BitVec 32) (i : Fin 4) :
    wordByte (x ^^^ y) i = wordByte x i ^^^ wordByte y i := by
  rw [wordByte, wordByte, wordByte, BitVec.extractLsb'_xor]

/-- A byte that is made a word is the first byte of the word. -/
theorem wordByte_setWidth (b : Byte) (i : Fin 4) :
    wordByte (b.setWidth 32) i = Fips197.frontWord b i := by
  apply BitVec.eq_of_getLsbD_eq
  intro k inside
  rw [getLsbD_wordByte _ _ inside, BitVec.getLsbD_setWidth]
  fin_cases i <;> simp [Fips197.frontWord, inside] <;> grind

/-- Shifting and masking a word picks one of its bytes. -/
theorem setWidth_ushiftRight (x : BitVec 32) (i : Fin 4) :
    ((x >>> (8 * i.1)) &&& 0xff).setWidth 8 = wordByte x i := by
  apply BitVec.eq_of_getLsbD_eq
  intro k inside
  have mask : (0xff : BitVec 32) = BitVec.ofNat 32 (2 ^ 8 - 1) := rfl
  have within : k < 32 := by omega
  rw [getLsbD_wordByte _ _ inside, mask, BitVec.getLsbD_setWidth, BitVec.getLsbD_and,
    BitVec.getLsbD_ushiftRight, BitVec.getLsbD_ofNat, Nat.testBit_two_pow_sub_one]
  simp [inside, within]

/-- `sub_word` substitutes each byte. -/
theorem wordByte_subWord (x : BitVec 32) (i : Fin 4) :
    wordByte (subWord x) i = sbox (wordByte x i) := by
  have bytes := setWidth_ushiftRight x
  have substituted : subWord x = (sbox (wordByte x 0)).setWidth 32 |||
      ((sbox (wordByte x 1)).setWidth 32 <<< 8) ||| ((sbox (wordByte x 2)).setWidth 32 <<< 16) |||
      ((sbox (wordByte x 3)).setWidth 32 <<< 24) := by
    rw [← bytes 0, ← bytes 1, ← bytes 2, ← bytes 3]
    rfl
  apply BitVec.eq_of_getLsbD_eq
  intro k inside
  rw [getLsbD_wordByte _ _ inside, substituted]
  simp only [BitVec.getLsbD_or, BitVec.getLsbD_shiftLeft, BitVec.getLsbD_setWidth]
  fin_cases i <;> grind

/-- `rot_word` moves every byte to the next position in memory, and the last one to the front. -/
theorem wordByte_rotWord (x : BitVec 32) (i : Fin 4) :
    wordByte (rotWord x) i = wordByte x (i + 3) := by
  apply BitVec.eq_of_getLsbD_eq
  intro k inside
  rw [getLsbD_wordByte _ _ inside, getLsbD_wordByte _ _ inside, rotWord]
  simp only [BitVec.getLsbD_or, BitVec.getLsbD_shiftLeft, BitVec.getLsbD_ushiftRight]
  fin_cases i <;> grind

end AesImpl

/-! ### One call -/

namespace KeySchedule

open Fips197

/-- What the instruction returns for a source and a round constant. -/
structure AssistLaw (src : Block) (rcon : Byte) : Prop where
  first : column (aeskeygenassist src rcon) 0 = subWord (column src 1)
  second : column (aeskeygenassist src rcon) 1 =
    addWord (rotWord (subWord (column src 1))) (frontWord rcon)
  third : column (aeskeygenassist src rcon) 2 = subWord (column src 3)
  fourth : column (aeskeygenassist src rcon) 3 =
    addWord (rotWord (subWord (column src 3))) (frontWord rcon)

/-- `[b0, b1, b2, b3]` becomes `[b3, b0, b1, b2]`. -/
def rotBack (x : Word) : Word := x ∘ (finRotate 4).symm

theorem rotBack_apply (x : Word) (i : Fin 4) : rotBack x i = x (i + 3) := by
  have back : (finRotate 4).symm i = i + 3 := by
    revert i
    decide
  rw [rotBack, Function.comp_apply, back]

/-- The two halves of a word are equal. -/
structure HalvesAgree (x : Word) : Prop where
  even : x 0 = x 2
  odd : x 1 = x 3

/-- The directions of rotation agree on such words and no others. -/
theorem rotBack_eq_rotWord_iff (x : Word) : rotBack x = rotWord x ↔ HalvesAgree x := by
  constructor
  · intro same
    exact ⟨congrFun same 1, (congrFun same 0).symm⟩
  · rintro ⟨even, odd⟩
    funext i
    fin_cases i
    · exact odd.symm
    · exact even
    · exact odd
    · exact even.symm

theorem halvesAgree_subWord (x : Word) : HalvesAgree (subWord x) ↔ HalvesAgree x := by
  constructor
  · rintro ⟨even, odd⟩
    exact ⟨subByte_injective even, subByte_injective odd⟩
  · rintro ⟨even, odd⟩
    exact ⟨congrArg subByte even, congrArg subByte odd⟩

/-- The bytes of a substituted source word. -/
theorem wordByte_subWord_loadWord (src : Block) (c : Fin 4) :
    wordByte (AesImpl.subWord (loadWord src c)) = subWord (column src c) := by
  funext i
  rw [wordByte_subWord, wordByte_loadWord, sbox_eq_subByte, subWord]

/-- The bytes of a rotated source word with the round constant added. -/
theorem wordByte_rotWord_subWord (src : Block) (rcon : Byte) (c : Fin 4) :
    wordByte (AesImpl.rotWord (AesImpl.subWord (loadWord src c)) ^^^ rcon.setWidth 32) =
      addWord (rotBack (subWord (column src c))) (frontWord rcon) := by
  funext i
  rw [wordByte_xor, wordByte_rotWord, wordByte_setWidth, wordByte_subWord_loadWord, addWord,
    rotBack_apply]

/-- What `aeskeygenassist` returns. -/
theorem column_aeskeygenassist (src : Block) (rcon : Byte) :
    column (aeskeygenassist src rcon) 0 = subWord (column src 1) ∧
    column (aeskeygenassist src rcon) 1 =
      addWord (rotBack (subWord (column src 1))) (frontWord rcon) ∧
    column (aeskeygenassist src rcon) 2 = subWord (column src 3) ∧
    column (aeskeygenassist src rcon) 3 =
      addWord (rotBack (subWord (column src 3))) (frontWord rcon) := by
  -- Byte `4 * c + row` of the result is byte `row` of word `c`.
  have stored : ∀ c, column (aeskeygenassist src rcon) c = wordByte
      ((![AesImpl.subWord (loadWord src 1),
        AesImpl.rotWord (AesImpl.subWord (loadWord src 1)) ^^^ rcon.setWidth 32,
        AesImpl.subWord (loadWord src 3),
        AesImpl.rotWord (AesImpl.subWord (loadWord src 3)) ^^^ rcon.setWidth 32] :
        Fin 4 → BitVec 32) c) := by
    intro c
    funext row
    fin_cases c <;> fin_cases row <;> rfl
  refine ⟨?_, ?_, ?_, ?_⟩
  · rw [stored, ← wordByte_subWord_loadWord]
    rfl
  · rw [stored, ← wordByte_rotWord_subWord]
    rfl
  · rw [stored, ← wordByte_subWord_loadWord]
    rfl
  · rw [stored, ← wordByte_rotWord_subWord]
    rfl

theorem assistLaw_iff (src : Block) (rcon : Byte) :
    AssistLaw src rcon ↔ HalvesAgree (column src 1) ∧ HalvesAgree (column src 3) := by
  obtain ⟨first, second, third, fourth⟩ := column_aeskeygenassist src rcon
  have rotated (x : Word) : addWord (rotBack (subWord x)) (frontWord rcon) =
      addWord (rotWord (subWord x)) (frontWord rcon) ↔ HalvesAgree x := by
    rw [addWord_right_inj, rotBack_eq_rotWord_iff, halvesAgree_subWord]
  constructor
  · intro law
    exact ⟨(rotated _).mp (second.symm.trans law.second),
      (rotated _).mp (fourth.symm.trans law.fourth)⟩
  · rintro ⟨agree₁, agree₃⟩
    exact ⟨first, second.trans ((rotated _).mpr agree₁), third,
      fourth.trans ((rotated _).mpr agree₃)⟩

/-! ### Whole schedules -/

/-- Word `i` of the key schedule of a key of four words: the word four places before it and,
added to that, the word before it; at each multiple of four `core` makes the second summand
from the four words before it and the number of the round. -/
def words (core : (Fin 4 → Word) → ℕ → Word) (key : Block) (i : ℕ) : Word :=
  if h : i < 4 then column key ⟨i, h⟩
  else
    addWord (words core key (i - 4))
      (if i % 4 = 0 then core (fun j => words core key (i - 4 + j.1)) (i / 4)
      else words core key (i - 1))
termination_by i
decreasing_by all_goals omega

/-- The second summand of FIPS-197. -/
def standard (previous : Fin 4 → Word) (round : ℕ) : Word :=
  addWord (subWord (rotWord (previous (Fin.last 3)))) (frontWord (rcon round))

/-- The last word of `aeskeygenassist` on the four words. -/
def assisted (previous : Fin 4 → Word) (round : ℕ) : Word :=
  column (aeskeygenassist (ofEntries fun row c => previous c row) (rcon round)) (Fin.last 3)

theorem assisted_eq (previous : Fin 4 → Word) (round : ℕ) :
    assisted previous round =
      addWord (subWord (rotBack (previous (Fin.last 3)))) (frontWord (rcon round)) := by
  obtain ⟨-, -, -, returned⟩ :=
    column_aeskeygenassist (ofEntries fun row c => previous c row) (rcon round)
  have last : column (ofEntries fun row c => previous c row) 3 = previous (Fin.last 3) :=
    funext fun row => ofEntries_cell _ row 3
  rw [last] at returned
  exact returned

theorem assisted_eq_standard_iff (previous : Fin 4 → Word) (round : ℕ) :
    assisted previous round = standard previous round ↔ HalvesAgree (previous (Fin.last 3)) := by
  rw [assisted_eq, standard, addWord_right_inj, subWord_injective.eq_iff, rotBack_eq_rotWord_iff]

section Words

variable {core core' : (Fin 4 → Word) → ℕ → Word} {key : Block}

theorem words_of_lt {i : ℕ} (inside : i < 4) : words core key i = column key ⟨i, inside⟩ := by
  rw [words, dif_pos inside]

theorem words_round {r : ℕ} (positive : 1 ≤ r) :
    words core key (4 * r) = addWord (words core key (4 * r - 4))
      (core (fun j => words core key (4 * r - 4 + j.1)) r) := by
  have outside : ¬ 4 * r < 4 := by omega
  have quotient : 4 * r / 4 = r := by omega
  rw [words, dif_neg outside, if_pos (Nat.mul_mod_right 4 r), quotient]

theorem words_of_mod {i : ℕ} (outside : 4 ≤ i) (within : i % 4 ≠ 0) :
    words core key i = addWord (words core key (i - 4)) (words core key (i - 1)) := by
  rw [words, dif_neg (Nat.not_lt.mpr outside), if_neg within]

/-- Two schedules that agree before a round agree on its first word exactly when their cores
agree there. -/
theorem words_round_eq_iff {r : ℕ} (positive : 1 ≤ r)
    (same : ∀ i < 4 * r, words core key i = words core' key i) :
    words core key (4 * r) = words core' key (4 * r) ↔
      core (fun j => words core' key (4 * r - 4 + j.1)) r =
        core' (fun j => words core' key (4 * r - 4 + j.1)) r := by
  have previous : (fun j : Fin 4 => words core key (4 * r - 4 + j.1)) =
      fun j => words core' key (4 * r - 4 + j.1) :=
    funext fun j => same _ (by omega)
  rw [words_round positive, words_round positive, same (4 * r - 4) (by omega), previous,
    addWord_left_inj]

/-- Two schedules agree up to a round exactly when their cores agree on the words of one of
them in every round until then. -/
theorem words_eq_iff (n : ℕ) :
    (∀ i < 4 * (n + 1), words core key i = words core' key i) ↔
      ∀ r, 1 ≤ r → r ≤ n → core (fun j => words core' key (4 * r - 4 + j.1)) r =
        core' (fun j => words core' key (4 * r - 4 + j.1)) r := by
  constructor
  · intro same r positive within
    have before : ∀ i < 4 * r, words core key i = words core' key i :=
      fun i below => same i (by omega)
    exact (words_round_eq_iff positive before).mp (same (4 * r) (by omega))
  · intro cores i
    induction i using Nat.strong_induction_on with
    | h i ih =>
      intro below
      rcases Nat.lt_or_ge i 4 with inside | outside
      · rw [words_of_lt inside, words_of_lt inside]
      by_cases within : i % 4 = 0
      · obtain ⟨r, rfl⟩ := Nat.dvd_of_mod_eq_zero within
        have before : ∀ k < 4 * r, words core key k = words core' key k :=
          fun k earlier => ih k earlier (by omega)
        exact (words_round_eq_iff (by omega) before).mpr (cores r (by omega) (by omega))
      · rw [words_of_mod outside within, words_of_mod outside within,
          ih (i - 4) (by omega) (by omega), ih (i - 1) (by omega) (by omega)]

end Words

/-- `aeskeygenassist` returns what the instruction does for the sources whose second and
fourth words have equal halves, and the schedule built on it is that of FIPS-197 up to a
round exactly when the last word of each earlier round has. -/
theorem assist_iff (src : Block) (rcon : Byte) (key : Block) (n : ℕ) :
    (AssistLaw src rcon ↔ HalvesAgree (column src 1) ∧ HalvesAgree (column src 3)) ∧
    ((∀ i < 4 * (n + 1), words assisted key i = words standard key i) ↔
      ∀ r, 1 ≤ r → r ≤ n → HalvesAgree (words standard key (4 * r - 1))) := by
  refine ⟨assistLaw_iff src rcon, ?_⟩
  rw [words_eq_iff]
  refine forall_congr' fun r => forall_congr' fun positive => forall_congr' fun _ => ?_
  have last : 4 * r - 4 + (Fin.last 3).1 = 4 * r - 1 := by
    rw [Fin.val_last]
    omega
  rw [assisted_eq_standard_iff, last]

/-- A key whose last word has different halves. -/
def exampleKey : Block :=
  ![0x2b, 0x7e, 0x15, 0x16, 0x28, 0xae, 0xd2, 0xa6, 0xab, 0xf7, 0x15, 0x88, 0x09, 0xcf, 0x4f, 0x3c]

/-- The function returns wrong words for this key, and its schedule is wrong from the first
word on that is not a word of the key. -/
theorem rotation_breaks_schedule :
    ¬ AssistLaw exampleKey (rcon 1) ∧
      words assisted exampleKey 4 ≠ words standard exampleKey 4 := by
  have differ : ¬ HalvesAgree (column exampleKey 3) := by
    rintro ⟨even, -⟩
    revert even
    decide
  refine ⟨fun law => differ ((assistLaw_iff _ _).mp law).2, fun same => differ ?_⟩
  have before : ∀ i < 4 * 1, words assisted exampleKey i = words standard exampleKey i :=
    fun i inside => by rw [words_of_lt inside, words_of_lt inside]
  have cores := (words_round_eq_iff (le_refl 1) before).mp same
  rw [assisted_eq_standard_iff, words_of_lt (by decide)] at cores
  exact cores

end KeySchedule

end Unxorer

end
