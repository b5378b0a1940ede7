import Unxorer.Aes.Field

/-!
# Rounds undo each other

Decryption in the order of the equivalent inverse cipher undoes encryption for any
number of rounds. Each inverse step cancels its step, the byte substitution passes
through the row rotation because it acts on every byte alike, and the inverse
column mix is additive, so the transformed round key cancels the key it came from.

## Main results

* `invSubBytes_subBytes`, `invShiftRows_shiftRows`, `invMixColumns_mixColumns`
* `aesdec_cancel` — one decryption round undoes one encryption round
* `decrypt_encrypt` — the law for every list of round keys
-/

namespace Unxorer.AesImpl

/-! ### The state as columns -/

/-- Column `c` of a block, indexed by row. -/
def column (s : Block) (c : Fin 4) : Fin 4 → Byte := fun row => s (cell row c)

theorem row_lt (i : Fin 16) : i.1 % 4 < 4 := Nat.mod_lt _ (by decide)

theorem column_lt (i : Fin 16) : i.1 / 4 < 4 := Nat.div_lt_of_lt_mul i.2

theorem exists_cell (i : Fin 16) : ∃ row c, i = cell row c :=
  ⟨⟨i.1 % 4, row_lt i⟩, ⟨i.1 / 4, column_lt i⟩, Fin.ext (by simp only [cell]; omega)⟩

theorem block_ext {s t : Block} (same : ∀ c, column s c = column t c) : s = t := by
  funext i
  obtain ⟨row, c, rfl⟩ := exists_cell i
  exact congrFun (same c) row

theorem cell_inj {row row' c c' : Fin 4} : cell row c = cell row' c' ↔ row = row' ∧ c = c' := by
  revert row row' c c'
  decide

theorem column_setColumn (s : Block) (c : Fin 4) (b0 b1 b2 b3 : Byte) :
    column (setColumn s c b0 b1 b2 b3) c = ![b0, b1, b2, b3] := by
  funext row
  fin_cases row <;> simp [column, setColumn, cell_inj]

theorem column_setColumn_of_ne {s : Block} {c c' : Fin 4} (other : c' ≠ c) (b0 b1 b2 b3 : Byte) :
    column (setColumn s c b0 b1 b2 b3) c' = column s c' := by
  funext row
  simp [column, setColumn, cell_inj, other]

/-- A pass that rewrites each column in turn maps its function over the columns. -/
theorem column_foldl {step : Block → Fin 4 → Block} {f : (Fin 4 → Byte) → Fin 4 → Byte}
    (own : ∀ s c, column (step s c) c = f (column s c))
    (others : ∀ s c c', c' ≠ c → column (step s c) c' = column s c') (s : Block) (c : Fin 4) :
    column ([0, 1, 2, 3].foldl step s) c = f (column s c) := by
  simp only [List.foldl_cons, List.foldl_nil]
  fin_cases c
  all_goals simp [own, others]

theorem column_mixColumns (s : Block) (c : Fin 4) :
    column (mixColumns s) c = mixWord (column s c) :=
  column_foldl (fun s c => column_setColumn s c _ _ _ _)
    (fun _ _ _ other => column_setColumn_of_ne other _ _ _ _) s c

theorem column_invMixColumns (s : Block) (c : Fin 4) :
    column (invMixColumns s) c = invMixWord (column s c) :=
  column_foldl (fun s c => column_setColumn s c _ _ _ _)
    (fun _ _ _ other => column_setColumn_of_ne other _ _ _ _) s c

/-! ### The column mixes -/

/-- The product of the two column matrices is the identity, one equation for each
distance between a row and a column. -/
theorem mix_constants :
    toField 2 * toField 14 + toField 11 + toField 13 + toField 3 * toField 9 = 1 ∧
    toField 3 * toField 14 + toField 2 * toField 11 + toField 13 + toField 9 = 0 ∧
    toField 14 + toField 3 * toField 11 + toField 2 * toField 13 + toField 9 = 0 ∧
    toField 14 + toField 11 + toField 3 * toField 13 + toField 2 * toField 9 = 0 := by
  -- In the field these are sums of products of constants, so bytes decide them.
  simp only [← toField_gmul, ← toField_xor, ← toField_one, ← toField_zero]
  refine ⟨?_, ?_, ?_, ?_⟩ <;> exact congrArg toField (by decide +kernel)

theorem invMixWord_mixWord (a : Fin 4 → Byte) : invMixWord (mixWord a) = a := by
  obtain ⟨diagonal, first, second, third⟩ := mix_constants
  funext row
  apply toField_injective
  -- Both matrices are circulant: row `row` takes the same four equations, rotated by `row`.
  fin_cases row
  · simp only [invMixWord, mixWord, toField_xor, toField_gmul, Fin.zero_eta, Matrix.cons_val]
    linear_combination toField (a 0) * diagonal + toField (a 1) * first +
      toField (a 2) * second + toField (a 3) * third
  · simp only [invMixWord, mixWord, toField_xor, toField_gmul, Fin.mk_one, Matrix.cons_val]
    linear_combination toField (a 1) * diagonal + toField (a 2) * first +
      toField (a 3) * second + toField (a 0) * third
  · simp only [invMixWord, mixWord, toField_xor, toField_gmul, Fin.reduceFinMk, Matrix.cons_val]
    linear_combination toField (a 2) * diagonal + toField (a 3) * first +
      toField (a 0) * second + toField (a 1) * third
  · simp only [invMixWord, mixWord, toField_xor, toField_gmul, Fin.reduceFinMk, Matrix.cons_val]
    linear_combination toField (a 3) * diagonal + toField (a 0) * first +
      toField (a 1) * second + toField (a 2) * third

theorem invMixWord_xor (a b : Fin 4 → Byte) :
    invMixWord (fun row => a row ^^^ b row) = fun row => invMixWord a row ^^^ invMixWord b row := by
  funext row
  apply toField_injective
  fin_cases row <;>
  · simp only [invMixWord, toField_xor, toField_gmul, Fin.zero_eta, Fin.mk_one, Fin.reduceFinMk,
      Matrix.cons_val]
    ring

@[simp] theorem invMixColumns_mixColumns (s : Block) : invMixColumns (mixColumns s) = s :=
  block_ext fun c => by rw [column_invMixColumns, column_mixColumns, invMixWord_mixWord]

theorem invMixColumns_xorBlock (s t : Block) :
    invMixColumns (xorBlock s t) = xorBlock (invMixColumns s) (invMixColumns t) :=
  block_ext fun c => by
    have split (u v : Block) :
        column (xorBlock u v) c = fun row => column u c row ^^^ column v c row :=
      rfl
    rw [split, column_invMixColumns, column_invMixColumns, column_invMixColumns, split,
      invMixWord_xor]

/-! ### Substitution and rotation -/

theorem invSbox_sbox : ∀ x, invSbox (sbox x) = x := by decide +kernel

/-- A left inverse on a finite type is a right inverse. -/
theorem sbox_invSbox : ∀ x, sbox (invSbox x) = x := by
  have left : Function.LeftInverse invSbox sbox := invSbox_sbox
  exact left.rightInverse_of_surjective (Finite.surjective_of_injective left.injective)

@[simp] theorem invSubBytes_subBytes (s : Block) : invSubBytes (subBytes s) = s :=
  funext fun i => invSbox_sbox (s i)

@[simp] theorem subBytes_invSubBytes (s : Block) : subBytes (invSubBytes s) = s :=
  funext fun i => sbox_invSbox (s i)

/-- Row `row` is rotated left by `row` columns. -/
theorem shiftRows_cell (s : Block) (row c : Fin 4) :
    shiftRows s (cell row c) = s (cell row (c + row)) := by
  fin_cases row <;> fin_cases c <;> rfl

/-- Row `row` is rotated right by `row` columns. -/
theorem invShiftRows_cell (s : Block) (row c : Fin 4) :
    invShiftRows s (cell row c) = s (cell row (c - row)) := by
  fin_cases row <;> fin_cases c <;> rfl

@[simp] theorem invShiftRows_shiftRows (s : Block) : invShiftRows (shiftRows s) = s :=
  block_ext fun c => funext fun row => by
    rw [column, invShiftRows_cell, shiftRows_cell, sub_add_cancel, column]

@[simp] theorem shiftRows_invShiftRows (s : Block) : shiftRows (invShiftRows s) = s :=
  block_ext fun c => funext fun row => by
    rw [column, shiftRows_cell, invShiftRows_cell, add_sub_cancel_right, column]

/-- Substitution acts on every byte alike, so it passes through a rotation. -/
theorem invShiftRows_subBytes (s : Block) :
    invShiftRows (subBytes s) = subBytes (invShiftRows s) :=
  block_ext fun c => funext fun row => by
    rw [column, column, invShiftRows_cell, subBytes, subBytes, invShiftRows_cell]

/-! ### Rounds -/

@[simp] theorem xorBlock_xorBlock (s key : Block) : xorBlock (xorBlock s key) key = s := by
  funext i
  simp [xorBlock]

/-- The substitution layer of decryption undoes that of encryption. -/
theorem substitution_cancel (s : Block) :
    invSubBytes (invShiftRows (subBytes (shiftRows s))) = s := by
  rw [invShiftRows_subBytes, invShiftRows_shiftRows, invSubBytes_subBytes]

/-- One decryption round, applied after the substitution layer of the round above,
reaches the substitution layer of the round below. -/
theorem aesdec_cancel (s key : Block) :
    aesdec (subBytes (shiftRows (aesenc s key))) (aesimc key) = subBytes (shiftRows s) := by
  rw [aesdec, substitution_cancel, aesenc, invMixColumns_xorBlock, invMixColumns_mixColumns, aesimc,
    xorBlock_xorBlock]

/-- All middle rounds: decryption takes the round keys in reverse order, each passed
through `aesimc`. -/
theorem aesdec_foldl_cancel (keys : List Block) (s : Block) :
    keys.reverse.foldl (fun t key => aesdec t (aesimc key))
      (subBytes (shiftRows (keys.foldl aesenc s))) = subBytes (shiftRows s) := by
  -- The last key used to encrypt is the first one used to decrypt.
  induction keys generalizing s with
  | nil => rfl
  | cons key keys ih =>
    rw [List.foldl_cons, List.reverse_cons, List.foldl_append, ih]
    exact aesdec_cancel s key

/-- All rounds: decryption takes the state back to where the last key and the substitution
below it have been undone. -/
theorem aesdec_rounds_cancel (keys : List Block) (kn s : Block) :
    invSubBytes (invShiftRows (keys.reverse.foldl (fun t key => aesdec t (aesimc key))
      (xorBlock (aesenclast (keys.foldl aesenc s) kn) kn))) = s := by
  have opened : xorBlock (aesenclast (keys.foldl aesenc s) kn) kn =
      subBytes (shiftRows (keys.foldl aesenc s)) :=
    xorBlock_xorBlock _ kn
  rw [opened, aesdec_foldl_cancel, substitution_cancel]

/-- Decryption undoes encryption for the first key `k0`, any middle round keys and
the last key `kn`. -/
theorem decrypt_encrypt (p k0 kn : Block) (keys : List Block) :
    let c := aesenclast (keys.foldl aesenc (xorBlock p k0)) kn
    aesdeclast (keys.reverse.foldl (fun t key => aesdec t (aesimc key)) (xorBlock c kn)) k0 = p := by
  intro c
  rw [aesdeclast, aesdec_rounds_cancel, xorBlock_xorBlock]

end Unxorer.AesImpl
