import Mathlib

/-!
# Escaping control characters

An escaping writes a control character as a mark followed by a letter and leaves every other
character as it is. As the mark itself is left as it is, two strings can be written alike: a
control character in one of them stands where the other has the mark and the letter. The strings
that are written alike are exactly those that differ in this way, at any number of places.

## Main definitions

* `Escapes.Scheme` — a mark and the letters of the control characters
* `Escapes.Scheme.Alike` — strings that differ in how control characters are spelled

## Main results

* `Escapes.Scheme.encode_eq_iff` — the strings that are written alike
-/

set_option autoImplicit false

namespace Escapes

variable {α : Type*}

/-- Control characters with their letters. Neither the mark nor a letter is a control character,
and the mark is no letter. -/
structure Scheme (α : Type*) where
  mark : α
  letter : α → Option α
  injective : ∀ c d l, letter c = some l → letter d = some l → c = d
  plain_mark : letter mark = none
  plain_letter : ∀ c l, letter c = some l → letter l = none
  letter_ne_mark : ∀ c l, letter c = some l → l ≠ mark

namespace Scheme

variable {S : Scheme α} {s t : List α} {c l : α}

def escape (S : Scheme α) (c : α) : List α :=
  match S.letter c with
  | some l => [S.mark, l]
  | none => [c]

def encode (S : Scheme α) (s : List α) : List α := s.flatMap S.escape

/-- In some places one string has a control character where the other has the mark and the letter
of that character; otherwise they are the same. -/
inductive Alike (S : Scheme α) : List α → List α → Prop
  | nil : Alike S [] []
  | same (c : α) {s t : List α} (rest : Alike S s t) : Alike S (c :: s) (c :: t)
  | spelled {c l : α} (letter : S.letter c = some l) {s t : List α} (rest : Alike S s t) :
      Alike S (c :: s) (S.mark :: l :: t)
  | unspelled {c l : α} (letter : S.letter c = some l) {s t : List α} (rest : Alike S s t) :
      Alike S (S.mark :: l :: s) (c :: t)

theorem encode_cons_control (letter : S.letter c = some l) (s : List α) :
    S.encode (c :: s) = S.mark :: l :: S.encode s := by
  simp only [encode, List.flatMap_cons, escape, letter, List.cons_append, List.nil_append]

theorem encode_cons_plain (plain : S.letter c = none) (s : List α) :
    S.encode (c :: s) = c :: S.encode s := by
  simp only [encode, List.flatMap_cons, escape, plain, List.cons_append, List.nil_append]

theorem encode_eq_nil (empty : S.encode s = []) : s = [] := by
  cases s with
  | nil => rfl
  | cons c s =>
    cases letter : S.letter c with
    | none => exact absurd (encode_cons_plain letter s ▸ empty) (List.cons_ne_nil _ _)
    | some l => exact absurd (encode_cons_control letter s ▸ empty) (List.cons_ne_nil _ _)

/-- The mark and the letter spelled out are written as the control character is. -/
theorem encode_spelled (letter : S.letter c = some l) (s : List α) :
    S.encode (S.mark :: l :: s) = S.mark :: l :: S.encode s := by
  rw [encode_cons_plain S.plain_mark, encode_cons_plain (S.plain_letter c l letter)]

/-- What is written as a control character is begins with that character, or with its mark and
letter. -/
theorem front_of_encode_eq (letter : S.letter c = some l) {r : List α}
    (written : S.encode t = S.mark :: l :: r) :
    (∃ t', t = c :: t' ∧ S.encode t' = r) ∨ ∃ t', t = S.mark :: l :: t' ∧ S.encode t' = r := by
  cases t with
  | nil => cases written
  | cons d t =>
    cases kind : S.letter d with
    | some l' =>
      rw [encode_cons_control kind, List.cons_inj_right, List.cons.injEq] at written
      obtain ⟨rfl, rest⟩ := written
      exact .inl ⟨t, by rw [S.injective d c l' kind letter], rest⟩
    | none =>
      rw [encode_cons_plain kind, List.cons.injEq] at written
      obtain ⟨rfl, rest⟩ := written
      -- The letter behind the mark is not the mark of another control character.
      cases t with
      | nil => cases rest
      | cons e t =>
        cases kind' : S.letter e with
        | some l' =>
          rw [encode_cons_control kind', List.cons.injEq] at rest
          exact absurd rest.1.symm (S.letter_ne_mark c l letter)
        | none =>
          rw [encode_cons_plain kind', List.cons.injEq] at rest
          obtain ⟨rfl, rest⟩ := rest
          exact .inr ⟨t, rfl, rest⟩

theorem Alike.encode_eq (alike : S.Alike s t) : S.encode s = S.encode t := by
  induction alike with
  | nil => rfl
  | @same c s t _ ih => exact congrArg (S.escape c ++ ·) ih
  | spelled letter _ ih => rw [encode_cons_control letter, encode_spelled letter, ih]
  | unspelled letter _ ih => rw [encode_cons_control letter, encode_spelled letter, ih]

/-- Two strings are written alike exactly if they differ in the spelling of control characters. -/
theorem encode_eq_iff : S.encode s = S.encode t ↔ S.Alike s t := by
  refine ⟨fun same => ?_, Alike.encode_eq⟩
  -- The front of one string is compared with what is written, and both get shorter.
  induction size : s.length using Nat.strong_induction_on generalizing s t with
  | _ n ih =>
    subst size
    cases s with
    | nil =>
      rw [encode_eq_nil same.symm]
      exact .nil
    | cons c s =>
      cases kind : S.letter c with
      | some l =>
        rw [encode_cons_control kind] at same
        rcases front_of_encode_eq kind same.symm with ⟨t, rfl, rest⟩ | ⟨t, rfl, rest⟩
        · exact .same c (ih s.length (by simp) rest.symm rfl)
        · exact .spelled kind (ih s.length (by simp) rest.symm rfl)
      | none =>
        rw [encode_cons_plain kind] at same
        cases t with
        | nil => cases same
        | cons d t =>
          cases kind' : S.letter d with
          | none =>
            rw [encode_cons_plain kind', List.cons.injEq] at same
            obtain ⟨rfl, rest⟩ := same
            exact .same c (ih s.length (by simp) rest rfl)
          | some l =>
            rw [encode_cons_control kind', ← encode_cons_plain kind] at same
            rcases front_of_encode_eq kind' same with ⟨s', equal, rest⟩ | ⟨s', equal, rest⟩
            · cases equal
              rw [kind] at kind'
              cases kind'
            · cases equal
              exact .unspelled kind' (ih s'.length (by simp) rest rfl)

end Scheme

end Escapes
