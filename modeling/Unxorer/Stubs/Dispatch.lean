import Unxorer.Stubs.ApiStubs

/-!
# The lookup of a stub

`try_dispatch` looks a name up as it is, then without its leading underscores, then by what
follows its last underscore. No name of the stub table contains an underscore, so of the
three lookups at most the one of the part behind the last underscore can succeed, and every
name without an underscore is that part of itself.

## Main definitions

* `ApiStubs.lastPart` — the part of a name after its last underscore

## Main results

* `ApiStubs.findStub_eq_none` — a name with an underscore is not in the table
* `ApiStubs.resolveStub_eq` — the three lookups are one
* `ApiStubs.tryDispatch_eq` — what a dispatch runs and returns
-/

set_option autoImplicit false

namespace Unxorer.ApiStubs

section Parts

variable {α : Type*} [DecidableEq α] {sep : α} {l : List α}

/-- What follows the last separator of a list, the whole list where there is none. -/
def afterLast (sep : α) (l : List α) : List α := (l.reverse.takeWhile (· ≠ sep)).reverse

theorem notMem_afterLast (sep : α) (l : List α) : sep ∉ afterLast sep l := by
  intro member
  have differs := List.mem_takeWhile_imp (List.mem_reverse.mp member)
  simp at differs

theorem afterLast_of_notMem (absent : sep ∉ l) : afterLast sep l = l := by
  have all : ∀ a ∈ l.reverse, decide (a ≠ sep) = true := by
    intro a member
    refine decide_eq_true ?_
    rintro rfl
    exact absent (List.mem_reverse.mp member)
  rw [afterLast, List.takeWhile_eq_self_iff.mpr all, List.reverse_reverse]

/-- Separators in front do not count. -/
theorem afterLast_dropWhile (absent : sep ∉ l.dropWhile (· = sep)) :
    afterLast sep l = l.dropWhile (· = sep) := by
  have front : ∀ a ∈ (l.takeWhile (· = sep)).reverse, ¬ decide (a ≠ sep) = true := by
    intro a member
    have same := List.mem_takeWhile_imp (List.mem_reverse.mp member)
    simpa using same
  have back : ∀ a ∈ (l.dropWhile (· = sep)).reverse, decide (a ≠ sep) = true := by
    intro a member
    refine decide_eq_true ?_
    rintro rfl
    exact absent (List.mem_reverse.mp member)
  have stop : (l.takeWhile (· = sep)).reverse.takeWhile (· ≠ sep) = [] := by
    cases list : (l.takeWhile (· = sep)).reverse with
    | nil => rfl
    | cons a rest => exact List.takeWhile_cons_of_neg (front a (list ▸ List.mem_cons_self))
  calc afterLast sep l
      = afterLast sep (l.takeWhile (· = sep) ++ l.dropWhile (· = sep)) := by
        rw [List.takeWhile_append_dropWhile]
    _ = l.dropWhile (· = sep) := by
        rw [afterLast, List.reverse_append, List.takeWhile_append_of_pos back, stop,
          List.append_nil, List.reverse_reverse]

end Parts

/-- The part of a name after its last underscore, the whole name where there is none. -/
def lastPart (name : String) : String := String.ofList (afterLast '_' name.toList)

/-! ### The table -/

/-- No name of the table contains an underscore. -/
theorem notMem_stubTable : ∀ entry ∈ stubTable, '_' ∉ entry.1.toList := by
  decide

theorem findStub_eq_none {name : String} (underscore : '_' ∈ name.toList) :
    findStub name = none := by
  cases found : findStub name with
  | none => rfl
  | some stub =>
    obtain ⟨before, after, table, -⟩ := List.lookup_eq_some_iff.mp found
    have entry : (name, stub) ∈ stubTable := by
      rw [table]
      exact List.mem_append_right _ List.mem_cons_self
    exact absurd underscore (notMem_stubTable _ entry)

theorem findStub_empty : findStub "" = none := by decide

/-! ### The three lookups -/

theorem lastPart_of_notMem {name : String} (absent : '_' ∉ name.toList) : lastPart name = name := by
  rw [lastPart, afterLast_of_notMem absent, String.ofList_toList]

/-- Where the name without its leading underscores has no other, it is the last part. -/
theorem lastPart_eq_stripUnderscores {name : String}
    (absent : '_' ∉ (stripUnderscores name).toList) : lastPart name = stripUnderscores name := by
  rw [stripUnderscores, String.toList_ofList] at absent
  rw [lastPart, stripUnderscores, afterLast_dropWhile absent]

theorem stripUnderscores_of_notMem {name : String} (absent : '_' ∉ name.toList) :
    stripUnderscores name = name := by
  have kept : name.toList.dropWhile (· = '_') = name.toList := by
    cases list : name.toList with
    | nil => rfl
    | cons c rest =>
      have other : c ≠ '_' := by
        rintro rfl
        exact absent (list ▸ List.mem_cons_self)
      exact List.dropWhile_cons_of_neg (by simpa using other)
  rw [stripUnderscores, kept, String.ofList_toList]

theorem notMem_lastPart (name : String) : '_' ∉ (lastPart name).toList := by
  rw [lastPart, String.toList_ofList]
  exact notMem_afterLast '_' name.toList

theorem moduleSuffix_of_notMem {name : String} (absent : '_' ∉ name.toList) :
    moduleSuffix name = none :=
  if_neg fun both => absent both.1

/-- With an underscore in the name, its last part is the suffix unless it is empty. -/
theorem moduleSuffix_of_mem {name : String} (underscore : '_' ∈ name.toList) :
    moduleSuffix name = none ∧ lastPart name = "" ∨ moduleSuffix name = some (lastPart name) := by
  by_cases empty : afterLast '_' name.toList = []
  · exact .inl ⟨if_neg fun both => both.2 empty, congrArg String.ofList empty⟩
  · exact .inr (if_pos ⟨underscore, empty⟩)

/-- The three lookups of `try_dispatch` are the one lookup of the last part. -/
theorem resolveStub_eq (importName : String) :
    resolveStub importName = findStub (lastPart importName) := by
  rw [resolveStub]
  by_cases underscore : '_' ∈ importName.toList
  · have whole := findStub_eq_none underscore
    by_cases inner : '_' ∈ (stripUnderscores importName).toList
    · -- Only the last part has no underscore.
      have stripped := findStub_eq_none inner
      have differs : lastPart importName ≠ stripUnderscores importName := by
        intro same
        exact notMem_lastPart importName (same ▸ inner)
      rcases moduleSuffix_of_mem underscore with ⟨missing, empty⟩ | suffix
      · simp only [whole, stripped, missing, empty, findStub_empty, ite_self]
      · simp only [whole, stripped, suffix, ite_self, if_pos differs]
    · have last := lastPart_eq_stripUnderscores inner
      have differs : stripUnderscores importName ≠ importName := by
        intro same
        exact inner (same.symm ▸ underscore)
      simp only [whole, if_pos differs, last]
      cases findStub (stripUnderscores importName) with
      | some stub => rfl
      | none =>
        rcases moduleSuffix_of_mem underscore with ⟨missing, -⟩ | suffix
        · simp only [missing]
        · simp only [suffix, last, ne_eq, not_true_eq_false, if_false]
  · rw [lastPart_of_notMem underscore, stripUnderscores_of_notMem underscore,
      moduleSuffix_of_notMem underscore]
    cases findStub importName with
    | none => simp
    | some stub => rfl

/-- A dispatch is one lookup: it runs the stub the table holds for the last part of the name
and returns `true`, or returns `false` with engine and heap as they were. -/
theorem tryDispatch_eq {U : Type} [Unicorn U] [Host] (u : U) (importName : String)
    (heap : FakeHeap) :
    tryDispatch u importName heap =
      match stubTable.lookup (lastPart importName) with
      | some stub => (some stub, stub.run u heap)
      | none => (none, .ok (u, heap)) := by
  rw [tryDispatch, resolveStub_eq]
  rfl

example : lastPart "KERNEL32_HeapAlloc" = "HeapAlloc" ∧ lastPart "__malloc" = "malloc" ∧
    lastPart "malloc_" = "" := by decide

end Unxorer.ApiStubs
