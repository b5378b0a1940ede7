import Mathlib

/-!
# Terminated runs

A terminated run of a list is a stretch of entries that satisfy a predicate, of at least a
given length, that cannot be continued to the left and is followed by a fixed entry, the
terminator, which does not satisfy the predicate. Scanners for strings in memory look for
such runs. The lemmas take a list apart at an entry that does not satisfy the predicate.

## Main definitions

* `TerminatedRuns.Run` — the entries from one index up to another are a terminated run
* `TerminatedRuns.RunAt` — a terminated run begins at an index, and these are its entries

## Main results

* `TerminatedRuns.all_or_separated` — a list is taken apart at its first separating entry
* `TerminatedRuns.runAt_append_iff` — the runs of a list with a separating entry: the front of
  the list, if it is one, and the runs behind the entry
-/

set_option autoImplicit false

namespace TerminatedRuns

variable {α : Type*}

/-- The entries from `i` up to `stop` are a terminated run of at least `least` entries. -/
structure Run (p : α → Bool) (z : α) (least : ℕ) (l : List α) (i stop : ℕ) : Prop where
  long : i + least ≤ stop
  inside : ∀ k, i ≤ k → k < stop → ∃ a, l[k]? = some a ∧ p a = true
  terminated : l[stop]? = some z
  maximal : i = 0 ∨ ∃ a, l[i - 1]? = some a ∧ p a = false

variable {p : α → Bool} {z : α} {least : ℕ} {l pre rest : List α} {d : α} {i stop : ℕ}

theorem Run.lt_length (run : Run p z least l i stop) : stop < l.length :=
  (List.getElem?_eq_some_iff.mp run.terminated).1

/-- A list of entries that satisfy the predicate, with one behind them that does not. -/
theorem takeWhile_append_cons (all : ∀ a ∈ pre, p a = true) (last : p d = false) :
    (pre ++ d :: rest).takeWhile p = pre := by
  rw [List.takeWhile_append_of_pos all, List.takeWhile_cons, last]
  exact List.append_nil pre

/-- All entries of a list satisfy the predicate, or the first one that does not separates it. -/
theorem all_or_separated (p : α → Bool) (l : List α) : (∀ a ∈ l, p a = true) ∨
    ∃ pre d rest, l = pre ++ d :: rest ∧ (∀ a ∈ pre, p a = true) ∧ p d = false := by
  induction l with
  | nil => exact .inl fun a member => absurd member List.not_mem_nil
  | cons a tail ih =>
    by_cases first : p a = true
    · rcases ih with all | ⟨pre, d, rest, rfl, all, separates⟩
      · exact .inl (List.forall_mem_cons.mpr ⟨first, all⟩)
      · exact .inr ⟨a :: pre, d, rest, rfl, List.forall_mem_cons.mpr ⟨first, all⟩, separates⟩
    · exact .inr ⟨[], a, tail, rfl, by simp, Bool.eq_false_of_not_eq_true first⟩

/-- The runs of a front of a list are those of the list that end inside it. -/
theorem run_take_iff {n : ℕ} :
    Run p z least (l.take n) i stop ↔ stop < n ∧ Run p z least l i stop := by
  constructor
  · intro run
    have bound := run.lt_length
    rw [List.length_take] at bound
    have front : stop < n := by omega
    obtain ⟨long, inside, terminated, maximal⟩ := run
    rw [List.getElem?_take_of_lt front] at terminated
    refine ⟨front, long, fun k above below => ?_, terminated, maximal.imp_right ?_⟩
    · obtain ⟨a, here, satisfies⟩ := inside k above below
      rw [List.getElem?_take_of_lt (by omega)] at here
      exact ⟨a, here, satisfies⟩
    · rintro ⟨a, before, stops⟩
      rw [List.getElem?_take_of_lt (by omega)] at before
      exact ⟨a, before, stops⟩
  · rintro ⟨front, long, inside, terminated, maximal⟩
    refine ⟨long, fun k above below => ?_, ?_, maximal.imp_right ?_⟩
    · rw [List.getElem?_take_of_lt (by omega)]
      exact inside k above below
    · rwa [List.getElem?_take_of_lt front]
    · rw [List.getElem?_take_of_lt (by omega)]
      exact id

/-! ### Taking a list apart -/

theorem getElem?_behind (k : ℕ) : (pre ++ d :: rest)[pre.length + 1 + k]? = rest[k]? := by
  rw [List.getElem?_append_right (by omega), show pre.length + 1 + k - pre.length = k + 1 by omega,
    List.getElem?_cons_succ]

/-- Behind an entry that does not satisfy the predicate, the runs are those of the rest. -/
theorem run_append_iff (separates : p d = false) :
    Run p z least (pre ++ d :: rest) (pre.length + 1 + i) (pre.length + 1 + stop) ↔
      Run p z least rest i stop := by
  constructor
  · rintro ⟨long, inside, terminated, maximal⟩
    refine ⟨by omega, ?_, by rwa [getElem?_behind] at terminated, ?_⟩
    · intro k above below
      obtain ⟨a, here, satisfies⟩ := inside (pre.length + 1 + k) (by omega) (by omega)
      rw [getElem?_behind] at here
      exact ⟨a, here, satisfies⟩
    · by_cases first : i = 0
      · exact .inl first
      · obtain ⟨a, before, stops⟩ := maximal.resolve_left (by omega)
        rw [show pre.length + 1 + i - 1 = pre.length + 1 + (i - 1) by omega, getElem?_behind]
          at before
        exact .inr ⟨a, before, stops⟩
  · rintro ⟨long, inside, terminated, maximal⟩
    refine ⟨by omega, ?_, by rwa [getElem?_behind], .inr ?_⟩
    · intro k above below
      obtain ⟨a, here, satisfies⟩ := inside (k - (pre.length + 1)) (by omega) (by omega)
      refine ⟨a, ?_, satisfies⟩
      have place : pre.length + 1 + (k - (pre.length + 1)) = k := Nat.add_sub_cancel' (by omega)
      have shifted : (pre ++ d :: rest)[pre.length + 1 + (k - (pre.length + 1))]? =
          rest[k - (pre.length + 1)]? := getElem?_behind _
      rwa [← shifted, place] at here
    · rcases maximal with rfl | ⟨a, before, stops⟩
      · -- The separating entry itself stops a run at the front of the rest.
        exact ⟨d, by simp, separates⟩
      · by_cases first : i = 0
        · exact ⟨d, by simp [first], separates⟩
        · refine ⟨a, ?_, stops⟩
          rw [show pre.length + 1 + i - 1 = pre.length + 1 + (i - 1) by omega, getElem?_behind]
          exact before

/-- A run of a list whose front satisfies the predicate is the whole front, or begins behind
the entry that ends the front. -/
theorem Run.cases (run : Run p z least (pre ++ d :: rest) i stop)
    (all : ∀ a ∈ pre, p a = true) (separates : p d = false) (ends : p z = false) :
    i = 0 ∧ stop = pre.length ∧ d = z ∨ pre.length < i := by
  obtain ⟨long, inside, terminated, maximal⟩ := run
  have front {k : ℕ} {a : α} (short : k < pre.length) (here : (pre ++ d :: rest)[k]? = some a) :
      p a = true := by
    rw [List.getElem?_append_left short] at here
    exact all a (List.mem_of_getElem? here)
  have middle {a : α} (here : (pre ++ d :: rest)[pre.length]? = some a) : d = a := by
    simpa using here
  by_cases behind : pre.length < i
  · exact .inr behind
  · have first : i = 0 := by
      by_contra later
      obtain ⟨a, before, stops⟩ := maximal.resolve_left later
      rw [front (by omega) before] at stops
      cases stops
    have upper : stop ≤ pre.length := by
      by_contra beyond
      obtain ⟨a, here, satisfies⟩ := inside pre.length (by omega) (by omega)
      rw [← middle here, separates] at satisfies
      cases satisfies
    have lower : pre.length ≤ stop := by
      by_contra short
      rw [front (Nat.lt_of_not_le short) terminated] at ends
      cases ends
    have same : stop = pre.length := Nat.le_antisymm upper lower
    exact .inl ⟨first, same, middle (same ▸ terminated)⟩

/-- The front of a list is a run if it is long enough and the terminator is behind it. -/
theorem run_front (all : ∀ a ∈ pre, p a = true) (long : least ≤ pre.length) :
    Run p z least (pre ++ z :: rest) 0 pre.length := by
  refine ⟨by omega, ?_, by simp, .inl rfl⟩
  intro k _ short
  refine ⟨pre[k], ?_, all _ (List.getElem_mem short)⟩
  rw [List.getElem?_append_left short, List.getElem?_eq_getElem short]

/-- Without a separating entry there is no terminator. -/
theorem not_run_of_all (all : ∀ a ∈ l, p a = true) (ends : p z = false) :
    ¬ Run p z least l i stop := by
  intro run
  rw [all z (List.mem_of_getElem? run.terminated)] at ends
  cases ends

/-- A terminated run begins at `i` and consists of the entries `run`. -/
def RunAt (p : α → Bool) (z : α) (least : ℕ) (l : List α) (i : ℕ) (run : List α) : Prop :=
  ∃ stop, Run p z least l i stop ∧ run = (l.drop i).take (stop - i)

theorem not_runAt_of_all {run : List α} (all : ∀ a ∈ l, p a = true) (ends : p z = false) :
    ¬ RunAt p z least l i run := by
  rintro ⟨stop, found, -⟩
  exact not_run_of_all all ends found

theorem drop_behind (k : ℕ) : (pre ++ d :: rest).drop (pre.length + 1 + k) = rest.drop k := by
  rw [List.drop_append, List.drop_eq_nil_of_le (by omega), List.nil_append,
    show pre.length + 1 + k - pre.length = k + 1 by omega, List.drop_succ_cons]

/-- The runs of a list with a separating entry are its front, if that is a run, and the runs
behind the entry. -/
theorem runAt_append_iff {run : List α} (all : ∀ a ∈ pre, p a = true) (separates : p d = false)
    (ends : p z = false) :
    RunAt p z least (pre ++ d :: rest) i run ↔
      (i = 0 ∧ run = pre ∧ least ≤ pre.length ∧ d = z) ∨
        ∃ k, i = pre.length + 1 + k ∧ RunAt p z least rest k run := by
  constructor
  · rintro ⟨stop, found, entries⟩
    rcases found.cases all separates ends with ⟨rfl, rfl, rfl⟩ | behind
    · refine .inl ⟨rfl, ?_, by simpa using found.long, rfl⟩
      rw [entries, List.drop_zero, Nat.sub_zero, List.take_left]
    · have long := found.long
      obtain ⟨k, rfl⟩ : ∃ k, i = pre.length + 1 + k := ⟨i - (pre.length + 1), by omega⟩
      obtain ⟨m, rfl⟩ : ∃ m, stop = pre.length + 1 + m := ⟨stop - (pre.length + 1), by omega⟩
      refine .inr ⟨k, rfl, m, (run_append_iff separates).mp found, ?_⟩
      rw [entries, drop_behind, Nat.add_sub_add_left]
  · rintro (⟨rfl, rfl, long, rfl⟩ | ⟨k, rfl, stop, found, rfl⟩)
    · refine ⟨run.length, run_front all long, ?_⟩
      rw [List.drop_zero, Nat.sub_zero, List.take_left]
    · refine ⟨pre.length + 1 + stop, (run_append_iff separates).mpr found, ?_⟩
      rw [drop_behind, Nat.add_sub_add_left]

end TerminatedRuns
