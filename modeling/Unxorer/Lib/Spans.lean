import Mathlib

/-!
# Spans of equal cells

A cell is a half-open interval of natural numbers of a fixed width. Cells listed by
increasing first number merge into spans: a cell that begins no later than the open span
ends is added to it, and any other one closes the span and opens the next. The spans are
the maximal intervals of the covered set.

## Main definitions

* `Spans.Span` — a half-open interval
* `Spans.merge` — one pass over the sorted cells
* `Spans.Decomposes` — nonempty spans in increasing order, a gap between any two, cover a set

## Main results

* `Spans.decomposes_merge` — merging decomposes the union of the cells
* `Spans.Decomposes.start_le` — an interval of the set that reaches a span starts inside it
* `Spans.Decomposes.lt_stop` — and it ends inside it
-/

set_option autoImplicit false

namespace Spans

/-- The numbers from `start` up to, and without, `stop`. -/
structure Span where
  start : ℕ
  stop : ℕ
deriving DecidableEq

def Span.Contains (s : Span) (x : ℕ) : Prop := s.start ≤ x ∧ x < s.stop

/-- The rest of a merge while a span from `start` is open whose last cell begins at `last`. -/
def mergeFrom (width start last : ℕ) : List ℕ → List Span
  | [] => [⟨start, last + width⟩]
  | cell :: rest =>
    if cell ≤ last + width then mergeFrom width start cell rest
    else ⟨start, last + width⟩ :: mergeFrom width cell cell rest

/-- Merge the cells that begin at the listed numbers. -/
def merge (width : ℕ) : List ℕ → List Span
  | [] => []
  | cell :: rest => mergeFrom width cell cell rest

/-- The spans list a set of numbers as intervals, in increasing order and with a gap between
any two of them. -/
structure Decomposes (spans : List Span) (covered : Set ℕ) : Prop where
  nonempty : ∀ s ∈ spans, s.start < s.stop
  separated : spans.Pairwise fun a b => a.stop < b.start
  covers : ∀ x, x ∈ covered ↔ ∃ s ∈ spans, s.Contains x

/-- Two members of an ordered list are the same one, or one of them comes first. -/
theorem eq_or_related {α : Type*} {R : α → α → Prop} {l : List α} (ordered : l.Pairwise R)
    {a b : α} (first : a ∈ l) (second : b ∈ l) : a = b ∨ R a b ∨ R b a := by
  refine List.Pairwise.forall_of_forall_of_flip (R := fun a b => a = b ∨ R a b ∨ R b a)
    (fun _ _ => .inl rfl) ?_ ?_ first second
  · exact ordered.imp fun before => .inr (.inl before)
  · exact ordered.imp fun before => .inr (.inr before)

/-! ### Merging -/

variable {width start last : ℕ} {cells : List ℕ}

/-- Every span begins at a cell and ends where a cell does. -/
theorem ends_of_mem_mergeFrom {s : Span} (member : s ∈ mergeFrom width start last cells) :
    s.start ∈ start :: cells ∧ ∃ cell ∈ last :: cells, s.stop = cell + width := by
  induction cells generalizing start last with
  | nil =>
    rw [mergeFrom, List.mem_singleton] at member
    subst member
    exact ⟨List.mem_cons_self, last, List.mem_cons_self, rfl⟩
  | cons cell rest ih =>
    rw [mergeFrom] at member
    -- The cell continues the open span, or closes it and opens the next one.
    split at member
    · obtain ⟨starts, stop, source, stops⟩ := ih member
      refine ⟨?_, stop, List.mem_cons_of_mem _ source, stops⟩
      rcases List.mem_cons.mp starts with same | later
      · exact same ▸ List.mem_cons_self
      · exact List.mem_cons_of_mem _ (List.mem_cons_of_mem _ later)
    · rcases List.mem_cons.mp member with rfl | later
      · exact ⟨List.mem_cons_self, last, List.mem_cons_self, rfl⟩
      · obtain ⟨starts, stop, source, stops⟩ := ih later
        exact ⟨List.mem_cons_of_mem _ starts, stop, List.mem_cons_of_mem _ source, stops⟩

theorem ends_of_mem_merge {s : Span} (member : s ∈ merge width cells) :
    s.start ∈ cells ∧ ∃ cell ∈ cells, s.stop = cell + width := by
  cases cells with
  | nil => cases member
  | cons cell rest => exact ends_of_mem_mergeFrom member

theorem start_le_of_mem_mergeFrom {s : Span} (sorted : ∀ cell ∈ cells, start ≤ cell)
    (member : s ∈ mergeFrom width start last cells) : start ≤ s.start := by
  rcases List.mem_cons.mp (ends_of_mem_mergeFrom member).1 with same | later
  · exact same.ge
  · exact sorted _ later

/-- Each span is wide enough for a cell. -/
theorem start_lt_stop_of_mem_mergeFrom {s : Span} (wide : 0 < width) (opened : start ≤ last)
    (sorted : (last :: cells).Pairwise (· < ·))
    (member : s ∈ mergeFrom width start last cells) : s.start < s.stop := by
  induction cells generalizing start last with
  | nil =>
    rw [mergeFrom, List.mem_singleton] at member
    subst member
    exact opened.trans_lt (Nat.lt_add_of_pos_right wide)
  | cons cell rest ih =>
    obtain ⟨next, tail⟩ := List.pairwise_cons.mp sorted
    rw [mergeFrom] at member
    split at member
    · exact ih (opened.trans (next cell List.mem_cons_self).le) tail member
    · rcases List.mem_cons.mp member with rfl | later
      · exact opened.trans_lt (Nat.lt_add_of_pos_right wide)
      · exact ih le_rfl tail later

theorem separated_mergeFrom (sorted : (last :: cells).Pairwise (· < ·)) :
    (mergeFrom width start last cells).Pairwise fun a b => a.stop < b.start := by
  induction cells generalizing start last with
  | nil => exact List.pairwise_singleton _ _
  | cons cell rest ih =>
    obtain ⟨_, tail⟩ := List.pairwise_cons.mp sorted
    rw [mergeFrom]
    split
    · exact ih tail
    · rename_i apart
      refine List.pairwise_cons.mpr ⟨?_, ih tail⟩
      intro s member
      -- The span that is closed here ends before the cell that opens the next one.
      have later : cell ≤ s.start := start_le_of_mem_mergeFrom
        (fun other inside => ((List.pairwise_cons.mp tail).1 other inside).le) member
      exact (Nat.lt_of_not_le apart).trans_le later

/-- The spans cover the open span and the remaining cells. -/
theorem covers_mergeFrom (opened : start ≤ last) (sorted : (last :: cells).Pairwise (· < ·))
    (x : ℕ) : (∃ s ∈ mergeFrom width start last cells, s.Contains x) ↔
      (start ≤ x ∧ x < last + width) ∨ ∃ cell ∈ cells, cell ≤ x ∧ x < cell + width := by
  induction cells generalizing start last with
  | nil => simp [mergeFrom, Span.Contains]
  | cons cell rest ih =>
    obtain ⟨next, tail⟩ := List.pairwise_cons.mp sorted
    have later : last < cell := next cell List.mem_cons_self
    rw [mergeFrom, List.exists_mem_cons_iff]
    split
    · rename_i joined
      rw [ih (opened.trans later.le) tail, ← or_assoc]
      refine or_congr_left ?_
      omega
    · rw [List.exists_mem_cons_iff, ih le_rfl tail]
      rfl

/-- Merging sorted cells decomposes their union. -/
theorem decomposes_merge (wide : 0 < width) (sorted : cells.Pairwise (· < ·)) :
    Decomposes (merge width cells) {x | ∃ cell ∈ cells, cell ≤ x ∧ x < cell + width} := by
  cases cells with
  | nil => exact ⟨by simp [merge], .nil, by simp [merge]⟩
  | cons cell rest =>
    refine ⟨?_, separated_mergeFrom sorted, ?_⟩
    · intro s member
      exact start_lt_stop_of_mem_mergeFrom wide le_rfl sorted member
    · intro x
      rw [Set.mem_ofPred_eq, List.exists_mem_cons_iff, merge, covers_mergeFrom le_rfl sorted]

/-! ### Decompositions -/

namespace Decomposes

variable {spans : List Span} {covered : Set ℕ} {s t : Span}

/-- The numbers next to a span are not covered. -/
theorem notMem_of_adjacent (decomposes : Decomposes spans covered) (member : s ∈ spans) {x : ℕ}
    (outside : ¬ s.Contains x) (lower : s.start ≤ x + 1) (upper : x ≤ s.stop) : x ∉ covered := by
  intro inside
  obtain ⟨t, other, above, below⟩ := (decomposes.covers x).mp inside
  -- Another span that contains `x` would leave no gap between the two.
  rcases eq_or_related decomposes.separated member other with rfl | before | after
  · exact outside ⟨above, below⟩
  · omega
  · omega

theorem stop_notMem (decomposes : Decomposes spans covered) (member : s ∈ spans) :
    s.stop ∉ covered := by
  have filled := decomposes.nonempty s member
  exact decomposes.notMem_of_adjacent member (fun inside => Nat.lt_irrefl _ inside.2) (by omega)
    le_rfl

theorem before_notMem (decomposes : Decomposes spans covered) (member : s ∈ spans) {x : ℕ}
    (before : x + 1 = s.start) : x ∉ covered := by
  have filled := decomposes.nonempty s member
  refine decomposes.notMem_of_adjacent member (fun inside => ?_) before.ge (by omega)
  have above := inside.1
  omega

/-- An interval of covered numbers that reaches into a span begins inside it. -/
theorem start_le (decomposes : Decomposes spans covered) (member : s ∈ spans) {x y : ℕ}
    (inside : s.Contains x) (joined : ∀ z, y ≤ z → z ≤ x → z ∈ covered) : s.start ≤ y := by
  by_contra below
  have outside : s.start - 1 ∉ covered := decomposes.before_notMem member (by omega)
  exact outside (joined _ (by omega) (by have := inside.1; omega))

/-- An interval of covered numbers that leaves from a span ends inside it. -/
theorem lt_stop (decomposes : Decomposes spans covered) (member : s ∈ spans) {x y : ℕ}
    (inside : s.Contains x) (joined : ∀ z, x ≤ z → z ≤ y → z ∈ covered) : y < s.stop := by
  by_contra above
  exact decomposes.stop_notMem member (joined _ inside.2.le (Nat.le_of_not_lt above))

/-- The numbers of a span are covered. -/
theorem mem_of_contains (decomposes : Decomposes spans covered) (member : s ∈ spans) {x : ℕ}
    (inside : s.Contains x) : x ∈ covered :=
  (decomposes.covers x).mpr ⟨s, member, inside⟩

end Decomposes

end Spans
