import Mathlib

/-!
# Lines of limited length

How a reader with room for `B` elements cuts a sequence into lines: at every separator, and
after `B` elements where none comes.

* `cut` is the list of the pieces;
* `cut_lines`, `cut_full` and `cut_last` say what they are behind complete lines, behind a
  full buffer and at the end.
-/

namespace Lines

variable {α : Type} [DecidableEq α]

/-- The pieces of a sequence. -/
def cut (sep : α) (B : ℕ) (l : List α) : List (List α) :=
  if h : l = [] ∨ B = 0 then []
  else if B ≤ (l.takeWhile (· ≠ sep)).length then l.take B :: cut sep B (l.drop B)
  else l.takeWhile (· ≠ sep) :: cut sep B (l.drop ((l.takeWhile (· ≠ sep)).length + 1))
termination_by l.length
decreasing_by
  all_goals
    rw [not_or] at h
    have hpos := List.length_pos_of_ne_nil h.1
    rw [List.length_drop]
    omega

variable {sep : α} {B : ℕ}

theorem takeWhile_of_notMem {p : List α} (h : sep ∉ p) : p.takeWhile (· ≠ sep) = p := by
  refine List.takeWhile_eq_self_iff.2 fun c hc => ?_
  rw [decide_eq_true_eq]
  rintro rfl
  exact h hc

/-- Up to the first separator. -/
theorem takeWhile_line {p : List α} (h : sep ∉ p) (x : List α) :
    (p ++ sep :: x).takeWhile (· ≠ sep) = p := by
  induction p with
  | nil => rw [List.nil_append, List.takeWhile_cons_of_neg (by simp)]
  | cons c p ih =>
    have hc : c ≠ sep := by
      rintro rfl
      exact h List.mem_cons_self
    rw [List.cons_append, List.takeWhile_cons_of_pos (by simpa using hc),
      ih fun hmem => h (List.mem_cons_of_mem c hmem)]

/-- A sequence without a separator, or a line and what comes behind it. -/
theorem exists_line (sep : α) (l : List α) :
    sep ∉ l ∨ ∃ p x, l = p ++ sep :: x ∧ sep ∉ p := by
  by_cases h : sep ∈ l
  · obtain ⟨p, x, hl, hp⟩ := List.eq_append_cons_of_mem h
    exact Or.inr ⟨p, x, hl, hp⟩
  · exact Or.inl h

@[simp] theorem cut_nil : cut sep B [] = [] := by
  rw [cut, dif_pos (Or.inl rfl)]

/-- A line that fits. -/
theorem cut_line {p : List α} (h : sep ∉ p) (hlen : p.length < B) (x : List α) :
    cut sep B (p ++ sep :: x) = p :: cut sep B x := by
  have hdrop : (p ++ sep :: x).drop (p.length + 1) = x := by
    rw [List.append_cons, List.drop_left' (by simp)]
  rw [cut, dif_neg (by simp; omega), takeWhile_line h, if_neg (by omega), hdrop]

/-- Lines that fit. -/
theorem cut_lines {lines : List (List α)} (h : ∀ p ∈ lines, sep ∉ p ∧ p.length < B)
    (x : List α) : cut sep B (lines.flatMap (· ++ [sep]) ++ x) = lines ++ cut sep B x := by
  induction lines with
  | nil => rfl
  | cons p lines ih =>
    obtain ⟨hp, hlen⟩ := h p List.mem_cons_self
    have hrest := ih fun q hq => h q (List.mem_cons_of_mem p hq)
    rw [List.flatMap_cons, List.append_assoc, List.append_assoc, List.singleton_append,
      cut_line hp hlen, hrest, List.cons_append]

/-- A full buffer. -/
theorem cut_full {p : List α} (h : sep ∉ p) (hlen : p.length = B) (hB : 0 < B) (x : List α) :
    cut sep B (p ++ x) = p :: cut sep B x := by
  have hne : p ++ x ≠ [] := by
    intro hnil
    rw [(List.append_eq_nil_iff.1 hnil).1, List.length_nil] at hlen
    omega
  have hall : ∀ c ∈ p, decide (c ≠ sep) = true := by
    intro c hc
    rw [decide_eq_true_eq]
    rintro rfl
    exact h hc
  have hle : B ≤ ((p ++ x).takeWhile (· ≠ sep)).length := by
    rw [List.takeWhile_append_of_pos hall, List.length_append]
    omega
  rw [cut, dif_neg (not_or.2 ⟨hne, by omega⟩), if_pos hle, List.take_left' hlen,
    List.drop_left' hlen]

/-- The end of the sequence, where it is no separator. -/
theorem cut_last {p : List α} (h : sep ∉ p) (hlen : p.length < B) (hne : p ≠ []) :
    cut sep B p = [p] := by
  rw [cut, dif_neg (not_or.2 ⟨hne, by omega⟩), takeWhile_of_notMem h, if_neg (by omega),
    List.drop_eq_nil_of_le (by omega), cut_nil]

end Lines
