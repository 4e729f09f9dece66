import Mathlib

/-!
# Numerals

Numbers written in a base, most significant digit first, with any characters as digits.

* `text` is the numeral of a number, without leading zeros, and `read` the number a numeral
  denotes; `read_text` is the round trip;
* `read_pad` — zeros in front do not matter;
* `length_text_le` bounds the length of a numeral.
-/

namespace Numeral

variable {α : Type*} (digit : ℕ → α) (value : α → Option ℕ)

/-- The numeral of a number in base `r`. -/
def text (r n : ℕ) : List α :=
  if n = 0 then [digit 0] else ((Nat.digits r n).map digit).reverse

/-- Read on, after digits of value `n`. -/
def readFrom (r : ℕ) : ℕ → List α → Option ℕ
  | n, [] => some n
  | n, c :: l =>
    match value c with
    | none => none
    | some d => if d < r then readFrom r (n * r + d) l else none

/-- The number a non-empty list of digits of base `r` denotes. -/
def read (r : ℕ) (l : List α) : Option ℕ := if l.isEmpty then none else readFrom value r 0 l

variable {digit value}

theorem text_ne_nil {r n : ℕ} : text digit r n ≠ [] := by
  unfold text
  split
  · exact List.cons_ne_nil _ _
  · rename_i h
    simpa [Nat.digits_eq_nil_iff_eq_zero] using h

theorem text_of_pos {r n : ℕ} (h : 0 < n) :
    text digit r n = ((Nat.digits r n).map digit).reverse := by
  rw [text, if_neg (by omega)]

/-- Every character of a numeral is a digit of the base. -/
theorem mem_text {r n : ℕ} (hr : 1 < r) {c : α} (hc : c ∈ text digit r n) :
    ∃ d < r, c = digit d := by
  unfold text at hc
  split at hc
  · exact ⟨0, by omega, List.mem_singleton.1 hc⟩
  · obtain ⟨d, hd, rfl⟩ := List.mem_map.1 (List.mem_reverse.1 hc)
    exact ⟨d, Nat.digits_lt_base hr hd, rfl⟩

/-! ## Reading -/

theorem readFrom_append {r n m : ℕ} {l l' : List α} (h : readFrom value r n l = some m) :
    readFrom value r n (l ++ l') = readFrom value r m l' := by
  induction l generalizing n with
  | nil =>
    cases h
    rfl
  | cons c l ih =>
    rw [readFrom] at h
    rw [List.cons_append, readFrom]
    cases hc : value c with
    | none =>
      rw [hc] at h
      cases h
    | some d =>
      rw [hc] at h
      dsimp only at h ⊢
      split at h
      · rw [if_pos ‹_›]
        exact ih h
      · cases h

/-- Digits are read back, lowest last. -/
theorem readFrom_digits {r : ℕ} (hdigit : ∀ d < r, value (digit d) = some d) {ds : List ℕ}
    (hds : ∀ d ∈ ds, d < r) (n : ℕ) :
    readFrom value r n (ds.map digit).reverse = some (n * r ^ ds.length + Nat.ofDigits r ds) := by
  induction ds with
  | nil => simp [readFrom]
  | cons d ds ih =>
    have hd : d < r := hds d List.mem_cons_self
    have hrest := ih fun d hd => hds d (List.mem_cons_of_mem _ hd)
    rw [List.map_cons, List.reverse_cons, readFrom_append hrest, readFrom, hdigit d hd]
    dsimp only
    rw [if_pos hd, readFrom, Nat.ofDigits_cons, List.length_cons, pow_succ]
    congr 1
    ring

/-- **The round trip.** -/
theorem read_text {r : ℕ} (hr : 1 < r) (hdigit : ∀ d < r, value (digit d) = some d) (n : ℕ) :
    read value r (text digit r n) = some n := by
  have hne : (text digit r n).isEmpty = false := by
    simpa using text_ne_nil
  rw [read, hne, if_neg Bool.false_ne_true]
  unfold text
  split
  · rename_i h
    subst h
    simp only [readFrom, hdigit 0 (by omega), if_pos (show 0 < r by omega), Nat.zero_mul,
      Nat.zero_add]
  · rw [readFrom_digits hdigit fun d hd => Nat.digits_lt_base hr hd, Nat.ofDigits_digits,
      Nat.zero_mul, Nat.zero_add]

/-- Zeros in front of a numeral. -/
theorem read_pad {r : ℕ} (hr : 0 < r) (hzero : value (digit 0) = some 0) {l : List α}
    (hl : l ≠ []) (k : ℕ) :
    read value r (List.replicate k (digit 0) ++ l) = read value r l := by
  induction k with
  | zero => rfl
  | succ k ih =>
    have hempty (k : ℕ) : (List.replicate k (digit 0) ++ l).isEmpty = false := by
      simp [hl]
    rw [← ih, read, hempty, read, hempty, List.replicate_succ, List.cons_append]
    simp only [Bool.false_eq_true, if_false]
    rw [readFrom, hzero]
    dsimp only
    rw [if_pos hr, Nat.zero_mul, Nat.zero_add]

/-- A numeral begins with the digit zero for zero only. -/
theorem text_eq_of_head {r n : ℕ} (hr : 1 < r) (hdigit : ∀ d < r, value (digit d) = some d)
    (hhead : (text digit r n).head? = some (digit 0)) : text digit r n = [digit 0] := by
  by_cases hn : n = 0
  · rw [text, if_pos hn]
  · rw [text_of_pos (by omega)] at hhead
    have hne : Nat.digits r n ≠ [] := by
      simpa [Nat.digits_eq_nil_iff_eq_zero] using hn
    rw [List.head?_reverse, List.getLast?_map, List.getLast?_eq_getLast_of_ne_nil hne] at hhead
    have hlast := Option.some.inj hhead
    have hlt := Nat.digits_lt_base hr (List.getLast_mem hne)
    have hval := congrArg value hlast
    rw [hdigit _ hlt, hdigit 0 (by omega)] at hval
    exact absurd (Option.some.inj hval) (Nat.getLast_digit_ne_zero r hn)

/-! ## Length -/

theorem length_text_le {r n k : ℕ} (hr : 1 < r) (hk : 0 < k) (hn : n < r ^ k) :
    (text digit r n).length ≤ k := by
  unfold text
  split
  · exact hk
  · rw [List.length_reverse, List.length_map]
    exact (Nat.digits_length_le_iff hr n).2 hn

end Numeral
