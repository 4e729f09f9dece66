import Mathlib

/-!
# Sequences stored in blocks

A sequence cut into blocks of `B` elements: element `i` is in block `i / B`, at
index `i % B` there.

* `concat` is the blocks one after the other, `slice` a part of the sequence;
* `concat_eq` and `drop_take_concat` say that a slice is what the arithmetic of
  indices says it is.
-/

namespace Blocks

variable {α : Type} {B : ℕ} (f : ℕ → ℕ → α)

/-- The first `n` blocks one after the other; `f b i` is element `i` of block `b`. -/
def concat (B : ℕ) (f : ℕ → ℕ → α) (n : ℕ) : List α :=
  (List.range n).flatMap fun b => (List.range B).map (f b)

/-- The `k` elements from `start` on. -/
def slice (B : ℕ) (f : ℕ → ℕ → α) (start k : ℕ) : List α :=
  (List.range k).map fun j => f ((start + j) / B) ((start + j) % B)

@[simp] theorem length_slice (start k : ℕ) : (slice B f start k).length = k := by
  simp [slice]

@[simp] theorem slice_zero (start : ℕ) : slice B f start 0 = [] := rfl

/-- A slice goes on where it ended. -/
theorem slice_append (start k l : ℕ) :
    slice B f start k ++ slice B f (start + k) l = slice B f start (k + l) := by
  unfold slice
  rw [List.range_add, List.map_append, List.map_map]
  congr 1
  refine List.map_congr_left fun j _ => ?_
  simp [Nat.add_assoc]

/-- Taking fewer elements. -/
theorem take_slice {start k l : ℕ} (h : l ≤ k) :
    (slice B f start k).take l = slice B f start l := by
  rw [← Nat.add_sub_cancel' h, ← slice_append, List.take_left' (length_slice f start l)]

/-- A slice that stays in one block. -/
theorem slice_eq_of_le {start k : ℕ} (h : start % B + k ≤ B) :
    slice B f start k = (List.range k).map fun j => f (start / B) (start % B + j) := by
  unfold slice
  refine List.map_congr_left fun j hj => ?_
  have hlt : start % B + j < B := by
    have := List.mem_range.1 hj
    omega
  have hsplit : start + j = start % B + j + start / B * B := by
    have := Nat.div_add_mod' start B
    omega
  rw [hsplit, Nat.add_mul_div_right _ _ (by omega), Nat.div_eq_of_lt hlt, Nat.zero_add,
    Nat.add_mul_mod_self_right, Nat.mod_eq_of_lt hlt]

/-- Index arithmetic finds every element of the concatenation. -/
theorem concat_eq (n : ℕ) : concat B f n = slice B f 0 (n * B) := by
  induction n with
  | zero => simp [concat]
  | succ n ih =>
    have hlast : slice B f (n * B) B = (List.range B).map (f n) := by
      rcases Nat.eq_zero_or_pos B with rfl | hB
      · simp [slice]
      · rw [slice_eq_of_le f (by rw [Nat.mul_mod_left, Nat.zero_add])]
        refine List.map_congr_left fun j _ => ?_
        rw [Nat.mul_div_cancel n hB, Nat.mul_mod_left, Nat.zero_add]
    rw [Nat.succ_mul, ← slice_append, Nat.zero_add, hlast, ← ih]
    simp [concat, List.range_succ]

/-- **Slices.**  A part of the concatenation is the slice of the same indices. -/
theorem drop_take_concat {n start k : ℕ} (h : start + k ≤ n * B) :
    ((concat B f n).drop start).take k = slice B f start k := by
  rw [concat_eq]
  have hsplit : slice B f 0 (n * B)
      = slice B f 0 start ++ slice B f start (n * B - start) := by
    have := slice_append f (B := B) 0 start (n * B - start)
    rw [Nat.zero_add] at this
    rw [this]
    congr 1
    omega
  rw [hsplit, List.drop_left' (length_slice f 0 start), take_slice f (by omega)]

end Blocks
