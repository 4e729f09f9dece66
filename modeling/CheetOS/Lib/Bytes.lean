import Mathlib

/-!
# Byte arrays

An array of bytes is a function of the index; a C string is a list without a
zero, stored with a zero behind it.

* `word` reads a little-endian 32-bit word;
* `writeAt` stores a list at an index;
* `stringAt` is the string an array holds.
-/

namespace Bytes

/-- The little-endian word in bytes `0`, `1`, `2`, `3`. -/
def word (b : ℕ → UInt8) : UInt32 :=
  (b 0).toUInt32 ||| ((b 1).toUInt32 <<< 8) ||| ((b 2).toUInt32 <<< 16) |||
    ((b 3).toUInt32 <<< 24)

theorem word_congr {b c : ℕ → UInt8} (h : ∀ i < 4, b i = c i) : word b = word c := by
  unfold word
  rw [h 0 (by decide), h 1 (by decide), h 2 (by decide), h 3 (by decide)]

/-- The bytes of a word, lowest first. -/
def wordBytes (w : UInt32) : List UInt8 :=
  [w.toUInt8, (w >>> 8).toUInt8, (w >>> 16).toUInt8, (w >>> 24).toUInt8]

/-- The array `b` after the list `l` was stored from index `p` on. -/
def writeAt (b : ℕ → UInt8) (p : ℕ) (l : List UInt8) : ℕ → UInt8 := fun i =>
  if p ≤ i ∧ i < p + l.length then l.getD (i - p) 0 else b i

/-- The string an array of `n` bytes holds: what stands before the first zero,
or `none` when there is no zero in it. -/
def stringAt : ℕ → (ℕ → UInt8) → Option (List UInt8)
  | 0, _ => none
  | n + 1, b => if b 0 = 0 then some [] else (stringAt n fun i => b (i + 1)).map (b 0 :: ·)

theorem writeAt_of_lt {b : ℕ → UInt8} {p i : ℕ} {l : List UInt8} (h : i < p) :
    writeAt b p l i = b i := by
  rw [writeAt, if_neg (by omega)]

theorem writeAt_of_le {b : ℕ → UInt8} {p i : ℕ} {l : List UInt8} (h : p + l.length ≤ i) :
    writeAt b p l i = b i := by
  rw [writeAt, if_neg (by omega)]

theorem writeAt_add {b : ℕ → UInt8} {p i : ℕ} {l : List UInt8} (h : i < l.length) :
    writeAt b p l (p + i) = l[i] := by
  rw [writeAt, if_pos (by omega), Nat.add_sub_cancel_left]
  exact List.getD_eq_getElem l 0 h

theorem length_of_stringAt {n : ℕ} {b : ℕ → UInt8} {l : List UInt8}
    (h : stringAt n b = some l) : l.length < n := by
  induction n generalizing b l with
  | zero => cases h
  | succ n ih =>
    rw [stringAt] at h
    split_ifs at h with h0
    · cases h
      exact Nat.succ_pos n
    · obtain ⟨l', hl', rfl⟩ := Option.map_eq_some_iff.1 h
      exact Nat.succ_lt_succ (ih hl')

/-- An array that begins with a zero-free list and a zero holds that list. -/
theorem stringAt_eq {n : ℕ} {b : ℕ → UInt8} {l : List UInt8} (hn : l.length < n)
    (hl : (0 : UInt8) ∉ l) (hb : ∀ i (h : i < l.length), b i = l[i]) (hz : b l.length = 0) :
    stringAt n b = some l := by
  induction l generalizing n b with
  | nil =>
    cases n with
    | zero => exact absurd hn (Nat.not_lt_zero _)
    | succ n => rw [stringAt, if_pos (by simpa using hz)]
  | cons c l ih =>
    cases n with
    | zero => exact absurd hn (Nat.not_lt_zero _)
    | succ n =>
      have hc : b 0 = c := hb 0 (Nat.succ_pos _)
      have hrest : stringAt n (fun i => b (i + 1)) = some l := by
        refine ih (Nat.lt_of_succ_lt_succ hn) (fun h => hl (List.mem_cons_of_mem c h)) ?_ hz
        intro i h
        simpa using hb (i + 1) (Nat.succ_lt_succ h)
      rw [stringAt, if_neg (by rw [hc]; rintro rfl; exact hl List.mem_cons_self), hrest, hc]
      rfl

end Bytes
