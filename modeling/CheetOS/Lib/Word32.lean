import Mathlib

/-!
# 32-bit arithmetic without wrap-around

The natural number behind a sum of two words, when it fits, and the sums that
occur when an address runs through an array.
-/

namespace Word32

theorem toNat_add_of_lt {a b : UInt32} (h : a.toNat + b.toNat < 4294967296) :
    (a + b).toNat = a.toNat + b.toNat := by
  rw [UInt32.toNat_add]
  exact Nat.mod_eq_of_lt h

/-- The successor of a word that is below another one does not wrap. -/
theorem toNat_succ {a b : UInt32} (h : a < b) : (a + 1).toNat = a.toNat + 1 := by
  have hlt := UInt32.lt_iff_toNat_lt.1 h
  have hb := b.toNat_lt
  refine toNat_add_of_lt ?_
  simp only [UInt32.reduceToNat]
  omega

/-- The predecessor of a word that is not zero. -/
theorem toNat_pred {a : UInt32} {n : ℕ} (h : a.toNat = n + 1) : a ≠ 0 ∧ (a - 1).toNat = n := by
  constructor
  · rintro rfl
    cases h
  · rw [UInt32.toNat_sub_of_le, h]
    · rfl
    · rw [UInt32.le_iff_toNat_le, h]
      exact Nat.succ_pos n

theorem toNat_ofNat {n : ℕ} (h : n < 4294967296) : (UInt32.ofNat n).toNat = n := by
  rw [UInt32.toNat_ofNat']
  exact Nat.mod_eq_of_lt h

theorem toNat_add_ofNat {a : UInt32} {n : ℕ} (h : a.toNat + n < 4294967296) :
    (a + UInt32.ofNat n).toNat = a.toNat + n := by
  have hn : (UInt32.ofNat n).toNat = n := toNat_ofNat (by omega)
  rw [toNat_add_of_lt (by rw [hn]; exact h), hn]

/-- One step further in an array. -/
theorem add_one_add_ofNat (a : UInt32) (n : ℕ) :
    a + 1 + UInt32.ofNat n = a + UInt32.ofNat (n + 1) := by
  rw [UInt32.ofNat_add, UInt32.add_assoc, UInt32.add_comm 1]
  rfl

theorem add_ofNat_add_ofNat (a : UInt32) (m n : ℕ) :
    a + UInt32.ofNat m + UInt32.ofNat n = a + UInt32.ofNat (m + n) := by
  rw [UInt32.ofNat_add, UInt32.add_assoc]

/-- Different offsets give different addresses. -/
theorem add_ofNat_inj {a : UInt32} {m n : ℕ} (hm : m < 4294967296) (hn : n < 4294967296)
    (h : a + UInt32.ofNat m = a + UInt32.ofNat n) : m = n := by
  have heq : UInt32.ofNat m = UInt32.ofNat n := (UInt32.add_right_inj a).1 h
  rw [← toNat_ofNat hm, ← toNat_ofNat hn, heq]

/-- An address by its offset from another one. -/
theorem eq_add_offset (a base : UInt32) : a = base + UInt32.ofNat (a - base).toNat := by
  rw [UInt32.ofNat_toNat, UInt32.add_comm, UInt32.sub_add_cancel]

@[simp] theorem add_ofNat_zero (a : UInt32) : a + UInt32.ofNat 0 = a := UInt32.add_zero a

end Word32
