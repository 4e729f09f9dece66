import Mathlib.Data.BitVec

/-!
# Bit fields

Words that are made of fields, as the bit fields of a C structure are.

* `get_set_same` and `get_set_of_disjoint` read back what was assigned to a field;
* `assign_eq_of_cover` says that a word is determined by assignments to fields that cover
  it, whatever was in it before.
-/

namespace BitField

/-- Bits that were set are set. -/
theorem or_and_self {w : ℕ} (x m : BitVec w) : (x ||| m) &&& m = m := by
  ext i hi
  simp only [BitVec.getElem_and, BitVec.getElem_or]
  cases m[i]
  · simp
  · simp

/-- A field of `n` bits of a word of `w` bits, from the bit `lo` on. -/
structure Field (w n : ℕ) where
  lo : ℕ
  fits : lo + n ≤ w

variable {w n m : ℕ}

namespace Field

/-- The field contains a bit. -/
def Has (f : Field w n) (i : ℕ) : Prop := f.lo ≤ i ∧ i < f.lo + n

instance (f : Field w n) (i : ℕ) : Decidable (f.Has i) :=
  inferInstanceAs (Decidable (f.lo ≤ i ∧ i < f.lo + n))

/-- The bits of the field. -/
def get (f : Field w n) (x : BitVec w) : BitVec n := x.extractLsb' f.lo n

/-- Assign to the field. -/
def set (f : Field w n) (v : BitVec n) (x : BitVec w) : BitVec w :=
  (x &&& ~~~((BitVec.allOnes n).setWidth w <<< f.lo)) ||| (v.setWidth w <<< f.lo)

/-- Two fields have no bit in common. -/
def Disjoint (f : Field w n) (g : Field w m) : Prop := f.lo + n ≤ g.lo ∨ g.lo + m ≤ f.lo

instance (f : Field w n) (g : Field w m) : Decidable (f.Disjoint g) :=
  inferInstanceAs (Decidable (f.lo + n ≤ g.lo ∨ g.lo + m ≤ f.lo))

theorem getLsbD_set (f : Field w n) (v : BitVec n) (x : BitVec w) (i : ℕ) :
    (f.set v x).getLsbD i = if f.Has i then v.getLsbD (i - f.lo) else x.getLsbD i := by
  have hfits := f.fits
  rw [set]
  simp only [BitVec.getLsbD_or, BitVec.getLsbD_and, BitVec.getLsbD_not, BitVec.getLsbD_shiftLeft,
    BitVec.getLsbD_setWidth, BitVec.getLsbD_allOnes]
  split
  next h =>
    obtain ⟨hlo, hhi⟩ := h
    simp [show i < w by omega, show ¬i < f.lo by omega, show i - f.lo < w by omega,
      show i - f.lo < n by omega]
  next h =>
    by_cases hw : i < w
    · by_cases hlo : i < f.lo
      · simp [hw, hlo]
      · have hhi : ¬i < f.lo + n := fun hhi => h ⟨not_lt.1 hlo, hhi⟩
        have hbeyond : n ≤ i - f.lo := by omega
        simp [hw, hlo, BitVec.getLsbD_of_ge v _ hbeyond, show ¬i - f.lo < n by omega]
    · simp [hw, BitVec.getLsbD_of_ge x i (by omega)]

@[simp] theorem get_set_same (f : Field w n) (v : BitVec n) (x : BitVec w) :
    f.get (f.set v x) = v := by
  apply BitVec.eq_of_getLsbD_eq
  intro i hi
  rw [get, BitVec.getLsbD_extractLsb', getLsbD_set, if_pos ⟨by omega, by omega⟩]
  simp [hi]

theorem get_set_of_disjoint {f : Field w n} {g : Field w m} (h : f.Disjoint g) (v : BitVec m)
    (x : BitVec w) : f.get (g.set v x) = f.get x := by
  apply BitVec.eq_of_getLsbD_eq
  intro i hi
  have hout : ¬g.Has (f.lo + i) := by
    rintro ⟨hlo, hhi⟩
    rcases h with h | h
    · omega
    · omega
  rw [get, get, BitVec.getLsbD_extractLsb', BitVec.getLsbD_extractLsb', getLsbD_set, if_neg hout]

end Field

/-! ## Assignments -/

/-- An assignment to a field. -/
structure Assignment (w : ℕ) where
  width : ℕ
  field : Field w width
  value : BitVec width

/-- Assign to a field. -/
def Field.becomes (f : Field w n) (v : BitVec n) : Assignment w := ⟨n, f, v⟩

/-- One assignment after the other. -/
def assign (as : List (Assignment w)) (x : BitVec w) : BitVec w :=
  as.foldl (fun x a => a.field.set a.value x) x

theorem assign_cons (a : Assignment w) (as : List (Assignment w)) (x : BitVec w) :
    assign (a :: as) x = assign as (a.field.set a.value x) := rfl

/-- A bit that both words have, or that is assigned to. -/
theorem getLsbD_assign {as : List (Assignment w)} {x y : BitVec w} {i : ℕ}
    (h : x.getLsbD i = y.getLsbD i ∨ ∃ a ∈ as, a.field.Has i) :
    (assign as x).getLsbD i = (assign as y).getLsbD i := by
  induction as generalizing x y with
  | nil =>
    rcases h with h | ⟨a, ha, -⟩
    · exact h
    · cases ha
  | cons a as ih =>
    rw [assign_cons, assign_cons]
    apply ih
    by_cases hbit : a.field.Has i
    · left
      rw [Field.getLsbD_set, Field.getLsbD_set, if_pos hbit, if_pos hbit]
    · rcases h with h | ⟨b, hb, hhas⟩
      · left
        rw [Field.getLsbD_set, Field.getLsbD_set, if_neg hbit, if_neg hbit, h]
      · rcases List.mem_cons.1 hb with rfl | hb
        · exact absurd hhas hbit
        · exact Or.inr ⟨b, hb, hhas⟩

/-- The first bit and the number of bits of the field. -/
def Assignment.span (a : Assignment w) : ℕ × ℕ := (a.field.lo, a.width)

/-- Fields that cover the word determine it. -/
theorem assign_eq_of_cover (as : List (Assignment w))
    (h : ∀ i < w, ∃ p ∈ as.map Assignment.span, p.1 ≤ i ∧ i < p.1 + p.2) (x y : BitVec w) :
    assign as x = assign as y := by
  apply BitVec.eq_of_getLsbD_eq
  intro i hi
  obtain ⟨p, hp, hin⟩ := h i hi
  obtain ⟨a, ha, rfl⟩ := List.mem_map.1 hp
  exact getLsbD_assign (Or.inr ⟨a, ha, hin⟩)

end BitField
