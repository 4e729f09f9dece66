import CheetOS.Lib.Word32

/-!
# Blocks of a 32-bit memory

A memory is a function of the address, and a block the `n` addresses from one on; it may
go round the end of the address space.

* `fill` stores one byte in a block and `copy` is the simultaneous copy of a block;
* `fill_fill`, `copy_upwards` and `copy_downwards` cut them in two parts that are done one
  after the other;
* a copy may be done upwards if it is `UpSafe`, and downwards if it is `DownSafe`: no byte
  is read that was already written.
-/

namespace MemoryBlock

variable {dest src s : UInt32} {n k m : ℕ} {mem : UInt32 → UInt8}

/-- Store `b` in the `n` bytes from `s` on. -/
def fill (s : UInt32) (n : ℕ) (b : UInt8) (mem : UInt32 → UInt8) : UInt32 → UInt8 := fun a =>
  if (a - s).toNat < n then b else mem a

/-- Copy the `n` bytes from `src` on to `dest`, all at once. -/
def copy (dest src : UInt32) (n : ℕ) (mem : UInt32 → UInt8) : UInt32 → UInt8 := fun a =>
  if (a - dest).toNat < n then mem (src + (a - dest)) else mem a

@[simp] theorem fill_zero (s : UInt32) (b : UInt8) (mem : UInt32 → UInt8) :
    fill s 0 b mem = mem := by
  funext a
  rw [fill, if_neg (Nat.not_lt_zero _)]

@[simp] theorem copy_zero (dest src : UInt32) (mem : UInt32 → UInt8) :
    copy dest src 0 mem = mem := by
  funext a
  rw [copy, if_neg (Nat.not_lt_zero _)]

/-! ## Offsets -/

theorem toNat_sub_lt_one (a s : UInt32) : (a - s).toNat < 1 ↔ a = s := by
  rw [Nat.lt_one_iff, ← show (0 : UInt32).toNat = 0 from rfl, UInt32.toNat_inj]
  constructor
  all_goals
    intro h
    grind

/-- The offset from `k` addresses further on. -/
theorem toNat_sub_add (a s : UInt32) (hk : k < 4294967296) :
    (a - (s + UInt32.ofNat k)).toNat
      = if k ≤ (a - s).toNat then (a - s).toNat - k else 4294967296 + (a - s).toNat - k := by
  have hsub : a - (s + UInt32.ofNat k) = a - s - UInt32.ofNat k := by
    grind
  have ha := (a - s).toNat_lt
  rw [hsub, UInt32.toNat_sub, Word32.toNat_ofNat hk]
  split
  all_goals omega

/-- The addresses of the second part of a block. -/
theorem toNat_sub_add_lt (a s : UInt32) (hkm : k + m ≤ 4294967296) :
    (a - (s + UInt32.ofNat k)).toNat < m ↔ k ≤ (a - s).toNat ∧ (a - s).toNat < k + m := by
  by_cases hk : k < 4294967296
  · rw [toNat_sub_add a s hk]
    have ha := (a - s).toNat_lt
    split
    all_goals omega
  · have ha := (a - s).toNat_lt
    omega

/-! ## Filling -/

theorem fill_one (s : UInt32) (b : UInt8) (mem : UInt32 → UInt8) :
    Function.update mem s b = fill s 1 b mem := by
  funext a
  rw [Function.update_apply, fill]
  simp only [toNat_sub_lt_one]

/-- A block is filled in two parts. -/
theorem fill_fill (s : UInt32) (b : UInt8) (mem : UInt32 → UInt8) (hkm : k + m ≤ 4294967296) :
    fill (s + UInt32.ofNat k) m b (fill s k b mem) = fill s (k + m) b mem := by
  funext a
  simp only [fill, toNat_sub_add_lt a s hkm]
  split_ifs
  all_goals first | rfl | omega

/-- A byte and the rest of the block. -/
theorem fill_succ (s : UInt32) (b : UInt8) (mem : UInt32 → UInt8) (hn : n + 1 ≤ 4294967296) :
    fill (s + 1) n b (Function.update mem s b) = fill s (n + 1) b mem := by
  rw [fill_one, Nat.add_comm n]
  exact fill_fill (k := 1) s b mem (by omega)

/-- What a filled block holds. -/
theorem fill_at (b : UInt8) (mem : UInt32 → UInt8) {i : ℕ} (hi : i < n) (hn : n ≤ 4294967296) :
    fill s n b mem (s + UInt32.ofNat i) = b := by
  have hoff : s + UInt32.ofNat i - s = UInt32.ofNat i := by grind
  rw [fill, hoff, if_pos (by rwa [Word32.toNat_ofNat (by omega)])]

/-- What is outside it. -/
theorem fill_outside (b : UInt8) (mem : UInt32 → UInt8) {a : UInt32}
    (ha : ∀ i < n, a ≠ s + UInt32.ofNat i) : fill s n b mem a = mem a := by
  rw [fill, if_neg]
  intro hlt
  exact ha _ hlt (Word32.eq_add_offset a s)

/-! ## Copying -/

theorem copy_one (dest src : UInt32) (mem : UInt32 → UInt8) :
    Function.update mem dest (mem src) = copy dest src 1 mem := by
  funext a
  rw [Function.update_apply, copy]
  simp only [toNat_sub_lt_one]
  split
  · rename_i h
    rw [h, UInt32.sub_self, UInt32.add_zero]
  · rfl

/-- Upwards, no byte is read that was already written. -/
def UpSafe (dest src : UInt32) (n : ℕ) : Prop :=
  ∀ i j, i < j → j < n → src + UInt32.ofNat j ≠ dest + UInt32.ofNat i

/-- Downwards, no byte is read that was already written. -/
def DownSafe (dest src : UInt32) (n : ℕ) : Prop :=
  ∀ i j, j < i → i < n → src + UInt32.ofNat j ≠ dest + UInt32.ofNat i

/-- The two blocks have no byte in common. -/
def Apart (dest src : UInt32) (n : ℕ) : Prop :=
  ∀ i j, i < n → j < n → src + UInt32.ofNat j ≠ dest + UInt32.ofNat i

theorem Apart.upSafe (h : Apart dest src n) : UpSafe dest src n :=
  fun i j hij hj => h i j (hij.trans hj) hj

theorem upSafe_of_le (hle : dest ≤ src) (hn : src.toNat + n ≤ 4294967296) :
    UpSafe dest src n := by
  intro i j hij hj heq
  have hle' := UInt32.le_iff_toNat_le.1 hle
  have hnat := congrArg UInt32.toNat heq
  rw [Word32.toNat_add_ofNat (by omega), Word32.toNat_add_ofNat (by omega)] at hnat
  omega

theorem downSafe_of_lt (hlt : src < dest) (hn : dest.toNat + n ≤ 4294967296) :
    DownSafe dest src n := by
  intro i j hji hi heq
  have hlt' := UInt32.lt_iff_toNat_lt.1 hlt
  have hnat := congrArg UInt32.toNat heq
  rw [Word32.toNat_add_ofNat (by omega), Word32.toNat_add_ofNat (by omega)] at hnat
  omega

theorem UpSafe.shift (h : UpSafe dest src (k + m)) :
    UpSafe (dest + UInt32.ofNat k) (src + UInt32.ofNat k) m := by
  intro i j hij hj
  rw [Word32.add_ofNat_add_ofNat, Word32.add_ofNat_add_ofNat]
  exact h (k + i) (k + j) (by omega) (by omega)

theorem UpSafe.tail (h : UpSafe dest src (n + 1)) : UpSafe (dest + 1) (src + 1) n := by
  rw [Nat.add_comm] at h
  exact h.shift (k := 1)

theorem UpSafe.mono (h : UpSafe dest src n) (hkn : k ≤ n) : UpSafe dest src k :=
  fun i j hij hj => h i j hij (by omega)

theorem DownSafe.mono (h : DownSafe dest src n) (hkn : k ≤ n) : DownSafe dest src k :=
  fun i j hji hi => h i j hji (by omega)

theorem add_sub_shift (a dest src : UInt32) (k : ℕ) :
    src + UInt32.ofNat k + (a - (dest + UInt32.ofNat k)) = src + (a - dest) := by
  grind

/-- A block is copied in two parts, the lower one first. -/
theorem copy_upwards (h : UpSafe dest src (k + m)) (hkm : k + m ≤ 4294967296)
    (mem : UInt32 → UInt8) :
    copy (dest + UInt32.ofNat k) (src + UInt32.ofNat k) m (copy dest src k mem)
      = copy dest src (k + m) mem := by
  funext a
  simp only [copy, toNat_sub_add_lt a dest hkm, add_sub_shift]
  by_cases hin : k ≤ (a - dest).toNat ∧ (a - dest).toNat < k + m
  · -- what is read in the second part was not written in the first one
    have hread : ¬(src + (a - dest) - dest).toNat < k := by
      intro hwritten
      refine h _ (a - dest).toNat (lt_of_lt_of_le hwritten hin.1) hin.2 ?_
      rw [← Word32.eq_add_offset, UInt32.ofNat_toNat]
    rw [if_pos hin, if_neg hread, if_pos hin.2]
  · rw [if_neg hin]
    by_cases hlow : (a - dest).toNat < k
    · rw [if_pos hlow, if_pos (by omega)]
    · rw [if_neg hlow, if_neg (by omega)]

/-- A byte and the rest of the block. -/
theorem copy_succ (h : UpSafe dest src (n + 1)) (hn : n + 1 ≤ 4294967296)
    (mem : UInt32 → UInt8) :
    copy (dest + 1) (src + 1) n (copy dest src 1 mem) = copy dest src (n + 1) mem := by
  rw [Nat.add_comm n] at h ⊢
  exact copy_upwards (k := 1) h (by omega) mem

/-- A block is copied in two parts, the upper one first. -/
theorem copy_downwards (h : DownSafe dest src (k + m)) (hkm : k + m ≤ 4294967296)
    (mem : UInt32 → UInt8) :
    copy dest src k (copy (dest + UInt32.ofNat k) (src + UInt32.ofNat k) m mem)
      = copy dest src (k + m) mem := by
  funext a
  simp only [copy, toNat_sub_add_lt _ dest hkm, add_sub_shift]
  by_cases hlow : (a - dest).toNat < k
  · have hread : ¬(k ≤ (src + (a - dest) - dest).toNat ∧
        (src + (a - dest) - dest).toNat < k + m) := by
      rintro ⟨hge, hwritten⟩
      refine h _ (a - dest).toNat (lt_of_lt_of_le hlow hge) hwritten ?_
      rw [← Word32.eq_add_offset, UInt32.ofNat_toNat]
    rw [if_pos hlow, if_neg hread, if_pos (by omega)]
  · rw [if_neg hlow]
    by_cases hin : (a - dest).toNat < k + m
    · rw [if_pos ⟨by omega, hin⟩, if_pos hin]
    · rw [if_neg (by omega), if_neg hin]

/-- What a copied block holds. -/
theorem copy_at (dest src : UInt32) (mem : UInt32 → UInt8) {i : ℕ} (hi : i < n)
    (hn : n ≤ 4294967296) :
    copy dest src n mem (dest + UInt32.ofNat i) = mem (src + UInt32.ofNat i) := by
  have hoff : dest + UInt32.ofNat i - dest = UInt32.ofNat i := by grind
  rw [copy, hoff, if_pos (by rwa [Word32.toNat_ofNat (by omega)])]

/-- What is outside it. -/
theorem copy_outside (src : UInt32) (mem : UInt32 → UInt8) {a : UInt32}
    (ha : ∀ i < n, a ≠ dest + UInt32.ofNat i) : copy dest src n mem a = mem a := by
  rw [copy, if_neg]
  intro hlt
  exact ha _ hlt (Word32.eq_add_offset a dest)

end MemoryBlock
