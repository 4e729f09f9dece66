import CheetOS.Lib.MemoryBlock

/-!
# Bytes in a memory

Memories that are functions from 32-bit addresses to bytes, and lists of bytes in them.

* `Stands mem p l` says that the bytes `l` stand from `p` on, `write p l` writes them there;
* `stands_write`, `write_of_le`, `Stands.write` say what a write leaves of the lists that stand;
* `InBlock p n a` says that `a` is one of the `n` addresses from `p` on.
-/

namespace ByteMemory

open MemoryBlock

variable {mem mem' : UInt32 → UInt8} {p q a : UInt32} {l k : List UInt8}

/-- The bytes `l` stand from the address `p` on. -/
def Stands (mem : UInt32 → UInt8) (p : UInt32) (l : List UInt8) : Prop :=
  ∀ i (h : i < l.length), mem (p + UInt32.ofNat i) = l[i]

instance decidableStands (mem : UInt32 → UInt8) (p : UInt32) (l : List UInt8) :
    Decidable (Stands mem p l) :=
  decidable_of_iff (∀ i : Fin l.length, mem (p + UInt32.ofNat i) = l[i]) <| by
    constructor
    · intro h i hi
      exact h ⟨i, hi⟩
    · intro h i
      exact h i i.isLt

/-- The memory with the bytes `l` from `p` on. -/
def write (p : UInt32) (l : List UInt8) (mem : UInt32 → UInt8) : UInt32 → UInt8 := fun a =>
  l.getD (a - p).toNat (mem a)

@[simp] theorem stands_nil : Stands mem p [] := by
  intro i hi
  exact absurd hi (Nat.not_lt_zero i)

theorem stands_cons {b : UInt8} : Stands mem p (b :: l) ↔ mem p = b ∧ Stands mem (p + 1) l := by
  constructor
  · intro h
    refine ⟨?_, fun i hi => ?_⟩
    · have hzero := h 0 (Nat.succ_pos _)
      rwa [Word32.add_ofNat_zero] at hzero
    · rw [Word32.add_one_add_ofNat]
      exact h (i + 1) (Nat.succ_lt_succ hi)
  · rintro ⟨hb, hl⟩ i hi
    cases i with
    | zero =>
      rw [Word32.add_ofNat_zero]
      exact hb
    | succ i =>
      rw [← Word32.add_one_add_ofNat]
      exact hl i (Nat.lt_of_succ_lt_succ hi)

theorem stands_append :
    Stands mem p (l ++ k) ↔ Stands mem p l ∧ Stands mem (p + UInt32.ofNat l.length) k := by
  induction l generalizing p with
  | nil => simp
  | cons b l ih =>
    rw [List.cons_append, stands_cons, stands_cons, ih, List.length_cons,
      Word32.add_one_add_ofNat, and_assoc]

/-- A part of a list that stands. -/
theorem Stands.drop (h : Stands mem p l) {n : ℕ} (hn : n ≤ l.length) :
    Stands mem (p + UInt32.ofNat n) (l.drop n) := by
  have hparts : Stands mem p (l.take n ++ l.drop n) := by
    rw [List.take_append_drop]
    exact h
  have hrest := (stands_append.1 hparts).2
  rwa [List.length_take_of_le hn] at hrest

theorem Stands.take (h : Stands mem p l) (n : ℕ) : Stands mem p (l.take n) := by
  have hparts : Stands mem p (l.take n ++ l.drop n) := by
    rw [List.take_append_drop]
    exact h
  exact (stands_append.1 hparts).1

/-- Some bytes stand everywhere. -/
theorem exists_stands (mem : UInt32 → UInt8) (p : UInt32) (n : ℕ) :
    ∃ l : List UInt8, l.length = n ∧ Stands mem p l := by
  induction n generalizing p with
  | zero => exact ⟨[], rfl, stands_nil⟩
  | succ n ih =>
    obtain ⟨l, hlen, hl⟩ := ih (p + 1)
    exact ⟨mem p :: l, congrArg (· + 1) hlen, stands_cons.2 ⟨rfl, hl⟩⟩

/-- Only the bytes of the list matter. -/
theorem Stands.congr (h : Stands mem p l) (hlen : l.length ≤ 4294967296)
    (hmem : ∀ a, (a - p).toNat < l.length → mem' a = mem a) : Stands mem' p l := by
  intro i hi
  rw [← h i hi]
  refine hmem _ ?_
  rw [UInt32.add_comm, UInt32.add_sub_cancel, Word32.toNat_ofNat (by omega)]
  exact hi

theorem write_of_le (h : l.length ≤ (a - p).toNat) : write p l mem a = mem a :=
  List.getD_eq_default _ _ h

theorem write_of_lt (h : (a - p).toNat < l.length) : write p l mem a = l[(a - p).toNat] := by
  rw [write, List.getD_eq_getElem _ _ h]

@[simp] theorem write_nil : write p [] mem = mem := by
  funext a
  exact write_of_le (Nat.zero_le _)

theorem write_singleton (p : UInt32) (b : UInt8) (mem : UInt32 → UInt8) :
    write p [b] mem = Function.update mem p b := by
  funext a
  by_cases h : a = p
  · subst h
    have hzero : (a - a).toNat < [b].length := by simp
    rw [write_of_lt hzero, Function.update_self]
    simp
  · rw [Function.update_of_ne h]
    refine write_of_le ?_
    rw [List.length_singleton]
    exact Nat.le_of_not_lt fun hlt => h ((toNat_sub_lt_one a p).1 hlt)

/-- **What was written is there.** -/
theorem stands_write (hlen : l.length ≤ 4294967296) : Stands (write p l mem) p l := by
  intro i hi
  have hoffset : (p + UInt32.ofNat i - p).toNat = i := by
    rw [UInt32.add_comm, UInt32.add_sub_cancel, Word32.toNat_ofNat (by omega)]
  have hlt : (p + UInt32.ofNat i - p).toNat < l.length := by rwa [hoffset]
  rw [write_of_lt hlt]
  simp only [hoffset]

/-- Byte after byte. -/
theorem write_cons (b : UInt8) (hlen : l.length + 1 ≤ 4294967296) :
    write (p + 1) l (Function.update mem p b) = write p (b :: l) mem := by
  funext a
  have hoffset := toNat_sub_add a p (k := 1) (by decide)
  rw [show UInt32.ofNat 1 = 1 from rfl] at hoffset
  have hlt := (a - p).toNat_lt
  by_cases hfirst : a = p
  · subst hfirst
    rw [UInt32.sub_self, UInt32.toNat_zero] at hoffset
    rw [if_neg (by omega)] at hoffset
    rw [write_of_le (by omega), Function.update_self, write, UInt32.sub_self, UInt32.toNat_zero,
      List.getD_cons_zero]
  · have hpos : 1 ≤ (a - p).toNat :=
      Nat.le_of_not_lt fun hless => hfirst ((toNat_sub_lt_one a p).1 hless)
    rw [if_pos hpos] at hoffset
    have hindex : (a - p).toNat = (a - (p + 1)).toNat + 1 := by omega
    rw [write, write, hindex, List.getD_cons_succ, Function.update_of_ne hfirst]

/-- The address `a` is one of the `n` from `p` on. -/
def InBlock (p : UInt32) (n : ℕ) (a : UInt32) : Prop := (a - p).toNat < n

/-- The `n` bytes from `p` on and the `m` bytes from `q` on have nothing in common. -/
def Disjoint (p : UInt32) (n : ℕ) (q : UInt32) (m : ℕ) : Prop :=
  ∀ a, InBlock p n a → ¬InBlock q m a

theorem disjoint_of_le {n m : ℕ} (hpq : p.toNat + n ≤ q.toNat) (hq : q.toNat + m ≤ 4294967296) :
    Disjoint p n q m := by
  intro a ha hb
  have hp' := UInt32.toNat_sub a p
  have hq' := UInt32.toNat_sub a q
  have hlt := a.toNat_lt
  unfold InBlock at ha hb
  omega

theorem Disjoint.symm {n m : ℕ} (h : Disjoint p n q m) : Disjoint q m p n :=
  fun a ha hb => h a hb ha

theorem Disjoint.mono {n m n' m' : ℕ} (h : Disjoint p n q m) (hn : n' ≤ n) (hm : m' ≤ m) :
    Disjoint p n' q m' :=
  fun a ha hb => h a (Nat.lt_of_lt_of_le ha hn) (Nat.lt_of_lt_of_le hb hm)

/-- **A write elsewhere.** -/
theorem Stands.write (h : Stands mem p l) (hlen : l.length ≤ 4294967296)
    (happ : Disjoint p l.length q k.length) : Stands (ByteMemory.write q k mem) p l :=
  h.congr hlen fun a ha => write_of_le (Nat.le_of_not_lt (happ a ha))

theorem inBlock_shift {n i : ℕ} (hn : i + n ≤ 4294967296)
    (h : InBlock (p + UInt32.ofNat i) n a) : InBlock p (i + n) a := by
  have ha := UInt32.toNat_sub a p
  have ha' := UInt32.toNat_sub a (p + UInt32.ofNat i)
  have hp := UInt32.toNat_add p (UInt32.ofNat i)
  have hi := UInt32.toNat_ofNat' (n := i)
  have hlt := a.toNat_lt
  have hplt := p.toNat_lt
  unfold InBlock at h ⊢
  omega

/-- A part of the second block. -/
theorem Disjoint.part {n m m' i : ℕ} (h : Disjoint p n q m) (hi : i + m' ≤ m)
    (hm : m ≤ 4294967296) : Disjoint p n (q + UInt32.ofNat i) m' :=
  fun a ha hb => h a ha (Nat.lt_of_lt_of_le (inBlock_shift (Nat.le_trans hi hm) hb) hi)

/-- A list is written behind another. -/
theorem stands_append_write (h : Stands mem p l) (hlen : l.length + k.length ≤ 4294967296) :
    Stands (write (p + UInt32.ofNat l.length) k mem) p (l ++ k) := by
  refine stands_append.2 ⟨h.congr (by omega) fun a ha => ?_, stands_write (by omega)⟩
  refine write_of_le (Nat.le_of_not_lt fun hin => ?_)
  have ha' := UInt32.toNat_sub a p
  have hin' := UInt32.toNat_sub a (p + UInt32.ofNat l.length)
  have hp := UInt32.toNat_add p (UInt32.ofNat l.length)
  have hl := UInt32.toNat_ofNat' (n := l.length)
  have hlt := a.toNat_lt
  have hplt := p.toNat_lt
  omega

end ByteMemory
