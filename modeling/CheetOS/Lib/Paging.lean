import Mathlib

/-!
# Two-level address translation

The 32-bit paging unit with 4 MB pages enabled: a directory of 1024 entries,
each of them absent, a 4 MB page, or the address of a table of 1024 entries for
4 KB pages.  `tables a i` is entry `i` of the table that starts at the physical
address `a`.

* `translate` is the walk the processor does for one access;
* `translate_large`, `translate_small` give its result for the two kinds of page
  and `translate_none`, `translate_user_none` its faults;
* `Aligned` words are page addresses; `frame_or`, `flags_or` take apart an entry
  that was built by OR-ing flags into one.
-/

namespace Paging

/-- The privilege an access is made with. -/
inductive Mode
  | user
  | supervisor
  deriving DecidableEq, Repr

/-- The kind of an access. -/
inductive Access
  | read
  | write
  deriving DecidableEq, Repr

/-! ## Entries -/

/-- Bit 0 of an entry: the page or table is there. -/
def present (e : UInt32) : Bool := e &&& 1 != 0

/-- Bit 1: it may be written from user mode. -/
def writable (e : UInt32) : Bool := e &&& 2 != 0

/-- Bit 2: it may be accessed from user mode. -/
def userBit (e : UInt32) : Bool := e &&& 4 != 0

/-- Bit 7 of a directory entry: it is a 4 MB page. -/
def large (e : UInt32) : Bool := e &&& 0x80 != 0

/-- An entry lets an access through.  Supervisor accesses ignore the writable
bit: write protection is off in `cr0`. -/
def permits (m : Mode) (w : Access) (e : UInt32) : Bool :=
  present e && (m == .supervisor || (userBit e && (w == .read || writable e)))

/-- The physical address an access to `va` reaches, or `none` for a page fault. -/
def translate (dir : UInt32 → UInt32) (tables : UInt32 → UInt32 → UInt32)
    (m : Mode) (w : Access) (va : UInt32) : Option UInt32 :=
  let pde := dir (va >>> 22)
  if permits m w pde = false then none
  else if large pde then some ((pde &&& 0xFFC00000) ||| (va &&& 0x3FFFFF))
  else
    let pte := tables (pde &&& 0xFFFFF000) ((va >>> 12) &&& 0x3FF)
    if permits m w pte = false then none
    else some ((pte &&& 0xFFFFF000) ||| (va &&& 0xFFF))

/-! ## Words and bits -/

/-- The address of a 4 KB page. -/
def Aligned (a : UInt32) : Prop := a &&& 0xFFF = 0

instance (a : UInt32) : Decidable (Aligned a) := inferInstanceAs (Decidable (_ = _))

theorem and_or_distrib_left (a b c : UInt32) : a &&& (b ||| c) = (a &&& b) ||| (a &&& c) := by
  rw [← UInt32.toNat_inj]
  simp only [UInt32.toNat_and, UInt32.toNat_or]
  exact Nat.and_or_distrib_left ..

theorem and_or_distrib_right (a b c : UInt32) : (a ||| b) &&& c = (a &&& c) ||| (b &&& c) := by
  rw [UInt32.and_comm, and_or_distrib_left, UInt32.and_comm c a, UInt32.and_comm c b]

/-- The address field of an entry built from a page address and flags. -/
theorem frame_or {a f : UInt32} (ha : Aligned a) (hf : f &&& 0xFFFFF000 = 0) :
    (a ||| f) &&& 0xFFFFF000 = a := by
  have hall : a &&& (0xFFFFF000 ||| 0xFFF) = a := by
    rw [show (0xFFFFF000 ||| 0xFFF : UInt32) = -1 from by decide, UInt32.and_neg_one]
  rw [and_or_distrib_left, show a &&& 0xFFF = 0 from ha, UInt32.or_zero] at hall
  rw [and_or_distrib_right, hf, UInt32.or_zero, hall]

/-- The flag bits of an entry built from a page address and flags. -/
theorem flags_or {a f : UInt32} (ha : Aligned a) {bit : UInt32}
    (hbit : (0xFFF : UInt32) &&& bit = bit) : (a ||| f) &&& bit = f &&& bit := by
  have hzero : a &&& bit = 0 := by
    rw [← hbit, ← UInt32.and_assoc, show a &&& 0xFFF = 0 from ha, UInt32.zero_and]
  rw [and_or_distrib_right, hzero, UInt32.zero_or]

/-- An offset of `k` bits OR-ed into an address with `k` free low bits is added. -/
theorem toNat_or_low {b x mask : UInt32} {k : ℕ} (hmask : mask.toNat = 2 ^ k - 1)
    (hb : b.toNat % 2 ^ k = 0) : (b ||| (x &&& mask)).toNat = b.toNat + x.toNat % 2 ^ k := by
  rw [UInt32.toNat_or, UInt32.toNat_and, hmask, Nat.and_two_pow_sub_one_eq_mod]
  have hlt : x.toNat % 2 ^ k < 2 ^ k := Nat.mod_lt _ (by positivity)
  have hsplit : b.toNat = 2 ^ k * (b.toNat / 2 ^ k) := by
    have := Nat.div_add_mod b.toNat (2 ^ k)
    omega
  conv_lhs => rw [hsplit]
  rw [← Nat.two_pow_add_eq_or_of_lt hlt, ← hsplit]

/-- Clearing the low bits of an address in an aligned block gives the block. -/
theorem and_not_of_lt {a b mask : UInt32} {k : ℕ} (hmask : mask.toNat = 2 ^ k - 1)
    (hb : b &&& mask = 0) (hle : b.toNat ≤ a.toNat) (hlt : a.toNat < b.toNat + 2 ^ k) :
    a &&& ~~~mask = b := by
  have hfull : mask ||| ~~~mask = -1 := UInt32.toBitVec_inj.1 (by simp)
  have hnone : mask &&& ~~~mask = 0 := UInt32.toBitVec_inj.1 (by simp)
  have hhigh : b &&& ~~~mask = b := by
    have hall : b &&& (mask ||| ~~~mask) = b := by rw [hfull, UInt32.and_neg_one]
    rwa [and_or_distrib_left, hb, UInt32.zero_or] at hall
  have hbz : b.toNat % 2 ^ k = 0 := by
    have hand := congrArg UInt32.toNat hb
    rwa [UInt32.toNat_and, hmask, Nat.and_two_pow_sub_one_eq_mod] at hand
  have hsub : (a - b).toNat = a.toNat - b.toNat :=
    UInt32.toNat_sub_of_le a b (UInt32.le_iff_toNat_le.2 hle)
  have hsum : a = b ||| ((a - b) &&& mask) := by
    rw [← UInt32.toNat_inj, toNat_or_low hmask hbz, hsub, Nat.mod_eq_of_lt (by omega)]
    omega
  rw [hsum, and_or_distrib_right, hhigh, UInt32.and_assoc, hnone, UInt32.and_zero, UInt32.or_zero]

/-- The directory index of an address. -/
theorem toNat_dirIndex (va : UInt32) : (va >>> 22).toNat = va.toNat / 4194304 := by
  rw [UInt32.toNat_shiftRight, Nat.shiftRight_eq_div_pow]
  rfl

/-- The table index of an address. -/
theorem toNat_tableIndex (va : UInt32) :
    ((va >>> 12) &&& 0x3FF).toNat = va.toNat / 4096 % 1024 := by
  rw [UInt32.toNat_and, UInt32.toNat_shiftRight, Nat.shiftRight_eq_div_pow]
  exact Nat.and_two_pow_sub_one_eq_mod _ 10

/-! ## The walk -/

section Walk

variable {dir : UInt32 → UInt32} {tables : UInt32 → UInt32 → UInt32} {m : Mode} {w : Access}
  {va pde : UInt32}

/-- An absent directory entry faults. -/
theorem translate_none (h : present (dir (va >>> 22)) = false) :
    translate dir tables m w va = none := by
  simp [translate, permits, h]

/-- A supervisor entry faults in user mode. -/
theorem translate_user_none (h : userBit (dir (va >>> 22)) = false) :
    translate dir tables .user w va = none := by
  simp [translate, permits, h]

/-- Privileged code reaches whatever other code reaches. -/
theorem translate_supervisor {a : UInt32} (h : translate dir tables .user w va = some a) :
    translate dir tables .supervisor w va = some a := by
  have hpermits : ∀ e, permits .user w e = true → permits .supervisor w e = true := by
    intro e he
    unfold permits at he ⊢
    rw [Bool.and_eq_true] at he
    rw [he.1]
    rfl
  unfold translate at h ⊢
  dsimp only at h ⊢
  split_ifs at h with hp hlarge hp'
  · rw [Bool.not_eq_false] at hp
    rw [if_neg (by rw [hpermits _ hp]; decide), if_pos hlarge]
    exact h
  · rw [Bool.not_eq_false] at hp hp'
    rw [if_neg (by rw [hpermits _ hp]; decide), if_neg hlarge,
      if_neg (by rw [hpermits _ hp']; decide)]
    exact h

/-- A 4 MB page maps an address to the same offset in the page. -/
theorem translate_large (hdir : dir (va >>> 22) = pde) (hp : permits m w pde = true)
    (hl : large pde = true) :
    translate dir tables m w va = some ((pde &&& 0xFFC00000) ||| (va &&& 0x3FFFFF)) := by
  simp [translate, hdir, hp, hl]

/-- A table maps an address through its entry. -/
theorem translate_small {pte : UInt32} (hdir : dir (va >>> 22) = pde)
    (hp : permits m w pde = true) (hl : large pde = false)
    (htable : tables (pde &&& 0xFFFFF000) ((va >>> 12) &&& 0x3FF) = pte) :
    translate dir tables m w va =
      if permits m w pte then some ((pte &&& 0xFFFFF000) ||| (va &&& 0xFFF)) else none := by
  by_cases hpte : permits m w pte = true
  · simp [translate, hdir, hp, hl, htable, hpte]
  · simp [translate, hdir, hp, hl, htable, hpte]

end Walk

end Paging
