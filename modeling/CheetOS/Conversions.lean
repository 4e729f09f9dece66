import CheetOS.Strings
import CheetOS.Lib.Numeral

/-!
# Number conversions (`lib.c`)

`itoa` and `strrev` on an array of bytes, in which a pointer is an index; an access outside
the array has no result.

* `strrev_eq` and `itoa_eq` say what the two leave in the array: the numeral of the value,
  the zero that ends it, and every other byte as it was;
* `IsNumeral` is what a numeral should be: digits of the base without leading zeros that
  denote the number; `isNumeral_numeral` that those of `itoa` are.
-/

namespace CheetOS

/-! ## Arrays -/

/-- The bytes from an index of an array on. -/
def bytesFrom (b : List UInt8) (p : ℕ) : ℕ → Option UInt8 := fun i => b[p + i]?

/-- `b[i] = c`. -/
def setByte (b : List UInt8) (i : ℕ) (c : UInt8) : Option (List UInt8) :=
  if i < b.length then some (b.set i c) else none

theorem setByte_append (l : List UInt8) (c d : UInt8) (l' : List UInt8) :
    setByte (l ++ c :: l') l.length d = some (l ++ d :: l') := by
  rw [setByte, if_pos (by simp)]
  simp

theorem getElem?_append_cons (l : List UInt8) (c : UInt8) (l' : List UInt8) :
    (l ++ c :: l')[l.length]? = some c := by
  simp

/-- A string somewhere in an array. -/
theorem holds_bytesFrom {text : List UInt8} (htext : (0 : UInt8) ∉ text) (l l' : List UInt8) :
    Holds (bytesFrom (l ++ (text ++ 0 :: l')) l.length) text where
  bytes := by
    intro i hi
    unfold bytesFrom
    rw [List.getElem?_append_right (Nat.le_add_right _ _), Nat.add_sub_cancel_left,
      List.getElem?_append_left hi, List.getElem?_eq_getElem hi]
  stop := by
    unfold bytesFrom
    rw [List.getElem?_append_right (Nat.le_add_right _ _), Nat.add_sub_cancel_left]
    exact getElem?_append_cons text 0 l'
  clean := htext

/-- The parts of an array around the bytes that are written. -/
theorem array_parts {b : List UInt8} {p n : ℕ} (h : p + n ≤ b.length) :
    ∃ l mid l', b = l ++ (mid ++ l') ∧ l.length = p ∧ mid.length = n := by
  refine ⟨b.take p, (b.drop p).take n, (b.drop p).drop n, ?_, ?_, ?_⟩
  · rw [List.take_append_drop, List.take_append_drop]
  · rw [List.length_take]
    omega
  · rw [List.length_take, List.length_drop]
    omega

/-! ## strrev -/

/-- The loop of `strrev`, `n` rounds before its bound. -/
def strrevLoop (s : ℕ) : ℕ → ℕ → ℕ → List UInt8 → Option (List UInt8)
  | 0, _, _, _ => none
  | n + 1, beg, last, b =>
    if beg < last then do
      let tmp ← b[s + last]?
      let c ← b[s + beg]?
      let b ← setByte b (s + last) c
      let b ← setByte b (s + beg) tmp
      strrevLoop s n (beg + 1) (last - 1) b
    else some b

/-- `strrev(s)`.  The empty string, whose last index is -1, has no round either way. -/
def strrev (b : List UInt8) (s : ℕ) : Option (List UInt8) := do
  let len ← strlen (bytesFrom b s)
  strrevLoop s (len + 1) 0 (len - 1) b

/-- The loop reverses what is between its two indexes. -/
theorem strrevLoop_eq {s n : ℕ} {text : List UInt8} (beg : ℕ) (l l' : List UInt8)
    (hn : text.length < n) (hl : s + beg = l.length) :
    strrevLoop s n beg (beg + text.length - 1) (l ++ (text ++ l'))
      = some (l ++ (text.reverse ++ l')) := by
  induction text using List.bidirectionalRec generalizing n beg l l' with
  | nil =>
    obtain ⟨n, rfl⟩ := Nat.exists_eq_succ_of_ne_zero (Nat.ne_of_gt hn)
    rw [strrevLoop, if_neg (by rw [List.length_nil]; omega)]
    rfl
  | singleton c =>
    obtain ⟨n, rfl⟩ := Nat.exists_eq_succ_of_ne_zero (Nat.ne_of_gt (Nat.zero_lt_of_lt hn))
    rw [strrevLoop, if_neg (by rw [List.length_singleton]; omega)]
    rfl
  | cons_append c text d ih =>
    obtain ⟨n, rfl⟩ := Nat.exists_eq_succ_of_ne_zero (Nat.ne_of_gt (Nat.zero_lt_of_lt hn))
    have hlen : (c :: (text ++ [d])).length = text.length + 2 := by simp
    rw [hlen] at hn ⊢
    have hlast : s + (beg + (text.length + 2) - 1) = (l ++ c :: text).length := by
      rw [List.length_append, List.length_cons, ← hl]
      omega
    have hb : l ++ (c :: (text ++ [d]) ++ l') = (l ++ c :: text) ++ d :: l' := by simp
    have hswap : (l ++ c :: text) ++ c :: l' = l ++ c :: (text ++ c :: l') := by simp
    have hnext : l ++ d :: (text ++ c :: l') = (l ++ [d]) ++ (text ++ c :: l') := by simp
    have hround := ih (n := n) (beg + 1) (l ++ [d]) (c :: l') (by omega)
      (by rw [List.length_append, List.length_singleton, ← hl]; omega)
    have hindex : beg + (text.length + 2) - 1 - 1 = beg + 1 + text.length - 1 := by omega
    have hget : (l ++ c :: text ++ d :: l')[l.length]? = some c := by
      rw [List.append_assoc]
      exact getElem?_append_cons l c _
    rw [strrevLoop, if_pos (by omega), hlast, hl, hb, getElem?_append_cons, hget]
    simp only [Option.bind_eq_bind, Option.bind_some]
    rw [setByte_append, Option.bind_some, hswap, setByte_append, Option.bind_some, hnext, hindex,
      hround]
    simp

/-- **What `strrev` does** to a string in an array. -/
theorem strrev_eq {text : List UInt8} (htext : (0 : UInt8) ∉ text)
    (hlen : text.length < addressSpace) (l l' : List UInt8) :
    strrev (l ++ (text ++ 0 :: l')) l.length = some (l ++ (text.reverse ++ 0 :: l')) := by
  have hstr : strlen (bytesFrom (l ++ (text ++ 0 :: l')) l.length) = some text.length := by
    rw [strlen, cstr_eq_some.2 ⟨hlen, holds_bytesFrom htext l l'⟩]
    rfl
  have hloop := strrevLoop_eq (s := l.length) 0 l (0 :: l')
    (Nat.lt_succ_self text.length) rfl
  rw [Nat.zero_add] at hloop
  rw [strrev, hstr]
  exact hloop

/-! ## itoa -/

/-- `lookup`, with the zero that ends it. -/
def lookup : List UInt8 := "0123456789ABCDEFGHIJKLMNOPQRSTUVWXYZ".toUTF8.toList ++ [0]

/-- The loop of `itoa`, `n` rounds before its bound. -/
def itoaLoop (radix : UInt32) : ℕ → UInt32 → ℕ → List UInt8 → Option (ℕ × List UInt8)
  | 0, _, _, _ => none
  | n + 1, newval, newbuf, b =>
    if newval > 0 then do
      let c ← lookup[(newval % radix).toNat]?
      let b ← setByte b newbuf c
      itoaLoop radix n (newval / radix) (newbuf + 1) b
    else some (newbuf, b)

/-- `itoa(value, buf, radix)`.  The remainder and the quotient are those of unsigned words.
A value of 32 bits has at most 32 rounds, unless the radix is 1, which never ends; radix 0
is a division error. -/
def itoa (value : UInt32) (b : List UInt8) (buf : ℕ) (radix : Int32) : Option (List UInt8) :=
  if value = 0 then do
    let b ← setByte b buf 0x30
    setByte b (buf + 1) 0
  else if radix = 0 then none
  else do
    let (newbuf, b) ← itoaLoop radix.toUInt32 33 value buf b
    let b ← setByte b newbuf 0
    strrev b buf

/-- The character of a digit. -/
def digit (d : ℕ) : UInt8 := lookup.getD d 0

/-- The digit a character stands for: `0` to `9`, then the capital letters. -/
def digitValue (c : UInt8) : Option ℕ :=
  if 0x30 ≤ c ∧ c ≤ 0x39 then some (c.toNat - 0x30)
  else if 0x41 ≤ c ∧ c ≤ 0x5A then some (c.toNat - 0x41 + 10)
  else none

theorem lookup_digits : ∀ d < 36, lookup[d]? = some (digit d) ∧ digit d ≠ 0 ∧
    digitValue (digit d) = some d := by
  decide +kernel

theorem digit_zero : digit 0 = 0x30 := by decide +kernel

/-- What `itoa` writes. -/
def numeral (radix n : ℕ) : List UInt8 := Numeral.text digit radix n

/-- A text that denotes `n` in a base, without leading zeros. -/
structure IsNumeral (radix : ℕ) (text : List UInt8) (n : ℕ) : Prop where
  ne_nil : text ≠ []
  digits : ∀ c ∈ text, ∃ d < radix, digitValue c = some d
  lead : text.head? = some 0x30 → text = [0x30]
  value : Numeral.read digitValue radix text = some n

section Radix

variable {radix : ℕ} (h2 : 2 ≤ radix) (h36 : radix ≤ 36)

include h2 h36

theorem zero_notMem_numeral (n : ℕ) : (0 : UInt8) ∉ numeral radix n := by
  intro hmem
  obtain ⟨d, hd, heq⟩ := Numeral.mem_text h2 hmem
  exact (lookup_digits d (by omega)).2.1 heq.symm

omit h36 in
theorem length_numeral_le {n k : ℕ} (hk : 0 < k) (hn : n < radix ^ k) :
    (numeral radix n).length ≤ k :=
  Numeral.length_text_le h2 hk hn

omit h36 in
theorem length_numeral_word (v : UInt32) : (numeral radix v.toNat).length ≤ 32 := by
  refine length_numeral_le h2 (by decide) (lt_of_lt_of_le v.toNat_lt ?_)
  exact Nat.pow_le_pow_left h2 32

theorem digitValue_digit : ∀ d < radix, digitValue (digit d) = some d :=
  fun d hd => (lookup_digits d (by omega)).2.2

theorem isNumeral_numeral (n : ℕ) : IsNumeral radix (numeral radix n) n where
  ne_nil := Numeral.text_ne_nil
  digits := by
    intro c hc
    obtain ⟨d, hd, rfl⟩ := Numeral.mem_text h2 hc
    exact ⟨d, hd, (lookup_digits d (by omega)).2.2⟩
  lead := by
    intro hhead
    rw [← digit_zero] at hhead ⊢
    exact Numeral.text_eq_of_head h2 (digitValue_digit h2 h36) hhead
  value := Numeral.read_text h2 (digitValue_digit h2 h36) n

/-- The digits of `newval` are stored lowest first. -/
theorem itoaLoop_eq {n : ℕ} {newval : UInt32} (hval : newval.toNat < 2 ^ n) {R : UInt32}
    (hR : R.toNat = radix) (l mid l' : List UInt8)
    (hmid : mid.length = (Nat.digits radix newval.toNat).length) :
    itoaLoop R (n + 1) newval l.length (l ++ (mid ++ l'))
      = some ((l ++ mid).length, l ++ ((Nat.digits radix newval.toNat).map digit ++ l')) := by
  induction n generalizing newval l mid with
  | zero =>
    obtain rfl : newval = 0 := UInt32.toNat_inj.1 (by simpa using hval)
    rw [show (0 : UInt32).toNat = 0 from rfl, Nat.digits_zero] at hmid ⊢
    obtain rfl := List.eq_nil_of_length_eq_zero hmid
    rw [itoaLoop, if_neg (by decide)]
    simp
  | succ n ih =>
    by_cases hzero : newval = 0
    · subst hzero
      rw [show (0 : UInt32).toNat = 0 from rfl, Nat.digits_zero] at hmid ⊢
      obtain rfl := List.eq_nil_of_length_eq_zero hmid
      rw [itoaLoop, if_neg (by decide)]
      simp
    · have hpos : 0 < newval.toNat := Nat.pos_of_ne_zero fun h =>
        hzero (UInt32.toNat_inj.1 h)
      have hdigits := Nat.digits_def' h2 hpos
      rw [hdigits, List.length_cons] at hmid
      obtain ⟨c, mid, rfl⟩ := List.exists_cons_of_length_eq_add_one hmid
      have hmod : (newval % R).toNat = newval.toNat % radix := by rw [UInt32.toNat_mod, hR]
      have hdiv : (newval / R).toNat = newval.toNat / radix := by rw [UInt32.toNat_div, hR]
      have hlt : newval.toNat % radix < 36 := by
        have := Nat.mod_lt newval.toNat (show 0 < radix by omega)
        omega
      have hquot : (newval / R).toNat < 2 ^ n := by
        rw [hdiv]
        have := Nat.div_le_div_left (a := newval.toNat) h2 (by decide)
        rw [pow_succ] at hval
        omega
      have hround := ih hquot (l ++ [digit (newval.toNat % radix)]) mid
        (by rw [hdiv]; exact Nat.succ.inj hmid)
      rw [List.length_append, List.length_singleton, List.append_assoc, List.singleton_append]
        at hround
      have hgt : newval > 0 := UInt32.lt_iff_toNat_lt.2 (by simpa using hpos)
      rw [itoaLoop, if_pos hgt, hmod, (lookup_digits _ hlt).1]
      simp only [Option.bind_eq_bind, Option.bind_some]
      rw [List.cons_append, setByte_append, Option.bind_some, hround, hdigits, hdiv]
      simp

/-- **What `itoa` does**: the numeral of the value and the zero that ends it are stored, and
nothing else. -/
theorem itoa_eq (value : UInt32) {R : Int32} (hR : R.toUInt32.toNat = radix) (l mid l' : List UInt8)
    (hmid : mid.length = (numeral radix value.toNat).length + 1) :
    itoa value (l ++ (mid ++ l')) l.length R
      = some (l ++ (numeral radix value.toNat ++ 0 :: l')) := by
  by_cases hzero : value = 0
  · subst hzero
    have htext : numeral radix (0 : UInt32).toNat = [0x30] := by
      show Numeral.text digit radix 0 = _
      rw [Numeral.text, if_pos rfl, digit_zero]
    rw [htext] at hmid ⊢
    obtain ⟨c, d, rfl⟩ := List.length_eq_two.1 hmid
    have hsecond := setByte_append (l ++ [0x30]) d 0 l'
    rw [List.length_append, List.length_singleton, List.append_assoc, List.append_assoc] at hsecond
    rw [itoa, if_pos rfl, List.cons_append, setByte_append]
    exact hsecond
  · have hpos : 0 < value.toNat := Nat.pos_of_ne_zero fun h => hzero (UInt32.toNat_inj.1 h)
    have hR0 : R ≠ 0 := by
      rintro rfl
      rw [show (0 : Int32).toUInt32.toNat = 0 from rfl] at hR
      omega
    have htext : numeral radix value.toNat
        = ((Nat.digits radix value.toNat).map digit).reverse := Numeral.text_of_pos hpos
    have hclean : (0 : UInt8) ∉ (Nat.digits radix value.toNat).map digit := by
      have hnumeral := zero_notMem_numeral h2 h36 value.toNat
      rwa [htext, List.mem_reverse] at hnumeral
    have hshort := length_numeral_word h2 value
    rw [htext, List.length_reverse] at hmid hshort
    obtain ⟨mid, c, rfl⟩ : ∃ mid' c, mid = mid' ++ [c] :=
      ⟨_, _, (List.dropLast_append_getLast (List.ne_nil_of_length_eq_add_one hmid)).symm⟩
    rw [List.length_append, List.length_singleton, List.length_map] at hmid
    have hloop := itoaLoop_eq h2 h36 (n := 32) value.toNat_lt hR l mid (c :: l')
      (Nat.succ.inj hmid)
    have hindex : (l ++ mid).length = (l ++ (Nat.digits radix value.toNat).map digit).length := by
      rw [List.length_append, List.length_append, List.length_map, Nat.succ.inj hmid]
    have hstop := setByte_append (l ++ (Nat.digits radix value.toNat).map digit) c 0 l'
    rw [itoa, if_neg hzero, if_neg hR0, List.append_assoc, List.singleton_append, hloop, hindex]
    simp only [Option.bind_eq_bind, Option.bind_some]
    rw [← List.append_assoc, hstop, Option.bind_some, List.append_assoc, htext]
    exact strrev_eq hclean (lt_of_le_of_lt hshort (by decide)) l l'

/-- What `itoa` leaves in an array. -/
theorem itoa_array (value : UInt32) {R : Int32} (hR : R.toUInt32.toNat = radix) {b : List UInt8}
    {buf : ℕ} (hroom : buf + ((numeral radix value.toNat).length + 1) ≤ b.length) :
    ∃ b', itoa value b buf R = some b' ∧
      Holds (bytesFrom b' buf) (numeral radix value.toNat) ∧ b'.length = b.length ∧
      ∀ i, i < buf ∨ buf + ((numeral radix value.toNat).length + 1) ≤ i → b'[i]? = b[i]? := by
  obtain ⟨l, mid, l', rfl, rfl, hmid⟩ := array_parts hroom
  refine ⟨_, itoa_eq h2 h36 value hR l mid l' hmid,
    holds_bytesFrom (zero_notMem_numeral h2 h36 _) l l', ?_, fun i hi => ?_⟩
  · simp only [List.length_append, List.length_cons, hmid]
    omega
  · rcases hi with hbefore | hbehind
    · rw [List.getElem?_append_left hbefore, List.getElem?_append_left hbefore]
    · obtain ⟨j, rfl⟩ := Nat.exists_eq_add_of_le hbehind
      rw [List.getElem?_append_right (by omega), List.getElem?_append_right (by omega),
        List.getElem?_append_right (by omega), List.getElem?_append_right (by omega), hmid]
      have hj : l.length + ((numeral radix value.toNat).length + 1) + j - l.length
          - (numeral radix value.toNat).length = j + 1 := by omega
      rw [hj, List.getElem?_cons_succ]
      congr 1
      omega

end Radix

end CheetOS
