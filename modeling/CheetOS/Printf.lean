import CheetOS.Conversions

/-!
# printf (`lib.c`)

`printf` over the bytes of its format, the words on the stack above it, and the strings
these point to.  What it prints is the list of characters it hands to `putc`.

* `convert_eq` says what one conversion prints and takes, in terms of the numerals of the
  arguments; `number_conversions` that these denote the arguments;
* `printfLoop_run` says, for a format that does not end inside a conversion, what the whole
  call prints, takes, reads and returns;
* `printf_law_iff` — for the others `printf` goes on behind the end of the format: the
  pointer is moved past the character of a conversion even when that is the zero.
-/

namespace CheetOS

/-! ## The texts of the conversions -/

/-- The loop of `%#x` that stores zeros up to index 8, `n` rounds before its bound. -/
def padLoop : ℕ → ℕ → List UInt8 → Option (List UInt8)
  | 0, _, _ => none
  | n + 1, i, b =>
    if i < 8 then do
      let b ← setByte b i 0x30
      padLoop n (i + 1) b
    else some b

/-- What `%x` and `%#x` print from the buffer `b`. -/
def textX (b : List UInt8) (alternate : Bool) (v : UInt32) : Option (List UInt8) :=
  if alternate = false then do
    let b ← itoa v b 0 16
    cstr (bytesFrom b 0)
  else do
    let b ← itoa v b 8 16
    let startingIndex ← strlen (bytesFrom b 8)
    let b ← padLoop 9 startingIndex b
    cstr (bytesFrom b startingIndex)

/-- What `%u` prints. -/
def textU (b : List UInt8) (v : UInt32) : Option (List UInt8) := do
  let b ← itoa v b 0 10
  cstr (bytesFrom b 0)

/-- What `%d` prints. -/
def textD (b : List UInt8) (v : UInt32) : Option (List UInt8) := do
  let value := v.toInt32
  let b ←
    if value < 0 then do
      let b ← setByte b 0 0x2D
      itoa (-value).toUInt32 b 1 10
    else itoa value.toUInt32 b 0 10
  cstr (bytesFrom b 0)

/-! ## The loop -/

/-- What a call of `printf` is given. -/
structure PrintfCall where
  /-- The bytes from `format` on. -/
  fmt : ℕ → Option UInt8
  /-- The words on the stack above `format`. -/
  arg : ℕ → UInt32
  /-- The bytes from an address on. -/
  string : UInt32 → ℕ → Option UInt8
  /-- What is in the buffer of a conversion before it is used, for each argument. -/
  scratch : ℕ → ℕ → UInt8

/-- The state of a call. -/
structure Printing where
  /-- `buf - format`. -/
  buf : ℕ
  /-- The number of arguments `esp` has gone over. -/
  esp : ℕ
  /-- The characters given to `putc`. -/
  out : List UInt8
  /-- The positions of the format that were read. -/
  reads : List ℕ
  deriving DecidableEq, Repr

namespace Printing

/-- `*buf` is read. -/
def read (s : Printing) : Printing := { s with reads := s.reads ++ [s.buf] }

/-- `buf++`. -/
def next (s : Printing) : Printing := { s with buf := s.buf + 1 }

/-- Characters are printed. -/
def emit (s : Printing) (l : List UInt8) : Printing := { s with out := s.out ++ l }

/-- The text of an argument is printed, and `esp++`. -/
def emitArg (s : Printing) (l : List UInt8) : Printing :=
  { s with out := s.out ++ l, esp := s.esp + 1 }

/-- `buf - format`. -/
def result (s : Printing) : Int32 := Int32.ofNat s.buf

end Printing

namespace PrintfCall

variable (E : PrintfCall)

/-- A `conv_buf` of `n` bytes. -/
def convBuf (n j : ℕ) : List UInt8 := (List.range n).map (E.scratch j)

/-- The inner `switch` for any character but `#`. -/
def convert (alternate : Bool) (c : UInt8) (s : Printing) : Option Printing :=
  if c = 0x25 then some (s.emit [0x25])
  else if c = 0x78 then
    (textX (E.convBuf 64 s.esp) alternate (E.arg s.esp)).map s.emitArg
  else if c = 0x75 then (textU (E.convBuf 36 s.esp) (E.arg s.esp)).map s.emitArg
  else if c = 0x64 then (textD (E.convBuf 36 s.esp) (E.arg s.esp)).map s.emitArg
  else if c = 0x63 then some (s.emitArg [(E.arg s.esp).toUInt8])
  else if c = 0x73 then (cstr (E.string (E.arg s.esp))).map s.emitArg
  else some s

/-- The loops of `printf`, `n` characters before the bound: at the outer `switch`, or at
`format_char_switch` with the value of `alternate`. -/
def printfLoop : ℕ → Option Bool → Printing → Option Printing
  | 0, _, _ => none
  | n + 1, none, s =>
    match E.fmt s.buf with
    | none => none
    | some c =>
      if c = 0 then some s.read
      else if c = 0x25 then printfLoop n (some false) s.read.next
      else printfLoop n none (s.read.emit [c]).next
  | n + 1, some alternate, s =>
    match E.fmt s.buf with
    | none => none
    | some c =>
      if c = 0x23 then printfLoop n (some true) s.read.next
      else
        match E.convert alternate c s.read with
        | none => none
        -- the `buf++` behind the outer `switch`
        | some s => printfLoop n none s.next

/-- `printf`, as far as it gets with `n` characters. -/
def printf (n : ℕ) : Option Printing := E.printfLoop n none ⟨0, 0, [], []⟩

end PrintfCall

/-! ## What a format says -/

/-- A literal character, or a conversion with its flag. -/
inductive Piece
  | literal (c : UInt8)
  | conversion (alternate : Bool) (c : UInt8)
  deriving DecidableEq, Repr

/-- The conversion takes an argument. -/
def takesArgument (c : UInt8) : Bool :=
  c ∈ ([0x78, 0x75, 0x64, 0x63, 0x73] : List UInt8)

/-- The number of arguments a piece takes. -/
def Piece.takes : Piece → ℕ
  | .literal _ => 0
  | .conversion _ c => if takesArgument c then 1 else 0

/-- The number of arguments the pieces of a format take. -/
def takenBy (ps : List Piece) : ℕ := (ps.map Piece.takes).sum

/-- The pieces of a format, from outside a conversion or from inside one on. -/
def pieces : Option Bool → List UInt8 → List Piece
  | _, [] => []
  | none, c :: l => if c = 0x25 then pieces (some false) l else .literal c :: pieces none l
  | some alternate, c :: l =>
    if c = 0x23 then pieces (some true) l else .conversion alternate c :: pieces none l

/-- Whether the next character is inside a conversion, and then the value of `alternate`. -/
def nextState : Option Bool → UInt8 → Option Bool
  | none, c => if c = 0x25 then some false else none
  | some _, c => if c = 0x23 then some true else none

/-- The format does not end inside a conversion. -/
def finished (state : Option Bool) (l : List UInt8) : Bool := (l.foldl nextState state).isNone

theorem finished_cons (state : Option Bool) (c : UInt8) (l : List UInt8) :
    finished state (c :: l) = finished (nextState state c) l := rfl

/-- A conversion is begun by a percent sign and held open by a flag. -/
theorem finished_concat_eq_false {state : Option Bool} {l : List UInt8} {c : UInt8} :
    finished state (l ++ [c]) = false ↔
      finished state l = true ∧ c = 0x25 ∨ finished state l = false ∧ c = 0x23 := by
  unfold finished
  rw [List.foldl_append, List.foldl_cons, List.foldl_nil]
  cases l.foldl nextState state with
  | none => by_cases hpercent : c = 0x25 <;> simp [nextState, hpercent]
  | some alternate => by_cases hhash : c = 0x23 <;> simp [nextState, hhash]

/-- The formats that end inside a conversion end in a percent sign, outside a conversion,
and flags. -/
theorem finished_eq_false_iff {l : List UInt8} :
    finished none l = false ↔
      ∃ l' k, finished none l' = true ∧ l = l' ++ 0x25 :: List.replicate k 0x23 := by
  induction l using List.reverseRecOn with
  | nil => simp [finished]
  | append_singleton l c ih =>
    rw [finished_concat_eq_false]
    constructor
    · rintro (⟨hfin, rfl⟩ | ⟨hopen, rfl⟩)
      · exact ⟨l, 0, hfin, rfl⟩
      · obtain ⟨l', k, hfin, rfl⟩ := ih.1 hopen
        refine ⟨l', k + 1, hfin, ?_⟩
        rw [List.append_assoc, List.cons_append, List.replicate_succ']
    · rintro ⟨l', k, hfin, heq⟩
      cases k with
      | zero =>
        obtain ⟨rfl, hc⟩ := List.append_inj' heq rfl
        exact Or.inl ⟨hfin, List.singleton_inj.1 hc⟩
      | succ k =>
        rw [List.replicate_succ', ← List.cons_append, ← List.append_assoc] at heq
        obtain ⟨rfl, hc⟩ := List.append_inj' heq rfl
        exact Or.inr ⟨ih.2 ⟨l', k, hfin, rfl⟩, List.singleton_inj.1 hc⟩

/-- A signed number in decimal. -/
def signedText (z : ℤ) : List UInt8 :=
  if z < 0 then 0x2D :: numeral 10 z.natAbs else numeral 10 z.natAbs

/-! ## What the conversions print -/

/-- What `puts` prints of a string in an array. -/
theorem cstr_bytesFrom {text : List UInt8} (htext : (0 : UInt8) ∉ text)
    (hlen : text.length < addressSpace) (l l' : List UInt8) :
    cstr (bytesFrom (l ++ (text ++ 0 :: l')) l.length) = some text :=
  cstr_eq_some.2 ⟨hlen, holds_bytesFrom htext l l'⟩

theorem numeral_short {radix : ℕ} (h2 : 2 ≤ radix) (v : UInt32) :
    (numeral radix v.toNat).length < addressSpace :=
  lt_of_le_of_lt (length_numeral_word h2 v) (by decide)

/-- The text of a number that `itoa` stores in an array. -/
theorem itoa_cstr {radix : ℕ} (h2 : 2 ≤ radix) (h36 : radix ≤ 36) {R : Int32}
    (hR : R.toUInt32.toNat = radix) (v : UInt32) {b : List UInt8}
    (hroom : (numeral radix v.toNat).length + 1 ≤ b.length) :
    (itoa v b 0 R).bind (fun b => cstr (bytesFrom b 0)) = some (numeral radix v.toNat) := by
  obtain ⟨l, mid, l', rfl, hl, hmid⟩ := array_parts (b := b) (p := 0)
    (n := (numeral radix v.toNat).length + 1) (by omega)
  obtain rfl := List.eq_nil_of_length_eq_zero hl
  have hitoa := itoa_eq h2 h36 v hR [] mid l' hmid
  rw [List.length_nil] at hitoa
  rw [hitoa, Option.bind_some]
  exact cstr_bytesFrom (zero_notMem_numeral h2 h36 _) (numeral_short h2 v) [] l'

theorem toNat_ten : (10 : Int32).toUInt32.toNat = 10 := rfl

theorem toNat_sixteen : (16 : Int32).toUInt32.toNat = 16 := rfl

theorem textU_eq {b : List UInt8} (hb : 11 ≤ b.length) (v : UInt32) :
    textU b v = some (numeral 10 v.toNat) := by
  have hlen : (numeral 10 v.toNat).length ≤ 10 :=
    length_numeral_le (by decide) (by decide) (lt_of_lt_of_le v.toNat_lt (by decide))
  exact itoa_cstr (by decide) (by decide) toNat_ten v (by omega)

theorem length_hex (v : UInt32) : (numeral 16 v.toNat).length ≤ 8 :=
  length_numeral_le (by decide) (by decide) (lt_of_lt_of_le v.toNat_lt (by decide))

theorem textX_eq {b : List UInt8} (hb : 9 ≤ b.length) (v : UInt32) :
    textX b false v = some (numeral 16 v.toNat) := by
  have hlen := length_hex v
  rw [textX, if_pos rfl]
  exact itoa_cstr (by decide) (by decide) toNat_sixteen v (by omega)

/-- The zeros are stored between the two indexes. -/
theorem padLoop_eq {n i : ℕ} {l mid : List UInt8} (l' : List UInt8) (hn : mid.length < n)
    (hi : l.length = i) (h8 : i + mid.length = 8) :
    padLoop n i (l ++ (mid ++ l')) = some (l ++ (List.replicate mid.length 0x30 ++ l')) := by
  induction mid generalizing n i l with
  | nil =>
    obtain ⟨n, rfl⟩ := Nat.exists_eq_succ_of_ne_zero (Nat.ne_of_gt hn)
    rw [padLoop, if_neg (by simp only [List.length_nil] at h8; omega)]
    rfl
  | cons c mid ih =>
    obtain ⟨n, rfl⟩ := Nat.exists_eq_succ_of_ne_zero (Nat.ne_of_gt (Nat.zero_lt_of_lt hn))
    rw [List.length_cons] at hn h8
    have hround := ih (n := n) (i := i + 1) (l := l ++ [0x30]) (by omega) (by simp [hi]) (by omega)
    rw [List.append_assoc, List.singleton_append, List.append_assoc] at hround
    rw [padLoop, if_pos (by omega), ← hi, List.cons_append, setByte_append, hi]
    exact hround

theorem textX_alternate_eq {b : List UInt8} (hb : 17 ≤ b.length) (v : UInt32) :
    textX b true v
      = some (List.replicate (8 - (numeral 16 v.toNat).length) 0x30 ++ numeral 16 v.toNat) := by
  have hlen := length_hex v
  obtain ⟨l, mid, l', rfl, hl, hmid⟩ := array_parts (b := b) (p := 8)
    (n := (numeral 16 v.toNat).length + 1) (by omega)
  have hclean : (0 : UInt8) ∉ numeral 16 v.toNat := zero_notMem_numeral (by decide) (by decide) _
  have hitoa := itoa_eq (by decide) (by decide) v toNat_sixteen l mid l' hmid
  have hstr : strlen (bytesFrom (l ++ (numeral 16 v.toNat ++ 0 :: l')) l.length)
      = some (numeral 16 v.toNat).length := by
    rw [strlen, cstr_bytesFrom hclean (numeral_short (by decide) v)]
    rfl
  rw [hl] at hitoa hstr
  -- the zeros overlay the end of the first eight bytes
  obtain ⟨front, back, rfl, hfront, hback⟩ : ∃ front back, l = front ++ back ∧
      front.length = (numeral 16 v.toNat).length ∧
      back.length = 8 - (numeral 16 v.toNat).length := by
    refine ⟨l.take (numeral 16 v.toNat).length, l.drop (numeral 16 v.toNat).length,
      (List.take_append_drop _ _).symm, ?_, ?_⟩
    · rw [List.length_take]
      omega
    · rw [List.length_drop]
      omega
  have hpad := padLoop_eq (n := 9) (numeral 16 v.toNat ++ 0 :: l') (by omega) hfront
    (show (numeral 16 v.toNat).length + back.length = 8 by omega)
  have hzeros : (0 : UInt8) ∉ List.replicate back.length (0x30 : UInt8) ++ numeral 16 v.toNat := by
    intro hmem
    rcases List.mem_append.1 hmem with hzero | hdigit
    · exact absurd (List.eq_of_mem_replicate hzero) (by decide)
    · exact hclean hdigit
  have htext := cstr_bytesFrom hzeros (by simp [addressSpace]; omega) front l'
  rw [hfront, List.append_assoc] at htext
  rw [List.append_assoc] at hstr
  rw [textX, if_neg (by decide), hitoa]
  simp only [Option.bind_eq_bind, Option.bind_some]
  rw [List.append_assoc, hstr, Option.bind_some, hpad, Option.bind_some, htext, hback]

/-! ### Signed numbers -/

/-- A word read as a signed number. -/
theorem toInt_word (v : UInt32) :
    v.toInt32.toInt = if v.toNat < 2147483648 then (v.toNat : ℤ) else v.toNat - 4294967296 := by
  have hcond : v.toInt32.toInt = if 2 * v.toNat < 2 ^ 32 then (v.toNat : ℤ)
      else (v.toNat : ℤ) - (2 ^ 32 : ℕ) := BitVec.toInt_eq_toNat_cond v.toInt32.toBitVec
  rw [hcond]
  have hiff : 2 * v.toNat < 2 ^ 32 ↔ v.toNat < 2147483648 := by omega
  simp only [hiff]
  rfl

theorem toInt32_neg_iff (v : UInt32) : v.toInt32 < 0 ↔ 2147483648 ≤ v.toNat := by
  have hv := v.toNat_lt
  rw [Int32.lt_iff_toInt_lt, toInt_word, show (0 : Int32).toInt = 0 from rfl]
  split
  all_goals omega

/-- The absolute value of a negative number is its machine negation. -/
theorem toNat_neg_of_neg {v : UInt32} (h : v.toInt32 < 0) :
    (-v.toInt32).toUInt32.toNat = v.toInt32.toInt.natAbs := by
  have hv := v.toNat_lt
  have hlarge := (toInt32_neg_iff v).1 h
  have hsize : UInt32.size = 4294967296 := rfl
  rw [Int32.toUInt32_neg, UInt32.toUInt32_toInt32, UInt32.toNat_neg, toInt_word,
    if_neg (by omega), hsize, Nat.mod_eq_of_lt (by omega)]
  omega

theorem toNat_of_nonneg {v : UInt32} (h : ¬v.toInt32 < 0) :
    v.toNat = v.toInt32.toInt.natAbs := by
  have hsmall := mt (toInt32_neg_iff v).2 h
  rw [toInt_word, if_pos (by omega)]
  rfl

theorem textD_eq {b : List UInt8} (hb : 12 ≤ b.length) (v : UInt32) :
    textD b v = some (signedText v.toInt32.toInt) := by
  unfold textD signedText
  by_cases hneg : v.toInt32 < 0
  · have hz : v.toInt32.toInt < 0 := Int32.lt_iff_toInt_lt.1 hneg
    have habs := toNat_neg_of_neg hneg
    have hlen : (numeral 10 (-v.toInt32).toUInt32.toNat).length ≤ 10 :=
      length_numeral_le (by decide) (by decide) (lt_of_lt_of_le (UInt32.toNat_lt _) (by decide))
    have hclean : (0 : UInt8) ∉ (0x2D : UInt8) :: numeral 10 (-v.toInt32).toUInt32.toNat := by
      intro hmem
      rcases List.mem_cons.1 hmem with hsign | hdigit
      · exact absurd hsign (by decide)
      · exact zero_notMem_numeral (by decide) (by decide) _ hdigit
    have hne : b ≠ [] := List.length_pos_iff.1 (by omega)
    obtain ⟨c, b, rfl⟩ := List.exists_cons_of_ne_nil hne
    rw [List.length_cons] at hb
    obtain ⟨l, mid, l', rfl, hl, hmid⟩ := array_parts (b := b) (p := 0)
      (n := (numeral 10 (-v.toInt32).toUInt32.toNat).length + 1) (by omega)
    obtain rfl := List.eq_nil_of_length_eq_zero hl
    have hsign : setByte (c :: (mid ++ l')) 0 0x2D = some (0x2D :: (mid ++ l')) :=
      setByte_append [] c 0x2D (mid ++ l')
    have hitoa : itoa (-v.toInt32).toUInt32 (0x2D :: (mid ++ l')) 1 10
        = some (0x2D :: (numeral 10 (-v.toInt32).toUInt32.toNat ++ 0 :: l')) :=
      itoa_eq (by decide) (by decide) (-v.toInt32).toUInt32 toNat_ten [0x2D] mid l' hmid
    have htext := cstr_bytesFrom hclean (by rw [List.length_cons, addressSpace]; omega) [] l'
    rw [if_pos hz, ← habs]
    simp only [if_pos hneg, Option.bind_eq_bind]
    rw [List.nil_append, hsign, Option.bind_some, hitoa, Option.bind_some]
    exact htext
  · have hz : ¬v.toInt32.toInt < 0 := fun h => hneg (Int32.lt_iff_toInt_lt.2 h)
    rw [if_neg hz, ← toNat_of_nonneg hneg]
    simp only [if_neg hneg]
    exact textU_eq (by omega) v

/-! ### One conversion -/

namespace PrintfCall

variable (E : PrintfCall)

/-- What a piece of a format prints, `j` arguments having been taken. -/
def pieceText (j : ℕ) : Piece → Option (List UInt8)
  | .literal c => some [c]
  | .conversion alternate c =>
    let v := E.arg j
    let hex := numeral 16 v.toNat
    if c = 0x25 then some [0x25]
    else if c = 0x78 then
      some (if alternate then List.replicate (8 - hex.length) 0x30 ++ hex else hex)
    else if c = 0x75 then some (numeral 10 v.toNat)
    else if c = 0x64 then some (signedText v.toInt32.toInt)
    else if c = 0x63 then some [v.toUInt8]
    else if c = 0x73 then cstr (E.string v)
    else some []

@[simp] theorem length_convBuf (n j : ℕ) : (E.convBuf n j).length = n := by
  simp [convBuf]

/-- **What a conversion does**: its text is printed, and the argument it takes is gone over. -/
theorem convert_eq (alternate : Bool) (c : UInt8) (s : Printing) :
    E.convert alternate c s = (E.pieceText s.esp (.conversion alternate c)).map fun l =>
      { s with out := s.out ++ l, esp := s.esp + (Piece.conversion alternate c).takes } := by
  unfold convert pieceText
  by_cases hpercent : c = 0x25
  · subst hpercent
    rfl
  by_cases hx : c = 0x78
  · subst hx
    simp only [if_neg hpercent, if_true]
    cases alternate with
    | false => rw [textX_eq (by simp)]; rfl
    | true => rw [textX_alternate_eq (by simp)]; rfl
  by_cases hu : c = 0x75
  · subst hu
    simp only [if_neg hpercent, if_neg hx, if_true,
      textU_eq (show 11 ≤ (E.convBuf 36 s.esp).length by simp)]
    rfl
  by_cases hd : c = 0x64
  · subst hd
    simp only [if_neg hpercent, if_neg hx, if_neg hu, if_true,
      textD_eq (show 12 ≤ (E.convBuf 36 s.esp).length by simp)]
    rfl
  by_cases hc : c = 0x63
  · subst hc
    rfl
  by_cases hs : c = 0x73
  · subst hs
    rfl
  have hnone : (Piece.conversion alternate c).takes = 0 := by
    simp [Piece.takes, takesArgument, hx, hu, hd, hc, hs]
  simp only [if_neg hpercent, if_neg hx, if_neg hu, if_neg hd, if_neg hc, if_neg hs, hnone,
    Option.map_some, List.append_nil, Nat.add_zero]

end PrintfCall

/-! ### What the texts denote -/

/-- Read a number in decimal with its sign. -/
def readSigned : List UInt8 → Option ℤ
  | [] => none
  | c :: l =>
    if c = 0x2D then (Numeral.read digitValue 10 l).map fun n : ℕ => -(n : ℤ)
    else (Numeral.read digitValue 10 (c :: l)).map fun n : ℕ => (n : ℤ)

theorem isNumeral_decimal (n : ℕ) : IsNumeral 10 (numeral 10 n) n :=
  isNumeral_numeral (by decide) (by decide) n

theorem isNumeral_hex (n : ℕ) : IsNumeral 16 (numeral 16 n) n :=
  isNumeral_numeral (by decide) (by decide) n

theorem readSigned_signedText (z : ℤ) : readSigned (signedText z) = some z := by
  have hnumeral := isNumeral_decimal z.natAbs
  unfold signedText
  split
  · rw [readSigned, if_pos rfl, hnumeral.value, Option.map_some]
    congr 1
    omega
  · obtain ⟨c, l, heq⟩ := List.exists_cons_of_ne_nil hnumeral.ne_nil
    obtain ⟨d, -, hd⟩ := hnumeral.digits c (heq ▸ List.mem_cons_self)
    have hc : c ≠ 0x2D := by
      rintro rfl
      cases hd
    have hvalue := hnumeral.value
    rw [heq] at hvalue ⊢
    rw [readSigned, if_neg hc, hvalue, Option.map_some]
    congr 1
    omega

/-- The eight digits of `%#x`. -/
theorem alternate_digits (v : UInt32) :
    (List.replicate (8 - (numeral 16 v.toNat).length) 0x30 ++ numeral 16 v.toNat).length = 8 ∧
    (∀ c ∈ List.replicate (8 - (numeral 16 v.toNat).length) 0x30 ++ numeral 16 v.toNat,
      ∃ d < 16, digitValue c = some d) ∧
    Numeral.read digitValue 16
      (List.replicate (8 - (numeral 16 v.toNat).length) 0x30 ++ numeral 16 v.toNat)
      = some v.toNat := by
  have hnumeral := isNumeral_hex v.toNat
  refine ⟨?_, fun c hc => ?_, ?_⟩
  · have hlen := length_hex v
    rw [List.length_append, List.length_replicate]
    omega
  · rcases List.mem_append.1 hc with hzero | hdigit
    · obtain rfl := List.eq_of_mem_replicate hzero
      exact ⟨0, by decide, by decide⟩
    · exact hnumeral.digits c hdigit
  · have hpad := Numeral.read_pad (r := 16) (by decide)
      (lookup_digits 0 (by decide)).2.2
      hnumeral.ne_nil (8 - (numeral 16 v.toNat).length)
    rw [digit_zero] at hpad
    rw [hpad, hnumeral.value]

theorem radix_bounds {R : Int32} (h2 : 2 ≤ R) (h36 : R ≤ 36) :
    R.toUInt32.toNat = R.toNatClampNeg ∧ 2 ≤ R.toNatClampNeg ∧ R.toNatClampNeg ≤ 36 := by
  have hlow : (2 : ℤ) ≤ R.toInt := Int32.le_iff_toInt_le.1 h2
  have hhigh : R.toInt ≤ 36 := Int32.le_iff_toInt_le.1 h36
  have hpos : 0 ≤ R := Int32.le_trans (by decide) h2
  have hclamp : R.toNatClampNeg = R.toInt.toNat := rfl
  refine ⟨Int32.toNat_toUInt32_of_le hpos, ?_, ?_⟩
  all_goals omega

/-- **Number conversions round-trip.**  `itoa` stores a numeral of its argument and nothing
else, and the texts of `%u`, `%x`, `%#x` and `%d` denote the argument they take. -/
theorem number_conversions (v : UInt32) :
    (∀ R : Int32, 2 ≤ R → R ≤ 36 →
      ∃ text, IsNumeral R.toNatClampNeg text v.toNat ∧ text.length ≤ 32 ∧
        ∀ b buf, buf + (text.length + 1) ≤ b.length →
          ∃ b', itoa v b buf R = some b' ∧ Holds (bytesFrom b' buf) text ∧
            b'.length = b.length ∧
            ∀ i, i < buf ∨ buf + (text.length + 1) ≤ i → b'[i]? = b[i]?) ∧
    ∀ (E : PrintfCall) (s : Printing), E.arg s.esp = v →
      (∀ alternate, ∃ text, E.convert alternate 0x75 s = some (s.emitArg text) ∧
        IsNumeral 10 text v.toNat) ∧
      (∃ text, E.convert false 0x78 s = some (s.emitArg text) ∧ IsNumeral 16 text v.toNat) ∧
      (∃ text, E.convert true 0x78 s = some (s.emitArg text) ∧ text.length = 8 ∧
        (∀ c ∈ text, ∃ d < 16, digitValue c = some d) ∧
        Numeral.read digitValue 16 text = some v.toNat) ∧
      ∀ alternate, ∃ text, E.convert alternate 0x64 s = some (s.emitArg text) ∧
        readSigned text = some v.toInt32.toInt := by
  constructor
  · intro R h2 h36
    obtain ⟨hR, hlow, hhigh⟩ := radix_bounds h2 h36
    exact ⟨_, isNumeral_numeral hlow hhigh _, length_numeral_word hlow v,
      fun b buf hroom => itoa_array hlow hhigh v hR hroom⟩
  · rintro E s rfl
    refine ⟨fun alternate => ⟨_, E.convert_eq alternate 0x75 s, isNumeral_decimal _⟩,
      ⟨_, E.convert_eq false 0x78 s, isNumeral_hex _⟩,
      ⟨_, E.convert_eq true 0x78 s, alternate_digits _⟩,
      fun alternate => ⟨_, E.convert_eq alternate 0x64 s, readSigned_signedText _⟩⟩

/-- The least number: it is its own machine negation. -/
theorem number_conversions_sample :
    (∃ text b', itoa 0x80000000 (List.replicate 33 0xAA) 0 2 = some b' ∧
      Holds (bytesFrom b' 0) text ∧ IsNumeral 2 text 2147483648) ∧
    ∃ text, (⟨fun _ => none, fun _ => 0x80000000, fun _ _ => none, fun _ _ => 0xAA⟩ :
        PrintfCall).convert false 0x64 ⟨0, 0, [], []⟩ = some ⟨0, 1, text, []⟩ ∧
      readSigned text = some (-2147483648) := by
  obtain ⟨hitoa, hprintf⟩ := number_conversions 0x80000000
  obtain ⟨text, htext, hlen, hstore⟩ := hitoa 2 (by decide) (by decide)
  obtain ⟨b', hb', hholds, -⟩ := hstore (List.replicate 33 0xAA) 0
    (by rw [List.length_replicate]; omega)
  obtain ⟨-, -, -, hsigned⟩ := hprintf ⟨fun _ => none, fun _ => 0x80000000, fun _ _ => none,
    fun _ _ => 0xAA⟩ ⟨0, 0, [], []⟩ rfl
  exact ⟨⟨text, b', hb', hholds, htext⟩, hsigned false⟩

/-! ## A whole call -/

/-- The state when the loop has gone over `len` characters and read the zero behind them,
and what it has printed and taken on the way. -/
def Printing.stopped (s : Printing) (len taken : ℕ) (text : List UInt8) : Printing where
  buf := s.buf + len
  esp := s.esp + taken
  out := s.out ++ text
  reads := s.reads ++ List.range' s.buf (len + 1)

/-- One character of the format, and the rest of it. -/
theorem Printing.stopped_succ (s : Printing) (len a k : ℕ) (t text : List UInt8) :
    Printing.stopped ⟨s.buf + 1, s.esp + a, s.out ++ t, s.reads ++ [s.buf]⟩ len k text
      = s.stopped (len + 1) (a + k) (t ++ text) := by
  simp [stopped, List.range'_succ, Nat.add_assoc, Nat.add_comm 1 len]

/-- A character that only changes the state of the parser. -/
theorem Printing.stopped_skip (s : Printing) (len taken : ℕ) (text : List UInt8) :
    s.read.next.stopped len taken text = s.stopped (len + 1) taken text := by
  have hsucc := s.stopped_succ len 0 taken [] text
  rwa [List.append_nil, List.nil_append, Nat.zero_add] at hsucc

namespace PrintfCall

variable (E : PrintfCall)

/-- What the pieces of a format print one after the other, from argument `j` on. -/
def text : ℕ → List Piece → Option (List UInt8)
  | _, [] => some []
  | j, p :: ps => (E.pieceText j p).bind fun l => (text (j + p.takes) ps).map (l ++ ·)

variable {E}

/-! ### One round -/

theorem printfLoop_zero {s : Printing} (hc : E.fmt s.buf = some 0) (n : ℕ) :
    E.printfLoop (n + 1) none s = some s.read := by
  rw [printfLoop, hc]
  rfl

theorem printfLoop_percent {s : Printing} (hc : E.fmt s.buf = some 0x25) (n : ℕ) :
    E.printfLoop (n + 1) none s = E.printfLoop n (some false) s.read.next := by
  rw [printfLoop, hc]
  rfl

theorem printfLoop_literal {s : Printing} {c : UInt8} (hc : E.fmt s.buf = some c) (hne : c ≠ 0)
    (hpercent : c ≠ 0x25) (n : ℕ) :
    E.printfLoop (n + 1) none s = E.printfLoop n none (s.read.emit [c]).next := by
  rw [printfLoop, hc]
  dsimp only
  rw [if_neg hne, if_neg hpercent]

theorem printfLoop_hash {alternate : Bool} {s : Printing} (hc : E.fmt s.buf = some 0x23) (n : ℕ) :
    E.printfLoop (n + 1) (some alternate) s = E.printfLoop n (some true) s.read.next := by
  rw [printfLoop, hc]
  rfl

/-- The zero is a character like the others here. -/
theorem printfLoop_conversion {alternate : Bool} {s : Printing} {c : UInt8}
    (hc : E.fmt s.buf = some c) (hhash : c ≠ 0x23) (n : ℕ) :
    E.printfLoop (n + 1) (some alternate) s
      = (E.convert alternate c s.read).bind fun t => E.printfLoop n none t.next := by
  rw [printfLoop, hc]
  dsimp only
  rw [if_neg hhash]
  cases E.convert alternate c s.read with
  | none => rfl
  | some t => rfl

/-! ### Up to the end of the format -/

/-- **A call whose format does not end inside a conversion**: it prints the pieces of the
format one after the other, with the next argument for each that takes one, reads the
format up to the zero, and stops there. -/
theorem printfLoop_run {state : Option Bool} {l text : List UInt8} {s : Printing} {n : ℕ}
    (hfmt : Holds (fun i => E.fmt (s.buf + i)) l) (hfin : finished state l = true)
    (htext : E.text s.esp (pieces state l) = some text) (hn : l.length < n) :
    E.printfLoop n state s = some (s.stopped l.length (takenBy (pieces state l)) text) := by
  induction l generalizing state s text n with
  | nil =>
    obtain ⟨n, rfl⟩ := Nat.exists_eq_succ_of_ne_zero (Nat.ne_of_gt hn)
    cases state with
    | some alternate => cases hfin
    | none =>
      cases htext
      rw [printfLoop_zero (holds_nil.1 hfmt)]
      simp [Printing.read, Printing.stopped, takenBy, pieces]
  | cons c l ih =>
    obtain ⟨n, rfl⟩ := Nat.exists_eq_succ_of_ne_zero (Nat.ne_of_gt (Nat.zero_lt_of_lt hn))
    obtain ⟨hc, hne, hrest⟩ := holds_index_cons hfmt
    rw [List.length_cons] at hn ⊢
    have hn' := Nat.lt_of_succ_lt_succ hn
    cases state with
    | none =>
      by_cases hpercent : c = 0x25
      · rw [finished_cons, nextState, if_pos hpercent] at hfin
        rw [pieces, if_pos hpercent] at htext ⊢
        rw [printfLoop_percent (hpercent ▸ hc), ← s.stopped_skip]
        exact ih hrest hfin htext hn'
      · rw [finished_cons, nextState, if_neg hpercent] at hfin
        rw [pieces, if_neg hpercent] at htext ⊢
        obtain ⟨rest, htext', rfl⟩ := Option.map_eq_some_iff.1 htext
        rw [printfLoop_literal hc hne hpercent]
        exact (ih (s := (s.read.emit [c]).next) hrest hfin htext' hn').trans
          (congrArg some (s.stopped_succ l.length 0 _ [c] rest))
    | some alternate =>
      by_cases hhash : c = 0x23
      · rw [finished_cons, nextState, if_pos hhash] at hfin
        rw [pieces, if_pos hhash] at htext ⊢
        rw [printfLoop_hash (hhash ▸ hc), ← s.stopped_skip]
        exact ih hrest hfin htext hn'
      · rw [finished_cons, nextState, if_neg hhash] at hfin
        rw [pieces, if_neg hhash] at htext ⊢
        obtain ⟨t, ht, hmap⟩ := Option.bind_eq_some_iff.1 htext
        obtain ⟨rest, htext', rfl⟩ := Option.map_eq_some_iff.1 hmap
        have hconvert := E.convert_eq alternate c s.read
        rw [show E.pieceText s.read.esp (.conversion alternate c) = some t from ht] at hconvert
        rw [printfLoop_conversion hc hhash, hconvert, Option.map_some, Option.bind_some]
        exact (ih hrest hfin htext' hn').trans
          (congrArg some (s.stopped_succ l.length _ _ t rest))

/-! ### Arguments that are strings -/

variable (E) in
/-- The argument of every `%s` is a string. -/
def StringArguments (l : List UInt8) : Prop :=
  ∀ ps alternate ps', pieces none l = ps ++ .conversion alternate 0x73 :: ps' →
    ∃ t, cstr (E.string (E.arg (takenBy ps))) = some t

/-- Every piece has a text, a `%s` if its argument is a string. -/
theorem exists_pieceText {j : ℕ} {p : Piece}
    (h : ∀ alternate, p = .conversion alternate 0x73 → ∃ t, cstr (E.string (E.arg j)) = some t) :
    ∃ t, E.pieceText j p = some t := by
  cases p with
  | literal c => exact ⟨_, rfl⟩
  | conversion alternate c =>
    by_cases hs : c = 0x73
    · subst hs
      exact h alternate rfl
    · unfold pieceText
      simp only [if_neg hs]
      split_ifs
      all_goals exact ⟨_, rfl⟩

theorem exists_text {j : ℕ} {ps : List Piece}
    (h : ∀ qs alternate qs', ps = qs ++ .conversion alternate 0x73 :: qs' →
      ∃ t, cstr (E.string (E.arg (j + takenBy qs))) = some t) :
    ∃ t, E.text j ps = some t := by
  induction ps generalizing j with
  | nil => exact ⟨_, rfl⟩
  | cons p ps ih =>
    obtain ⟨t, ht⟩ : ∃ t, E.pieceText j p = some t := by
      refine exists_pieceText fun alternate hp => ?_
      exact h [] alternate ps (by rw [hp, List.nil_append])
    obtain ⟨t', ht'⟩ : ∃ t, E.text (j + p.takes) ps = some t := by
      refine ih fun qs alternate qs' hps => ?_
      have hstring := h (p :: qs) alternate qs' (by rw [hps, List.cons_append])
      rwa [takenBy, List.map_cons, List.sum_cons, ← Nat.add_assoc] at hstring
    exact ⟨t ++ t', by rw [text, ht, Option.bind_some, ht', Option.map_some]⟩

/-! ### Behind the end of the format -/

theorem convert_buf {alternate : Bool} {c : UInt8} {s t : Printing}
    (h : E.convert alternate c s = some t) : t.buf = s.buf ∧ t.reads = s.reads := by
  rw [convert_eq] at h
  obtain ⟨l, -, rfl⟩ := Option.map_eq_some_iff.1 h
  exact ⟨rfl, rfl⟩

/-- One round of the loop that does not end it reads a character and goes on at the next. -/
theorem printfLoop_succ {n : ℕ} {state : Option Bool} {s t : Printing} {c : UInt8}
    (hc : E.fmt s.buf = some c) (hgo : state = none → c ≠ 0)
    (h : E.printfLoop (n + 1) state s = some t) :
    ∃ s', E.printfLoop n (nextState state c) s' = some t ∧
      s'.buf = s.buf + 1 ∧ s'.reads = s.reads ++ [s.buf] := by
  cases state with
  | none =>
    rw [nextState]
    by_cases hpercent : c = 0x25
    · rw [printfLoop_percent (hpercent ▸ hc)] at h
      rw [if_pos hpercent]
      exact ⟨_, h, rfl, rfl⟩
    · rw [printfLoop_literal hc (hgo rfl) hpercent] at h
      rw [if_neg hpercent]
      exact ⟨_, h, rfl, rfl⟩
  | some alternate =>
    rw [nextState]
    by_cases hhash : c = 0x23
    · rw [printfLoop_hash (hhash ▸ hc)] at h
      rw [if_pos hhash]
      exact ⟨_, h, rfl, rfl⟩
    · rw [printfLoop_conversion hc hhash] at h
      obtain ⟨u, hconvert, hrun⟩ := Option.bind_eq_some_iff.1 h
      obtain ⟨hbuf, hreads⟩ := convert_buf hconvert
      rw [if_neg hhash]
      exact ⟨u.next, hrun, by rw [Printing.next, hbuf]; rfl, by rw [Printing.next, hreads]; rfl⟩

/-- What was read stays read, and the loop reads where it is. -/
theorem mem_reads {n : ℕ} {state : Option Bool} {s t : Printing}
    (h : E.printfLoop n state s = some t) : s.buf ∈ t.reads ∧ ∀ i ∈ s.reads, i ∈ t.reads := by
  induction n generalizing state s with
  | zero => cases h
  | succ n ih =>
    have hround {s' : Printing} (hreads : s'.reads = s.reads ++ [s.buf])
        (hs' : ∀ i ∈ s'.reads, i ∈ t.reads) : s.buf ∈ t.reads ∧ ∀ i ∈ s.reads, i ∈ t.reads :=
      ⟨hs' _ (by simp [hreads]), fun i hi => hs' i (by simp [hreads, hi])⟩
    cases hc : E.fmt s.buf with
    | none => cases state <;> simp [printfLoop, hc] at h
    | some c =>
      by_cases hstop : state = none ∧ c = 0
      · obtain ⟨rfl, rfl⟩ := hstop
        rw [printfLoop_zero hc] at h
        cases h
        exact hround rfl fun i hi => hi
      · obtain ⟨s', hnext, -, hreads⟩ :=
          printfLoop_succ hc (fun hstate h0 => hstop ⟨hstate, h0⟩) h
        exact hround hreads (ih hnext).2

/-- **A format that ends inside a conversion**: if `printf` returns at all it has read
behind the zero. -/
theorem reads_behind {state : Option Bool} {l : List UInt8} {s t : Printing} {n : ℕ}
    (hfmt : Holds (fun i => E.fmt (s.buf + i)) l) (hfin : finished state l = false)
    (h : E.printfLoop n state s = some t) : s.buf + l.length + 1 ∈ t.reads := by
  induction l generalizing state s n with
  | nil =>
    cases n with
    | zero => cases h
    | succ n =>
      have hstop : E.fmt s.buf = some 0 := holds_nil.1 hfmt
      cases state with
      | none => cases hfin
      | some alternate =>
        obtain ⟨s', hnext, hbuf, -⟩ := printfLoop_succ hstop (fun hstate => by cases hstate) h
        rw [List.length_nil, Nat.add_zero, ← hbuf]
        exact (mem_reads hnext).1
  | cons c l ih =>
    cases n with
    | zero => cases h
    | succ n =>
      obtain ⟨hc, hne, hrest⟩ := holds_index_cons hfmt
      obtain ⟨s', hnext, hbuf, -⟩ := printfLoop_succ hc (fun _ => hne) h
      rw [← hbuf] at hrest
      have hmem := ih hrest hfin hnext
      rwa [hbuf, Nat.add_right_comm s.buf] at hmem

/-! ### The law -/

variable (E) in
/-- What a call with the format `l` should do: return the length of the format, having read
nothing behind the zero and taken one argument for each conversion that has one. -/
def PrintfLaw (l : List UInt8) : Prop :=
  ∃ n t, E.printf n = some t ∧ (∀ i ∈ t.reads, i ≤ l.length) ∧
    t.esp = takenBy (pieces none l) ∧ t.result = Int32.ofNat l.length

/-- **The formats that `printf` stops at the end of** are those that do not end inside a
conversion. -/
theorem printf_law_iff {l : List UInt8} (hfmt : Holds E.fmt l) (hstring : E.StringArguments l) :
    E.PrintfLaw l ↔ finished none l = true := by
  have hbegin : Holds (fun i => E.fmt (0 + i)) l := by
    simpa only [Nat.zero_add] using hfmt
  constructor
  · rintro ⟨n, t, hrun, hreads, -, -⟩
    by_contra hfin
    have hbehind := hreads _ (reads_behind hbegin (Bool.eq_false_of_not_eq_true hfin) hrun)
    omega
  · intro hfin
    obtain ⟨text, htext⟩ := exists_text (j := 0) fun qs alternate qs' hps =>
      (Nat.zero_add (takenBy qs)).symm ▸ hstring qs alternate qs' hps
    refine ⟨l.length + 1, _, printfLoop_run hbegin hfin htext (Nat.lt_succ_self _), ?_, ?_, ?_⟩
    · intro i hi
      have hrange : i ∈ List.range' 0 (l.length + 1) := by simpa [Printing.stopped] using hi
      have := List.mem_range'_1.1 hrange
      omega
    · exact Nat.zero_add _
    · exact congrArg Int32.ofNat (Nat.zero_add _)

end PrintfCall

/-- A call of `printf` with a format, all of whose arguments are 42 and point to an empty
string. -/
def sampleCall (format : List UInt8) : PrintfCall where
  fmt := ofList format
  arg := fun _ => 42
  string := fun _ => ofList []
  scratch := fun _ _ => 0

theorem stringArguments_sampleCall (format l : List UInt8) :
    (sampleCall format).StringArguments l :=
  fun _ _ _ _ => ⟨[], cstr_eq_some.2 ⟨by decide, holds_ofList List.not_mem_nil⟩⟩

/-- The format `"%#x %q%s"`. -/
theorem printf_law_iff_sample :
    (sampleCall [0x25, 0x23, 0x78, 0x20, 0x25, 0x71, 0x25, 0x73]).PrintfLaw
        [0x25, 0x23, 0x78, 0x20, 0x25, 0x71, 0x25, 0x73] ↔
      finished none [0x25, 0x23, 0x78, 0x20, 0x25, 0x71, 0x25, 0x73] = true :=
  PrintfCall.printf_law_iff (holds_ofList (by decide)) (stringArguments_sampleCall _ _)

/-- The format `"%"`: the character behind its zero is read. -/
theorem printf_reads_behind :
    Holds (sampleCall [0x25]).fmt [0x25] ∧ (sampleCall [0x25]).StringArguments [0x25] ∧
      ¬(sampleCall [0x25]).PrintfLaw [0x25] := by
  have hfmt : Holds (sampleCall [0x25]).fmt [0x25] := holds_ofList (by decide)
  refine ⟨hfmt, stringArguments_sampleCall _ _, ?_⟩
  rintro ⟨n, t, hrun, hreads, -, -⟩
  have hbegin : Holds (fun i => (sampleCall [0x25]).fmt (0 + i)) [0x25] := by
    simpa only [Nat.zero_add] using hfmt
  have hbehind := hreads _ (PrintfCall.reads_behind hbegin rfl hrun)
  exact absurd hbehind (by decide)

end CheetOS
