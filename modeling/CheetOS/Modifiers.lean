import CheetOS.Keyboard

/-!
# The keys that are held down

What the flags of `keyboard.c` should say, read off the scan codes alone: a code below
`0x80` presses a key, the same code with the high bit releases it.

* `held` are the keys that are down after some codes, `capsOn` is the parity of the
  presses of caps lock;
* `flags_agree` — the flags of control, alt and caps lock always follow the keys;
* `ShiftLost` is when a shift key was released while the other one was held, and no shift
  key has moved since; `shiftStat_eq` says that only then the flag of shift is wrong;
* `modifiers_follow` — the flags and the case of the letters follow the keys exactly
  in all other cases.
-/

namespace CheetOS

/-! ## The keys -/

/-- One key goes down or up. -/
def moveKey (down : UInt8 → Bool) (scancode : UInt8) : UInt8 → Bool :=
  if scancode < prConver then Function.update down scancode true
  else Function.update down (scancode - prConver) false

/-- The keys that are held after some scan codes. -/
def held (codes : List UInt8) : UInt8 → Bool := codes.foldl moveKey fun _ => false

/-- Caps lock was pressed an odd number of times. -/
def capsOn (codes : List UInt8) : Bool := decide (codes.count keyCaps % 2 = 1)

/-- One of the two shift keys is held. -/
def shiftHeld (codes : List UInt8) : Bool :=
  held codes keyShiftLeft || held codes keyShiftRight

/-- The keyboard after some scan codes. -/
def Keyboard.after (kb : Keyboard) (codes : List UInt8) : Keyboard :=
  codes.foldl Keyboard.handleCharpress kb

/-- The keys `a` to `z`. -/
def IsLetterKey (scancode : UInt8) : Prop :=
  0x61 ≤ scanAscii scancode false ∧ scanAscii scancode false ≤ 0x7A

instance (scancode : UInt8) : Decidable (IsLetterKey scancode) :=
  inferInstanceAs (Decidable (_ ∧ _))

/-- The flags are those of the keys that are held, and a letter key gives an upper-case
letter exactly if shift and caps lock differ. -/
structure Follows (codes : List UInt8) (kb : Keyboard) : Prop where
  shift : kb.shiftStat = shiftHeld codes
  ctrl : kb.ctrlStat = held codes keyCtrl
  alt : kb.altStat = held codes keyAlt
  caps : kb.capsStat = capsOn codes
  letter : held codes keyCtrl = false → held codes keyAlt = false →
    ∀ scancode, IsLetterKey scancode → (kb.handleCharpress scancode).pushedKey =
      (if shiftHeld codes ≠ capsOn codes then scanAscii scancode false - capsConver
        else scanAscii scancode false).toUInt16

/-! ## One more scan code -/

theorem held_concat (codes : List UInt8) (scancode : UInt8) :
    held (codes ++ [scancode]) = moveKey (held codes) scancode := by
  unfold held
  rw [List.foldl_append]
  rfl

/-- A key moves by its own two codes and by no other. -/
theorem moveKey_apply (down : UInt8 → Bool) (scancode : UInt8) {key : UInt8}
    (hkey : key < prConver) : moveKey down scancode key =
      if scancode = key then true else if scancode = key + prConver then false
      else down key := by
  have hrelease : ∀ key < prConver, ∀ scancode, ¬scancode < prConver →
      (key = scancode - prConver ↔ scancode = key + prConver) ∧ scancode ≠ key := by
    intro key hkey scancode hcode
    constructor
    · constructor
      · rintro rfl
        grind
      · rintro rfl
        grind
    · rintro rfl
      exact hcode hkey
  unfold moveKey
  by_cases hcode : scancode < prConver
  · have hne : scancode ≠ key + prConver := by
      have hnat : (key + prConver).toNat = key.toNat + 128 := by
        rw [UInt8.toNat_add]
        have hlt : key.toNat < 128 := UInt8.lt_iff_toNat_lt.1 hkey
        have hbit : prConver.toNat = 128 := rfl
        omega
      rintro rfl
      have hlt : (key + prConver).toNat < 128 := UInt8.lt_iff_toNat_lt.1 hcode
      omega
    rw [if_pos hcode, if_neg hne, Function.update_apply]
    by_cases heq : scancode = key
    · rw [if_pos heq.symm, if_pos heq]
    · rw [if_neg (Ne.symm heq), if_neg heq]
  · obtain ⟨hiff, hne⟩ := hrelease key hkey scancode hcode
    rw [if_neg hcode, if_neg hne, Function.update_apply]
    by_cases heq : scancode = key + prConver
    · rw [if_pos (hiff.2 heq), if_pos heq]
    · rw [if_neg (fun h => heq (hiff.1 h)), if_neg heq]

theorem capsOn_concat (codes : List UInt8) (scancode : UInt8) :
    capsOn (codes ++ [scancode]) = if scancode = keyCaps then !capsOn codes else capsOn codes := by
  unfold capsOn
  rw [List.count_append, List.count_singleton]
  by_cases h : scancode = keyCaps
  · rw [if_pos (by simpa using h), if_pos h]
    have hparity : (codes.count keyCaps + 1) % 2 = 1 ↔ ¬codes.count keyCaps % 2 = 1 := by
      omega
    rw [decide_eq_decide.2 hparity, decide_not]
  · rw [if_neg (by simpa using h), if_neg h, Nat.add_zero]

namespace Keyboard

theorem after_concat (kb : Keyboard) (codes : List UInt8) (scancode : UInt8) :
    kb.after (codes ++ [scancode]) = (kb.after codes).handleCharpress scancode := by
  unfold after
  rw [List.foldl_append]
  rfl

/-! What `handle_charpress` does to each flag. -/

theorem ctrlStat_handleCharpress (kb : Keyboard) (scancode : UInt8) :
    (kb.handleCharpress scancode).ctrlStat =
      if scancode = keyCtrl then true else if scancode = keyCtrl + prConver then false
      else kb.ctrlStat := by
  unfold handleCharpress charpress
  grind

theorem altStat_handleCharpress (kb : Keyboard) (scancode : UInt8) :
    (kb.handleCharpress scancode).altStat =
      if scancode = keyAlt then true else if scancode = keyAlt + prConver then false
      else kb.altStat := by
  unfold handleCharpress charpress
  grind

theorem shiftStat_handleCharpress (kb : Keyboard) (scancode : UInt8) :
    (kb.handleCharpress scancode).shiftStat =
      if scancode = keyShiftLeft ∨ scancode = keyShiftRight then true
      else if scancode = keyShiftLeft + prConver ∨ scancode = keyShiftRight + prConver then false
      else kb.shiftStat := by
  unfold handleCharpress charpress
  grind

theorem capsStat_handleCharpress (kb : Keyboard) (scancode : UInt8) :
    (kb.handleCharpress scancode).capsStat =
      if scancode = keyCaps then !kb.capsStat else kb.capsStat := by
  unfold handleCharpress charpress
  grind

end Keyboard

/-! ## The flags -/

/-- The keyboard after the codes, from the start of the kernel. -/
def pressed (codes : List UInt8) : Keyboard := Polling.start.kb.after codes

/-- **Control, alt and caps lock always follow their keys.** -/
theorem flags_agree (codes : List UInt8) :
    (pressed codes).ctrlStat = held codes keyCtrl ∧ (pressed codes).altStat = held codes keyAlt ∧
      (pressed codes).capsStat = capsOn codes := by
  induction codes using List.reverseRecOn with
  | nil => exact ⟨rfl, rfl, rfl⟩
  | append_singleton codes scancode ih =>
    obtain ⟨hctrl, halt, hcaps⟩ := ih
    unfold pressed at hctrl halt hcaps ⊢
    rw [Keyboard.after_concat, held_concat, capsOn_concat]
    refine ⟨?_, ?_, ?_⟩
    · rw [Keyboard.ctrlStat_handleCharpress, moveKey_apply _ _ (by decide), hctrl]
    · rw [Keyboard.altStat_handleCharpress, moveKey_apply _ _ (by decide), halt]
    · rw [Keyboard.capsStat_handleCharpress, hcaps]

/-- A code of one of the shift keys. -/
def IsShift (scancode : UInt8) : Prop :=
  (scancode = keyShiftLeft ∨ scancode = keyShiftRight) ∨
    scancode = keyShiftLeft + prConver ∨ scancode = keyShiftRight + prConver

/-- One shift key is released while the other one is held. -/
def LiftsOne (down : UInt8 → Bool) (scancode : UInt8) : Prop :=
  (scancode = keyShiftLeft + prConver ∧ down keyShiftRight = true) ∨
    (scancode = keyShiftRight + prConver ∧ down keyShiftLeft = true)

/-- The last code of a shift key released it while the other one was held. -/
def ShiftLost (codes : List UInt8) : Prop :=
  ∃ before scancode rest, codes = before ++ scancode :: rest ∧
    LiftsOne (held before) scancode ∧ ∀ c ∈ rest, ¬IsShift c

theorem LiftsOne.isShift {down : UInt8 → Bool} {scancode : UInt8} (h : LiftsOne down scancode) :
    IsShift scancode := by
  rcases h with ⟨h, -⟩ | ⟨h, -⟩
  · exact Or.inr (Or.inl h)
  · exact Or.inr (Or.inr h)

theorem not_shiftLost_nil : ¬ShiftLost [] := by
  rintro ⟨before, scancode, rest, heq, -⟩
  exact absurd heq (by simp)

theorem shiftLost_concat (codes : List UInt8) (scancode : UInt8) :
    ShiftLost (codes ++ [scancode]) ↔
      LiftsOne (held codes) scancode ∨ (¬IsShift scancode ∧ ShiftLost codes) := by
  constructor
  · rintro ⟨before, c, rest, heq, hlifts, hrest⟩
    cases rest using List.reverseRecOn with
    | nil =>
      obtain ⟨rfl, hlast⟩ := List.append_inj' heq rfl
      obtain rfl := List.singleton_inj.1 hlast
      exact Or.inl hlifts
    | append_singleton rest d =>
      rw [← List.cons_append, ← List.append_assoc] at heq
      obtain ⟨rfl, hlast⟩ := List.append_inj' heq rfl
      obtain rfl := List.singleton_inj.1 hlast
      refine Or.inr ⟨hrest scancode (by simp), before, c, rest, rfl, hlifts, fun e he => ?_⟩
      exact hrest e (List.mem_append_left _ he)
  · rintro (hlifts | ⟨hnot, before, c, rest, rfl, hlifts, hrest⟩)
    · exact ⟨codes, scancode, [], rfl, hlifts, fun c hc => absurd hc List.not_mem_nil⟩
    · refine ⟨before, c, rest ++ [scancode], by simp, hlifts, fun e he => ?_⟩
      rcases List.mem_append.1 he with he | he
      · exact hrest e he
      · rwa [List.mem_singleton.1 he]

/-- A shift key that was lost is still held. -/
theorem ShiftLost.shiftHeld {codes : List UInt8} (h : ShiftLost codes) :
    shiftHeld codes = true := by
  induction codes using List.reverseRecOn with
  | nil => exact absurd h not_shiftLost_nil
  | append_singleton codes scancode ih =>
    unfold CheetOS.shiftHeld
    rw [held_concat, moveKey_apply _ _ (by decide), moveKey_apply _ _ (by decide)]
    rcases (shiftLost_concat codes scancode).1 h with (⟨rfl, hdown⟩ | ⟨rfl, hdown⟩) | ⟨hnot, hlost⟩
    · rw [if_pos rfl, if_neg (by decide), if_neg (by decide), if_neg (by decide), hdown]
      rfl
    · rw [if_neg (by decide), if_neg (by decide), if_neg (by decide), if_pos rfl, hdown]
      rfl
    · have hshift := ih hlost
      unfold CheetOS.shiftHeld at hshift
      unfold IsShift at hnot
      push Not at hnot
      obtain ⟨⟨hl, hr⟩, hl', hr'⟩ := hnot
      rw [if_neg hl, if_neg hl', if_neg hr, if_neg hr']
      exact hshift

/-- **The flag of shift is set exactly if a shift key is held and was not lost.** -/
theorem shiftStat_iff (codes : List UInt8) :
    (pressed codes).shiftStat = true ↔ shiftHeld codes = true ∧ ¬ShiftLost codes := by
  induction codes using List.reverseRecOn with
  | nil => exact iff_of_false (by decide) fun h => absurd h.1 (by decide)
  | append_singleton codes scancode ih =>
    unfold pressed at ih ⊢
    rw [Keyboard.after_concat, Keyboard.shiftStat_handleCharpress, shiftLost_concat]
    unfold shiftHeld at ih ⊢
    rw [held_concat, moveKey_apply _ _ (by decide), moveKey_apply _ _ (by decide)]
    by_cases hpress : scancode = keyShiftLeft ∨ scancode = keyShiftRight
    · -- a press is never a release
      have hlifts : ¬LiftsOne (held codes) scancode := by
        rintro (⟨h, -⟩ | ⟨h, -⟩) <;> rcases hpress with rfl | rfl <;> exact absurd h (by decide)
      rw [if_pos hpress]
      refine iff_of_true rfl ⟨?_, ?_⟩
      · rcases hpress with rfl | rfl <;> simp
      · exact not_or.2 ⟨hlifts, fun h => h.1 (Or.inl hpress)⟩
    · rw [if_neg hpress]
      rw [not_or] at hpress
      rw [if_neg hpress.1, if_neg hpress.2]
      by_cases hlift : scancode = keyShiftLeft + prConver ∨ scancode = keyShiftRight + prConver
      · rw [if_pos hlift]
        refine iff_of_false Bool.false_ne_true ?_
        rintro ⟨hheld, hlost⟩
        rw [not_or] at hlost
        -- the other key is up, so nothing is held
        rcases hlift with rfl | rfl
        · rw [if_pos rfl, if_neg (by decide), Bool.false_or] at hheld
          exact hlost.1 (Or.inl ⟨rfl, hheld⟩)
        · rw [if_pos rfl, if_neg (by decide), Bool.or_false] at hheld
          exact hlost.1 (Or.inr ⟨rfl, hheld⟩)
      · have hnot : ¬IsShift scancode := not_or.2 ⟨not_or.2 hpress, hlift⟩
        have hlifts : ¬LiftsOne (held codes) scancode := fun h => hnot h.isShift
        rw [if_neg hlift]
        rw [not_or] at hlift
        rw [if_neg hlift.1, if_neg hlift.2, ih]
        simp only [hlifts, hnot, not_false_eq_true, true_and, false_or]

/-! ## The case of a letter -/

/-- A letter key is none of the special ones, and its shifted character is the upper-case
letter. -/
theorem letterKey_spec {scancode : UInt8} (h : IsLetterKey scancode) :
    scancode < numCharHandle ∧ ¬IsShift scancode ∧
      scancode ∉ [keyCtrl, keyCtrl + prConver, keyAlt, keyAlt + prConver, keyCaps,
        keyCaps + prConver] ∧
      scanAscii scancode true = scanAscii scancode false - capsConver := by
  have hall : ∀ n < 58, IsLetterKey (UInt8.ofNat n) → UInt8.ofNat n < numCharHandle ∧
      ((UInt8.ofNat n ≠ keyShiftLeft ∧ UInt8.ofNat n ≠ keyShiftRight) ∧
        UInt8.ofNat n ≠ keyShiftLeft + prConver ∧ UInt8.ofNat n ≠ keyShiftRight + prConver) ∧
      UInt8.ofNat n ∉ [keyCtrl, keyCtrl + prConver, keyAlt, keyAlt + prConver, keyCaps,
        keyCaps + prConver] ∧
      scanAscii (UInt8.ofNat n) true = scanAscii (UInt8.ofNat n) false - capsConver := by
    decide
  have hlt : scancode.toNat < 58 := by
    by_contra hge
    have hnone : scan2ascii[scancode.toNat]? = none :=
      List.getElem?_eq_none (not_lt.1 hge)
    have hzero : scanAscii scancode false = 0 := by
      rw [scanAscii, List.getD_eq_getElem?_getD, hnone]
      rfl
    exact absurd h.1 (by rw [hzero]; decide)
  have hspec := hall scancode.toNat hlt
  rw [UInt8.ofNat_toNat] at hspec
  obtain ⟨hsmall, ⟨⟨hl, hr⟩, hl', hr'⟩, hspecial, hupper⟩ := hspec h
  exact ⟨hsmall, not_or.2 ⟨not_or.2 ⟨hl, hr⟩, not_or.2 ⟨hl', hr'⟩⟩, hspecial, hupper⟩

/-- Caps lock and shift decide about a letter, and both together about nothing. -/
theorem regularKey_letter (kb : Keyboard) {scancode : UInt8} (h : IsLetterKey scancode) :
    kb.regularKey scancode =
      if kb.shiftStat ≠ kb.capsStat then scanAscii scancode false - capsConver
      else scanAscii scancode false := by
  obtain ⟨-, -, -, hupper⟩ := letterKey_spec h
  obtain ⟨hlo, hhi⟩ := h
  unfold Keyboard.regularKey
  cases hshift : kb.shiftStat with
  | false =>
    cases hcaps : kb.capsStat with
    | false => simp
    | true => simp [hlo, hhi]
  | true =>
    cases hcaps : kb.capsStat with
    | false => simp [hupper]
    | true =>
      have hnot : ¬(0x61 ≤ scanAscii scancode false - capsConver ∧
          scanAscii scancode false - capsConver ≤ 0x7A) := by
        grind
      have hrange : 0x41 ≤ scanAscii scancode false - capsConver ∧
          scanAscii scancode false - capsConver ≤ 0x5A := by
        grind
      simp [hupper, hnot, hrange]

/-- A letter key alone gives a letter, in the case that shift and caps lock call for. -/
theorem letter_key {kb : Keyboard} (hctrl : kb.ctrlStat = false) (halt : kb.altStat = false)
    {scancode : UInt8} (h : IsLetterKey scancode) :
    (kb.handleCharpress scancode).pushedKey =
      (if kb.shiftStat ≠ kb.capsStat then scanAscii scancode false - capsConver
        else scanAscii scancode false).toUInt16 := by
  obtain ⟨hsmall, hshift, hspecial, -⟩ := letterKey_spec h
  have hkey : kb.charpress scancode = (kb.regularKey scancode, kb) := by
    unfold IsShift at hshift
    simp only [List.mem_cons, List.not_mem_nil, or_false, not_or] at hshift hspecial
    unfold Keyboard.charpress Keyboard.defaultKey
    simp [hshift, hspecial, hctrl, halt, hsmall]
  have hne : kb.regularKey scancode ≠ 0 := by
    rw [regularKey_letter kb h]
    obtain ⟨hlo, hhi⟩ := h
    split_ifs <;> grind
  unfold Keyboard.handleCharpress
  rw [hkey]
  dsimp only
  rw [if_pos hne, regularKey_letter kb h]

/-! ## The keys and the flags -/

/-- **The flags follow the keys, except where shift was lost.**  After any codes, the flags
are those of the keys that are held and every letter has the case they call for, exactly
unless the last code of a shift key released it while the other one was held.  So they
do at every moment of a sequence exactly if no shift key is ever released in that way. -/
theorem modifiers_follow (codes : List UInt8) :
    (Follows codes (pressed codes) ↔ ¬ShiftLost codes) ∧
    ((∀ before, before <+: codes → Follows before (pressed before)) ↔
      ∀ before scancode, before ++ [scancode] <+: codes → ¬LiftsOne (held before) scancode) := by
  have hfollows : ∀ codes, Follows codes (pressed codes) ↔ ¬ShiftLost codes := by
    intro codes
    obtain ⟨hctrl, halt, hcaps⟩ := flags_agree codes
    have hshift := shiftStat_iff codes
    constructor
    · intro h hlost
      rw [h.shift] at hshift
      exact (hshift.1 hlost.shiftHeld).2 hlost
    · intro hnot
      have heq : (pressed codes).shiftStat = shiftHeld codes :=
        Bool.eq_iff_iff.2 (hshift.trans (and_iff_left hnot))
      refine ⟨heq, hctrl, halt, hcaps, fun hup hup' scancode hletter => ?_⟩
      rw [letter_key (hctrl.trans hup) (halt.trans hup') hletter, heq, hcaps]
  refine ⟨hfollows codes, fun h before scancode hpre hlifts => ?_, fun h before hpre => ?_⟩
  · exact (hfollows _).1 (h _ hpre) ((shiftLost_concat before scancode).2 (Or.inl hlifts))
  · rw [hfollows]
    rintro ⟨start, scancode, rest, rfl, hlifts, -⟩
    refine h start scancode (List.IsPrefix.trans ?_ hpre) hlifts
    exact ⟨rest, by simp⟩

/-- Both shift keys go down and the left one comes up: the right one is held, but `a` is a
lower-case letter. -/
theorem shift_lost :
    shiftHeld [keyShiftLeft, keyShiftRight, keyShiftLeft + prConver] = true ∧
    (pressed [keyShiftLeft, keyShiftRight, keyShiftLeft + prConver]).shiftStat = false ∧
    (pressed [keyShiftLeft, keyShiftRight, keyShiftLeft + prConver, 0x1E]).pushedKey = 0x61 ∧
    ¬Follows [keyShiftLeft, keyShiftRight, keyShiftLeft + prConver]
      (pressed [keyShiftLeft, keyShiftRight, keyShiftLeft + prConver]) := by
  refine ⟨by decide, by decide, by decide, fun h => ?_⟩
  exact absurd h.shift (by decide)

end CheetOS
