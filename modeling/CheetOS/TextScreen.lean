import CheetOS.Devices
import CheetOS.Lib.TextWindow
import CheetOS.Lib.Word32

/-!
# The text on the screen (`lib.c`)

`putc` and `clear` are the operations of a text window of 25 rows of 80 cells.

* `Views` relates the cursor and the video memory to such a window;
  `putc_views` and `clear_views` are the simulation.
* `mem_scroll_instructions` and `mem_clear_instructions` — the copies are those of
  `rep movsb` and `rep stosw`, byte after byte in place.
* `PutcWrites` and `ClearWrites` are the addresses the two functions write;
  `inVideo_of_putcWrites` bounds them by the 4000 bytes of video memory.
* `screen_shows_text` — the screen shows the last rows of the text written since
  `clear`.
-/

namespace CheetOS

open TextWindow

/-- The screen: a cell is a character and its attribute. -/
def textScreen : Geometry (UInt8 × UInt8) where
  cols := 80
  rows := 25
  blank := (0x20, attrib)
  cols_pos := by decide
  rows_pos := by decide

theorem size_textScreen : textScreen.size = 2000 := rfl

/-- What `putc` does to a window. -/
def putcWindow (w : Window (UInt8 × UInt8)) (c : UInt8) : Window (UInt8 × UInt8) :=
  if c = 0x0A ∨ c = 0x0D then textScreen.newline w
  else if c = 0x08 then textScreen.rubout w
  else textScreen.put w (c, attrib)

theorem pos_putcWindow_lt {w : Window (UInt8 × UInt8)} (h : w.pos < 2000) (c : UInt8) :
    (putcWindow w c).pos < 2000 := by
  unfold putcWindow
  split
  · exact textScreen.pos_newline_lt h
  · split
    · exact textScreen.pos_rubout_lt h
    · exact textScreen.pos_put_lt h _

/-! ## Words -/

theorem cell_offset (p : ℕ) (hp : p < 2000) :
    ((Int32.ofNat p) <<< 1).toUInt32 = UInt32.ofNat (2 * p) := by
  have hword : ((Int32.ofNat p) <<< 1).toUInt32 = UInt32.ofNat p <<< 1 := rfl
  have hp' : (UInt32.ofNat p).toNat = p := Word32.toNat_ofNat (by omega)
  have hone : (1 : UInt32).toNat % 32 = 1 := by decide
  rw [hword, ← UInt32.toNat_inj, UInt32.toNat_shiftLeft, hone, hp', Nat.shiftLeft_eq,
    Word32.toNat_ofNat (by omega)]
  omega

theorem row_full : ∀ x < 81, Int32.ofNat x % numCols = Int32.ofNat (x % 80) ∧
    (Int32.ofNat x ≥ numCols ↔ x = 80) := by
  decide +kernel

theorem rows_full : ∀ y < 26, (Int32.ofNat y ≥ numRows ↔ y = 25) ∧
    (Int32.ofNat y = 0 ↔ y = 0) := by
  decide +kernel

theorem column_left : ∀ x < 80, (Int32.ofNat x - 1 < 0 ↔ x = 0) ∧ (Int32.ofNat x = 0 ↔ x = 0) := by
  decide +kernel

theorem int32_add_one (n : ℕ) : Int32.ofNat n + 1 = Int32.ofNat (n + 1) := by
  rw [Int32.ofNat_add]
  rfl

theorem int32_sub_one (n : ℕ) : Int32.ofNat (n + 1) - 1 = Int32.ofNat n := by
  rw [← int32_add_one, Int32.add_sub_cancel]

/-- Offsets from one address are compared as numbers. -/
theorem offset_lt_iff {m n : ℕ} (hm : m < 4294967296) (hn : n < 4294967296) :
    UInt32.ofNat m < UInt32.ofNat n ↔ m < n := by
  rw [UInt32.lt_iff_toNat_lt, Word32.toNat_ofNat hm, Word32.toNat_ofNat hn]

/-- An address before an array is not at an offset of it. -/
theorem offset_before (a : UInt32) {i j n : ℕ} (hlt : i < j) (hbound : j + n < 4294967296) :
    ¬a + UInt32.ofNat i - (a + UInt32.ofNat j) < UInt32.ofNat n := by
  obtain ⟨d, rfl⟩ := Nat.exists_eq_add_of_lt hlt
  have hd : (UInt32.ofNat (d + 1)).toNat = d + 1 := Word32.toNat_ofNat (by omega)
  have hsub : a + UInt32.ofNat i - (a + UInt32.ofNat (i + d + 1)) = 0 - UInt32.ofNat (d + 1) := by
    rw [Nat.add_assoc, ← Word32.add_ofNat_add_ofNat]
    grind
  rw [hsub, UInt32.lt_iff_toNat_lt, UInt32.toNat_sub, hd, Word32.toNat_ofNat (by omega)]
  simp only [UInt32.reduceToNat]
  omega

/-! ## The copying instructions -/

/-- `rep movsb` with the direction flag clear: `n` bytes, one after the other. -/
def repMovsb : ℕ → UInt32 → UInt32 → (UInt32 → UInt8) → UInt32 → UInt8
  | 0, _, _, mem => mem
  | n + 1, edi, esi, mem => repMovsb n (edi + 1) (esi + 1) (Function.update mem edi (mem esi))

/-- `rep stosw`: `n` words. -/
def repStosw (ax : UInt32) : ℕ → UInt32 → (UInt32 → UInt8) → UInt32 → UInt8
  | 0, _, mem => mem
  | n + 1, edi, mem =>
    repStosw ax n (edi + 2)
      (Function.update (Function.update mem edi ax.toUInt8) (edi + 1) (ax >>> 8).toUInt8)

theorem sub_offset (base : UInt32) {j : ℕ} (hj : j < 4294967296) :
    (base + UInt32.ofNat j - base).toNat = j := by
  rw [UInt32.add_comm, UInt32.add_sub_cancel, Word32.toNat_ofNat hj]

/-- The copy from offset `k` on.  Towards lower addresses it reads no byte that it has
already written. -/
theorem repMovsb_from {dest src : UInt32} (hlt : dest < src) {n k : ℕ}
    (hbound : src.toNat + k + n ≤ 4294967296) (mem : UInt32 → UInt8) (a : UInt32) :
    repMovsb n (dest + UInt32.ofNat k) (src + UInt32.ofNat k) mem a
      = if k ≤ (a - dest).toNat ∧ (a - dest).toNat < k + n then mem (src + (a - dest))
        else mem a := by
  have hlt' := UInt32.lt_iff_toNat_lt.1 hlt
  induction n generalizing k mem with
  | zero =>
    rw [repMovsb, if_neg]
    omega
  | succ n ih =>
    have hnext (x : UInt32) : x + UInt32.ofNat k + 1 = x + UInt32.ofNat (k + 1) := by
      rw [UInt32.ofNat_add, UInt32.add_assoc]
      rfl
    rw [repMovsb, hnext, hnext, ih (by omega)]
    have hdest : (dest + UInt32.ofNat k).toNat = dest.toNat + k :=
      Word32.toNat_add_ofNat (by omega)
    generalize hj : (a - dest).toNat = j
    have ha : a = dest + UInt32.ofNat j := by
      rw [← hj]
      exact Word32.eq_add_offset a dest
    have hoff : a - dest = UInt32.ofNat j := by rw [← hj, UInt32.ofNat_toNat]
    by_cases hin : k + 1 ≤ j ∧ j < k + 1 + n
    · have hne : src + (a - dest) ≠ dest + UInt32.ofNat k := by
        intro heq
        have hsrc : (src + UInt32.ofNat j).toNat = src.toNat + j :=
          Word32.toNat_add_ofNat (by omega)
        rw [hoff] at heq
        have hnat := congrArg UInt32.toNat heq
        omega
      rw [if_pos hin, if_pos (by omega), Function.update_of_ne hne]
    · rw [if_neg hin]
      by_cases hat : j = k
      · rw [if_pos (by omega), ha, hat, Function.update_self, ← hat, ← ha, hoff]
      · have hne : a ≠ dest + UInt32.ofNat k := by
          intro heq
          have hk := sub_offset dest (show k < 4294967296 by omega)
          rw [← heq, hj] at hk
          exact hat hk
        rw [if_neg (by omega), Function.update_of_ne hne]

/-- `memmove` to a lower address is its loop. -/
theorem memmove_eq_repMovsb {dest src : UInt32} (hlt : dest < src) {n : ℕ}
    (hbound : src.toNat + n ≤ 4294967296) (mem : UInt32 → UInt8) :
    memmove dest src (UInt32.ofNat n) mem = repMovsb n dest src mem := by
  funext a
  have hpos := UInt32.lt_iff_toNat_lt.1 hlt
  have hfrom := repMovsb_from hlt (k := 0) (n := n) (by omega) mem a
  rw [Word32.add_ofNat_zero, Word32.add_ofNat_zero] at hfrom
  rw [hfrom, memmove]
  have hiff : a - dest < UInt32.ofNat n ↔ 0 ≤ (a - dest).toNat ∧ (a - dest).toNat < 0 + n := by
    rw [UInt32.lt_iff_toNat_lt, Word32.toNat_ofNat (by omega)]
    omega
  simp only [hiff]

/-- The words from offset `2 * k` on. -/
theorem repStosw_from (s c : UInt32) {n k : ℕ} (hbound : 2 * (k + n) ≤ 4294967296)
    (mem : UInt32 → UInt8) (a : UInt32) :
    repStosw c n (s + UInt32.ofNat (2 * k)) mem a
      = if 2 * k ≤ (a - s).toNat ∧ (a - s).toNat < 2 * (k + n) then
          if (a - s).toNat % 2 = 0 then c.toUInt8 else (c >>> 8).toUInt8
        else mem a := by
  induction n generalizing k mem with
  | zero =>
    rw [repStosw, if_neg]
    omega
  | succ n ih =>
    have hnext : s + UInt32.ofNat (2 * k) + 2 = s + UInt32.ofNat (2 * (k + 1)) := by
      rw [Nat.mul_succ, ← Word32.add_ofNat_add_ofNat]
      rfl
    have hsecond : s + UInt32.ofNat (2 * k) + 1 = s + UInt32.ofNat (2 * k + 1) := by
      rw [← Word32.add_ofNat_add_ofNat]
      rfl
    rw [repStosw, hnext, hsecond, ih (by omega)]
    generalize hj : (a - s).toNat = j
    have ha : a = s + UInt32.ofNat j := by
      rw [← hj]
      exact Word32.eq_add_offset a s
    have hiff (i : ℕ) (hi : i < 4294967296) : a = s + UInt32.ofNat i ↔ j = i := by
      constructor
      · intro heq
        have hoff := sub_offset s hi
        rwa [← heq, hj] at hoff
      · rintro rfl
        exact ha
    rw [Function.update_apply, Function.update_apply]
    simp only [hiff (2 * k) (by omega), hiff (2 * k + 1) (by omega)]
    by_cases hin : 2 * (k + 1) ≤ j ∧ j < 2 * (k + 1 + n)
    · rw [if_pos hin, if_pos (show 2 * k ≤ j ∧ j < 2 * (k + (n + 1)) by omega)]
    · rw [if_neg hin]
      by_cases hlow : j = 2 * k
      · rw [if_neg (by omega), if_pos hlow, if_pos (by omega), if_pos (by omega)]
      · by_cases hhigh : j = 2 * k + 1
        · rw [if_pos hhigh, if_pos (by omega), if_neg (by omega)]
        · rw [if_neg hhigh, if_neg hlow, if_neg (by omega)]

/-- `memset_word` is its loop. -/
theorem memsetWord_eq_repStosw (s c : UInt32) {n : ℕ} (hbound : 2 * n < 4294967296)
    (mem : UInt32 → UInt8) :
    memsetWord s c (UInt32.ofNat n) mem = repStosw c n s mem := by
  funext a
  have hfrom := repStosw_from s c (k := 0) (n := n) (by omega) mem a
  rw [Nat.mul_zero, Word32.add_ofNat_zero] at hfrom
  have htwice : (2 * UInt32.ofNat n).toNat = 2 * n := by
    rw [UInt32.toNat_mul, Word32.toNat_ofNat (by omega)]
    exact Nat.mod_eq_of_lt hbound
  have hiff : a - s < 2 * UInt32.ofNat n ↔ 0 ≤ (a - s).toNat ∧ (a - s).toNat < 2 * (0 + n) := by
    rw [UInt32.lt_iff_toNat_lt, htwice]
    omega
  have hparity : (a - s) % 2 = 0 ↔ (a - s).toNat % 2 = 0 := by
    rw [← UInt32.toNat_inj, UInt32.toNat_mod]
    rfl
  rw [hfrom, memsetWord]
  simp only [hiff, hparity]

/-! ## Cells -/

namespace Screen

/-- The byte at an offset of the video memory. -/
def videoByte (s : Screen) (j : ℕ) : UInt8 := s.mem (video + UInt32.ofNat j)

/-- The cell at a position, row by row. -/
def look (s : Screen) (i : ℕ) : UInt8 × UInt8 := (s.videoByte (2 * i), s.videoByte (2 * i + 1))

theorem look_moved (s : Screen) (x y : Int32) (i : ℕ) :
    ({ s with screenX := x, screenY := y } : Screen).look i = s.look i := rfl

/-- The cursor and the cells of a screen are those of a window. -/
structure Views (s : Screen) (w : Window (UInt8 × UInt8)) : Prop where
  x_eq : s.screenX = Int32.ofNat (w.pos % 80)
  y_eq : s.screenY = Int32.ofNat (w.pos / 80)
  look_eq : ∀ i < 2000, s.look i = w.cells i

theorem Views.cell_eq {s : Screen} {w : Window (UInt8 × UInt8)} (h : s.Views w)
    (hpos : w.pos < 2000) : s.cell = video + UInt32.ofNat (2 * w.pos) := by
  have hlinear : numCols * Int32.ofNat (w.pos / 80) + Int32.ofNat (w.pos % 80)
      = Int32.ofNat w.pos := by
    show Int32.ofNat 80 * _ + _ = _
    rw [← Int32.ofNat_mul, ← Int32.ofNat_add, Nat.div_add_mod]
  rw [cell, h.x_eq, h.y_eq, hlinear, cell_offset w.pos hpos]

theorem videoByte_poke {s : Screen} {p j : ℕ} (c : UInt8)
    (hcell : s.cell = video + UInt32.ofNat (2 * p)) (hp : p < 2000) (hj : j < 4000) :
    (s.poke c).videoByte j
      = if j = 2 * p then c else if j = 2 * p + 1 then attrib else s.videoByte j := by
  have hinj (i : ℕ) (hi : i < 4000) :
      video + UInt32.ofNat j = video + UInt32.ofNat i ↔ j = i := by
    constructor
    · intro heq
      have hnat := congrArg UInt32.toNat ((UInt32.add_right_inj video).1 heq)
      rwa [Word32.toNat_ofNat (by omega), Word32.toNat_ofNat (by omega)] at hnat
    · rintro rfl
      rfl
  have hnext : s.cell + 1 = video + UInt32.ofNat (2 * p + 1) := by
    rw [hcell, ← Word32.add_ofNat_add_ofNat]
    rfl
  show Function.update (Function.update s.mem s.cell c) (s.cell + 1) attrib _ = _
  rw [Function.update_apply, Function.update_apply, hnext, hcell]
  simp only [hinj (2 * p) (by omega), hinj (2 * p + 1) (by omega)]
  by_cases heven : j = 2 * p
  · rw [if_pos heven, if_pos heven, if_neg (by omega)]
  · rw [if_neg heven, if_neg heven]
    rfl

theorem look_poke {s : Screen} {p i : ℕ} (c : UInt8)
    (hcell : s.cell = video + UInt32.ofNat (2 * p)) (hp : p < 2000) (hi : i < 2000) :
    (s.poke c).look i = if i = p then (c, attrib) else s.look i := by
  rw [look, videoByte_poke c hcell hp (by omega), videoByte_poke c hcell hp (by omega)]
  by_cases h : i = p
  · subst h
    simp
  · rw [if_neg h, if_neg (by omega), if_neg (by omega), if_neg (by omega), if_neg (by omega), look]

/-! ## Scrolling and clearing -/

theorem memmove_offset (dest src : UInt32) (mem : UInt32 → UInt8) {n j : ℕ}
    (hn : n < 4294967296) (hj : j < 4294967296) :
    memmove dest src (UInt32.ofNat n) mem (dest + UInt32.ofNat j)
      = if j < n then mem (src + UInt32.ofNat j) else mem (dest + UInt32.ofNat j) := by
  have hsub : dest + UInt32.ofNat j - dest = UInt32.ofNat j := by
    rw [UInt32.add_comm, UInt32.add_sub_cancel]
  rw [memmove, hsub]
  simp only [offset_lt_iff hj hn]

/-- `memset_word` with a blank cell. -/
theorem memsetWord_blank (s : UInt32) (mem : UInt32 → UInt8) {n j : ℕ} (hn : n < 2147483648)
    (hj : j < 4294967296) :
    memsetWord s 0x0720 (UInt32.ofNat n) mem (s + UInt32.ofNat j)
      = if j < 2 * n then (if j % 2 = 0 then 0x20 else attrib)
        else mem (s + UInt32.ofNat j) := by
  have hsub : s + UInt32.ofNat j - s = UInt32.ofNat j := by
    rw [UInt32.add_comm, UInt32.add_sub_cancel]
  have htwice : 2 * UInt32.ofNat n = UInt32.ofNat (2 * n) := by
    rw [UInt32.ofNat_mul]
    rfl
  have hparity : UInt32.ofNat j % 2 = 0 ↔ j % 2 = 0 := by
    rw [← UInt32.toNat_inj, UInt32.toNat_mod, Word32.toNat_ofNat hj]
    rfl
  rw [memsetWord, hsub, htwice]
  simp only [offset_lt_iff hj (show 2 * n < 4294967296 by omega), hparity]
  rfl

/-- What `putc` does when it scrolls, as the instructions it executes. -/
theorem mem_scroll_instructions {s : Screen} (h : s.screenY ≥ numRows) :
    s.scroll.mem = repStosw 0x0720 80 (video + 24 * 80 * 2)
      (repMovsb 3840 video (video + 80 * 2) s.mem) := by
  have hmove := memmove_eq_repMovsb (show video < video + 80 * 2 by decide)
    (show (video + 80 * 2).toNat + 3840 ≤ 4294967296 by decide) s.mem
  have hblank := memsetWord_eq_repStosw (video + 24 * 80 * 2) 0x0720 (show 2 * 80 < 4294967296 by decide)
    (repMovsb 3840 video (video + 80 * 2) s.mem)
  rw [scroll, if_pos h, ← hblank, ← hmove]
  rfl

theorem mem_clear_instructions (s : Screen) : s.clear.mem = repStosw 0x0720 2000 video s.mem :=
  memsetWord_eq_repStosw video 0x0720 (show 2 * 2000 < 4294967296 by decide) s.mem

theorem videoByte_clear (s : Screen) {j : ℕ} (hj : j < 4000) :
    s.clear.videoByte j = if j % 2 = 0 then 0x20 else attrib := by
  show memsetWord video 0x0720 (UInt32.ofNat 2000) s.mem _ = _
  rw [memsetWord_blank video s.mem (by decide) (by omega), if_pos hj]

/-- The last row is blanked after the others moved up. -/
theorem videoByte_scrolled (mem : UInt32 → UInt8) {j : ℕ} (hj : j < 4000) :
    memsetWord (video + 24 * 80 * 2) 0x0720 80
        (memmove video (video + 80 * 2) (24 * 80 * 2) mem) (video + UInt32.ofNat j)
      = if j < 3840 then mem (video + UInt32.ofNat (j + 160))
        else if j % 2 = 0 then 0x20 else attrib := by
  by_cases hlast : j < 3840
  · have hbefore := offset_before video (n := 160) hlast (by decide)
    rw [if_pos hlast, memsetWord]
    show (if video + UInt32.ofNat j - (video + UInt32.ofNat 3840) < UInt32.ofNat 160 then _
      else memmove video (video + 80 * 2) (UInt32.ofNat 3840) mem (video + UInt32.ofNat j)) = _
    rw [if_neg hbefore, memmove_offset _ _ _ (by decide) (by omega), if_pos hlast,
      Nat.add_comm, ← Word32.add_ofNat_add_ofNat]
    rfl
  · obtain ⟨i, rfl⟩ := Nat.exists_eq_add_of_le (not_lt.1 hlast)
    have hparity : (3840 + i) % 2 = i % 2 := by omega
    rw [if_neg hlast, ← Word32.add_ofNat_add_ofNat, hparity]
    show memsetWord (video + UInt32.ofNat 3840) 0x0720 (UInt32.ofNat 80) _ _ = _
    rw [memsetWord_blank _ _ (by decide) (by omega), if_pos (by omega)]

/-- Scrolling.  The position may be the one behind the last cell. -/
theorem scroll_views {s : Screen} {w : Window (UInt8 × UInt8)} (h : s.Views w)
    (hpos : w.pos ≤ 2000) : s.scroll.Views (textScreen.scroll w) := by
  have hrows := (rows_full (w.pos / 80) (by omega)).1
  rw [← h.y_eq] at hrows
  rw [scroll]
  by_cases hlt : w.pos < 2000
  · rw [if_neg (fun hge => absurd (hrows.1 hge) (by omega)), textScreen.scroll_of_lt hlt]
    exact h
  · have hfull : w.pos = 2000 := by omega
    rw [if_pos (hrows.2 (by omega)), textScreen.scroll_of_le (not_lt.1 hlt)]
    refine ⟨?_, ?_, ?_⟩
    · show s.screenX = Int32.ofNat ((w.pos - 80) % 80)
      rw [h.x_eq, hfull]
    · show numRows - 1 = Int32.ofNat ((w.pos - 80) / 80)
      rw [hfull]
      rfl
    · intro i hi
      show (memsetWord _ _ _ _ _, memsetWord _ _ _ _ _)
        = if i + 80 < 2000 then w.cells (i + 80) else textScreen.blank
      rw [videoByte_scrolled s.mem (by omega), videoByte_scrolled s.mem (by omega)]
      by_cases hlast : i + 80 < 2000
      · rw [if_pos hlast, if_pos (by omega), if_pos (by omega), ← h.look_eq _ hlast]
        rfl
      · rw [if_neg hlast, if_neg (by omega), if_pos (by omega), if_neg (by omega),
          if_neg (by omega)]
        rfl

theorem clear_views (s : Screen) : s.clear.Views textScreen.cleared := by
  refine ⟨rfl, rfl, fun i hi => ?_⟩
  rw [look, videoByte_clear s (by omega), videoByte_clear s (by omega), if_pos (by omega),
    if_neg (by omega)]
  rfl

theorem newline_views {s : Screen} {w : Window (UInt8 × UInt8)} (h : s.Views w)
    (hpos : w.pos < 2000) :
    (scroll { s with screenY := s.screenY + 1, screenX := 0 }).Views (textScreen.newline w) := by
  refine scroll_views ⟨?_, ?_, h.look_eq⟩ ?_
  · show (0 : Int32) = Int32.ofNat (80 * (w.pos / 80 + 1) % 80)
    rw [Nat.mul_mod_right]
    rfl
  · show s.screenY + 1 = Int32.ofNat (80 * (w.pos / 80 + 1) / 80)
    rw [Nat.mul_div_cancel_left _ (by decide), h.y_eq, int32_add_one]
  · show 80 * (w.pos / 80 + 1) ≤ 2000
    omega

theorem put_views {s : Screen} {w : Window (UInt8 × UInt8)} (h : s.Views w)
    (hpos : w.pos < 2000) (c : UInt8) :
    (scroll
      { s.poke c with
        screenY := if s.screenX + 1 ≥ numCols then s.screenY + 1 else s.screenY,
        screenX := (s.screenX + 1) % numCols }).Views (textScreen.put w (c, attrib)) := by
  obtain ⟨hmod, hfull⟩ := row_full (w.pos % 80 + 1) (by omega)
  have hx : s.screenX + 1 = Int32.ofNat (w.pos % 80 + 1) := by rw [h.x_eq, int32_add_one]
  refine scroll_views ⟨?_, ?_, ?_⟩ hpos
  · show (s.screenX + 1) % numCols = Int32.ofNat ((w.pos + 1) % 80)
    rw [hx, hmod, Nat.mod_add_mod]
  · show (if s.screenX + 1 ≥ numCols then s.screenY + 1 else s.screenY)
      = Int32.ofNat ((w.pos + 1) / 80)
    rw [hx, h.y_eq]
    by_cases hrow : w.pos % 80 + 1 = 80
    · have hdiv : (w.pos + 1) / 80 = w.pos / 80 + 1 := by omega
      rw [if_pos (hfull.2 hrow), hdiv, int32_add_one]
    · have hdiv : (w.pos + 1) / 80 = w.pos / 80 := by omega
      rw [if_neg (fun hge => hrow (hfull.1 hge)), hdiv]
  · intro i hi
    show (s.poke c).look i = Function.update w.cells w.pos (c, attrib) i
    rw [look_poke c (h.cell_eq hpos) hpos hi, Function.update_apply, h.look_eq i hi]

/-- The cursor one cell back, in the same row or at the end of the row above. -/
def back (s : Screen) : Screen :=
  if s.screenX - 1 < 0 then
    { s with screenX := numCols - 1,
             screenY := if s.screenY ≠ 0 then s.screenY - 1 else 0 }
  else { s with screenX := s.screenX - 1 }

theorem back_views {s : Screen} {w : Window (UInt8 × UInt8)} (h : s.Views w)
    (hpos : w.pos < 2000) (horigin : w.pos ≠ 0) : s.back.Views { w with pos := w.pos - 1 } := by
  have hneg := (column_left (w.pos % 80) (by omega)).1
  have hy0 := (rows_full (w.pos / 80) (by omega)).2
  rw [← h.x_eq] at hneg
  rw [← h.y_eq] at hy0
  rw [back]
  by_cases hleft : w.pos % 80 = 0
  · obtain ⟨y, hrow⟩ : ∃ y, w.pos / 80 = y + 1 := ⟨w.pos / 80 - 1, by omega⟩
    have hy : s.screenY ≠ 0 := by
      intro hzero
      have hrow0 := hy0.1 hzero
      omega
    have hx' : (w.pos - 1) % 80 = 79 := by omega
    have hy' : (w.pos - 1) / 80 = y := by omega
    rw [if_pos (hneg.2 hleft), if_pos hy]
    refine ⟨?_, ?_, fun i hi => (look_moved s _ _ i).trans (h.look_eq i hi)⟩
    · show numCols - 1 = Int32.ofNat ((w.pos - 1) % 80)
      rw [hx']
      decide
    · show s.screenY - 1 = Int32.ofNat ((w.pos - 1) / 80)
      rw [hy', h.y_eq, hrow, int32_sub_one]
  · obtain ⟨x, hcol⟩ : ∃ x, w.pos % 80 = x + 1 := ⟨w.pos % 80 - 1, by omega⟩
    have hx' : (w.pos - 1) % 80 = x := by omega
    have hy' : (w.pos - 1) / 80 = w.pos / 80 := by omega
    rw [if_neg (fun hlt => hleft (hneg.1 hlt))]
    refine ⟨?_, ?_, h.look_eq⟩
    · show s.screenX - 1 = Int32.ofNat ((w.pos - 1) % 80)
      rw [hx', h.x_eq, hcol, int32_sub_one]
    · show s.screenY = Int32.ofNat ((w.pos - 1) / 80)
      rw [hy', h.y_eq]

/-- `putc` of a backspace. -/
theorem rubout_views {s : Screen} {w : Window (UInt8 × UInt8)} (h : s.Views w)
    (hpos : w.pos < 2000) : (s.putc 0x08).Views (textScreen.rubout w) := by
  have hx0 := (column_left (w.pos % 80) (by omega)).2
  have hy0 := (rows_full (w.pos / 80) (by omega)).2
  rw [← h.x_eq] at hx0
  rw [← h.y_eq] at hy0
  have horigin : s.screenY = 0 ∧ s.screenX = 0 ↔ w.pos = 0 := by
    rw [hx0, hy0]
    omega
  rw [putc, if_neg (by decide), if_pos rfl, Geometry.rubout]
  by_cases hzero : w.pos = 0
  · rw [if_pos (horigin.2 hzero), if_pos hzero]
    exact h
  · rw [if_neg (mt horigin.1 hzero), if_neg hzero]
    have hpos' : w.pos - 1 < 2000 := by omega
    have hback := back_views h hpos hzero
    have hpoke : (s.back.poke 0x20).Views
        { cells := Function.update w.cells (w.pos - 1) textScreen.blank, pos := w.pos - 1 } := by
      refine ⟨hback.x_eq, hback.y_eq, fun i hi => ?_⟩
      rw [look_poke 0x20 (hback.cell_eq hpos') hpos' hi, hback.look_eq i hi]
      exact (Function.update_apply w.cells (w.pos - 1) textScreen.blank i).symm
    have hscroll := scroll_views hpoke hpos'.le
    rw [textScreen.scroll_of_lt hpos'] at hscroll
    exact hscroll

/-- **`putc` is the operation of the window.** -/
theorem putc_views {s : Screen} {w : Window (UInt8 × UInt8)} (h : s.Views w)
    (hpos : w.pos < 2000) (c : UInt8) : (s.putc c).Views (putcWindow w c) := by
  rw [putcWindow]
  by_cases hnewline : c = 0x0A ∨ c = 0x0D
  · rw [putc, if_pos hnewline, if_pos hnewline]
    exact newline_views h hpos
  · rw [if_neg hnewline]
    by_cases hback : c = 0x08
    · rw [if_pos hback, hback]
      exact rubout_views h hpos
    · rw [putc, if_neg hnewline, if_neg hback, if_neg hback]
      exact put_views h hpos c

/-- The window of a screen. -/
def window (s : Screen) : Window (UInt8 × UInt8) where
  cells := s.look
  pos := 80 * s.screenY.toNatClampNeg + s.screenX.toNatClampNeg

/-- The cursor is on the screen. -/
structure InBounds (s : Screen) : Prop where
  x_nonneg : 0 ≤ s.screenX
  x_lt : s.screenX < numCols
  y_nonneg : 0 ≤ s.screenY
  y_lt : s.screenY < numRows

theorem InBounds.window_views {s : Screen} (h : s.InBounds) :
    s.Views s.window ∧ s.window.pos < 2000 := by
  obtain ⟨x, hx⟩ := Int.eq_ofNat_of_zero_le (Int32.le_iff_toInt_le.1 h.x_nonneg)
  obtain ⟨y, hy⟩ := Int.eq_ofNat_of_zero_le (Int32.le_iff_toInt_le.1 h.y_nonneg)
  have hxlt : x < 80 := by
    have hlt := Int32.lt_iff_toInt_lt.1 h.x_lt
    rw [hx] at hlt
    exact Int.ofNat_lt.1 hlt
  have hylt : y < 25 := by
    have hlt := Int32.lt_iff_toInt_lt.1 h.y_lt
    rw [hy] at hlt
    exact Int.ofNat_lt.1 hlt
  have hxnat : s.screenX.toNatClampNeg = x := congrArg Int.toNat hx
  have hynat : s.screenY.toNatClampNeg = y := congrArg Int.toNat hy
  have hxof : s.screenX = Int32.ofNat x := by
    rw [← Int32.toInt_inj, hx, Int32.toInt_ofNat_of_lt (by omega)]
  have hyof : s.screenY = Int32.ofNat y := by
    rw [← Int32.toInt_inj, hy, Int32.toInt_ofNat_of_lt (by omega)]
  have hpos : s.window.pos = 80 * y + x := by rw [window, hxnat, hynat]
  refine ⟨⟨?_, ?_, fun i _ => rfl⟩, by omega⟩
  · rw [hxof, hpos]
    congr 1
    omega
  · rw [hyof, hpos]
    congr 1
    omega

theorem Views.inBounds {s : Screen} {w : Window (UInt8 × UInt8)} (h : s.Views w)
    (hpos : w.pos < 2000) : s.InBounds := by
  have hx : s.screenX.toInt = (w.pos % 80 : ℕ) := by
    rw [h.x_eq, Int32.toInt_ofNat_of_lt (by omega)]
  have hy : s.screenY.toInt = (w.pos / 80 : ℕ) := by
    rw [h.y_eq, Int32.toInt_ofNat_of_lt (by omega)]
  refine ⟨?_, ?_, ?_, ?_⟩
  · rw [Int32.le_iff_toInt_le, hx]
    exact Int.natCast_nonneg _
  · rw [Int32.lt_iff_toInt_lt, hx]
    exact Int.ofNat_lt.2 (Nat.mod_lt _ (by decide))
  · rw [Int32.le_iff_toInt_le, hy]
    exact Int.natCast_nonneg _
  · rw [Int32.lt_iff_toInt_lt, hy]
    exact Int.ofNat_lt.2 (show w.pos / 80 < 25 by omega)

/-! ## What is written -/

/-- The addresses `poke` writes. -/
def PokeWrites (s : Screen) (a : UInt32) : Prop := a = s.cell ∨ a = s.cell + 1

/-- The addresses the scrolling at the end of `putc` writes: those of the `memmove` and
of the `memset_word`. -/
def ScrollWrites (s : Screen) (a : UInt32) : Prop :=
  s.screenY ≥ numRows ∧
    (a - video < 24 * 80 * 2 ∨ a - (video + 24 * 80 * 2) < 2 * 80)

/-- The addresses `putc` writes, each with the cursor as it is at that moment. -/
def PutcWrites (s : Screen) (c : UInt8) (a : UInt32) : Prop :=
  if c = 0x0A ∨ c = 0x0D then
    ScrollWrites { s with screenY := s.screenY + 1, screenX := 0 } a
  else if c = 0x08 then
    ¬(s.screenY = 0 ∧ s.screenX = 0) ∧
      (s.back.PokeWrites a ∨ (s.back.poke 0x20).ScrollWrites a)
  else
    s.PokeWrites a ∨
      ScrollWrites
        { s.poke c with
          screenY := if s.screenX + 1 ≥ numCols then s.screenY + 1 else s.screenY,
          screenX := (s.screenX + 1) % numCols } a

/-- The addresses `clear` writes. -/
def ClearWrites (a : UInt32) : Prop := a - video < 2 * (25 * 80)

theorem mem_poke {s : Screen} {c : UInt8} {a : UInt32} (h : ¬s.PokeWrites a) :
    (s.poke c).mem a = s.mem a := by
  obtain ⟨h1, h2⟩ := not_or.1 h
  show Function.update (Function.update s.mem s.cell c) (s.cell + 1) attrib a = _
  rw [Function.update_of_ne h2, Function.update_of_ne h1]

theorem mem_scroll {s : Screen} {a : UInt32} (h : ¬s.ScrollWrites a) :
    s.scroll.mem a = s.mem a := by
  rw [scroll]
  by_cases hfull : s.screenY ≥ numRows
  · obtain ⟨h1, h2⟩ := not_or.1 (fun hor => h ⟨hfull, hor⟩)
    rw [if_pos hfull]
    show memsetWord _ _ _ _ a = _
    rw [memsetWord, if_neg h2, memmove, if_neg h1]
  · rw [if_neg hfull]

/-- `putc` changes no other byte. -/
theorem mem_putc {s : Screen} {c : UInt8} {a : UInt32} (h : ¬s.PutcWrites c a) :
    (s.putc c).mem a = s.mem a := by
  rw [PutcWrites] at h
  rw [putc]
  by_cases hnewline : c = 0x0A ∨ c = 0x0D
  · rw [if_pos hnewline] at h ⊢
    exact mem_scroll h
  · rw [if_neg hnewline] at h ⊢
    by_cases hback : c = 0x08
    · rw [if_pos hback] at h ⊢
      by_cases horigin : s.screenY = 0 ∧ s.screenX = 0
      · rw [if_pos horigin]
      · obtain ⟨h1, h2⟩ := not_or.1 (fun hor => h ⟨horigin, hor⟩)
        have hmoved : s.back.mem = s.mem := by
          rw [back]
          split <;> rfl
        rw [if_neg horigin]
        show (s.back.poke 0x20).scroll.mem a = _
        rw [mem_scroll h2, mem_poke h1, hmoved]
    · rw [if_neg hback] at h ⊢
      obtain ⟨h1, h2⟩ := not_or.1 h
      exact (mem_scroll h2).trans (mem_poke h1)

/-- `clear` changes no other byte. -/
theorem mem_clear {s : Screen} {a : UInt32} (h : ¬ClearWrites a) : s.clear.mem a = s.mem a := by
  exact if_neg h

/-- The 4000 bytes of video memory. -/
def InVideo (a : UInt32) : Prop := video.toNat ≤ a.toNat ∧ a.toNat < video.toNat + 4000

theorem inVideo_offset {j : ℕ} (hj : j < 4000) : InVideo (video + UInt32.ofNat j) := by
  have hvideo : video.toNat = 753664 := rfl
  have hnat : (video + UInt32.ofNat j).toNat = video.toNat + j :=
    Word32.toNat_add_ofNat (by omega)
  rw [InVideo, hnat]
  omega

theorem inVideo_of_sub {a : UInt32} {i n : ℕ}
    (h : a - (video + UInt32.ofNat i) < UInt32.ofNat n) (hbound : i + n ≤ 4000) : InVideo a := by
  have hnat : (a - (video + UInt32.ofNat i)).toNat < n := by
    have hlt := UInt32.lt_iff_toNat_lt.1 h
    rwa [Word32.toNat_ofNat (by omega)] at hlt
  have ha : a = video + UInt32.ofNat (i + (a - (video + UInt32.ofNat i)).toNat) := by
    rw [← Word32.add_ofNat_add_ofNat, UInt32.ofNat_toNat, UInt32.add_comm, UInt32.sub_add_cancel]
  rw [ha]
  exact inVideo_offset (by omega)

theorem inVideo_of_scrollWrites {s : Screen} {a : UInt32} (h : s.ScrollWrites a) : InVideo a := by
  rcases h.2 with hmove | hblank
  · exact inVideo_of_sub (i := 0) (n := 3840) hmove (by decide)
  · exact inVideo_of_sub (i := 3840) (n := 160) hblank (by decide)

theorem Views.inVideo_of_pokeWrites {s : Screen} {w : Window (UInt8 × UInt8)} (h : s.Views w)
    (hpos : w.pos < 2000) {a : UInt32} (ha : s.PokeWrites a) : InVideo a := by
  rcases ha with rfl | rfl
  · rw [h.cell_eq hpos]
    exact inVideo_offset (by omega)
  · have hnext : s.cell + 1 = video + UInt32.ofNat (2 * w.pos + 1) := by
      rw [h.cell_eq hpos, ← Word32.add_ofNat_add_ofNat]
      rfl
    rw [hnext]
    exact inVideo_offset (by omega)

/-- **Every write of `putc` is inside the video memory.** -/
theorem inVideo_of_putcWrites {s : Screen} (h : s.InBounds) {c : UInt8} {a : UInt32}
    (ha : s.PutcWrites c a) : InVideo a := by
  obtain ⟨hviews, hpos⟩ := h.window_views
  rw [PutcWrites] at ha
  split at ha
  · exact inVideo_of_scrollWrites ha
  · split at ha
    · obtain ⟨horigin, hpoke | hscroll⟩ := ha
      · have hne : s.window.pos ≠ 0 := by
          intro hzero
          apply horigin
          rw [hviews.x_eq, hviews.y_eq, hzero]
          exact ⟨rfl, rfl⟩
        have hback := back_views hviews hpos hne
        exact hback.inVideo_of_pokeWrites (lt_of_le_of_lt (Nat.sub_le _ _) hpos) hpoke
      · exact inVideo_of_scrollWrites hscroll
    · rcases ha with hpoke | hscroll
      · exact hviews.inVideo_of_pokeWrites hpos hpoke
      · exact inVideo_of_scrollWrites hscroll

theorem inVideo_of_clearWrites {a : UInt32} (h : ClearWrites a) : InVideo a :=
  inVideo_of_sub (i := 0) (n := 4000) h le_rfl

end Screen

/-! ## The text -/

/-- The screen without attributes. -/
def byteScreen : Geometry UInt8 where
  cols := 80
  rows := 25
  blank := 0x20
  cols_pos := by decide
  rows_pos := by decide

/-- One byte of a text laid out in rows of 80: a line break begins a new row, and so
does the character that fills a row. -/
def layByte (p : Page UInt8) (c : UInt8) : Page UInt8 :=
  if c = 0x0A ∨ c = 0x0D then p.newline else byteScreen.write p c

/-- A text laid out in rows of 80. -/
def layOut (text : List UInt8) : Page UInt8 := text.foldl layByte Page.empty

example : (layOut [0x61, 0x0A, 0x0A, 0x62]).rows = [[0x61], [], [0x62]] := by decide

/-- A character on the screen. -/
def withAttrib (c : UInt8) : UInt8 × UInt8 := (c, attrib)

theorem shows_layByte {w : Window (UInt8 × UInt8)} {p : Page UInt8}
    (h : textScreen.Shows w (p.map withAttrib)) {c : UInt8} (hc : c ≠ 0x08) :
    textScreen.Shows (putcWindow w c) ((layByte p c).map withAttrib) := by
  rw [putcWindow, layByte]
  by_cases hnewline : c = 0x0A ∨ c = 0x0D
  · rw [if_pos hnewline, if_pos hnewline, Page.newline_map]
    exact textScreen.shows_newline h
  · rw [if_neg hnewline, if_neg hnewline, if_neg hc, Geometry.write_map]
    exact textScreen.shows_put h (withAttrib c)

namespace Screen

/-- The 25 rows of the screen are the last rows of the text, blank where there are
fewer or they are shorter, and the cursor is at the end of the last row. -/
structure ShowsText (s : Screen) (text : List UInt8) : Prop where
  look_eq : ∀ y < 25, ∀ x < 80,
    s.look (80 * y + x) = (byteScreen.cellAt (layOut text) y x, attrib)
  x_eq : s.screenX = Int32.ofNat (layOut text).last.length
  y_eq : s.screenY = Int32.ofNat ((byteScreen.visible (layOut text)).length - 1)

theorem puts_views {s : Screen} {w : Window (UInt8 × UInt8)} (h : s.Views w)
    (hpos : w.pos < 2000) (text : List UInt8) :
    (s.puts text).Views (text.foldl putcWindow w) := by
  induction text generalizing s w with
  | nil => exact h
  | cons c text ih => exact ih (putc_views h hpos c) (pos_putcWindow_lt hpos c)

theorem shows_foldl {w : Window (UInt8 × UInt8)} {p : Page UInt8}
    (h : textScreen.Shows w (p.map withAttrib)) {text : List UInt8} (htext : 0x08 ∉ text) :
    textScreen.Shows (text.foldl putcWindow w) ((text.foldl layByte p).map withAttrib) := by
  induction text generalizing w p with
  | nil => exact h
  | cons c text ih =>
    have hc : c ≠ 0x08 := fun heq => htext (heq ▸ List.mem_cons_self)
    have hrest : 0x08 ∉ text := fun hmem => htext (List.mem_cons_of_mem c hmem)
    exact ih (shows_layByte h hc) hrest

/-- A window that shows a text, seen on the screen. -/
theorem Views.showsText {s : Screen} {w : Window (UInt8 × UInt8)} (h : s.Views w)
    {text : List UInt8} (hshows : textScreen.Shows w ((layOut text).map withAttrib)) :
    s.ShowsText text := by
  have hvisible : (textScreen.visible ((layOut text).map withAttrib)).length
      = (byteScreen.visible (layOut text)).length :=
    byteScreen.length_visible_map withAttrib (layOut text)
  have hlast : ((layOut text).map withAttrib).last.length = (layOut text).last.length :=
    List.length_map withAttrib
  have hlt : (layOut text).last.length < 80 := hlast ▸ hshows.last_lt
  have hpos : w.pos + 80
      = 80 * (byteScreen.visible (layOut text)).length + (layOut text).last.length := by
    rw [← hvisible, ← hlast]
    exact hshows.pos_eq
  refine ⟨?_, ?_, ?_⟩
  · intro y hy x hx
    have hi : 80 * y + x < 2000 := by omega
    have hdiv : (80 * y + x) / 80 = y := by omega
    have hmod : (80 * y + x) % 80 = x := by omega
    rw [h.look_eq _ hi, hshows.cells_eq _ hi]
    show textScreen.cellAt _ ((80 * y + x) / 80) ((80 * y + x) % 80) = _
    rw [hdiv, hmod]
    exact byteScreen.cellAt_map withAttrib (layOut text) y x
  · rw [h.x_eq]
    congr 1
    omega
  · rw [h.y_eq]
    congr 1
    omega

/-- **The screen shows the text written since it was cleared.** -/
theorem puts_clear_showsText (s : Screen) {text : List UInt8} (htext : 0x08 ∉ text) :
    (s.clear.puts text).ShowsText text := by
  have hviews := puts_views s.clear_views textScreen.pos_cleared_lt text
  exact hviews.showsText (shows_foldl textScreen.shows_cleared htext)

/-! ## Sequences of calls -/

/-- A call of `putc` or `clear`. -/
inductive Op
  | putc (c : UInt8)
  | clear
  deriving DecidableEq, Repr

/-- What a call does to the screen. -/
def run (s : Screen) : Op → Screen
  | .putc c => s.putc c
  | .clear => s.clear

/-- The addresses a call writes. -/
def Writes (s : Screen) : Op → UInt32 → Prop
  | .putc c, a => s.PutcWrites c a
  | .clear, a => ClearWrites a

theorem InBounds.run {s : Screen} (h : s.InBounds) (op : Op) : (s.run op).InBounds := by
  obtain ⟨hviews, hpos⟩ := h.window_views
  cases op with
  | putc c => exact (putc_views hviews hpos c).inBounds (pos_putcWindow_lt hpos c)
  | clear => exact s.clear_views.inBounds textScreen.pos_cleared_lt

theorem InBounds.foldl {s : Screen} (h : s.InBounds) (ops : List Op) :
    (ops.foldl Screen.run s).InBounds := by
  induction ops generalizing s with
  | nil => exact h
  | cons op ops ih => exact ih (h.run op)

theorem InBounds.inVideo {s : Screen} (h : s.InBounds) {op : Op} {a : UInt32}
    (ha : s.Writes op a) : InVideo a := by
  cases op with
  | putc c => exact inVideo_of_putcWrites h ha
  | clear => exact inVideo_of_clearWrites ha

/-- Memory is as it was but where the call writes. -/
theorem mem_run {s : Screen} {op : Op} {a : UInt32} (h : ¬s.Writes op a) :
    (s.run op).mem a = s.mem a := by
  cases op with
  | putc c => exact mem_putc h
  | clear => exact mem_clear h

/-- **The screen is a window on the text written.**  After `clear` it shows the last
rows of the text, as long as that has no backspace; and whatever is written, the
cursor stays on the screen, and a call changes no byte but those it writes, which are in
the video memory. -/
theorem screen_shows_text :
    (∀ (s : Screen) (text : List UInt8), 0x08 ∉ text → (s.clear.puts text).ShowsText text) ∧
      ∀ (s : Screen), s.InBounds → ∀ (before : List Op) (op : Op),
        ((before.foldl Screen.run s).run op).InBounds ∧
          (∀ a, ¬(before.foldl Screen.run s).Writes op a →
            ((before.foldl Screen.run s).run op).mem a = (before.foldl Screen.run s).mem a) ∧
          ∀ a, (before.foldl Screen.run s).Writes op a → InVideo a := by
  refine ⟨fun s text htext => puts_clear_showsText s htext, fun s hs before op => ?_⟩
  have hbefore := hs.foldl before
  exact ⟨hbefore.run op, fun a ha => mem_run ha, fun a ha => hbefore.inVideo ha⟩

/-- Thirty line breaks and a character, and a backspace at the top left corner. -/
theorem screen_shows_text_scrolled :
    let s : Screen := { screenX := 0, screenY := 0, mem := fun _ => 0 }
    (s.clear.puts (List.replicate 30 0x0A ++ [0x61])).ShowsText
        (List.replicate 30 0x0A ++ [0x61]) ∧
      (s.run (.putc 0x08)).InBounds := by
  refine ⟨screen_shows_text.1 _ _ (by decide), ?_⟩
  exact (screen_shows_text.2 _ ⟨by decide, by decide, by decide, by decide⟩ [] (.putc 0x08)).1

end Screen

end CheetOS
