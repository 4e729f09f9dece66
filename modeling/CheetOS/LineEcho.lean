import CheetOS.Allocation
import CheetOS.Memory
import CheetOS.TextScreen

/-!
# Typing a line (`getline`)

`getline` keeps a line in a buffer and shows it on the screen as it is typed.

* `edited` is the line that a sequence of keys leaves, and `LineEcho` keeps account of
  where the line begins on the screen and of what stands before it;
* `Editing` relates a state of the loop to both, `getline_key` is one round of the
  loop and `getline_keys` the rounds before Enter;
* `echo_agrees` — in every round the cursor, the cells and the buffer agree, and
  at Enter the buffer holds the edited line.
-/

namespace CheetOS

open Exec TextWindow

/-! ## The edited line -/

/-- `getchar() & CHAR_MASK`. -/
def maskKey (key : UInt8) : UInt8 := key &&& 0x7F

/-- The key ends the line. -/
def IsEnter (key : UInt8) : Prop := maskKey key = 0x0A ∨ maskKey key = 0x0D

instance (key : UInt8) : Decidable (IsEnter key) := inferInstanceAs (Decidable (_ ∨ _))

/-- The key takes the last character away. -/
def IsErase (key : UInt8) : Prop := maskKey key = 0x08 ∨ maskKey key = 0x7F

instance (key : UInt8) : Decidable (IsErase key) := inferInstanceAs (Decidable (_ ∨ _))

/-- The key is kept in the line. -/
def IsPrintable (key : UInt8) : Prop := 0x20 ≤ maskKey key ∧ maskKey key ≤ 0x7E

instance (key : UInt8) : Decidable (IsPrintable key) := inferInstanceAs (Decidable (_ ∧ _))

/-- One key, in a line of at most `cap` characters. -/
def editKey (cap : ℕ) (line : List UInt8) (key : UInt8) : List UInt8 :=
  if IsErase key then line.dropLast
  else if maskKey key = 0x0C then []
  else if line.length < cap ∧ IsPrintable key then line ++ [maskKey key]
  else line

/-- The line after a sequence of keys. -/
def edited (cap : ℕ) (keys : List UInt8) : List UInt8 := keys.foldl (editKey cap) []

example : edited 3 [0x61, 0x62, 0x08, 0x63, 0x64, 0x65] = [0x61, 0x63, 0x64] := by decide

theorem length_editKey_le {cap : ℕ} {line : List UInt8} (h : line.length ≤ cap) (key : UInt8) :
    (editKey cap line key).length ≤ cap := by
  unfold editKey
  split
  · rw [List.length_dropLast]
    omega
  · split
    · exact Nat.zero_le _
    · split
      · rename_i hroom
        rw [List.length_append, List.length_singleton]
        exact hroom.1
      · exact h

theorem length_edited_le (cap : ℕ) (keys : List UInt8) : (edited cap keys).length ≤ cap := by
  have hall : ∀ line : List UInt8, line.length ≤ cap →
      (keys.foldl (editKey cap) line).length ≤ cap := by
    induction keys with
    | nil => exact fun _ h => h
    | cons key keys ih => exact fun line h => ih _ (length_editKey_le h key)
  exact hall [] (Nat.zero_le _)

/-! ## The line on the screen -/

/-- `putc` of a character leaves the last row, and the screen scrolls. -/
def Screen.Scrolls (s : Screen) : Prop :=
  (if s.screenX + 1 ≥ numCols then s.screenY + 1 else s.screenY) ≥ numRows

instance (s : Screen) : Decidable s.Scrolls := inferInstanceAs (Decidable (_ ≥ _))

/-- A line being typed: the screen as the calls of `putc` and `clear` leave it, the
line, and since `getline` began or the screen was last cleared: the position the line
began at, how often the screen scrolled and the cells it had. -/
structure LineEcho where
  screen : Screen
  line : List UInt8
  origin : ℕ
  scrolls : ℕ
  base : ℕ → UInt8 × UInt8

namespace LineEcho

/-- The line is empty. -/
def begin (s : Screen) : LineEcho where
  screen := s
  line := []
  origin := 80 * s.screenY.toNatClampNeg + s.screenX.toNatClampNeg
  scrolls := 0
  base := s.look

/-- Where the line begins now. -/
def start (e : LineEcho) : ℤ := e.origin - 80 * e.scrolls

/-- What stands at a position before the line. -/
def above (e : LineEcho) (i : ℕ) : UInt8 × UInt8 := e.base (i + 80 * e.scrolls)

/-- One key. -/
def key (cap : ℕ) (e : LineEcho) (key : UInt8) : LineEcho :=
  if IsErase key then
    if e.line = [] then e
    else { e with screen := e.screen.putc 0x08, line := e.line.dropLast }
  else if maskKey key = 0x0C then
    { screen := e.screen.clear, line := [], origin := 0, scrolls := 0,
      base := fun _ => (0x20, attrib) }
  else if e.line.length < cap ∧ IsPrintable key then
    { e with
      screen := e.screen.putc (maskKey key)
      line := e.line ++ [maskKey key]
      scrolls := if e.screen.Scrolls then e.scrolls + 1 else e.scrolls }
  else e

/-- A sequence of keys. -/
def keys (cap : ℕ) (e : LineEcho) (ks : List UInt8) : LineEcho := ks.foldl (key cap) e

theorem line_key (cap : ℕ) (e : LineEcho) (k : UInt8) :
    (e.key cap k).line = editKey cap e.line k := by
  unfold key editKey
  split
  · split
    · rename_i hnil
      rw [hnil]
      rfl
    · rfl
  · split
    · rfl
    · split <;> rfl

theorem line_keys (cap : ℕ) (e : LineEcho) (ks : List UInt8) :
    (e.keys cap ks).line = ks.foldl (editKey cap) e.line := by
  induction ks generalizing e with
  | nil => rfl
  | cons k ks ih =>
    rw [List.foldl_cons, ← line_key]
    exact ih (e.key cap k)

/-- The line as one that is typed on a window. -/
def onWindow (e : LineEcho) (w : Window (UInt8 × UInt8)) : Echo (UInt8 × UInt8) where
  window := w
  start := e.start
  text := e.line.map withAttrib
  above := e.above

/-- The screen is a window that shows the line. -/
structure Agrees (e : LineEcho) (w : Window (UInt8 × UInt8)) : Prop where
  views : e.screen.Views w
  shown : textScreen.Shown (e.onWindow w)

theorem Agrees.pos_lt {e : LineEcho} {w : Window (UInt8 × UInt8)} (h : e.Agrees w) :
    w.pos < 2000 := h.shown.pos_lt

theorem agrees_begin {s : Screen} (h : s.InBounds) : (begin s).Agrees s.window := by
  obtain ⟨hviews, hpos⟩ := h.window_views
  refine ⟨hviews, ?_⟩
  have hnil := textScreen.shown_nil (w := s.window) hpos
  have hstart : (begin s).start = s.window.pos := by
    simp [start, begin, Screen.window]
  have habove : (begin s).above = s.window.cells := by
    funext i
    simp [above, begin, Screen.window]
  rw [onWindow, hstart, habove]
  exact hnil

/-- The window scrolls when the screen does. -/
theorem scrolls_iff {s : Screen} {w : Window (UInt8 × UInt8)} (h : s.Views w)
    (hpos : w.pos < 2000) : s.Scrolls ↔ textScreen.size ≤ w.pos + 1 := by
  have hfull := (row_full (w.pos % 80 + 1) (by omega)).2
  have hx : s.screenX + 1 = Int32.ofNat (w.pos % 80 + 1) := by rw [h.x_eq, int32_add_one]
  rw [Screen.Scrolls, hx, h.y_eq, size_textScreen]
  by_cases hrow : w.pos % 80 + 1 = 80
  · rw [if_pos (hfull.2 hrow), int32_add_one, (rows_full _ (by omega)).1]
    omega
  · rw [if_neg (fun hge => hrow (hfull.1 hge)), (rows_full _ (by omega)).1]
    omega

/-- A character is typed. -/
theorem Agrees.type {e : LineEcho} {w : Window (UInt8 × UInt8)} (h : e.Agrees w)
    (hroom : e.line.length < 128) {c : UInt8} (hc : ¬(c = 0x0A ∨ c = 0x0D)) (hc' : c ≠ 0x08) :
    Agrees
      { e with
        screen := e.screen.putc c
        line := e.line ++ [c]
        scrolls := if e.screen.Scrolls then e.scrolls + 1 else e.scrolls }
      (textScreen.put w (withAttrib c)) := by
  have hput := Screen.putc_views h.views h.pos_lt c
  rw [putcWindow, if_neg hc, if_neg hc'] at hput
  refine ⟨hput, ?_⟩
  have hlen : (e.onWindow w).text.length = e.line.length := List.length_map withAttrib
  have htype := h.shown.type textScreen
    (by rw [hlen, size_textScreen]; show e.line.length + 1 + 80 ≤ 2000; omega) (withAttrib c)
  have hscroll := scrolls_iff h.views h.pos_lt
  rw [onWindow]
  convert htype using 1
  rw [Geometry.type]
  congr 1
  · rw [start, onWindow]
    by_cases hs : e.screen.Scrolls
    · rw [if_pos hs, if_pos (hscroll.1 hs)]
      show (e.origin : ℤ) - 80 * ((e.scrolls + 1 : ℕ) : ℤ) = e.origin - 80 * e.scrolls - (80 : ℕ)
      push_cast
      ring
    · rw [if_neg hs, if_neg (mt hscroll.2 hs)]
      rfl
  · exact List.map_append
  · funext i
    rw [above, onWindow]
    by_cases hs : e.screen.Scrolls
    · rw [if_pos hs, if_pos (hscroll.1 hs)]
      show e.base _ = e.base (i + 80 + 80 * e.scrolls)
      congr 1
      ring
    · rw [if_neg hs, if_neg (mt hscroll.2 hs)]
      rfl

/-- The last character is erased. -/
theorem Agrees.erase {e : LineEcho} {w : Window (UInt8 × UInt8)} (h : e.Agrees w)
    (hne : e.line ≠ []) :
    Agrees { e with screen := e.screen.putc 0x08, line := e.line.dropLast }
      (textScreen.rubout w) := by
  refine ⟨Screen.rubout_views h.views h.pos_lt, ?_⟩
  have hmap : (e.onWindow w).text ≠ [] := fun hnil => hne (List.map_eq_nil_iff.1 hnil)
  have herase := h.shown.erase textScreen hmap
  have htext : (e.line.map withAttrib).dropLast = e.line.dropLast.map withAttrib :=
    List.map_dropLast.symm
  rw [Geometry.erase, onWindow] at herase
  simp only [htext] at herase
  exact herase

/-- The screen is cleared. -/
theorem agrees_wipe (s : Screen) :
    Agrees
      { screen := s.clear, line := [], origin := 0, scrolls := 0, base := fun _ => (0x20, attrib) }
      textScreen.cleared :=
  ⟨s.clear_views, textScreen.shown_wipe⟩

end LineEcho

/-! ## The loop of `getline` -/

namespace Platform

open Screen

variable (P : Platform)

/-- A buffer of `n + 1` bytes that can be written and is not part of the screen. -/
def LineBuffer (t : Tables) (buf : UInt32) (n : ℕ) : Prop :=
  ∀ i ≤ n, ∃ a, P.translate t .supervisor .write (buf + UInt32.ofNat i) = some a ∧
    P.kernelData a = false ∧ ¬InVideo a

/-- A round of the loop has begun: `lp` is behind the line in the buffer, and the screen
shows the line. -/
structure Editing (t : Tables) (buf : UInt32) (e : LineEcho) (lp : UInt32) (k : Kernel) :
    Prop where
  tables : k.toTables = t
  lp_eq : lp = buf + UInt32.ofNat e.line.length
  agrees : ∃ w, k.toScreen.Views w ∧ e.Agrees w
  buffered : ∀ i (h : i < e.line.length),
    P.load k (buf + UInt32.ofNat i) = some e.line[i]

variable {P}

/-- The loop, by the kind of the key. -/
theorem getline_cons (buf : UInt32) (max : Int32) (key : UInt8) (keys : List UInt8)
    (lp : UInt32) :
    P.getline buf max (key :: keys) lp =
      if IsEnter key then do
        P.storeByte lp 0
        putc 0x0A
        return (lp - buf).toInt32
      else if IsErase key then
        if lp > buf then do
          putc 0x08
          P.getline buf max keys (lp - 1)
        else P.getline buf max keys lp
      else if maskKey key = 0x0C then do
        clear
        P.getline buf max keys buf
      else if (lp - buf).toInt32 ≥ max then P.getline buf max keys lp
      else if IsPrintable key then do
        P.storeByte lp (maskKey key)
        putc (maskKey key)
        P.getline buf max keys (lp + 1)
      else P.getline buf max keys lp := rfl

/-- What is not on the screen is kept when only the screen is written. -/
theorem load_of_screen {t : Tables} {buf : UInt32} {n : ℕ} (hbuf : P.LineBuffer t buf n)
    (k k' : Kernel) (ht : k.toTables = t) (ht' : k'.toTables = t)
    (hmem : ∀ a, ¬InVideo a → k'.mem a = k.mem a) {i : ℕ} (hi : i ≤ n) :
    P.load k' (buf + UInt32.ofNat i) = P.load k (buf + UInt32.ofNat i) := by
  obtain ⟨a, htr, -, hvideo⟩ := hbuf i hi
  rw [translate_supervisor_access] at htr
  rw [load_of_translate (ht'.symm ▸ htr), load_of_translate (ht.symm ▸ htr), hmem a hvideo]

theorem mem_putc_of_not_inVideo {s : Screen} (h : s.InBounds) (c : UInt8) {a : UInt32}
    (ha : ¬InVideo a) : (s.putc c).mem a = s.mem a :=
  mem_putc fun hwrites => ha (inVideo_of_putcWrites h hwrites)

/-- A store outside the video memory is not seen on the screen. -/
theorem views_update {s : Screen} {w : Window (UInt8 × UInt8)} (h : s.Views w) {a : UInt32}
    (ha : ¬InVideo a) (b : UInt8) :
    Screen.Views { s with mem := Function.update s.mem a b } w := by
  refine ⟨h.x_eq, h.y_eq, fun i hi => ?_⟩
  have hbyte (j : ℕ) (hj : j < 4000) :
      Function.update s.mem a b (video + UInt32.ofNat j) = s.mem (video + UInt32.ofNat j) := by
    refine Function.update_of_ne ?_ b s.mem
    rintro rfl
    exact ha (inVideo_offset hj)
  rw [← h.look_eq i hi]
  exact Prod.ext (hbyte (2 * i) (by omega)) (hbyte (2 * i + 1) (by omega))

section Rounds

variable {t : Tables} {buf : UInt32} {max : Int32} {e : LineEcho} {lp : UInt32} {k : Kernel}

theorem LineBuffer.fits {n : ℕ} (hs : P.Space t) (hbuf : P.LineBuffer t buf n) (hn : n ≤ 128) :
    buf.toNat + n < 4294967296 := by
  obtain ⟨a, htr, -, -⟩ := hbuf 0 (Nat.zero_le n)
  rw [Word32.add_ofNat_zero] at htr
  rcases translate_supervisor_cases hs htr with h | h | h | h <;> omega

/-- A character stored behind the line leaves the line as it is. -/
theorem load_before_store (hs : P.Space t) (ht : k.toTables = t) {a : UInt32} {i n : ℕ}
    (htr : P.translate t .supervisor .write (buf + UInt32.ofNat n) = some a) (hi : i < n)
    (hn : n ≤ 128) (b : UInt8) :
    P.load { k with mem := Function.update k.mem a b } (buf + UInt32.ofNat i)
      = P.load k (buf + UInt32.ofNat i) := by
  subst ht
  unfold load
  dsimp only
  cases hfrom : P.translate k.toTables .supervisor .read (buf + UInt32.ofNat i) with
  | none => rfl
  | some x =>
    have hne : x ≠ a := by
      rintro rfl
      exact translate_inj hs hi (by omega) hfrom htr
    dsimp only
    rw [Function.update_of_ne hne]

theorem load_store_self (ht : k.toTables = t) {va a : UInt32}
    (htr : P.translate t .supervisor .write va = some a) (hdata : P.kernelData a = false)
    (b : UInt8) : P.load { k with mem := Function.update k.mem a b } va = some b := by
  subst ht
  exact load_eq_some.2 ⟨a, htr, hdata, Function.update_self ..⟩

/-- `lp > buf` holds when there is something in the line. -/
theorem buf_lt_lp {n len : ℕ} (hfits : buf.toNat + n < 4294967296) (hlen : len ≤ n) :
    buf + UInt32.ofNat len > buf ↔ len ≠ 0 := by
  rw [gt_iff_lt, UInt32.lt_iff_toNat_lt, Word32.toNat_add_ofNat (by omega)]
  omega

/-- `lp - buf` is the length of the line. -/
theorem lp_sub_buf (buf : UInt32) {len : ℕ} :
    (buf + UInt32.ofNat len - buf).toInt32 = Int32.ofNat len := by
  rw [UInt32.add_comm, UInt32.add_sub_cancel]
  rfl

theorem length_ge_max (max : Int32) {len : ℕ} (hlen : len ≤ 128) :
    Int32.ofNat len ≥ max ↔ ¬len < max.toNatClampNeg := by
  rw [ge_iff_le, Int32.le_iff_toInt_le, Int32.toInt_ofNat_of_lt (by omega), not_lt,
    ← Int32.toNat_toInt]
  omega

/-- The loop goes on with the other keys after a key that does not end the line. -/
def Continues (P : Platform) (buf : UInt32) (max : Int32) (ks : List UInt8) (lp : UInt32)
    (k : Kernel) (lp' : UInt32) (k' : Kernel) : Prop :=
  ∀ rest, P.getline buf max (ks ++ rest) lp k = P.getline buf max rest lp' k'

/-- A key that leaves everything as it is. -/
theorem Editing.ignore (h : P.Editing t buf e lp k) {key : UInt8}
    (hsame : ∀ rest, P.getline buf max (key :: rest) lp = P.getline buf max rest lp) :
    Continues P buf max [key] lp k lp k ∧ P.Editing t buf e lp k :=
  ⟨fun rest => congrFun (hsame rest) k, h⟩

/-- Backspace, with something in the line. -/
theorem Editing.erase {cap : ℕ} (h : P.Editing t buf e lp k) (hbuf : P.LineBuffer t buf cap)
    (hle : e.line.length ≤ cap) (hne : e.line ≠ []) :
    P.Editing t buf { e with screen := e.screen.putc 0x08, line := e.line.dropLast } (lp - 1)
      { k with toScreen := k.toScreen.putc 0x08 } := by
  obtain ⟨w, hviews, hagrees⟩ := h.agrees
  obtain ⟨n, hn⟩ : ∃ n, e.line.length = n + 1 :=
    ⟨_, (Nat.succ_pred_eq_of_pos (List.length_pos_of_ne_nil hne)).symm⟩
  refine ⟨h.tables, ?_, ⟨textScreen.rubout w, rubout_views hviews hagrees.pos_lt,
    hagrees.erase hne⟩, ?_⟩
  · simp only [List.length_dropLast]
    rw [h.lp_eq, hn, Nat.add_sub_cancel, ← Word32.add_ofNat_add_ofNat]
    exact UInt32.add_sub_cancel _ _
  · intro i hi
    have hi' : i < e.line.length - 1 := by simpa using hi
    have hbounds := hviews.inBounds hagrees.pos_lt
    have hread := load_of_screen hbuf k { k with toScreen := k.toScreen.putc 0x08 } h.tables
      h.tables (fun a ha => mem_putc_of_not_inVideo hbounds 0x08 ha) (show i ≤ cap by omega)
    rw [hread, List.getElem_dropLast]
    exact h.buffered i (by omega)

/-- Ctrl-L. -/
theorem Editing.wipe (h : P.Editing t buf e lp k) :
    P.Editing t buf
      { screen := e.screen.clear, line := [], origin := 0, scrolls := 0,
        base := fun _ => (0x20, attrib) } buf
      { k with toScreen := k.toScreen.clear } := by
  refine ⟨h.tables, (Word32.add_ofNat_zero buf).symm, ⟨textScreen.cleared, clear_views _,
    LineEcho.agrees_wipe e.screen⟩, ?_⟩
  intro i hi
  exact absurd hi (Nat.not_lt_zero i)

/-- A character that fits in the line. -/
theorem Editing.type {cap : ℕ} (h : P.Editing t buf e lp k) (hs : P.Space t)
    (hbuf : P.LineBuffer t buf cap) (hcap : cap ≤ 128) (hroom : e.line.length < cap) {c : UInt8}
    (hc : ¬(c = 0x0A ∨ c = 0x0D)) (hc' : c ≠ 0x08) :
    ∃ k₁, P.storeByte lp c k = .ok () k₁ ∧
      P.Editing t buf
        { e with
          screen := e.screen.putc c
          line := e.line ++ [c]
          scrolls := if e.screen.Scrolls then e.scrolls + 1 else e.scrolls } (lp + 1)
        { k₁ with toScreen := k₁.toScreen.putc c } := by
  obtain ⟨w, hviews, hagrees⟩ := h.agrees
  obtain ⟨a, htr, hdata, hvideo⟩ := hbuf e.line.length hroom.le
  have htr' : P.translate k.toTables .supervisor .write lp = some a := by
    rw [h.tables, h.lp_eq]
    exact htr
  refine ⟨_, P.storeByte_run htr' hdata c, ?_⟩
  -- the character is stored, then shown
  have hstored := views_update hviews hvideo c
  have hbounds := hstored.inBounds hagrees.pos_lt
  have hput := putc_views hstored hagrees.pos_lt c
  rw [putcWindow, if_neg hc, if_neg hc'] at hput
  refine ⟨h.tables, ?_, ⟨_, hput, hagrees.type (by omega) hc hc'⟩, ?_⟩
  · rw [h.lp_eq, List.length_append, List.length_singleton, ← Word32.add_ofNat_add_ofNat]
    rfl
  · intro i hi
    have hi' : i < e.line.length + 1 := by simpa using hi
    set k₁ : Kernel := { k with mem := Function.update k.mem a c } with hk₁
    have hread := load_of_screen hbuf k₁ { k₁ with toScreen := k₁.toScreen.putc c } h.tables
      h.tables (fun x hx => mem_putc_of_not_inVideo hbounds c hx) (show i ≤ cap by omega)
    rw [hread]
    by_cases hlast : i = e.line.length
    · subst hlast
      have hself := load_store_self h.tables htr hdata c
      rw [List.getElem_append_right le_rfl]
      simpa using hself
    · have hbefore := load_before_store hs h.tables htr (show i < e.line.length by omega)
        (by omega) c
      have hold := h.buffered i (by omega)
      rw [List.getElem_append_left (by omega), ← hold]
      exact hbefore

/-- A round that erases. -/
theorem getline_erase {cap : ℕ} (hcap : cap ≤ 128) (hs : P.Space t) (hbuf : P.LineBuffer t buf cap)
    (h : P.Editing t buf e lp k) (hle : e.line.length ≤ cap) {key : UInt8} (hkey : ¬IsEnter key)
    (herase : IsErase key) :
    ∃ lp' k', Continues P buf max [key] lp k lp' k' ∧ P.Editing t buf (e.key cap key) lp' k' := by
  have hlt := buf_lt_lp (hbuf.fits hs hcap) hle
  rw [← h.lp_eq] at hlt
  by_cases hnil : e.line = []
  · have hsame : e.key cap key = e := by rw [LineEcho.key, if_pos herase, if_pos hnil]
    rw [hsame]
    refine ⟨lp, k, h.ignore fun rest => ?_⟩
    rw [getline_cons, if_neg hkey, if_pos herase, if_neg]
    simp [hlt, hnil]
  · have hnext : e.key cap key
        = { e with screen := e.screen.putc 0x08, line := e.line.dropLast } := by
      rw [LineEcho.key, if_pos herase, if_neg hnil]
    rw [hnext]
    refine ⟨_, _, fun rest => ?_, h.erase hbuf hle hnil⟩
    rw [List.cons_append, getline_cons, if_neg hkey, if_pos herase, if_pos]
    · rfl
    · simp [hlt, hnil]

/-- A round that clears the screen. -/
theorem getline_clear (h : P.Editing t buf e lp k) (cap : ℕ) {key : UInt8} (hkey : ¬IsEnter key)
    (herase : ¬IsErase key) (hclear : maskKey key = 0x0C) :
    ∃ lp' k', Continues P buf max [key] lp k lp' k' ∧ P.Editing t buf (e.key cap key) lp' k' := by
  have hnext : e.key cap key
      = { screen := e.screen.clear, line := [], origin := 0, scrolls := 0,
          base := fun _ => (0x20, attrib) } := by
    rw [LineEcho.key, if_neg herase, if_pos hclear]
  rw [hnext]
  refine ⟨_, _, fun rest => ?_, h.wipe⟩
  rw [List.cons_append, getline_cons, if_neg hkey, if_neg herase, if_pos hclear]
  rfl

/-- A round that appends the key, or finds no room for it. -/
theorem getline_type {cap : ℕ} (hmax : cap = max.toNatClampNeg) (hcap : cap ≤ 128)
    (hs : P.Space t) (hbuf : P.LineBuffer t buf cap) (h : P.Editing t buf e lp k)
    (hle : e.line.length ≤ cap) {key : UInt8} (hkey : ¬IsEnter key) (herase : ¬IsErase key)
    (hclear : maskKey key ≠ 0x0C) :
    ∃ lp' k', Continues P buf max [key] lp k lp' k' ∧ P.Editing t buf (e.key cap key) lp' k' := by
  have hfull := length_ge_max max (hle.trans hcap)
  rw [← lp_sub_buf buf, ← h.lp_eq, ← hmax] at hfull
  by_cases hroom : e.line.length < cap ∧ IsPrintable key
  · have hnext : e.key cap key
        = { e with
            screen := e.screen.putc (maskKey key)
            line := e.line ++ [maskKey key]
            scrolls := if e.screen.Scrolls then e.scrolls + 1 else e.scrolls } := by
      rw [LineEcho.key, if_neg herase, if_neg hclear, if_pos hroom]
    rw [hnext]
    obtain ⟨k₁, hstore, hafter⟩ :=
      h.type hs hbuf hcap hroom.1 hkey (fun hback => herase (Or.inl hback))
    refine ⟨_, _, fun rest => ?_, hafter⟩
    rw [List.cons_append, getline_cons, if_neg hkey, if_neg herase, if_neg hclear,
      if_neg (by rw [hfull]; exact not_not.2 hroom.1), if_pos hroom.2]
    exact bind_of_ok hstore _
  · have hsame : e.key cap key = e := by
      rw [LineEcho.key, if_neg herase, if_neg hclear, if_neg hroom]
    rw [hsame]
    refine ⟨lp, k, h.ignore fun rest => ?_⟩
    rw [getline_cons, if_neg hkey, if_neg herase, if_neg hclear]
    by_cases hmore : e.line.length < cap
    · rw [if_neg (by rw [hfull]; exact not_not.2 hmore), if_neg (fun hp => hroom ⟨hmore, hp⟩)]
    · rw [if_pos (hfull.2 hmore)]

/-- **One round of the loop.** -/
theorem getline_key {cap : ℕ} (hmax : cap = max.toNatClampNeg) (hcap : cap ≤ 128)
    (hs : P.Space t) (hbuf : P.LineBuffer t buf cap) (h : P.Editing t buf e lp k)
    (hle : e.line.length ≤ cap) {key : UInt8} (hkey : ¬IsEnter key) :
    ∃ lp' k', Continues P buf max [key] lp k lp' k' ∧ P.Editing t buf (e.key cap key) lp' k' := by
  by_cases herase : IsErase key
  · exact getline_erase hcap hs hbuf h hle hkey herase
  · by_cases hclear : maskKey key = 0x0C
    · exact getline_clear h cap hkey herase hclear
    · exact getline_type hmax hcap hs hbuf h hle hkey herase hclear

theorem Continues.append {ks ks' : List UInt8} {lp' lp'' : UInt32} {k' k'' : Kernel}
    (h : Continues P buf max ks lp k lp' k') (h' : Continues P buf max ks' lp' k' lp'' k'') :
    Continues P buf max (ks ++ ks') lp k lp'' k'' := by
  intro rest
  rw [List.append_assoc, h, h']

/-- **The rounds before Enter.** -/
theorem getline_keys {cap : ℕ} (hmax : cap = max.toNatClampNeg) (hcap : cap ≤ 128)
    (hs : P.Space t) (hbuf : P.LineBuffer t buf cap) (h : P.Editing t buf e lp k)
    (hle : e.line.length ≤ cap) (keys : List UInt8) (hkeys : ∀ key ∈ keys, ¬IsEnter key) :
    ∃ lp' k', Continues P buf max keys lp k lp' k' ∧
      P.Editing t buf (e.keys cap keys) lp' k' := by
  induction keys generalizing e lp k with
  | nil => exact ⟨lp, k, fun _ => rfl, h⟩
  | cons key keys ih =>
    obtain ⟨lp₁, k₁, hfirst, hone⟩ :=
      getline_key hmax hcap hs hbuf h hle (hkeys key List.mem_cons_self)
    have hle₁ : (e.key cap key).line.length ≤ cap := by
      rw [LineEcho.line_key]
      exact length_editKey_le hle key
    obtain ⟨lp₂, k₂, hothers, hall⟩ :=
      ih hone hle₁ (fun other hmem => hkeys other (List.mem_cons_of_mem key hmem))
    exact ⟨lp₂, k₂, hfirst.append hothers, hall⟩

/-- Enter. -/
theorem Editing.enter {cap : ℕ} (h : P.Editing t buf e lp k) (hs : P.Space t)
    (hbuf : P.LineBuffer t buf cap) (hcap : cap ≤ 128) (hle : e.line.length ≤ cap) {key : UInt8}
    (hkey : IsEnter key) (rest : List UInt8) :
    ∃ k', P.getline buf max (key :: rest) lp k = .ok (Int32.ofNat e.line.length) k' ∧
      (∀ i (hi : i < e.line.length), P.load k' (buf + UInt32.ofNat i) = some e.line[i]) ∧
      P.load k' (buf + UInt32.ofNat e.line.length) = some 0 := by
  obtain ⟨w, hviews, hagrees⟩ := h.agrees
  obtain ⟨a, htr, hdata, hvideo⟩ := hbuf e.line.length hle
  have htr' : P.translate k.toTables .supervisor .write lp = some a := by
    rw [h.tables, h.lp_eq]
    exact htr
  have hbounds := (views_update hviews hvideo 0).inBounds hagrees.pos_lt
  have hlen : (lp - buf).toInt32 = Int32.ofNat e.line.length := by
    rw [h.lp_eq]
    exact lp_sub_buf buf
  have hread {i : ℕ} (hi : i ≤ cap) :=
    load_of_screen hbuf { k with mem := Function.update k.mem a 0 }
      { k with
        toScreen :=
          Screen.putc { k.toScreen with mem := Function.update k.mem a 0 } 0x0A }
      h.tables h.tables (fun x hx => mem_putc_of_not_inVideo hbounds 0x0A hx) hi
  have hrun : P.getline buf max (key :: rest) lp k = .ok (Int32.ofNat e.line.length)
      { k with
        toScreen := Screen.putc { k.toScreen with mem := Function.update k.mem a 0 } 0x0A } := by
    rw [getline_cons, if_pos hkey, hlen]
    exact bind_of_ok (P.storeByte_run htr' hdata 0) _
  refine ⟨_, hrun, fun i hi => ?_, ?_⟩
  · rw [← h.buffered i hi, ← load_before_store hs h.tables htr hi (by omega) 0]
    exact hread (hi.le.trans hle)
  · rw [← load_store_self h.tables htr hdata 0]
    exact hread hle

end Rounds

/-! ## Echo and buffer -/

/-- Cursor, screen and buffer agree on a line: it begins at `e.start`, the cursor is
behind it, its cells show the characters in the buffer, and the cells before it are
those the screen had, shifted by the scrolls. -/
structure EchoAgrees (P : Platform) (buf : UInt32) (e : LineEcho) (k : Kernel) : Prop where
  start_nonneg : 0 ≤ e.start
  screen_x : k.screenX = e.screen.screenX
  screen_y : k.screenY = e.screen.screenY
  inBounds : k.toScreen.InBounds
  cursor : 80 * k.screenY.toInt + k.screenX.toInt = e.start + e.line.length
  buffered : ∀ i (h : i < e.line.length), P.load k (buf + UInt32.ofNat i) = some e.line[i]
  cells : ∀ i (h : i < e.line.length),
    k.toScreen.look (e.start.toNat + i) = (e.line[i], attrib)
  above : ∀ i < e.start.toNat, k.toScreen.look i = e.above i

theorem Editing.echoAgrees {t : Tables} {buf : UInt32} {e : LineEcho} {lp : UInt32} {k : Kernel}
    (h : P.Editing t buf e lp k) : P.EchoAgrees buf e k := by
  obtain ⟨w, hviews, hagrees⟩ := h.agrees
  have hpos := hagrees.pos_lt
  have hshown := hagrees.shown
  have hlen : (e.onWindow w).text.length = e.line.length := List.length_map withAttrib
  have hsum : (w.pos : ℤ) = e.start + e.line.length := by
    rw [← hlen]
    exact hshown.pos_eq
  have hstart : 0 ≤ e.start := hshown.start_nonneg
  have hlook (i : ℕ) (hi : i < 2000) : k.toScreen.look i = w.cells i := hviews.look_eq i hi
  refine ⟨hstart, ?_, ?_, hviews.inBounds hpos, ?_, h.buffered, fun i hi => ?_, fun i hi => ?_⟩
  · rw [hviews.x_eq, hagrees.views.x_eq]
  · rw [hviews.y_eq, hagrees.views.y_eq]
  · rw [hviews.x_eq, hviews.y_eq, Int32.toInt_ofNat_of_lt (by omega),
      Int32.toInt_ofNat_of_lt (by omega)]
    omega
  · have htext := hshown.text_eq i (by rw [hlen]; exact hi)
    rw [hlook _ (by omega)]
    exact htext.trans (List.getElem_map withAttrib)
  · rw [hlook i (by omega)]
    exact hshown.above_eq i hi

/-- A buffer in the page of a program that runs. -/
theorem lineBuffer_running {P : Platform} {m : Machine} (h : Running P m) {buf : UInt32} {n : ℕ}
    (hlo : 0x8000000 ≤ buf) (hhi : buf.toNat + n < 0x8400000) :
    P.LineBuffer m.kernel.toTables buf n := by
  intro i hi
  have hpid := h.nested.running_bound
  have hpage := h.nested.userPage h.live
  have hfrom : 134217728 ≤ buf.toNat := UInt32.le_iff_toNat_le.1 hlo
  have hnat : (buf + UInt32.ofNat i).toNat = buf.toNat + i := Word32.toNat_add_ofNat (by omega)
  have hlo' : 0x8000000 ≤ buf + UInt32.ofNat i := by
    rw [UInt32.le_iff_toNat_le, hnat]
    exact hfrom.trans (Nat.le_add_right _ _)
  have hhi' : buf + UInt32.ofNat i < 0x8400000 := by
    rw [UInt32.lt_iff_toNat_lt, hnat]
    exact lt_of_le_of_lt (Nat.add_le_add_left hi _) hhi
  refine ⟨_, translate_user_page hpid hpage .supervisor .write hlo' hhi', ?_⟩
  -- the page of a program is above the kernel and the video memory
  have hsub : (buf + UInt32.ofNat i - 0x8000000).toNat = buf.toNat + i - 134217728 := by
    rw [UInt32.toNat_sub_of_le _ _ hlo', hnat]
    rfl
  have hbase := toNat_userPage hpid
  have hsix := toNat_lt_six hpid
  have hvideo : video.toNat = 753664 := rfl
  have haddr : 0x800000 ≤ (userPage m.kernel.currProcess
      + (buf + UInt32.ofNat i - 0x8000000)).toNat := by
    rw [Word32.toNat_add_of_lt (by omega)]
    omega
  refine ⟨?_, fun hin => ?_⟩
  · rw [← Bool.not_eq_true]
    intro hdata
    have hbelow := UInt32.lt_iff_toNat_lt.1 (P.kernelData_range _ hdata).2
    exact absurd hbelow (not_lt.2 haddr)
  · have hbelow := hin.2
    omega

/-- `terminal_read` asks for 128 characters at most. -/
theorem toInt_numChars (numChars : UInt32) :
    (if numChars > maxInputChars then maxInputChars else numChars).toInt32.toInt
      = min numChars.toNat 128 := by
  by_cases hmany : numChars > maxInputChars
  · have hlt : 128 < numChars.toNat := UInt32.lt_iff_toNat_lt.1 hmany
    rw [if_pos hmany, min_eq_right (by omega)]
    rfl
  · have hle : numChars.toNat ≤ 128 := UInt32.le_iff_toNat_le.1 (UInt32.not_lt.1 hmany)
    have hword : numChars.toInt32 = Int32.ofNat numChars.toNat :=
      calc numChars.toInt32 = (UInt32.ofNat numChars.toNat).toInt32 := by rw [UInt32.ofNat_toNat]
        _ = Int32.ofNat numChars.toNat := rfl
    rw [if_neg hmany, min_eq_left hle, hword, Int32.toInt_ofNat_of_lt (by omega)]

theorem terminalRead_getline (P : Platform) {buffer : UInt32} (hnull : buffer ≠ 0)
    (numChars : UInt32) (input : Input) :
    ∃ max : Int32, P.terminalRead 0 buffer numChars input
        = P.getline buffer max input.keys buffer ∧
      max.toInt = min numChars.toNat 128 :=
  ⟨_, by rw [terminalRead, if_neg (by decide), if_neg hnull], toInt_numChars numChars⟩

/-- **Echo and buffer agree.**  In every round of the loop the screen shows the line in
the buffer, which is the edited line; at Enter its length is returned, and the buffer
holds it with a NUL behind it. -/
theorem echo_agrees {P : Platform} {k : Kernel} (hs : P.Space k.toTables)
    (hscreen : k.toScreen.InBounds) {max : Int32} (hmax : max ≤ 128) {buf : UInt32}
    (hbuf : P.LineBuffer k.toTables buf max.toNatClampNeg) (keys : List UInt8)
    (hkeys : ∀ key ∈ keys, ¬IsEnter key) :
    let e := (LineEcho.begin k.toScreen).keys max.toNatClampNeg keys
    e.line = edited max.toNatClampNeg keys ∧ e.line.length ≤ max.toNatClampNeg ∧
      (∃ k', P.getline buf max keys buf k = .error .waiting k' ∧ P.EchoAgrees buf e k') ∧
      ∀ key, IsEnter key → ∀ rest, ∃ k',
        P.getline buf max (keys ++ key :: rest) buf k = .ok (Int32.ofNat e.line.length) k' ∧
          (∀ i (h : i < e.line.length), P.load k' (buf + UInt32.ofNat i) = some e.line[i]) ∧
          P.load k' (buf + UInt32.ofNat e.line.length) = some 0 := by
  intro e
  have hcap : max.toNatClampNeg ≤ 128 := by
    have hmax' : max.toInt ≤ 128 := Int32.le_iff_toInt_le.1 hmax
    rw [← Int32.toNat_toInt]
    omega
  have hline : e.line = edited max.toNatClampNeg keys := LineEcho.line_keys _ _ keys
  have hle : e.line.length ≤ max.toNatClampNeg := hline ▸ length_edited_le _ keys
  have hbegin : P.Editing k.toTables buf (LineEcho.begin k.toScreen) buf k :=
    ⟨rfl, (Word32.add_ofNat_zero buf).symm,
      ⟨_, hscreen.window_views.1, LineEcho.agrees_begin hscreen⟩,
      fun i hi => absurd hi (Nat.not_lt_zero i)⟩
  obtain ⟨lp, k', hrounds, hediting⟩ :=
    getline_keys rfl hcap hs hbuf hbegin (Nat.zero_le _) keys hkeys
  refine ⟨hline, hle, ⟨k', ?_, hediting.echoAgrees⟩, fun key hkey rest => ?_⟩
  · have hwait := hrounds []
    rwa [List.append_nil] at hwait
  · rw [hrounds (key :: rest)]
    exact hediting.enter hs hbuf hcap hle hkey rest

/-- A line with a Ctrl-L and a backspace, and more keys than it has room for. -/
theorem echo_agrees_sample :
    ∃ m, Run.run samplePlatform.step sampleBoot [.call (.execute 0x500000) ⟨64, 0x7FFFF0⟩]
        = some m ∧
      ∃ k', samplePlatform.getline 0x8050000 3
          ([0x61, 0x0C, 0x62, 0x63, 0x08, 0x64, 0x65, 0x66] ++ [0x0A]) 0x8050000 m.kernel
            = .ok 3 k' ∧
        samplePlatform.load k' (0x8050000 + UInt32.ofNat 3) = some 0 := by
  have hrun : (Run.run samplePlatform.step sampleBoot
      [.call (.execute 0x500000) ⟨64, 0x7FFFF0⟩]).any (fun m => decide (m.frames ≠ []) &&
        decide (0 ≤ m.kernel.screenX ∧ m.kernel.screenX < numCols ∧ 0 ≤ m.kernel.screenY ∧
          m.kernel.screenY < numRows)) = true := by
    decide +kernel
  simp only [Option.any_eq_true, Bool.and_eq_true, decide_eq_true_eq] at hrun
  obtain ⟨m, hm, hlive, hx, hx', hy, hy'⟩ := hrun
  have hreach : samplePlatform.Reachable m := ⟨_, _, boot_bootMachine _ _, hm⟩
  have hbuf : samplePlatform.LineBuffer m.kernel.toTables 0x8050000 (Int32.toNatClampNeg 3) :=
    lineBuffer_running (running_reachable hreach hlive) (by decide) (by decide)
  have hecho := echo_agrees (space_reachable hreach) ⟨hx, hx', hy, hy'⟩ (by decide) hbuf
    [0x61, 0x0C, 0x62, 0x63, 0x08, 0x64, 0x65, 0x66] (by decide +kernel)
  obtain ⟨hline, -, -, henter⟩ := hecho
  obtain ⟨k', hresult, -, hnul⟩ := henter 0x0A (by decide) []
  have hlen : ((LineEcho.begin m.kernel.toScreen).keys (Int32.toNatClampNeg 3)
      [0x61, 0x0C, 0x62, 0x63, 0x08, 0x64, 0x65, 0x66]).line.length = 3 := by
    rw [hline]
    rfl
  rw [hlen] at hresult hnul
  exact ⟨m, hm, k', hresult, hnul⟩

end Platform

end CheetOS
