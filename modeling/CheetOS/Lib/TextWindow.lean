import Mathlib

/-!
# Text windows

A text screen is an array of `cols * rows` cells, row by row, with a cursor that
is a position in the array.  Writing past the end of the last row moves every row
up by one.

* `put`, `newline`, `rubout` and `cleared` are the operations, `pos_put_lt` and its
  companions keep the cursor on the screen;
* `Page` is an unbounded text laid out in rows, and `Shows` says that a window
  shows the last rows of a page: `shows_put`, `shows_newline`;
* `Echo` is a line being typed somewhere on a window, and `Echo.Shown` says that
  the window shows it behind what stood there before: `Shown.type`, `Shown.erase`,
  `Shown.wipe`.
-/

namespace TextWindow

variable {α : Type}

/-- The size of a screen and its empty cell. -/
structure Geometry (α : Type) where
  cols : ℕ
  rows : ℕ
  blank : α
  cols_pos : 0 < cols
  rows_pos : 0 < rows

/-- The cells of a screen, and the position of the cursor. -/
structure Window (α : Type) where
  cells : ℕ → α
  pos : ℕ

namespace Geometry

variable (G : Geometry α)

/-- The number of cells. -/
def size : ℕ := G.cols * G.rows

/-- Move the rows up by one if the cursor has left the last one. -/
def scroll (w : Window α) : Window α :=
  if w.pos < G.size then w
  else
    { cells := fun i => if i + G.cols < G.size then w.cells (i + G.cols) else G.blank
      pos := w.pos - G.cols }

/-- Go to the beginning of the next row. -/
def newline (w : Window α) : Window α :=
  G.scroll { w with pos := G.cols * (w.pos / G.cols + 1) }

/-- Write a cell at the cursor. -/
def put (w : Window α) (a : α) : Window α :=
  G.scroll { cells := Function.update w.cells w.pos a, pos := w.pos + 1 }

/-- Take the cell before the cursor away. -/
def rubout (w : Window α) : Window α :=
  if w.pos = 0 then w
  else { cells := Function.update w.cells (w.pos - 1) G.blank, pos := w.pos - 1 }

/-- The empty screen. -/
def cleared : Window α := { cells := fun _ => G.blank, pos := 0 }

/-! ## The cursor -/

theorem cols_le_size : G.cols ≤ G.size := Nat.le_mul_of_pos_right G.cols G.rows_pos

theorem scroll_of_lt {w : Window α} (h : w.pos < G.size) : G.scroll w = w := if_pos h

theorem scroll_of_le {w : Window α} (h : G.size ≤ w.pos) :
    G.scroll w =
      { cells := fun i => if i + G.cols < G.size then w.cells (i + G.cols) else G.blank
        pos := w.pos - G.cols } := if_neg (not_lt.2 h)

theorem pos_scroll_lt {w : Window α} (h : w.pos ≤ G.size) : (G.scroll w).pos < G.size := by
  by_cases hlt : w.pos < G.size
  · rw [G.scroll_of_lt hlt]
    exact hlt
  · have hcols := G.cols_pos
    have hle := G.cols_le_size
    rw [G.scroll_of_le (not_lt.1 hlt)]
    show w.pos - G.cols < G.size
    omega

theorem pos_put_lt {w : Window α} (h : w.pos < G.size) (a : α) : (G.put w a).pos < G.size :=
  G.pos_scroll_lt h

theorem pos_newline_lt {w : Window α} (h : w.pos < G.size) : (G.newline w).pos < G.size := by
  have hrow : w.pos / G.cols < G.rows := Nat.div_lt_of_lt_mul h
  exact G.pos_scroll_lt (Nat.mul_le_mul_left G.cols hrow)

theorem pos_rubout_lt {w : Window α} (h : w.pos < G.size) : (G.rubout w).pos < G.size := by
  rw [rubout]
  split
  · exact h
  · exact lt_of_le_of_lt (Nat.sub_le _ _) h

theorem pos_cleared_lt : G.cleared.pos < G.size := lt_of_lt_of_le G.cols_pos G.cols_le_size

end Geometry

/-! ## Pages -/

/-- A text laid out in rows: those that are complete and the one being written. -/
structure Page (α : Type) where
  done : List (List α)
  last : List α

/-- The page nothing was written on. -/
def Page.empty : Page α := ⟨[], []⟩

/-- All rows, the last one included. -/
def Page.rows (p : Page α) : List (List α) := p.done ++ [p.last]

/-- Begin a new row. -/
def Page.newline (p : Page α) : Page α := ⟨p.rows, []⟩

namespace Geometry

variable (G : Geometry α)

/-- Write a cell at the end of the page, and begin a new row as soon as the last one
is full. -/
def write (p : Page α) (a : α) : Page α :=
  let p' : Page α := { p with last := p.last ++ [a] }
  if p'.last.length < G.cols then p' else p'.newline

/-- The last rows of a page, as many as fit on the screen. -/
def visible (p : Page α) : List (List α) := p.rows.drop (p.rows.length - G.rows)

/-- What stands in a row and column of the screen. -/
def cellAt (p : Page α) (row col : ℕ) : α := ((G.visible p).getD row []).getD col G.blank

/-- A window on the last rows of a page whose last row may just have become full. -/
structure Loose (w : Window α) (p : Page α) : Prop where
  last_le : p.last.length ≤ G.cols
  pos_eq : w.pos + G.cols = G.cols * (G.visible p).length + p.last.length
  cells_eq : ∀ i < G.size, w.cells i = G.cellAt p (i / G.cols) (i % G.cols)

/-- The window shows the last rows of the page, and the cursor stands at its end. -/
structure Shows (w : Window α) (p : Page α) : Prop extends G.Loose w p where
  last_lt : p.last.length < G.cols

theorem length_rows (p : Page α) : p.rows.length = p.done.length + 1 := by simp [Page.rows]

theorem length_rows_newline (p : Page α) : p.newline.rows.length = p.rows.length + 1 := by
  simp [Page.newline, Page.rows]

theorem length_visible (p : Page α) : (G.visible p).length = min p.rows.length G.rows := by
  rw [visible, List.length_drop]
  omega

theorem getD_visible (p : Page α) (row : ℕ) :
    (G.visible p).getD row [] = p.rows.getD (p.rows.length - G.rows + row) [] := by
  rw [visible, List.getD_eq_getElem?_getD, List.getElem?_drop, List.getD_eq_getElem?_getD]

theorem getD_rows_newline (p : Page α) (row : ℕ) :
    p.newline.rows.getD row [] = p.rows.getD row [] := by
  show (p.rows ++ [[]]).getD row [] = _
  by_cases h : row < p.rows.length
  · exact List.getD_append _ _ _ _ h
  · rw [List.getD_append_right _ _ _ _ (not_lt.1 h), List.getD_eq_default _ _ (not_lt.1 h)]
    cases row - p.rows.length <;> rfl

/-- A new row leaves the rows where they are while there is room, and moves them up by
one otherwise. -/
theorem cellAt_newline (p : Page α) (row col : ℕ) :
    G.cellAt p.newline row col
      = G.cellAt p (if p.rows.length < G.rows then row else row + 1) col := by
  rw [cellAt, cellAt, getD_visible, getD_visible, getD_rows_newline, length_rows_newline]
  congr 2
  split <;> omega

theorem Loose.scroll {w : Window α} {p : Page α} (h : G.Loose w p) :
    G.Shows (G.scroll { w with pos := G.cols * (G.visible p).length }) p.newline := by
  have hvisible := G.length_visible p
  have hvisible' := G.length_visible p.newline
  rw [length_rows_newline] at hvisible'
  have hcols := G.cols_pos
  by_cases hroom : p.rows.length < G.rows
  · have hlen : (G.visible p).length = p.rows.length := by omega
    have hlen' : (G.visible p.newline).length = p.rows.length + 1 := by omega
    have hlt : G.cols * (G.visible p).length < G.size := by
      rw [hlen]
      exact Nat.mul_lt_mul_of_pos_left hroom hcols
    rw [G.scroll_of_lt hlt]
    refine ⟨⟨Nat.zero_le _, ?_, ?_⟩, hcols⟩
    · show G.cols * (G.visible p).length + G.cols = _ + 0
      rw [hlen, hlen', Nat.mul_succ, Nat.add_zero]
    · intro i hi
      rw [cellAt_newline, if_pos hroom]
      exact h.cells_eq i hi
  · have hlen : (G.visible p).length = G.rows := by omega
    have hlen' : (G.visible p.newline).length = G.rows := by omega
    rw [hlen, G.scroll_of_le le_rfl]
    refine ⟨⟨Nat.zero_le _, ?_, ?_⟩, hcols⟩
    · show G.size - G.cols + G.cols = _ + 0
      rw [hlen', Nat.sub_add_cancel G.cols_le_size, Nat.add_zero, size]
    · intro i _
      show (if i + G.cols < G.size then w.cells (i + G.cols) else G.blank) = _
      rw [cellAt_newline, if_neg hroom]
      have hdiv : (i + G.cols) / G.cols = i / G.cols + 1 := Nat.add_div_right i hcols
      split
      · rename_i hlt
        rw [h.cells_eq _ hlt, hdiv, Nat.add_mod_right]
      · -- the row below the last one is empty
        rename_i hge
        have hrow : G.rows ≤ i / G.cols + 1 := by
          rw [← hdiv]
          exact (Nat.le_div_iff_mul_le hcols).2 (by rw [Nat.mul_comm]; exact not_lt.1 hge)
        have hnone : (G.visible p).getD (i / G.cols + 1) [] = [] :=
          List.getD_eq_default _ _ (by rw [hlen]; exact hrow)
        rw [cellAt, hnone]
        rfl

theorem shows_cleared : G.Shows G.cleared Page.empty := by
  have hrows := G.rows_pos
  have hlen : (G.visible (Page.empty : Page α)).length = 1 := by
    rw [length_visible, length_rows]
    show min 1 G.rows = 1
    omega
  refine ⟨⟨Nat.zero_le _, ?_, ?_⟩, G.cols_pos⟩
  · rw [hlen]
    show 0 + G.cols = G.cols * 1 + 0
    omega
  · intro i _
    have hempty : ∀ row, (Page.empty : Page α).rows.getD row [] = [] := by
      intro row
      cases row <;> rfl
    rw [cellAt, getD_visible, hempty]
    rfl

/-- **A new row.** -/
theorem shows_newline {w : Window α} {p : Page α} (h : G.Shows w p) :
    G.Shows (G.newline w) p.newline := by
  have hpos : 0 < (G.visible p).length := by
    have hrows := G.rows_pos
    rw [length_visible, length_rows]
    omega
  obtain ⟨n, hn⟩ : ∃ n, (G.visible p).length = n + 1 := ⟨_, (Nat.succ_pred_eq_of_pos hpos).symm⟩
  have hw : w.pos = p.last.length + G.cols * n := by
    have heq := h.pos_eq
    rw [hn, Nat.mul_succ] at heq
    omega
  have hrow : w.pos / G.cols + 1 = (G.visible p).length := by
    rw [hn, hw, Nat.add_mul_div_left _ _ G.cols_pos, Nat.div_eq_of_lt h.last_lt, Nat.zero_add]
  rw [newline, hrow]
  exact h.toLoose.scroll

/-- The row on the screen that the cursor is in. -/
theorem getD_visible_last (p : Page α) {row : ℕ} (h : row + 1 = (G.visible p).length) :
    (G.visible p).getD row [] = p.last := by
  rw [length_visible, length_rows] at h
  have hrow : p.rows.length - G.rows + row = p.done.length := by
    rw [length_rows]
    omega
  rw [getD_visible, hrow, Page.rows, List.getD_append_right _ _ _ _ le_rfl, Nat.sub_self]
  rfl

/-- The other rows do not depend on the last one. -/
theorem getD_visible_of_ne (p : Page α) (l : List α) {row : ℕ}
    (h : row + 1 ≠ (G.visible p).length) :
    (G.visible ⟨p.done, l⟩).getD row [] = (G.visible p).getD row [] := by
  have hrows := G.rows_pos
  have hlen : (⟨p.done, l⟩ : Page α).rows.length = p.rows.length := by simp [Page.rows]
  rw [length_visible, length_rows] at h
  rw [getD_visible, getD_visible, hlen]
  have hne : p.rows.length - G.rows + row ≠ p.done.length := by
    rw [length_rows]
    omega
  generalize p.rows.length - G.rows + row = j at hne
  rw [Page.rows, Page.rows]
  by_cases hlt : j < p.done.length
  · rw [List.getD_append _ _ _ _ hlt, List.getD_append _ _ _ _ hlt]
  · have hge (m : List α) : (p.done ++ [m]).length ≤ j := by
      rw [List.length_append, List.length_singleton]
      omega
    rw [List.getD_eq_default _ _ (hge _), List.getD_eq_default _ _ (hge _)]

theorem getD_concat (l : List α) (a d : α) (n : ℕ) :
    (l ++ [a]).getD n d = if n = l.length then a else l.getD n d := by
  rw [List.getD_eq_getElem?_getD, List.getElem?_append, List.getD_eq_getElem?_getD]
  grind

/-- A cell written at the end of the last row. -/
theorem Shows.append {w : Window α} {p : Page α} (h : G.Shows w p) (a : α) :
    G.Loose { cells := Function.update w.cells w.pos a, pos := w.pos + 1 }
      ⟨p.done, p.last ++ [a]⟩ := by
  have hlast := h.last_lt
  have hlen : (G.visible (⟨p.done, p.last ++ [a]⟩ : Page α)).length = (G.visible p).length := by
    rw [length_visible, length_visible, length_rows, length_rows]
  have hrows := G.rows_pos
  obtain ⟨n, hn⟩ : ∃ n, n + 1 = (G.visible p).length := by
    refine ⟨(G.visible p).length - 1, Nat.sub_add_cancel ?_⟩
    rw [length_visible, length_rows]
    omega
  have hpos : w.pos = G.cols * n + p.last.length := by
    have heq := h.pos_eq
    rw [← hn, Nat.mul_succ] at heq
    omega
  refine ⟨?_, ?_, ?_⟩
  · simpa using hlast
  · have heq := h.pos_eq
    show w.pos + 1 + G.cols = _ + (p.last ++ [a]).length
    rw [hlen, List.length_append, List.length_singleton]
    omega
  · intro i hi
    have hold := h.cells_eq i hi
    have hcol : i % G.cols < G.cols := Nat.mod_lt i G.cols_pos
    have hsplit : G.cols * (i / G.cols) + i % G.cols = i := Nat.div_add_mod i G.cols
    show Function.update w.cells w.pos a i = _
    rw [cellAt] at hold ⊢
    by_cases hthis : i / G.cols = n
    · -- the row of the cursor
      rw [hthis] at hsplit hold ⊢
      rw [getD_visible_last G p hn] at hold
      rw [getD_visible_last G _ (hn.trans hlen.symm), getD_concat, Function.update_apply, hold]
      have hiff : i = w.pos ↔ i % G.cols = p.last.length := by omega
      simp only [hiff]
    · have hne : i ≠ w.pos := by
        intro heq
        apply hthis
        rw [heq, hpos, Nat.mul_add_div G.cols_pos, Nat.div_eq_of_lt hlast, Nat.add_zero]
      have hother := getD_visible_of_ne G p (p.last ++ [a])
        (show i / G.cols + 1 ≠ (G.visible p).length by omega)
      rw [Function.update_of_ne hne, hold, hother]

/-- **A cell.** -/
theorem shows_put {w : Window α} {p : Page α} (h : G.Shows w p) (a : α) :
    G.Shows (G.put w a) (G.write p a) := by
  have hloose := h.append G a
  have hlen : (p.last ++ [a]).length = p.last.length + 1 := by simp
  rw [put, write]
  by_cases hfull : (p.last ++ [a]).length < G.cols
  · have hlt : w.pos + 1 < G.size := by
      have heq := hloose.pos_eq
      have hcount : (G.visible (⟨p.done, p.last ++ [a]⟩ : Page α)).length ≤ G.rows := by
        rw [length_visible]
        exact min_le_right _ _
      have hmul := Nat.mul_le_mul_left G.cols hcount
      simp only at heq
      rw [size]
      omega
    rw [G.scroll_of_lt hlt, if_pos hfull]
    exact ⟨hloose, hfull⟩
  · have hpos : w.pos + 1 = G.cols * (G.visible (⟨p.done, p.last ++ [a]⟩ : Page α)).length := by
      have heq := hloose.pos_eq
      have hle := hloose.last_le
      simp only at heq hle
      omega
    rw [if_neg hfull]
    have hscroll := hloose.scroll
    rw [← hpos] at hscroll
    exact hscroll

end Geometry

/-! ### Pages of other cells -/

variable {β : Type}

/-- The same screen for cells of another kind. -/
def Geometry.map (G : Geometry α) (f : α → β) : Geometry β := { G with blank := f G.blank }

/-- The same text with its cells replaced. -/
def Page.map (f : α → β) (p : Page α) : Page β := ⟨p.done.map (List.map f), p.last.map f⟩

theorem Page.rows_map (f : α → β) (p : Page α) : (p.map f).rows = p.rows.map (List.map f) := by
  simp [Page.rows, Page.map]

theorem Page.newline_map (f : α → β) (p : Page α) : p.newline.map f = (p.map f).newline := by
  rw [Page.newline, Page.newline, Page.rows_map]
  rfl

namespace Geometry

theorem write_map (G : Geometry α) (f : α → β) (p : Page α) (a : α) :
    (G.write p a).map f = (G.map f).write (p.map f) (f a) := by
  have hlen : ((p.map f).last ++ [f a]).length = (p.last ++ [a]).length := by simp [Page.map]
  have hmap : (⟨p.done, p.last ++ [a]⟩ : Page α).map f
      = ⟨(p.map f).done, (p.map f).last ++ [f a]⟩ := by simp [Page.map]
  by_cases hfull : (p.last ++ [a]).length < G.cols
  · have hfull' : ((p.map f).last ++ [f a]).length < (G.map f).cols := lt_of_eq_of_lt hlen hfull
    simp only [write, if_pos hfull, if_pos hfull']
    exact hmap
  · have hfull' : ¬((p.map f).last ++ [f a]).length < (G.map f).cols := by
      rw [hlen]
      exact hfull
    simp only [write, if_neg hfull, if_neg hfull']
    rw [Page.newline_map, hmap]

theorem getD_map (f : α → β) (l : List α) (n : ℕ) (d : α) :
    (l.map f).getD n (f d) = f (l.getD n d) := by
  rw [List.getD_eq_getElem?_getD, List.getElem?_map, List.getD_eq_getElem?_getD,
    Option.getD_map]

theorem cellAt_map (G : Geometry α) (f : α → β) (p : Page α) (row col : ℕ) :
    (G.map f).cellAt (p.map f) row col = f (G.cellAt p row col) := by
  have hrow : ((G.map f).visible (p.map f)).getD row [] = ((G.visible p).getD row []).map f := by
    rw [visible, visible, Page.rows_map, List.length_map, ← List.map_drop]
    exact getD_map (List.map f) _ row []
  rw [cellAt, cellAt, hrow]
  exact getD_map f _ col G.blank

theorem length_visible_map (G : Geometry α) (f : α → β) (p : Page α) :
    ((G.map f).visible (p.map f)).length = (G.visible p).length := by
  rw [length_visible, length_visible, Page.rows_map, List.length_map]
  rfl

end Geometry

/-! ## A line being typed -/

/-- A line being typed on a window: where it starts, what was typed, and what should
stand before it. -/
structure Echo (α : Type) where
  window : Window α
  start : ℤ
  text : List α
  above : ℕ → α

namespace Geometry

variable (G : Geometry α)

/-- Type a cell.  When the window scrolls, the start of the line moves up with it. -/
def type (e : Echo α) (a : α) : Echo α where
  window := G.put e.window a
  start := if G.size ≤ e.window.pos + 1 then e.start - G.cols else e.start
  text := e.text ++ [a]
  above := if G.size ≤ e.window.pos + 1 then fun i => e.above (i + G.cols) else e.above

/-- Erase the last cell of the line. -/
def erase (e : Echo α) : Echo α :=
  { e with window := G.rubout e.window, text := e.text.dropLast }

/-- Clear the screen and begin the line again at its top. -/
def wipe : Echo α where
  window := G.cleared
  start := 0
  text := []
  above := fun _ => G.blank

/-- The window shows the line, and the cursor stands at its end. -/
structure Shown (e : Echo α) : Prop where
  start_nonneg : 0 ≤ e.start
  pos_eq : (e.window.pos : ℤ) = e.start + e.text.length
  pos_lt : e.window.pos < G.size
  text_eq : ∀ i (h : i < e.text.length), e.window.cells (e.start.toNat + i) = e.text[i]
  above_eq : ∀ i < e.start.toNat, e.window.cells i = e.above i

/-- Nothing is typed yet. -/
theorem shown_nil {w : Window α} (h : w.pos < G.size) :
    G.Shown { window := w, start := w.pos, text := [], above := w.cells } where
  start_nonneg := Int.natCast_nonneg _
  pos_eq := (Int.add_zero _).symm
  pos_lt := h
  text_eq := fun i hi => absurd hi (Nat.not_lt_zero i)
  above_eq := fun _ _ => rfl

theorem shown_wipe : G.Shown (G.wipe : Echo α) where
  start_nonneg := le_rfl
  pos_eq := rfl
  pos_lt := G.pos_cleared_lt
  text_eq := fun i hi => absurd hi (Nat.not_lt_zero i)
  above_eq := fun _ _ => rfl

theorem Shown.pos_nat {e : Echo α} (h : G.Shown e) :
    e.window.pos = e.start.toNat + e.text.length := by
  have hstart := h.start_nonneg
  have hpos := h.pos_eq
  omega

/-- The text in the cells when the next one is written, before the window scrolls. -/
theorem Shown.text_update {e : Echo α} (h : G.Shown e) (a : α) {i : ℕ}
    (hi : i < (e.text ++ [a]).length) :
    Function.update e.window.cells e.window.pos a (e.start.toNat + i) = (e.text ++ [a])[i] := by
  rw [Function.update_apply, h.pos_nat G]
  by_cases hlast : i < e.text.length
  · rw [if_neg (by omega), List.getElem_append_left hlast, h.text_eq i hlast]
  · have hi' : i = e.text.length := by
      rw [List.length_append, List.length_singleton] at hi
      omega
    subst hi'
    rw [if_pos rfl, List.getElem_append_right le_rfl]
    simp

theorem Shown.above_update {e : Echo α} (h : G.Shown e) (a : α) {i : ℕ} (hi : i < e.start.toNat) :
    Function.update e.window.cells e.window.pos a i = e.above i := by
  have hpos := h.pos_nat G
  rw [Function.update_of_ne (by omega)]
  exact h.above_eq i hi

/-- **A cell is typed.**  A line shorter than the screen without one row is still
there as a whole when its last cell makes the screen scroll. -/
theorem Shown.type {e : Echo α} (h : G.Shown e) (hroom : e.text.length + 1 + G.cols ≤ G.size)
    (a : α) : G.Shown (G.type e a) := by
  have hpos := h.pos_nat G
  have hstart := h.start_nonneg
  have hlt := h.pos_lt
  rw [Geometry.type]
  by_cases hscroll : G.size ≤ e.window.pos + 1
  · obtain ⟨m, hm⟩ : ∃ m, e.start.toNat = m + G.cols := ⟨e.start.toNat - G.cols, by omega⟩
    have hm' : e.start - G.cols = (m : ℤ) := by omega
    have hput : G.put e.window a = _ := G.scroll_of_le hscroll
    rw [if_pos hscroll, if_pos hscroll, hput, hm']
    refine ⟨Int.natCast_nonneg m, ?_, ?_, ?_, ?_⟩
    · simp only [List.length_append, List.length_singleton]
      omega
    · show e.window.pos + 1 - G.cols < G.size
      have hcols := G.cols_pos
      omega
    · intro i hi
      have hi' : i < e.text.length + 1 := by simpa using hi
      have hshift : m + i + G.cols = e.start.toNat + i := by omega
      show (if m + i + G.cols < G.size
        then Function.update e.window.cells e.window.pos a (m + i + G.cols) else _) = _
      rw [if_pos (by omega), hshift]
      exact h.text_update G a hi
    · intro i hi
      have hi' : i < m := hi
      show (if i + G.cols < G.size then _ else _) = _
      rw [if_pos (by omega)]
      exact h.above_update G a (by omega)
  · have hput : G.put e.window a = _ := G.scroll_of_lt (not_le.1 hscroll)
    rw [if_neg hscroll, if_neg hscroll, hput]
    refine ⟨h.start_nonneg, ?_, not_le.1 hscroll, ?_, ?_⟩
    · simp only [List.length_append, List.length_singleton]
      omega
    · exact fun i hi => h.text_update G a hi
    · exact fun i hi => h.above_update G a hi

/-- **The last cell is erased.**  The cursor is not at the top left corner then. -/
theorem Shown.erase {e : Echo α} (h : G.Shown e) (hne : e.text ≠ []) : G.Shown (G.erase e) := by
  have hstart := h.start_nonneg
  have heq := h.pos_eq
  have hlen := List.length_pos_of_ne_nil hne
  have hpos : e.window.pos ≠ 0 := by omega
  rw [Geometry.erase, rubout, if_neg hpos]
  refine ⟨hstart, ?_, ?_, ?_, ?_⟩
  · simp only [List.length_dropLast]
    omega
  · exact lt_of_le_of_lt (Nat.sub_le _ _) h.pos_lt
  · intro i hi
    have hi' : i < e.text.length - 1 := by simpa using hi
    show Function.update _ _ _ (e.start.toNat + i) = _
    rw [Function.update_of_ne (by omega), List.getElem_dropLast]
    exact h.text_eq i (by omega)
  · intro i hi
    have hi' : i < e.start.toNat := hi
    show Function.update _ _ _ i = _
    rw [Function.update_of_ne (by omega)]
    exact h.above_eq i hi'

end Geometry

end TextWindow
