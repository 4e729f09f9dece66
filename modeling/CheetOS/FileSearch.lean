import CheetOS.Lib.Lines
import CheetOS.UserCommands

/-!
# Searching a file (`do_one_file` of `ece391grep.c`)

A file is read through a buffer of 1024 bytes; the lines that are complete are searched, and
an unfinished one is moved to the front.

* `doOneFile` is the function, `lineEndLoop`, `searchLoop`, `linesLoop` and `readsLoop` are its
  loops from the inside out;
* `fileReport` says what it is for: a line of output for each line that has the string in it,
  where lines are cut after 1024 bytes, and none for a string whose first byte is negative as
  a `char`;
* `does_searchLine` is one line, `does_linesLoop` a block, `does_readsLoop` a file and
  `does_doOneFile` the function.
-/

namespace CheetOS

open Exec ByteMemory TextWindow Words

namespace Platform

variable (P : Platform) (W : World) (lit : Literals)

/-! ## The program -/

/-- The loop that finds the end of a line. -/
def lineEndLoop (data : UInt32) (last : ℕ) : ℕ → ℕ → U ℕ
  | 0, _ => fun _ => none
  | n + 1, lineEnd =>
    if lineEnd < last then do
      let c ← P.loadUser (data + UInt32.ofNat lineEnd)
      if c = 0x0A then return lineEnd
      else lineEndLoop data last n (lineEnd + 1)
    else return lineEnd

/-- What is printed for a line. -/
def printLine (fname line : UInt32) : U Unit := do
  P.ece391Fdputs W 1 fname
  P.ece391Fdputs W 1 (lit ":")
  P.ece391Fdputs W 1 line
  P.ece391Fdputs W 1 (lit "\n")

/-- The loop that searches a line.  `s[0]` is a `char`, with a sign, and `data[check]` is not. -/
def searchLoop (s fname data sLen : UInt32) (lineStart lineEnd : ℕ) : ℕ → ℕ → U Unit
  | 0, _ => fun _ => none
  | n + 1, check =>
    if check < lineEnd then do
      let c₀ ← P.loadUser s
      let c ← P.loadUser (data + UInt32.ofNat check)
      if c₀.toInt8.toInt32 = c.toUInt32.toInt32 then do
        let r ← P.ece391Strncmp (data + UInt32.ofNat check) s sLen
        if r = 0 then P.printLine W lit fname (data + UInt32.ofNat lineStart)
        else searchLoop s fname data sLen lineStart lineEnd n (check + 1)
      else searchLoop s fname data sLen lineStart lineEnd n (check + 1)
    else return ()

/-- The loop over the lines of a block; its result is the new value of `last`. -/
def linesLoop (s fname data sLen : UInt32) (cnt : Int32) (last : ℕ) : ℕ → ℕ → U ℕ
  | 0, _ => fun _ => none
  | n + 1, lineStart => do
    let lineEnd ← P.lineEndLoop data last addressSpace lineStart
    let c ← P.loadUser (data + UInt32.ofNat lineEnd)
    if c ≠ 0x0A ∧ cnt ≠ 0 ∧ lineStart ≠ 0 then do
      P.storeUser (data + UInt32.ofNat lineEnd) 0
      P.ece391Strcpy data (data + UInt32.ofNat lineStart)
      return last - lineStart
    else do
      P.storeUser (data + UInt32.ofNat lineEnd) 0
      P.searchLoop W lit s fname data sLen lineStart lineEnd addressSpace lineStart
      if last ≤ lineEnd + 1 then return 0
      else linesLoop s fname data sLen cnt last n (lineEnd + 1)

/-- The loop over the blocks of a file, and the call of `close` behind it. -/
def readsLoop (s fname data sLen : UInt32) (fd : Int32) : ℕ → ℕ → U Int32
  | 0, _ => fun _ => none
  | n + 1, last => do
    let cnt ← P.ece391Read W fd (data + UInt32.ofNat last) (Int32.ofNat (1024 - last))
    if cnt = -1 then do
      P.ece391Fdputs W 1 (lit "file read failed\n")
      return -1
    else do
      let last' ← P.linesLoop W lit s fname data sLen cnt (last + cnt.toNatClampNeg) addressSpace 0
      if cnt = 0 then do
        let closed ← P.ece391Close W fd
        if closed = -1 then do
          P.ece391Fdputs W 1 (lit "file close failed\n")
          return -1
        else return 0
      else readsLoop s fname data sLen fd n last'

/-- `do_one_file`, with its buffer at `data`. -/
def doOneFile (s fname data : UInt32) : U Int32 := do
  let sLen ← P.ece391Strlen s
  let fd ← P.ece391Open W fname
  if fd = -1 then do
    P.ece391Fdputs W 1 (lit "file open failed\n")
    return -1
  else P.readsLoop W lit s fname data sLen fd addressSpace 0

/-! ## What it is for -/

/-- The output for a line.  A string that begins with a byte from 0x80 on is never found. -/
def report (pattern name line : List UInt8) : List UInt8 :=
  if pattern.headD 0 < 0x80 ∧ pattern <:+: line then name ++ 0x3A :: textOf line ++ [0x0A] else []

/-- The output for a file. -/
def fileReport (pattern name l : List UInt8) : List UInt8 :=
  (Lines.cut 0x0A 1024 l).flatMap (report pattern name)

/-- The string literals of `grep`. -/
def grepStrings : List String :=
  [".", ":", "\n", "file open failed\n", "file read failed\n", "file close failed\n",
    "could not read argument\n", "directory open failed\n", "directory entry read failed\n"]

variable {P} {W} {lit}

theorem report_nil {pattern name : List UInt8} (h : pattern ≠ []) : report pattern name [] = [] :=
  if_neg fun hfound => h (List.infix_nil.1 hfound.2)

/-! ## A line -/

/-- A byte with a sign and one without are equal. -/
theorem signed_eq_iff {a b : UInt8} :
    a.toInt8.toInt32 = b.toUInt32.toInt32 ↔ a < 0x80 ∧ a = b := by
  have ha := a.toNat_lt
  have hb := b.toNat_lt
  have hsigned : a.toInt8.toInt = if 2 * a.toNat < 256 then (a.toNat : ℤ) else a.toNat - 256 :=
    BitVec.toInt_eq_toNat_cond a.toBitVec
  have hunsigned : b.toUInt32.toInt32.toInt
      = if 2 * b.toUInt32.toNat < 4294967296 then (b.toUInt32.toNat : ℤ)
        else b.toUInt32.toNat - 4294967296 :=
    BitVec.toInt_eq_toNat_cond b.toUInt32.toBitVec
  rw [← Int32.toInt_inj, Int8.toInt_toInt32, hsigned, hunsigned, UInt8.toNat_toUInt32,
    UInt8.lt_iff_toNat_lt, ← UInt8.toNat_inj]
  simp only [UInt8.reduceToNat]
  split <;> omega

/-- A string without zeros is found in front of the first zero. -/
theorem prefix_textOf_iff {pattern l : List UInt8} (h : (0 : UInt8) ∉ pattern) :
    pattern <+: textOf l ↔ pattern <+: l := by
  constructor
  · intro hprefix
    exact hprefix.trans (List.takeWhile_prefix _)
  · rintro ⟨k, rfl⟩
    have hall : ∀ c ∈ pattern, decide (c ≠ 0) = true := by
      intro c hc
      rw [decide_eq_true_eq]
      rintro rfl
      exact h hc
    rw [textOf, List.takeWhile_append_of_pos hall]
    exact List.prefix_append _ _

/-- Bytes with a zero behind them are a string, up to their first zero. -/
theorem stringAt_textOf {mem : UInt32 → UInt8} {p : UInt32} {l : List UInt8}
    (hpage : PageBlock p (l.length + 1)) (h : Stands mem p (l ++ [0])) :
    StringAt mem p (textOf l) := by
  rcases Lines.exists_line 0 l with hclean | ⟨q, x, rfl, hq⟩
  · rw [textOf_of_clean hclean]
    exact ⟨hpage, h, hclean⟩
  · have htext : textOf (q ++ 0 :: x) = q := Lines.takeWhile_line hq x
    rw [List.length_append, List.length_cons] at hpage
    rw [List.append_assoc, List.cons_append] at h
    obtain ⟨hfirst, hrest⟩ := stands_append.1 h
    rw [htext]
    exact ⟨hpage.mono (by omega),
      stands_append.2 ⟨hfirst, stands_cons.2 ⟨(stands_cons.1 hrest).1, stands_nil⟩⟩, hq⟩

section Line

variable {f : Frame} {F : List Frame} {v : View} {data : UInt32}

theorem does_lineEndLoop {r : List UInt8} {last ls n : ℕ}
    (hr : Stands v.mem (data + UInt32.ofNat ls) r) (hlast : last = ls + r.length)
    (hpage : PageBlock data last) (hn : r.length < n) :
    P.Does f F v (P.lineEndLoop data last n ls) (ls + (r.takeWhile (· ≠ 0x0A)).length) v := by
  induction r generalizing n ls with
  | nil =>
    obtain ⟨n, rfl⟩ := Nat.exists_eq_succ_of_ne_zero (Nat.ne_of_gt hn)
    rw [List.length_nil, Nat.add_zero] at hlast
    rw [lineEndLoop, if_neg (by omega)]
    exact does_pure v ls
  | cons c r ih =>
    obtain ⟨n, rfl⟩ := Nat.exists_eq_succ_of_ne_zero (Nat.ne_of_gt (Nat.zero_lt_of_lt hn))
    obtain ⟨hc, htail⟩ := stands_cons.1 hr
    have hone : data + UInt32.ofNat ls + 1 = data + UInt32.ofNat (ls + 1) :=
      Word32.add_ofNat_add_ofNat data ls 1
    rw [List.length_cons] at hlast hn
    have hlt : ls < last := by omega
    rw [lineEndLoop, if_pos hlt]
    refine (does_load (hpage.mem hlt)).bind ?_
    rw [hc]
    by_cases hnewline : c = 0x0A
    · rw [if_pos hnewline, List.takeWhile_cons_of_neg (by simpa using hnewline)]
      exact does_pure v ls
    · rw [if_neg hnewline, List.takeWhile_cons_of_pos (by simpa using hnewline), List.length_cons,
        ← Nat.add_assoc, Nat.add_right_comm]
      rw [hone] at htail
      exact ih htail (by omega) (by omega)

/-- The strings `do_one_file` works with, apart from its buffer. -/
structure Searching (lit : Literals) (s fname : UInt32) (pattern name : List UInt8)
    (strs : List (UInt32 × List UInt8)) (data : UInt32) (mem : UInt32 → UInt8) : Prop where
  apart : StringsApart strs data 1025 mem
  pattern_mem : (s, pattern) ∈ strs
  name_mem : (fname, name) ∈ strs
  literal_mem : ∀ t ∈ grepStrings, (lit t, bytes t) ∈ strs
  ne_nil : pattern ≠ []

theorem Searching.string {s fname : UInt32} {pattern name : List UInt8}
    {strs : List (UInt32 × List UInt8)} {mem : UInt32 → UInt8}
    (h : Searching lit s fname pattern name strs data mem) {x : UInt32 × List UInt8}
    (hx : x ∈ strs) : StringAt mem x.1 x.2 := (h.apart.strings x hx).1

/-- What is put into the buffer leaves the strings alone. -/
theorem Searching.put_at {s fname : UInt32} {pattern name : List UInt8}
    {strs : List (UInt32 × List UInt8)} (h : Searching lit s fname pattern name strs data v.mem)
    {i : ℕ} {l : List UInt8} (hl : i + l.length ≤ 1025) :
    Searching lit s fname pattern name strs data (v.put (data + UInt32.ofNat i) l).mem :=
  ⟨h.apart.put_at hl, h.pattern_mem, h.name_mem, h.literal_mem, h.ne_nil⟩

section Search

variable {s fname : UInt32} {pattern name : List UInt8} {strs : List (UInt32 × List UInt8)}

theorem does_printLine (h : Searching lit s fname pattern name strs data v.mem) {p : UInt32}
    {line : List UInt8} (hline : StringAt v.mem p line) :
    P.Does f F v (P.printLine W lit fname p) () (v.print (name ++ 0x3A :: line ++ [0x0A])) := by
  have hcolon : bytes ":" = [0x3A] := by decide +kernel
  have hnewline : bytes "\n" = [0x0A] := by decide +kernel
  have hname : StringAt v.mem fname name := h.string h.name_mem
  have hsep : StringAt v.mem (lit ":") (bytes ":") := h.string (h.literal_mem ":" (by decide))
  have hend : StringAt v.mem (lit "\n") (bytes "\n") := h.string (h.literal_mem "\n" (by decide))
  have htext : v.print (name ++ 0x3A :: line ++ [0x0A])
      = (((v.print name).print (bytes ":")).print line).print (bytes "\n") := by
    rw [View.print_print, View.print_print, View.print_print, hcolon, hnewline,
      List.append_assoc name]
    rfl
  rw [htext]
  refine (does_fdputs hname).bind ?_
  refine (does_fdputs (v := v.print name) hsep).bind ?_
  refine (does_fdputs (v := (v.print name).print (bytes ":")) hline).bind ?_
  exact does_fdputs (v := ((v.print name).print (bytes ":")).print line) hend

/-- The loop that searches a line, with the part `t` of it to go. -/
theorem does_searchLoop (h : Searching lit s fname pattern name strs data v.mem)
    {line t : List UInt8} {ls e check n : ℕ}
    (hline : StringAt v.mem (data + UInt32.ofNat ls) (textOf line))
    (hpage : PageBlock (data + UInt32.ofNat check) (t.length + 1))
    (ht : Stands v.mem (data + UInt32.ofNat check) (t ++ [0])) (he : e = check + t.length)
    (hn : t.length < n) :
    P.Does f F v (P.searchLoop W lit s fname data (UInt32.ofNat pattern.length) ls e n check) ()
      (v.print (if pattern.headD 0 < 0x80 ∧ pattern <:+: t then
        name ++ 0x3A :: textOf line ++ [0x0A] else [])) := by
  have hpattern : StringAt v.mem s pattern := h.string h.pattern_mem
  induction t generalizing check n with
  | nil =>
    obtain ⟨n, rfl⟩ := Nat.exists_eq_succ_of_ne_zero (Nat.ne_of_gt hn)
    rw [List.length_nil, Nat.add_zero] at he
    rw [searchLoop, if_neg (by omega), if_neg fun hfound => h.ne_nil (List.infix_nil.1 hfound.2)]
    exact does_pure v ()
  | cons c t ih =>
    obtain ⟨n, rfl⟩ := Nat.exists_eq_succ_of_ne_zero (Nat.ne_of_gt (Nat.zero_lt_of_lt hn))
    have hone : data + UInt32.ofNat check + 1 = data + UInt32.ofNat (check + 1) :=
      Word32.add_ofNat_add_ofNat data check 1
    have hstring := stringAt_textOf hpage ht
    obtain ⟨hc, htail⟩ := stands_cons.1 ht
    have hpagetail : PageBlock (data + UInt32.ofNat check + UInt32.ofNat 1) (t.length + 1) :=
      (hpage.mono (by rw [List.length_cons]; omega)).shift
    rw [show UInt32.ofNat 1 = 1 from rfl, hone] at hpagetail
    rw [hone] at htail
    rw [List.length_cons] at he hn
    have hmore := ih (n := n) hpagetail htail (by omega) (by omega)
    obtain ⟨hpage', hfirst⟩ := hpattern.first
    rw [searchLoop, if_pos (by omega)]
    refine (does_load hpage').bind ((does_load (hpage.head (Nat.succ_pos _))).bind ?_)
    rw [hc, hfirst]
    have hsame (hno : ¬(pattern.headD 0 < 0x80 ∧ pattern <+: c :: t)) :
        (if pattern.headD 0 < 0x80 ∧ pattern <:+: c :: t then
          name ++ 0x3A :: textOf line ++ [0x0A] else [])
        = if pattern.headD 0 < 0x80 ∧ pattern <:+: t then
          name ++ 0x3A :: textOf line ++ [0x0A] else [] := by
      simp only [List.infix_cons_iff, and_or_left, hno, false_or]
    by_cases heq : (pattern.headD 0).toInt8.toInt32 = c.toUInt32.toInt32
    · obtain ⟨hplain, -⟩ := signed_eq_iff.1 heq
      rw [if_pos heq]
      obtain ⟨r, hcompare, hr⟩ := does_strncmp (P := P) (f := f) (v := v) hstring hpattern h.ne_nil
      rw [prefix_textOf_iff hpattern.clean] at hr
      refine hcompare.bind ?_
      by_cases hzero : r = 0
      · rw [if_pos hzero, if_pos ⟨hplain, List.infix_cons_iff.2 (Or.inl (hr.1 hzero))⟩]
        exact does_printLine h hline
      · rw [if_neg hzero, hsame fun hfound => hzero (hr.2 hfound.2)]
        exact hmore
    · have hno : ¬(pattern.headD 0 < 0x80 ∧ pattern <+: c :: t) := by
        rintro ⟨hplain, k, hk⟩
        obtain ⟨b, l, hb⟩ := List.exists_cons_of_ne_nil h.ne_nil
        rw [hb, List.cons_append] at hk
        rw [hb, List.headD_cons] at heq hplain
        exact heq (signed_eq_iff.2 ⟨hplain, (List.cons.inj hk).1⟩)
      rw [if_neg heq, hsame hno]
      exact hmore

/-- **A line is searched.** -/
theorem does_searchLine (h : Searching lit s fname pattern name strs data v.mem)
    {line : List UInt8} {ls e : ℕ} (hpage : PageBlock (data + UInt32.ofNat ls) (line.length + 1))
    (hline : Stands v.mem (data + UInt32.ofNat ls) (line ++ [0])) (he : e = ls + line.length) :
    P.Does f F v
      (P.searchLoop W lit s fname data (UInt32.ofNat pattern.length) ls e addressSpace ls) ()
      (v.print (report pattern name line)) := by
  have hlen := hpage.2
  have haddr : addressSpace = 4294967296 := rfl
  exact does_searchLoop h (stringAt_textOf hpage hline) hpage hline he (by omega)

/-! ## A block -/

/-- A byte elsewhere in the buffer. -/
theorem mem_put_at_ne {i j : ℕ} {c : UInt8} (hi : i ≤ 1024) (hj : j ≤ 1024) (hne : j ≠ i) :
    (v.put (data + UInt32.ofNat i) [c]).mem (data + UInt32.ofNat j)
      = v.mem (data + UInt32.ofNat j) := by
  rw [View.mem_put, write_singleton, Function.update_of_ne]
  intro heq
  exact hne (Word32.add_ofNat_inj (by omega) (by omega) heq)

/-- Bytes elsewhere in the buffer. -/
theorem stands_put_at {i j : ℕ} {c : UInt8} {l : List UInt8} (hpage : PageBlock data 1025)
    (hl : Stands v.mem (data + UInt32.ofNat j) l) (hi : i ≤ 1024) (hj : j + l.length ≤ 1025)
    (hout : i < j ∨ j + l.length ≤ i) :
    Stands (v.put (data + UInt32.ofNat i) [c]).mem (data + UInt32.ofNat j) l := by
  have hhi := hpage.2
  have hi' : (data + UInt32.ofNat i).toNat = data.toNat + i := Word32.toNat_add_ofNat (by omega)
  have hj' : (data + UInt32.ofNat j).toNat = data.toNat + j := Word32.toNat_add_ofNat (by omega)
  refine hl.write (by omega) ?_
  rw [List.length_singleton]
  rcases hout with hout | hout
  · exact (disjoint_of_le (by omega) (by omega)).symm
  · exact disjoint_of_le (by omega) (by omega)

/-- A line that a zero was put behind. -/
theorem stands_line {i : ℕ} {p : List UInt8} (hpage : PageBlock data 1025)
    (hp : Stands v.mem (data + UInt32.ofNat i) p) (hi : i + p.length ≤ 1024) :
    Stands (v.put (data + UInt32.ofNat (i + p.length)) [0]).mem (data + UInt32.ofNat i)
      (p ++ [0]) := by
  refine stands_append.2 ⟨?_, ?_⟩
  · exact stands_put_at hpage hp hi (by omega) (Or.inr le_rfl)
  · rw [Word32.add_ofNat_add_ofNat]
    exact stands_write (by simp)

variable (pattern name data) in
/-- What becomes of a block of which `lines` are complete and `rest` is not: the new value of
`last`, and the view. -/
inductive Scanned (cnt : Int32) (last ls : ℕ) (v v' : View) (lines : List (List UInt8))
    (rest : List UInt8) : ℕ → Prop
  | searched (hwindow : v'.window
        = (v.print ((lines ++ [rest]).flatMap (report pattern name))).window)
      (hcause : rest = [] ∨ v.mem (data + UInt32.ofNat last) = 0x0A ∨ cnt = 0 ∨
        ls = 0 ∧ lines = []) : Scanned cnt last ls v v' lines rest 0
  | moved (hwindow : v'.window = (v.print (lines.flatMap (report pattern name))).window)
      (hrest : (0 : UInt8) ∉ rest → Stands v'.mem data rest) (hcnt : cnt ≠ 0)
      (hmore : ls ≠ 0 ∨ lines ≠ []) : Scanned cnt last ls v v' lines rest rest.length

/-- What stands behind the last newline of a block is moved to the front, or searched. -/
theorem does_restLine (h : Searching lit s fname pattern name strs data v.mem) {r : List UInt8}
    {last ls n : ℕ} (cnt : Int32) (hr : Stands v.mem (data + UInt32.ofNat ls) r)
    (hlast : last = ls + r.length) (hle : last ≤ 1024) (hnone : (0x0A : UInt8) ∉ r) :
    ∃ k v', P.Does f F v
        (P.linesLoop W lit s fname data (UInt32.ofNat pattern.length) cnt last (n + 1) ls) k v' ∧
      Searching lit s fname pattern name strs data v'.mem ∧ v'.files = v.files ∧
      (v'.mem (data + UInt32.ofNat 1024) = v.mem (data + UInt32.ofNat 1024) ∨
        v'.mem (data + UInt32.ofNat 1024) = 0) ∧
      Scanned data pattern name cnt last ls v v' [] r k := by
  have hpage := h.apart.buffer
  have hhi := hpage.2
  have haddr : addressSpace = 4294967296 := rfl
  have hend : P.Does f F v (P.lineEndLoop data last addressSpace ls) last v := by
    have hloop := does_lineEndLoop (P := P) (f := f) (F := F) (n := addressSpace) hr hlast
      (hpage.mono (by omega)) (by omega)
    rwa [Lines.takeWhile_of_notMem hnone, ← hlast] at hloop
  have hstop : Searching lit s fname pattern name strs data
      (v.put (data + UInt32.ofNat last) [0]).mem :=
    h.put_at (by rw [List.length_singleton]; omega)
  have hlimit : (v.put (data + UInt32.ofNat last) [0]).mem (data + UInt32.ofNat 1024)
      = v.mem (data + UInt32.ofNat 1024) ∨
      (v.put (data + UInt32.ofNat last) [0]).mem (data + UInt32.ofNat 1024) = 0 := by
    by_cases hfull : last = 1024
    · refine Or.inr ?_
      rw [hfull, View.mem_put, write_singleton, Function.update_self]
    · exact Or.inl (mem_put_at_ne hle le_rfl (Ne.symm hfull))
  have hline := stands_line hpage hr (by omega)
  have hpageline : PageBlock (data + UInt32.ofNat ls) (r.length + 1) :=
    (hpage.mono (by omega)).shift
  rw [← hlast] at hline
  by_cases hmove : v.mem (data + UInt32.ofNat last) ≠ 0x0A ∧ cnt ≠ 0 ∧ ls ≠ 0
  · -- it is moved to the front
    have htext := textOf_length_le r
    have hcopy := does_strcpy (P := P) (f := f) (F := F) (stringAt_textOf hpageline hline)
      (hpage.mono (by omega)) (Nat.pos_of_ne_zero hmove.2.2)
    have hsize : (textOf r ++ [0]).length = (textOf r).length + 1 := List.length_append
    refine ⟨last - ls, (v.put (data + UInt32.ofNat last) [0]).put data (textOf r ++ [0]), ?_, ?_,
      rfl, ?_, ?_⟩
    · refine hend.bind ((does_load (hpage.mem (by omega))).bind ?_)
      rw [if_pos hmove]
      refine (does_store (hpage.mem (by omega)) 0).bind ?_
      exact hcopy.bind (does_pure _ _)
    · have hput := hstop.put_at (i := 0) (l := textOf r ++ [0]) (by omega)
      rwa [Word32.add_ofNat_zero] at hput
    · have hout : (textOf r ++ [0]).length ≤ (data + UInt32.ofNat 1024 - data).toNat := by
        rw [UInt32.add_comm, UInt32.add_sub_cancel, hsize]
        show _ ≤ 1024
        omega
      rw [View.mem_put, write_of_le hout]
      exact hlimit
    · have hrest (hclean : (0 : UInt8) ∉ r) : Stands ((v.put (data + UInt32.ofNat last)
          [0]).put data (textOf r ++ [0])).mem data r := by
        have hwritten : Stands ((v.put (data + UInt32.ofNat last) [0]).put data
            (textOf r ++ [0])).mem data (textOf r ++ [0]) := stands_write (by omega)
        rw [textOf_of_clean hclean] at hwritten ⊢
        exact (stands_append.1 hwritten).1
      have hk : last - ls = r.length := by omega
      rw [hk]
      exact .moved rfl hrest hmove.2.1 (Or.inl hmove.2.2)
  · -- it is searched
    have hsearch := does_searchLine (P := P) (W := W) (f := f) (F := F) hstop hpageline hline
      hlast
    refine ⟨0, (v.put (data + UInt32.ofNat last) [0]).print (report pattern name r), ?_, hstop,
      rfl, ?_, .searched ?_ ?_⟩
    · refine hend.bind ((does_load (hpage.mem (by omega))).bind ?_)
      rw [if_neg hmove]
      refine (does_store (hpage.mem (by omega)) 0).bind ?_
      refine hsearch.bind ?_
      rw [if_pos (Nat.le_succ last)]
      exact does_pure _ 0
    · rw [View.mem_print]
      exact hlimit
    · simp only [List.nil_append, List.flatMap_singleton]
      rfl
    · by_contra hnot
      push Not at hnot
      exact hmove ⟨hnot.2.1, hnot.2.2.1, fun h0 => hnot.2.2.2 h0 rfl⟩

/-- A line that is complete is searched, and the loop goes on behind it. -/
theorem does_completeLine (h : Searching lit s fname pattern name strs data v.mem)
    {p x : List UInt8} {last ls : ℕ} (cnt : Int32)
    (hr : Stands v.mem (data + UInt32.ofNat ls) (p ++ 0x0A :: x)) (hp : (0x0A : UInt8) ∉ p)
    (hlast : last = ls + p.length + 1 + x.length) (hle : last ≤ 1024) :
    ∃ v₂, Searching lit s fname pattern name strs data v₂.mem ∧
      Stands v₂.mem (data + UInt32.ofNat (ls + p.length + 1)) x ∧ v₂.files = v.files ∧
      v₂.window = (v.print (report pattern name p)).window ∧
      (∀ i, ls + p.length < i → i ≤ 1024 →
        v₂.mem (data + UInt32.ofNat i) = v.mem (data + UInt32.ofNat i)) ∧
      ∀ {n k : ℕ} {v' : View}, P.Does f F v₂ (if last ≤ ls + p.length + 1 then return 0 else
          P.linesLoop W lit s fname data (UInt32.ofNat pattern.length) cnt last n
            (ls + p.length + 1)) k v' →
        P.Does f F v (P.linesLoop W lit s fname data (UInt32.ofNat pattern.length) cnt last (n + 1)
          ls) k v' := by
  have hpage := h.apart.buffer
  have hhi := hpage.2
  have haddr : addressSpace = 4294967296 := rfl
  obtain ⟨hstands, hrest⟩ := stands_append.1 hr
  rw [Word32.add_ofNat_add_ofNat] at hrest
  obtain ⟨hnewline, hbehind⟩ := stands_cons.1 hrest
  have hone : data + UInt32.ofNat (ls + p.length) + 1 = data + UInt32.ofNat (ls + p.length + 1) :=
    Word32.add_ofNat_add_ofNat data (ls + p.length) 1
  rw [hone] at hbehind
  have hend : P.Does f F v (P.lineEndLoop data last addressSpace ls) (ls + p.length) v := by
    have hloop : P.Does f F v (P.lineEndLoop data last addressSpace ls) _ v :=
      does_lineEndLoop hr (by rw [List.length_append, List.length_cons]; omega)
        (hpage.mono (by omega)) (by rw [List.length_append, List.length_cons]; omega)
    rwa [Lines.takeWhile_line hp] at hloop
  have hstop : Searching lit s fname pattern name strs data
      (v.put (data + UInt32.ofNat (ls + p.length)) [0]).mem :=
    h.put_at (by rw [List.length_singleton]; omega)
  have hline := stands_line hpage hstands (by omega)
  have hpageline : PageBlock (data + UInt32.ofNat ls) (p.length + 1) :=
    (hpage.mono (by omega)).shift
  have hsearch := does_searchLine (P := P) (W := W) (f := f) (F := F) hstop hpageline hline rfl
  refine ⟨(v.put (data + UInt32.ofNat (ls + p.length)) [0]).print (report pattern name p), hstop,
    stands_put_at hpage hbehind (by omega) (by omega) (Or.inl (by omega)), rfl, rfl,
    fun i hi hle => mem_put_at_ne (by omega) hle (by omega), fun hnext => ?_⟩
  refine hend.bind ((does_load (hpage.mem (by omega))).bind ?_)
  rw [hnewline, if_neg fun hmove => hmove.1 rfl]
  exact (does_store (hpage.mem (by omega)) 0).bind (hsearch.bind hnext)

/-- A line in front of a block that has been scanned. -/
theorem Scanned.cons {cnt : Int32} {last ls ls' k : ℕ} {v₂ v' : View} {p rest : List UInt8}
    {lines : List (List UInt8)} (h : Scanned data pattern name cnt last ls' v₂ v' lines rest k)
    (hls : 0 < ls') (hwindow₂ : v₂.window = (v.print (report pattern name p)).window)
    (hmem : v₂.mem (data + UInt32.ofNat last) = v.mem (data + UInt32.ofNat last)) :
    Scanned data pattern name cnt last ls v v' (p :: lines) rest k := by
  have hjoin (t : List UInt8) : (v₂.print t).window
      = (v.print (report pattern name p ++ t)).window := by
    rw [View.window_print, hwindow₂, ← View.window_print, View.print_print]
  cases h with
  | searched hwindow hcause =>
    refine .searched (hwindow.trans (hjoin _)) ?_
    rw [hmem] at hcause
    rcases hcause with hcause | hcause | hcause | hcause
    · exact Or.inl hcause
    · exact Or.inr (Or.inl hcause)
    · exact Or.inr (Or.inr (Or.inl hcause))
    · omega
  | moved hwindow hrest hcnt hmore =>
    exact .moved (hwindow.trans (hjoin _)) hrest hcnt (Or.inr (List.cons_ne_nil _ _))

/-- **A block.** -/
theorem does_linesLoop (h : Searching lit s fname pattern name strs data v.mem) {r : List UInt8}
    {last ls n : ℕ} (cnt : Int32) (hr : Stands v.mem (data + UInt32.ofNat ls) r)
    (hlast : last = ls + r.length) (hle : last ≤ 1024) (hn : r.length < n) :
    ∃ lines rest k v', r = lines.flatMap (· ++ [0x0A]) ++ rest ∧
      (∀ p ∈ lines, (0x0A : UInt8) ∉ p) ∧ (0x0A : UInt8) ∉ rest ∧
      P.Does f F v
        (P.linesLoop W lit s fname data (UInt32.ofNat pattern.length) cnt last n ls) k v' ∧
      Searching lit s fname pattern name strs data v'.mem ∧ v'.files = v.files ∧
      (v'.mem (data + UInt32.ofNat 1024) = v.mem (data + UInt32.ofNat 1024) ∨
        v'.mem (data + UInt32.ofNat 1024) = 0) ∧
      Scanned data pattern name cnt last ls v v' lines rest k := by
  induction n generalizing r ls v with
  | zero => omega
  | succ n ih =>
    rcases Lines.exists_line 0x0A r with hnone | ⟨p, x, rfl, hp⟩
    · obtain ⟨k, v', hrest⟩ := does_restLine (P := P) (W := W) (f := f) (F := F) (n := n) h cnt hr
        hlast hle hnone
      exact ⟨[], r, k, v', rfl, fun _ hnil => absurd hnil List.not_mem_nil, hnone, hrest⟩
    · rw [List.length_append, List.length_cons] at hlast hn
      obtain ⟨v₂, h₂, hbehind, hfiles₂, hwindow₂, hsame, hgo⟩ :=
        does_completeLine (P := P) (W := W) (f := f) (F := F) h cnt hr hp
          (show last = ls + p.length + 1 + x.length by omega) hle
      by_cases hlastline : last ≤ ls + p.length + 1
      · have hx : x = [] := List.eq_nil_of_length_eq_zero (by omega)
        subst hx
        refine ⟨[p], [], 0, v₂, by simp, by simpa using hp, List.not_mem_nil, hgo ?_, h₂, hfiles₂,
          Or.inl (hsame 1024 (by omega) le_rfl), .searched ?_ (Or.inl rfl)⟩
        · rw [if_pos hlastline]
          exact does_pure v₂ 0
        · rw [hwindow₂]
          simp [report_nil h.ne_nil]
      · obtain ⟨lines, rest, k, v', hx, hlines, hnone, hdoes, hsearching, hfiles, hlimit,
          hscanned⟩ := ih h₂ hbehind (by omega) (by omega)
        rw [hsame 1024 (by omega) le_rfl] at hlimit
        refine ⟨p :: lines, rest, k, v', ?_, ?_, hnone, hgo ?_, hsearching, hfiles.trans hfiles₂,
          hlimit, hscanned.cons (Nat.succ_pos _) hwindow₂ (hsame last (by omega) hle)⟩
        · rw [hx, List.flatMap_cons, List.append_assoc, List.append_assoc, List.singleton_append]
        · intro q hq
          rcases List.mem_cons.1 hq with rfl | hq
          · exact hp
          · exact hlines q hq
        · rw [if_neg hlastline]
          exact hdoes

/-! ## A file -/

theorem length_line_lt {lines : List (List UInt8)} {p : List UInt8} (hp : p ∈ lines) :
    p.length < (lines.flatMap (· ++ [0x0A])).length := by
  obtain ⟨before, behind, rfl⟩ := List.append_of_mem hp
  rw [List.flatMap_append, List.flatMap_cons, List.length_append, List.length_append,
    List.length_append, List.length_singleton]
  omega

/-- The complete lines of a block come first. -/
theorem fileReport_lines {lines : List (List UInt8)} (h : ∀ p ∈ lines, (0x0A : UInt8) ∉ p)
    (hlen : (lines.flatMap (· ++ [0x0A])).length ≤ 1024) (x : List UInt8) :
    fileReport pattern name (lines.flatMap (· ++ [0x0A]) ++ x)
      = lines.flatMap (report pattern name) ++ fileReport pattern name x := by
  rw [fileReport, Lines.cut_lines fun p hp => ⟨h p hp, (length_line_lt hp).trans_le hlen⟩,
    List.flatMap_append]
  rfl

/-- A piece that goes on to the end of the file, or fills the buffer. -/
theorem fileReport_piece (hne : pattern ≠ []) {p : List UInt8} (h : (0x0A : UInt8) ∉ p)
    {x : List UInt8} (hlen : p = [] ∨ p.length = 1024 ∨ p.length < 1024 ∧ x = []) :
    fileReport pattern name (p ++ x) = report pattern name p ++ fileReport pattern name x := by
  by_cases hnil : p = []
  · rw [hnil, report_nil hne]
    rfl
  · rcases hlen with hp | hfull | ⟨hshort, rfl⟩
    · exact absurd hp hnil
    · rw [fileReport, Lines.cut_full h hfull (by decide), List.flatMap_cons]
      rfl
    · rw [List.append_nil, fileReport, fileReport, Lines.cut_last h hshort hnil, Lines.cut_nil,
        List.flatMap_nil, List.append_nil, List.flatMap_singleton]

/-- A read gives nothing at the end of the file only. -/
theorem delivered_cases {len n room k : ℕ} (hn : n ≤ len) (hroom : 0 < room)
    (hk : k = delivered len n room) :
    k = 0 ∧ len = n ∨ 0 < k ∧ k = min room (len - n) := by
  unfold delivered at hk
  split at hk
  · exact Or.inl ⟨hk, by omega⟩
  · exact Or.inr ⟨by omega, hk⟩

/-- The next bytes of the file are read behind the unfinished line `c`. -/
theorem does_readBlock (h : Searching lit s fname pattern name strs data v.mem) {c : List UInt8}
    {fd : Int32} {inode : UInt32} {n k : ℕ} (hslot : Slot v fd (P.fileAt inode n))
    (hwf : WellFormed P.fs inode) (hn : n ≤ (inodeLength P.fs inode).toNat)
    (hc : Stands v.mem data c) (hclen : c.length < 1024)
    (hk : k = delivered (inodeLength P.fs inode).toNat n (1024 - c.length))
    (hkle : k ≤ 1024 - c.length) :
    ∃ v₁, P.Does f F v (P.ece391Read W fd (data + UInt32.ofNat c.length)
        (Int32.ofNat (1024 - c.length))) (Int32.ofNat k) v₁ ∧
      Searching lit s fname pattern name strs data v₁.mem ∧
      Stands v₁.mem (data + UInt32.ofNat 0) (c ++ fileBytes P.fs inode n k) ∧
      v₁.files = Function.update v.files (slot fd) (P.fileAt inode (n + k)) ∧
      v₁.window = v.window ∧
      v₁.mem (data + UInt32.ofNat 1024) = v.mem (data + UInt32.ofNat 1024) := by
  have hpage := h.apart.buffer
  have hhi := hpage.2
  have hnbytes : (Int32.ofNat (1024 - c.length)).toNatClampNeg = 1024 - c.length :=
    Int32.toNatClampNeg_ofNat_of_lt (by omega)
  have hnonneg : (0 : Int32) ≤ Int32.ofNat (1024 - c.length) := by
    rw [Int32.le_iff_toInt_le, Int32.toInt_ofNat_of_lt (by omega), Int32.toInt_zero]
    exact Int.natCast_nonneg _
  have hsize : (fileBytes P.fs inode n k).length = k := Blocks.length_slice ..
  refine ⟨_, does_read_file hslot hwf hn hnonneg (hnbytes.symm ▸ hk) (hpage.mono (by omega)).shift,
    h.put_at (by omega), ?_, rfl, rfl, ?_⟩
  · rw [Word32.add_ofNat_zero]
    exact stands_append_write hc (by omega)
  · refine write_of_le ?_
    have hin := UInt32.toNat_sub (data + UInt32.ofNat 1024) (data + UInt32.ofNat c.length)
    have hleft : (data + UInt32.ofNat 1024).toNat = data.toNat + 1024 :=
      Word32.toNat_add_ofNat (by omega)
    have hright : (data + UInt32.ofNat c.length).toNat = data.toNat + c.length :=
      Word32.toNat_add_ofNat (by omega)
    omega

/-- One block of the file: `c` stood in front of it, and `c'` is left of it.  Where a line has a
zero in it, only what comes before that is moved to the front. -/
theorem does_readsStep (h : Searching lit s fname pattern name strs data v.mem) {c : List UInt8}
    {fd : Int32} {inode : UInt32} {n : ℕ} (hslot : Slot v fd (P.fileAt inode n))
    (hwf : WellFormed P.fs inode) (hn : n ≤ (inodeLength P.fs inode).toNat)
    (hc : Stands v.mem data c) (hclen : c.length < 1024)
    (hlimit : v.mem (data + UInt32.ofNat 1024) ≠ 0x0A) :
    ∃ k t₀ v₂ c', (k = 0 ∧ (inodeLength P.fs inode).toNat = n ∧ c' = [] ∨
        0 < k ∧ n + k ≤ (inodeLength P.fs inode).toNat) ∧
      Searching lit s fname pattern name strs data v₂.mem ∧
      v₂.files = Function.update v.files (slot fd) (P.fileAt inode (n + k)) ∧
      v₂.mem (data + UInt32.ofNat 1024) ≠ 0x0A ∧ v₂.window = (v.print t₀).window ∧
      Stands v₂.mem data c' ∧ c'.length < 1024 ∧
      ((0 : UInt8) ∉ c ++ (contents P.fs inode).drop n →
        (0 : UInt8) ∉ c' ++ (contents P.fs inode).drop (n + k) ∧
        fileReport pattern name (c ++ (contents P.fs inode).drop n)
          = t₀ ++ fileReport pattern name (c' ++ (contents P.fs inode).drop (n + k))) ∧
      (k = 0 → ∀ {fuel : ℕ} {v' : View}, P.Does f F v₂ (P.ece391Close W fd) 0 v' →
        P.Does f F v (P.readsLoop W lit s fname data (UInt32.ofNat pattern.length) fd (fuel + 1)
          c.length) 0 v') ∧
      (0 < k → ∀ {fuel : ℕ} {r : Int32} {v' : View}, P.Does f F v₂ (P.readsLoop W lit s fname data
          (UInt32.ofNat pattern.length) fd fuel c'.length) r v' →
        P.Does f F v (P.readsLoop W lit s fname data (UInt32.ofNat pattern.length) fd (fuel + 1)
          c.length) r v') := by
  have haddr : addressSpace = 4294967296 := rfl
  have hlen := length_contents P.fs inode
  have hflen := hwf.length_le
  obtain ⟨k, hk⟩ : ∃ k, k = delivered (inodeLength P.fs inode).toNat n (1024 - c.length) :=
    ⟨_, rfl⟩
  have hsize : (fileBytes P.fs inode n k).length = k := Blocks.length_slice ..
  have hkcases := delivered_cases hn (by omega) hk
  have hkle : k ≤ 1024 - c.length := by omega
  have hcut := drop_contents (n := n) (k := k) P.fs inode (by omega)
  obtain ⟨v₁, hread, hsearching, hblock, hfiles₁, hwindow₁, hlimit₁⟩ :=
    does_readBlock (P := P) (W := W) (f := f) (F := F) h hslot hwf hn hc hclen hk hkle
  obtain ⟨lines, rest, last, v₂, hsplit, hlines, hrest, hdoes, hsearching₂, hfiles₂, hlimit₂,
    hscanned⟩ := does_linesLoop (P := P) (W := W) (f := f) (F := F) (n := addressSpace)
      hsearching (Int32.ofNat k) hblock (by rw [List.length_append, hsize, Nat.zero_add])
      (by omega) (by rw [List.length_append, hsize]; omega)
  have hblocklen := congrArg List.length hsplit
  rw [List.length_append, List.length_append, hsize] at hblocklen
  have hsource : c ++ (contents P.fs inode).drop n = lines.flatMap (· ++ [0x0A])
      ++ (rest ++ (contents P.fs inode).drop (n + k)) := by
    rw [hcut, ← List.append_assoc, hsplit, List.append_assoc]
  have htext : fileReport pattern name (c ++ (contents P.fs inode).drop n)
      = lines.flatMap (report pattern name)
        ++ fileReport pattern name (rest ++ (contents P.fs inode).drop (n + k)) := by
    rw [hsource, fileReport_lines hlines (by omega)]
  have hwhole : c.length + k < 1024 → (contents P.fs inode).drop (n + k) = [] := fun hshort =>
    List.drop_eq_nil_of_le (by omega)
  have hclean_rest (hclean : (0 : UInt8) ∉ c ++ (contents P.fs inode).drop n) :
      (0 : UInt8) ∉ rest ++ (contents P.fs inode).drop (n + k) := by
    rw [hsource] at hclean
    exact fun hmem => hclean (List.mem_append_right _ hmem)
  have hfiles : v₂.files = Function.update v.files (slot fd) (P.fileAt inode (n + k)) :=
    hfiles₂.trans hfiles₁
  have hlimit₂' : v₂.mem (data + UInt32.ofNat 1024) ≠ 0x0A := by
    rcases hlimit₂ with heq | heq
    · rw [heq, hlimit₁]
      exact hlimit
    · rw [heq]
      decide
  have hcnt : (Int32.ofNat k).toNatClampNeg = k := Int32.toNatClampNeg_ofNat_of_lt (by omega)
  have hwindow (t : List UInt8) : (v₁.print t).window = (v.print t).window := by
    rw [View.window_print, hwindow₁, View.window_print]
  -- the program comes to what it does behind the lines
  have hend (hk0 : k = 0) {fuel : ℕ} {v' : View}
      (hclose : P.Does f F v₂ (P.ece391Close W fd) 0 v') :
      P.Does f F v (P.readsLoop W lit s fname data (UInt32.ofNat pattern.length) fd (fuel + 1)
        c.length) 0 v' := by
    refine hread.bind ?_
    rw [if_neg (ofNat_ne_neg_one (by omega)), hcnt]
    refine hdoes.bind ?_
    rw [if_pos (show Int32.ofNat k = 0 by rw [hk0]; rfl)]
    refine hclose.bind ?_
    rw [if_neg (by decide)]
    exact does_pure _ 0
  have hgo {l : ℕ} (hlast : last = l) (hpos : 0 < k) {fuel : ℕ} {r : Int32} {v' : View}
      (hnext : P.Does f F v₂ (P.readsLoop W lit s fname data (UInt32.ofNat pattern.length) fd fuel
        l) r v') : P.Does f F v (P.readsLoop W lit s fname data (UInt32.ofNat pattern.length) fd
          (fuel + 1) c.length) r v' := by
    obtain ⟨hzero, hone⟩ := ofNat_ne_of_pos hpos (by omega)
    refine hread.bind ?_
    rw [if_neg hone, hcnt]
    refine hdoes.bind ?_
    rw [if_neg hzero, hlast]
    exact hnext
  cases hscanned with
  | searched hwindow₂ hcause =>
    have hpiece : rest = [] ∨ rest.length = 1024 ∨
        rest.length < 1024 ∧ (contents P.fs inode).drop (n + k) = [] := by
      rcases hcause with hnil | hstop | h0 | ⟨-, hnone⟩
      · exact Or.inl hnil
      · have hshort : c.length + k < 1024 := by
          by_contra hfull
          rw [show c.length + k = 1024 by omega, hlimit₁] at hstop
          exact hlimit hstop
        exact Or.inr (Or.inr ⟨by omega, hwhole hshort⟩)
      · rcases hkcases with ⟨hk0, -⟩ | ⟨hpos, -⟩
        · exact Or.inr (Or.inr ⟨by omega, hwhole (by omega)⟩)
        · exact absurd h0 (ofNat_ne_of_pos hpos (by omega)).1
      · rw [hnone, List.flatMap_nil, List.length_nil, Nat.zero_add] at hblocklen
        rcases Nat.lt_or_ge (c.length + k) 1024 with hshort | hfull
        · exact Or.inr (Or.inr ⟨by omega, hwhole hshort⟩)
        · exact Or.inr (Or.inl (by omega))
    refine ⟨k, _, v₂, [], ?_, hsearching₂, hfiles, hlimit₂', hwindow₂.trans (hwindow _), stands_nil,
      by decide, fun hclean => ⟨fun hmem => hclean_rest hclean (List.mem_append_right _ hmem), ?_⟩,
      hend, hgo rfl⟩
    · rcases hkcases with ⟨hk0, hlen⟩ | ⟨hpos, hmin⟩
      · exact Or.inl ⟨hk0, hlen, rfl⟩
      · exact Or.inr ⟨hpos, by omega⟩
    · rw [htext, fileReport_piece h.ne_nil hrest hpiece, List.flatMap_append,
        List.flatMap_singleton, List.nil_append, List.append_assoc]
  | moved hwindow₂ hrest₂ hcnt' hmore =>
    have hpos : 0 < k := Nat.pos_of_ne_zero fun hk0 => hcnt' (by rw [hk0]; rfl)
    have hlong : 0 < (lines.flatMap (· ++ [(0x0A : UInt8)])).length := by
      obtain ⟨p, ps, rfl⟩ := List.exists_cons_of_ne_nil (hmore.resolve_left (fun h0 => h0 rfl))
      rw [List.flatMap_cons, List.length_append, List.length_append, List.length_singleton]
      omega
    obtain ⟨c', hsize', hc', heq⟩ : ∃ c' : List UInt8, c'.length = rest.length ∧
        Stands v₂.mem data c' ∧ ((0 : UInt8) ∉ rest → c' = rest) := by
      by_cases hclean : (0 : UInt8) ∈ rest
      · obtain ⟨c', hsize', hc'⟩ := exists_stands v₂.mem data rest.length
        exact ⟨c', hsize', hc', fun hno => absurd hclean hno⟩
      · exact ⟨rest, rfl, hrest₂ hclean, fun _ => rfl⟩
    refine ⟨k, _, v₂, c', Or.inr ⟨hpos, by omega⟩, hsearching₂, hfiles, hlimit₂',
      hwindow₂.trans (hwindow _), hc', by omega, fun hclean => ?_, hend, hgo hsize'.symm⟩
    have hno := hclean_rest hclean
    rw [heq fun hmem => hno (List.mem_append_left _ hmem)]
    exact ⟨hno, htext⟩

/-- **A file**, with the bytes `c` of an unfinished line in front of it. -/
theorem does_readsLoop (h : Searching lit s fname pattern name strs data v.mem) {c : List UInt8}
    {fd : Int32} {inode : UInt32} {n : ℕ} (fuel : ℕ) (hslot : Slot v fd (P.fileAt inode n))
    (hwf : WellFormed P.fs inode) (hn : n ≤ (inodeLength P.fs inode).toNat)
    (hc : Stands v.mem data c) (hclen : c.length < 1024)
    (hlimit : v.mem (data + UInt32.ofNat 1024) ≠ 0x0A)
    (hfuel : (inodeLength P.fs inode).toNat - n < fuel) :
    ∃ t v', P.Does f F v (P.readsLoop W lit s fname data (UInt32.ofNat pattern.length) fd fuel
        c.length) 0 v' ∧
      Searching lit s fname pattern name strs data v'.mem ∧
      v'.files = Function.update v.files (slot fd) blank ∧
      v'.mem (data + UInt32.ofNat 1024) ≠ 0x0A ∧ v'.window = (v.print t).window ∧
      ((0 : UInt8) ∉ c ++ (contents P.fs inode).drop n →
        t = fileReport pattern name (c ++ (contents P.fs inode).drop n)) := by
  induction fuel generalizing v n c with
  | zero => omega
  | succ fuel ih =>
    obtain ⟨k, t₀, v₂, c', hcases, h₂, hfiles₂, hlimit₂, hwindow₂, hc₂, hclen₂, hreport, hend,
      hgo⟩ := does_readsStep (P := P) (W := W) (f := f) (F := F) h hslot hwf hn hc hclen hlimit
    have hslot₂ : Slot v₂ fd (P.fileAt inode (n + k)) :=
      ⟨hslot.user, by rw [hfiles₂, Function.update_self], rfl⟩
    rcases hcases with ⟨rfl, hlen, rfl⟩ | ⟨hpos, hle⟩
    · -- the end of the file, which is closed
      have hclose := does_close (P := P) (W := W) (f := f) (F := F) hslot₂ List.mem_cons_self
      refine ⟨t₀, v₂.setFile (slot fd) blank, hend rfl hclose, h₂, ?_, hlimit₂, hwindow₂,
        fun hclean => ?_⟩
      · rw [View.files_setFile, hfiles₂, Function.update_idem]
      · have hnil : (contents P.fs inode).drop (n + 0) = [] := by
          rw [List.drop_eq_nil_iff, length_contents]
          omega
        rw [(hreport hclean).2, hnil, List.append_nil, fileReport, Lines.cut_nil, List.flatMap_nil,
          List.append_nil]
    · obtain ⟨t, v', hdoes, h', hfiles', hlimit', hwindow', ht⟩ :=
        ih h₂ hslot₂ hle hc₂ hclen₂ hlimit₂ (by omega)
      refine ⟨t₀ ++ t, v', hgo hpos hdoes, h', ?_, hlimit', ?_, fun hclean => ?_⟩
      · rw [hfiles', hfiles₂, Function.update_idem]
      · rw [hwindow', View.window_print, hwindow₂, ← View.window_print, View.print_print]
      · rw [(hreport hclean).2, ht (hreport hclean).1]

variable (P) in
/-- What `do_one_file` returns and prints.  A file with zeros in it is searched too, but a line
that goes over the end of a block is then cut short. -/
inductive FileShows (pattern name : List UInt8) : Int32 → List UInt8 → Prop
  | searched {d : Dentry} {t : List UInt8} (hopen : P.Openable name P.initFileArray d)
      (hfile : d.filetype = fileTypeFile)
      (htext : (0 : UInt8) ∉ contents P.fs d.inodeNum →
        t = fileReport pattern name (contents P.fs d.inodeNum)) : FileShows pattern name 0 t
  | clock {d : Dentry} (hopen : P.Openable name P.initFileArray d)
      (hrtc : d.filetype = fileTypeRtc) :
      FileShows pattern name (-1) (bytes "file read failed\n")
  | unopened (hnone : ∀ d, ¬P.Openable name P.initFileArray d) :
      FileShows pattern name (-1) (bytes "file open failed\n")

/-- The descriptors while the directory is open. -/
theorem openable_update {inode : UInt32} {j : ℕ} {d : Dentry} :
    P.Openable name (Function.update P.initFileArray 2 (P.directoryAt inode j)) d ↔
      P.Openable name P.initFileArray d := by
  constructor
  · intro h
    exact ⟨h.length, h.first, h.type, 3, by decide, rfl⟩
  · intro h
    exact ⟨h.length, h.first, h.type, 3, by decide, rfl⟩

/-- **`do_one_file`**, with the directory open. -/
theorem does_doOneFile (h : Searching lit s fname pattern name strs data v.mem) {inode : UInt32}
    {j : ℕ} (hfiles : v.files = Function.update P.initFileArray 2 (P.directoryAt inode j))
    (hlimit : v.mem (data + UInt32.ofNat 1024) ≠ 0x0A)
    (hwf : ∀ d, FirstNamed P.fs name d → d.filetype = fileTypeFile → WellFormed P.fs d.inodeNum)
    (hdir : ∀ d, FirstNamed P.fs name d → d.filetype ≠ fileTypeDir) :
    ∃ r t v', P.FileShows pattern name r t ∧ P.Does f F v (P.doOneFile W lit s fname data) r v' ∧
      v'.window = (v.print t).window ∧ (r ≠ 0 → r = -1) ∧
      (r = 0 → Searching lit s fname pattern name strs data v'.mem ∧ v'.files = v.files ∧
        v'.mem (data + UInt32.ofNat 1024) ≠ 0x0A) := by
  have hpattern : StringAt v.mem s pattern := h.string h.pattern_mem
  have hname : StringAt v.mem fname name := h.string h.name_mem
  have hlen := hpattern.length_lt
  have haddr : addressSpace = 4294967296 := rfl
  have hstrlen : P.Does f F v (P.ece391Strlen s) (UInt32.ofNat pattern.length) v := by
    have hloop : P.Does f F v (P.strlenLoop addressSpace s 0) (0 + UInt32.ofNat pattern.length) v :=
      does_strlenLoop hpattern (by omega)
    rwa [UInt32.zero_add] at hloop
  by_cases hopen : ∃ d, P.Openable name P.initFileArray d
  · obtain ⟨d, hopen⟩ := hopen
    have hblank : v.files 3 = blank := by rw [hfiles]; rfl
    have hfirst : P.Does f F v (P.ece391Open W fname) 3 (v.setFile 3 (P.opened d blank)) := by
      rw [← hblank]
      exact does_open (i := 3) hname (hfiles ▸ openable_update.2 hopen) (by rw [hfiles]; rfl)
    -- the program comes to its loop
    have hmain {r : Int32} {v' : View} (hloop : P.Does f F (v.setFile 3 (P.opened d blank))
        (P.readsLoop W lit s fname data (UInt32.ofNat pattern.length) 3 addressSpace 0) r v') :
        P.Does f F v (P.doOneFile W lit s fname data) r v' := by
      refine hstrlen.bind (hfirst.bind ?_)
      rw [if_neg (by decide)]
      exact hloop
    rcases hopen.type with hrtc | hisdir | hfile
    · have hfailed : StringAt v.mem (lit "file read failed\n") (bytes "file read failed\n") :=
        h.string (h.literal_mem _ (by decide))
      refine ⟨-1, _, (v.setFile 3 (P.opened d blank)).print (bytes "file read failed\n"),
        .clock hopen hrtc, hmain ?_, rfl, fun _ => rfl, fun h0 => absurd h0 (by decide)⟩
      refine (does_read_closed (not_opened_clock 3 hrtc)).bind ?_
      rw [if_pos rfl]
      exact (does_fdputs (v := v.setFile 3 (P.opened d blank)) hfailed).bind (does_pure _ (-1))
    · exact absurd hisdir (hdir d hopen.first)
    · obtain ⟨t, v', hdoes, hsearching, hfiles', hlimit', hwindow, ht⟩ :=
        does_readsLoop (P := P) (W := W) (f := f) (F := F) (v := v.setFile 3 (P.opened d blank))
          (c := []) h addressSpace (slot_open_file 3 (by decide) hfile)
          (hwf d hopen.first hfile) (Nat.zero_le _) stands_nil (by decide) hlimit
          (by have hsize := (hwf d hopen.first hfile).length_le; omega)
      rw [List.drop_zero, List.nil_append] at ht
      refine ⟨0, t, v', .searched hopen hfile ht, hmain hdoes, hwindow, fun h0 => absurd rfl h0,
        fun _ => ⟨hsearching, ?_, hlimit'⟩⟩
      rw [hfiles', View.files_setFile, ← hblank]
      exact (Function.update_idem _ _ _).trans (Function.update_eq_self _ _)
  · have hnone : ∀ d, ¬P.Openable name P.initFileArray d := fun d hd => hopen ⟨d, hd⟩
    have hfailed : StringAt v.mem (lit "file open failed\n") (bytes "file open failed\n") :=
      h.string (h.literal_mem _ (by decide))
    refine ⟨-1, _, v.print (bytes "file open failed\n"), .unopened hnone, hstrlen.bind ?_, rfl,
      fun _ => rfl, fun h0 => absurd h0 (by decide)⟩
    refine (does_open_refused hname ?_).bind ?_
    · rw [hfiles]
      exact fun d hd => hnone d (openable_update.1 hd)
    · rw [if_pos rfl]
      exact (does_fdputs hfailed).bind (does_pure _ (-1))

end Search

end Line

end Platform

end CheetOS
