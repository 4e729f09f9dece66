import CheetOS.Enumeration
import CheetOS.Opening
import CheetOS.UserPrograms

/-!
# What system calls do for a program

The rules for the system calls of a program that sees its page, its descriptors, its
arguments and the screen: how its view changes with every call of the kernel, what a program
sees when it is started, and what is left when it ends.
-/

namespace CheetOS

open Exec ByteMemory TextWindow Words

namespace Platform

variable {P : Platform} {W : World}

/-! ## Printing -/

/-- What `terminal_write` prints of a buffer: the bytes before the first zero. -/
def textOf (l : List UInt8) : List UInt8 := l.takeWhile (· ≠ 0)

theorem textOf_length_le (l : List UInt8) : (textOf l).length ≤ l.length :=
  (List.takeWhile_prefix _).length_le

theorem textOf_of_clean {l : List UInt8} (h : (0 : UInt8) ∉ l) : textOf l = l := by
  refine List.takeWhile_eq_self_iff.2 fun c hc => ?_
  rw [decide_eq_true_eq]
  rintro rfl
  exact h hc

/-- The loop of `terminal_write`, over bytes that are not part of the screen. -/
theorem writeLoop_run {buffer : UInt32} {l : List UInt8} {idx : UInt32} {k : Kernel}
    (hbounds : k.toScreen.InBounds)
    (hl : ∀ i (hi : i < l.length), ∃ a, P.translate k.toTables .supervisor .read
      (buffer + idx + UInt32.ofNat i) = some a ∧ P.kernelData a = false ∧ ¬Screen.InVideo a ∧
      k.mem a = l[i]) :
    P.writeLoop buffer l.length idx k = .ok (idx + UInt32.ofNat (textOf l).length)
      { k with toScreen := k.toScreen.puts (textOf l) } := by
  induction l generalizing idx k with
  | nil =>
    simp only [List.length_nil, writeLoop, textOf, List.takeWhile_nil, Word32.add_ofNat_zero]
    rfl
  | cons c l ih =>
    obtain ⟨a, htr, hdata, -, hc⟩ := hl 0 (Nat.succ_pos _)
    rw [Word32.add_ofNat_zero] at htr
    have hload : P.loadByte (buffer + idx) k = .ok c k :=
      loadByte_run (load_eq_some.2 ⟨a, htr, hdata, hc⟩)
    rw [List.length_cons, writeLoop, bind_of_ok hload]
    by_cases h0 : c = 0
    · subst h0
      rw [if_pos rfl, textOf, List.takeWhile_cons_of_neg (by simp), List.length_nil,
        Word32.add_ofNat_zero]
      rfl
    · have hrest : P.writeLoop buffer l.length (idx + 1) { k with toScreen := k.toScreen.putc c }
          = .ok (idx + 1 + UInt32.ofNat (textOf l).length)
            { k with toScreen := (k.toScreen.putc c).puts (textOf l) } :=
        ih (hbounds.run (.putc c)) fun i hi => ?_
      · rw [if_neg h0, textOf, List.takeWhile_cons_of_pos (by simpa using h0), List.length_cons,
          ← Word32.add_one_add_ofNat]
        exact hrest
      · obtain ⟨a', htr', hdata', hvideo, hmem⟩ := hl (i + 1) (Nat.succ_lt_succ hi)
        rw [← Word32.add_one_add_ofNat, UInt32.add_assoc buffer idx 1] at htr'
        refine ⟨a', htr', hdata', hvideo, ?_⟩
        rw [← List.getElem_cons_succ c l i (Nat.succ_lt_succ hi), ← hmem]
        exact mem_putc_of_not_inVideo hbounds c hvideo

section Does

variable {f : Frame} {F : List Frame} {v v' : View}

/-! ## The rules -/

/-- **Writing on the screen.** -/
theorem does_write {buf : UInt32} {n : Int32} {l : List UInt8} (hpage : PageBlock buf l.length)
    (hl : Stands v.mem buf l) (hn : n.toInt = l.length) :
    P.Does f F v (P.ece391Write W 1 buf n) (Int32.ofNat (textOf l).length)
      (v.print (textOf l)) := by
  refine does_sys fun m W' i h => ⟨{ m.enter (W'.regs i) with
    toScreen := m.kernel.toScreen.puts (textOf l) }, ?_, fun m' _ hk hs => h.printed hs hk⟩
  have hfiles := h.fileArray_enter W' i
  obtain ⟨hflags, hops⟩ := h.terminal (show (slot 1).val < 2 by decide)
  have hopened : Opened (m.enter (W'.regs i)).fileArray 1 := by
    refine ⟨by decide, by decide, ?_⟩
    rw [hfiles, hflags]
    decide
  have hlen : n.toUInt32.toNat = l.length := by
    have hnonneg : (0 : Int32) ≤ n := by
      rw [Int32.le_iff_toInt_le, hn]
      exact Int.natCast_nonneg _
    rw [Int32.toNat_toUInt32_of_le hnonneg, ← Int32.toNat_toInt, hn, Int.toNat_natCast]
  have hwrite : P.terminalWrite 1 buf n.toUInt32 (m.enter (W'.regs i))
      = .ok (Int32.ofNat (textOf l).length) { m.enter (W'.regs i) with
          toScreen := m.kernel.toScreen.puts (textOf l) } := by
    unfold terminalWrite
    rw [if_neg (by decide), if_neg hpage.ne_zero]
    by_cases hempty : l = []
    · subst hempty
      have hzero : n.toUInt32 = 0 := UInt32.toNat_inj.1 hlen
      rw [if_pos hzero]
      rfl
    · have hzero : n.toUInt32 ≠ 0 := by
        intro h0
        rw [h0] at hlen
        exact hempty (List.eq_nil_of_length_eq_zero hlen.symm)
      have hloop : P.writeLoop buf l.length 0 (m.enter (W'.regs i))
          = .ok (0 + UInt32.ofNat (textOf l).length)
            { m.enter (W'.regs i) with toScreen := m.kernel.toScreen.puts (textOf l) } :=
        writeLoop_run (h.views.inBounds h.pos_lt) fun j hj => ?_
      · rw [if_neg hzero, hlen, bind_of_ok hloop, UInt32.zero_add]
        rfl
      · rw [UInt32.add_zero]
        refine ⟨_, h.translate .supervisor .read (hpage.mem hj), h.kernelData (hpage.mem hj),
          h.not_inVideo (hpage.mem hj), ?_⟩
        rw [← hl j hj, h.mem_eq (hpage.mem hj)]
        rfl
  show P.sysWrite 1 buf n (m.enter (W'.regs i)) = _
  rw [P.sysWrite_run hopened, hfiles]
  dsimp only
  rw [if_pos hops, hwrite]

/-- Where the bytes of a block in the page of a program are. -/
theorem userBase_add (b va : UInt32) (i : ℕ) :
    b + (va + UInt32.ofNat i - 0x08000000) = b + (va - 0x08000000) + UInt32.ofNat i := by
  grind

/-- A write to the page of a program, as the program sees it. -/
theorem userMem_write {m m' : Machine} {va : UInt32} {bs : List UInt8}
    (hpage : PageBlock va bs.length) (hdir : m'.kernel.pageDirectory = m.kernel.pageDirectory)
    (hmem : m'.kernel.mem
      = write (userBase m.kernel.toTables + (va - 0x08000000)) bs m.kernel.mem) :
    userMem m' = write va bs (userMem m) := by
  have hkeep : userBase m'.kernel.toTables = userBase m.kernel.toTables := by
    rw [userBase, userBase, hdir]
  funext vb
  have hoffset : userBase m.kernel.toTables + (vb - 0x08000000)
      - (userBase m.kernel.toTables + (va - 0x08000000)) = vb - va := by grind
  rw [userMem, hkeep, hmem, ByteMemory.write, hoffset, ByteMemory.write, userMem]
  by_cases hvb : vb - 0x08000000 < 0x00400000
  · rw [if_pos hvb, if_pos hvb]
  · have hout : bs.length ≤ (vb - va).toNat := by
      by_contra hin
      rw [Nat.not_le] at hin
      have huser := hpage.mem hin
      rw [← Word32.eq_add_offset] at huser
      exact hvb (offset_lt_iff_inUserPage.2 huser)
    rw [if_neg hvb, if_neg hvb, List.getD_eq_default _ _ hout]

/-- The kernel stores into the page. -/
theorem Shows.storeBytes {m : Machine} (h : P.Shows f F v m) {va : UInt32} {bs : List UInt8}
    (hpage : PageBlock va bs.length) (k₀ : Kernel) (hscreen₀ : k₀.toScreen = m.kernel.toScreen)
    (htr₀ : P.translate k₀.toTables = P.translate m.kernel.toTables) :
    ∃ k, P.storeBytes va bs k₀ = .ok () k ∧ k.toTables = k₀.toTables ∧
      ∀ m' : Machine, m'.kernel.toScreen = k.toScreen →
        m'.kernel.pageDirectory = m.kernel.pageDirectory →
        userMem m' = write va bs v.mem ∧ m'.kernel.toScreen.Views v.window := by
  obtain ⟨pid, hpid, -, hbase⟩ := h.page
  have hlo := hpage.1
  have hhi := hpage.2
  have hsub : (va - 0x08000000).toNat = va.toNat - 0x08000000 :=
    UInt32.toNat_sub_of_le va _ (UInt32.le_iff_toNat_le.2 hlo)
  have hstore : P.storeBytes va bs k₀ = .ok () { k₀ with
      mem := write (userBase m.kernel.toTables + (va - 0x08000000)) bs k₀.mem } :=
    storeBytes_physical (by omega) fun i hi => ?_
  · refine ⟨_, hstore, rfl, fun m' hscreen hdir => ⟨?_, ?_⟩⟩
    · rw [← h.mem]
      refine userMem_write hpage hdir ?_
      rw [hscreen, ← hscreen₀]
    · rw [hscreen]
      show Screen.Views { k₀.toScreen with mem := write _ bs k₀.toScreen.mem } v.window
      rw [hscreen₀]
      refine views_congr h.views fun a ha => write_of_le ?_
      by_contra hin
      rw [Nat.not_le] at hin
      refine h.not_inVideo (hpage.mem hin) ?_
      rw [userBase_add, ← Word32.eq_add_offset]
      exact ha
  · have huser := hpage.mem hi
    have htr := h.translate .supervisor .write huser
    have hdata := h.kernelData huser
    rw [userBase_add] at htr hdata
    exact ⟨by rw [htr₀]; exact htr, hdata⟩

/-- The slot of a descriptor the program has opened. -/
structure Slot (v : View) (fd : Int32) (g : FileDesc) : Prop where
  user : 2 ≤ fd ∧ fd ≤ 7
  files : v.files (slot fd) = g
  used : g.flags = fileOccup

theorem Slot.opened {fd : Int32} {g : FileDesc} (hg : Slot v fd g) {m : Machine}
    (h : P.Shows f F v m) (W : World) (n : ℕ) :
    Opened (m.enter (W.regs n)).fileArray fd := by
  refine ⟨Int32.le_trans (by decide) hg.user.1, hg.user.2, ?_⟩
  rw [h.fileArray_enter W n, hg.files, hg.used]
  decide

/-- A system call that stores into the page and moves a descriptor. -/
theorem Shows.delivered {m m' : Machine} (h : P.Shows f F v m) {c : PlainCall} {W : World} {n : ℕ}
    (hs : P.step m (.call (.plain c) (W.regs n)) = some m') (hframes : m'.frames = m.frames)
    {va : UInt32} {bs : List UInt8} {i : Fin numMaxOpenFiles} {g : FileDesc}
    (htables : m'.kernel.toTables = (m.enter (W.regs n)).toTables.setFile i g)
    (hmem : userMem m' = write va bs v.mem) (hviews : m'.kernel.toScreen.Views v.window) :
    P.Shows f F ((v.put va bs).setFile i g) m' := by
  refine h.next hs hframes hviews h.pos_lt hmem ?_ rfl
  rw [View.files_setFile, View.files_put, ← h.files]
  exact h.running.files_setFile (W.depth_pos n) (W.depth_le n) htables

/-- **Reading a file.**  The next bytes are put into the buffer. -/
theorem does_read_file {fd nbytes : Int32} {inode buf : UInt32} {n : ℕ}
    (hslot : Slot v fd (P.fileAt inode n)) (hwf : WellFormed P.fs inode)
    (hn : n ≤ (inodeLength P.fs inode).toNat) (hnbytes : 0 ≤ nbytes) {k : ℕ}
    (hk : k = delivered (inodeLength P.fs inode).toNat n nbytes.toNatClampNeg)
    (hpage : PageBlock buf k) :
    P.Does f F v (P.ece391Read W fd buf nbytes) (Int32.ofNat k)
      ((v.put buf (fileBytes P.fs inode n k)).setFile (slot fd) (P.fileAt inode (n + k))) := by
  refine does_sys fun m W' i h => ?_
  have hlen := hwf.length_le
  have hopened := hslot.opened h W' i
  have hfile : (m.enter (W'.regs i)).fileArray (slot fd) = P.fileAt inode n := by
    rw [h.fileArray_enter W' i, hslot.files]
  have hsize : (fileBytes P.fs inode n k).length = k := Blocks.length_slice ..
  obtain ⟨k₁, hstore, htables, hnext⟩ := h.storeBytes (hsize.symm ▸ hpage)
    (m.enter (W'.regs i)) rfl rfl
  have hread : readData P.fs inode (UInt32.ofNat n) nbytes.toUInt32
      = (Int32.ofNat k, fileBytes P.fs inode n k) := by
    rw [hwf.readData_eq, Word32.toNat_ofNat (show n < 4294967296 by omega),
      Int32.toNat_toUInt32_of_le hnbytes, ← hk]
  have hmoved : { P.fileAt inode n with filePosition := UInt32.ofNat n + (Int32.ofNat k).toUInt32 }
      = P.fileAt inode (n + k) := by
    rw [Int32.toUInt32_ofNat', ← UInt32.ofNat_add]
    rfl
  refine ⟨{ k₁ with toTables := k₁.toTables.setFile (slot fd) (P.fileAt inode (n + k)) }, ?_,
    fun m' hframes hk' hs => ?_⟩
  · show P.sysRead fd buf nbytes _ _ = _
    rw [P.sysRead_file hopened buf nbytes (by rw [hfile]; rfl), fileRead, getFileArray_bind,
      if_neg, hfile]
    · show (P.storeBytes buf (readData P.fs inode (UInt32.ofNat n) nbytes.toUInt32).2 >>= fun _ =>
        setFile (slot fd) { P.fileAt inode n with
          filePosition :=
            UInt32.ofNat n + (readData P.fs inode (UInt32.ofNat n) nbytes.toUInt32).1.toUInt32 } >>=
          fun _ => pure (readData P.fs inode (UInt32.ofNat n) nbytes.toUInt32).1 : K Int32) _ = _
      rw [hread]
      dsimp only
      rw [bind_of_ok hstore, setFile_bind, hmoved]
      rfl
    · rintro (rfl | rfl)
      · exact absurd hslot.user.1 (by decide)
      · exact absurd hslot.user.1 (by decide)
  · have ht : m'.kernel.toTables
        = (m.enter (W'.regs i)).toTables.setFile (slot fd) (P.fileAt inode (n + k)) := by
      rw [hk', ← htables]
    obtain ⟨hmem, hviews⟩ := hnext m' (by rw [hk']) (by rw [ht]; rfl)
    exact h.delivered hs hframes ht hmem hviews

/-- **Reading a directory.**  The next name is put into the buffer. -/
theorem does_read_directory {fd nbytes : Int32} {inode buf : UInt32} {j : ℕ}
    (hslot : Slot v fd (P.directoryAt inode j)) (hj : j < numFiles)
    (hpage : PageBlock buf ((P.nameAt j).length + 1)) :
    P.Does f F v (P.ece391Read W fd buf nbytes) (Int32.ofNat (P.nameAt j).length)
      ((v.put buf (P.nameAt j ++ [0])).setFile (slot fd) (P.directoryAt inode (j + 1))) := by
  refine does_sys fun m W' i h => ?_
  have hopened := hslot.opened h W' i
  have hfile : (m.enter (W'.regs i)).fileArray (slot fd) = P.directoryAt inode j := by
    rw [h.fileArray_enter W' i, hslot.files]
  have hindex := readDentryByIndex_min P.fs j
  rw [if_pos hj, min_eq_left hj.le] at hindex
  have hmoved : { P.directoryAt inode j with filePosition := UInt32.ofNat j + 1 }
      = P.directoryAt inode (j + 1) := by
    rw [directoryAt, directoryAt, UInt32.ofNat_add]
    rfl
  have hsize : (P.nameAt j ++ [0]).length = (P.nameAt j).length + 1 := List.length_append
  generalize hk₀ : { m.enter (W'.regs i) with
    toTables := (m.enter (W'.regs i)).toTables.setFile (slot fd) (P.directoryAt inode (j + 1)) }
      = k₀
  obtain ⟨k₁, hstore, htables, hnext⟩ := h.storeBytes (hsize.symm ▸ hpage) k₀
    (by rw [← hk₀]; rfl) (by rw [← hk₀]; rfl)
  refine ⟨k₁, ?_, fun m' hframes hk' hs => ?_⟩
  · show P.sysRead fd buf nbytes _ _ = _
    rw [P.sysRead_directory hopened buf nbytes (by rw [hfile]; rfl), directoryRead,
      getFileArray_bind, hfile]
    have hposition : (P.directoryAt inode j).filePosition = UInt32.ofNat j := rfl
    rw [hposition, hindex]
    dsimp only
    rw [setFile_bind, hmoved, hk₀]
    exact bind_of_ok hstore _
  · have ht : m'.kernel.toTables
        = (m.enter (W'.regs i)).toTables.setFile (slot fd) (P.directoryAt inode (j + 1)) := by
      rw [hk', htables, ← hk₀]
    obtain ⟨hmem, hviews⟩ := hnext m' (by rw [hk']) (by rw [ht]; rfl)
    exact h.delivered hs hframes ht hmem hviews

/-- A system call that does nothing but return. -/
theorem does_nothing {c : Input → PlainCall} {r : Int32}
    (hcall : ∀ ⦃m : Machine⦄ (W : World) (n : ℕ), P.Shows f F v m →
      P.plain (c (W.input n)) (m.enter (W.regs n)) = .ok r (m.enter (W.regs n))) :
    P.Does f F v (P.sys W fun input => .plain (c input)) r v := by
  refine does_sys fun m W' i h => ⟨_, hcall W' i h, fun m' hframes hk hs => ?_⟩
  refine h.next hs hframes ?_ h.pos_lt ?_ ?_ rfl
  · rw [hk]
    exact h.views
  · rw [← h.mem]
    refine userMem_congr ?_ fun va _ => ?_
    · rw [hk]
      rfl
    · rw [hk]
      rfl
  · rw [← h.files]
    exact files_same (congrArg Kernel.toTables hk)

/-- Reading from a descriptor that is not open fails. -/
theorem does_read_closed {fd nbytes : Int32} {buf : UInt32} (hclosed : ¬Opened v.files fd) :
    P.Does f F v (P.ece391Read W fd buf nbytes) (-1) v := by
  refine does_nothing fun m W' i h => P.sysRead_rejected ?_ buf nbytes (W'.input i)
  rw [h.fileArray_enter W' i]
  exact hclosed

/-- Reading behind the table of entries fails. -/
theorem does_read_directory_end {fd nbytes : Int32} {inode buf : UInt32}
    (hslot : Slot v fd (P.directoryAt inode numFiles)) :
    P.Does f F v (P.ece391Read W fd buf nbytes) (-1) v := by
  refine does_nothing fun m W' i h => ?_
  have hopened := hslot.opened h W' i
  have hfile : (m.enter (W'.regs i)).fileArray (slot fd) = P.directoryAt inode numFiles := by
    rw [h.fileArray_enter W' i, hslot.files]
  have hindex := readDentryByIndex_min P.fs numFiles
  rw [if_neg (Nat.lt_irrefl _), min_self] at hindex
  have hposition : (P.directoryAt inode numFiles).filePosition = UInt32.ofNat numFiles := rfl
  show P.sysRead fd buf nbytes _ _ = _
  rw [P.sysRead_directory hopened buf nbytes (by rw [hfile]; rfl), directoryRead,
    getFileArray_bind, hfile]
  rw [hposition, hindex]
  rfl

/-! ## Names -/

/-- The page has the string `l` at `p`. -/
structure StringAt (mem : UInt32 → UInt8) (p : UInt32) (l : List UInt8) : Prop where
  page : PageBlock p (l.length + 1)
  stands : Stands mem p (l ++ [0])
  clean : (0 : UInt8) ∉ l

theorem StringAt.byte {p : UInt32} {l : List UInt8} (hl : StringAt v.mem p l) {i : ℕ}
    (hi : i < l.length) : v.mem (p + UInt32.ofNat i) = l[i] := by
  rw [hl.stands i (by rw [List.length_append]; exact Nat.lt_succ_of_lt hi),
    List.getElem_append_left hi]

theorem StringAt.stop {p : UInt32} {l : List UInt8} (hl : StringAt v.mem p l) :
    v.mem (p + UInt32.ofNat l.length) = 0 := by
  rw [hl.stands l.length (by rw [List.length_append]; exact Nat.lt_succ_self _)]
  simp

/-- The kernel reads the string. -/
theorem StringAt.holds {p : UInt32} {l : List UInt8} (hl : StringAt v.mem p l) {m : Machine}
    (h : P.Shows f F v m) (regs : Regs) : Holds (P.bytesAt (m.enter regs) p) l := by
  have hload : ∀ i < l.length + 1,
      P.bytesAt (m.enter regs) p i = some (v.mem (p + UInt32.ofNat i)) :=
    fun i hi => h.load (hl.page.mem hi)
  refine ⟨fun i hi => ?_, ?_, hl.clean⟩
  · rw [hload i (Nat.lt_succ_of_lt hi), hl.byte hi]
  · rw [hload l.length (Nat.lt_succ_self _), hl.stop]

theorem StringAt.charPtr_eq {p : UInt32} {l : List UInt8} (hl : StringAt v.mem p l) (k : Kernel) :
    P.charPtr k p = some (P.bytesAt k p) := if_neg hl.page.ne_zero

/-- Bytes that are written elsewhere leave the string alone. -/
theorem StringAt.put {p q : UInt32} {l k : List UInt8} (hl : StringAt v.mem p l)
    (happ : Disjoint p (l.length + 1) q k.length) : StringAt (v.put q k).mem p l := by
  have hsize : (l ++ [0]).length = l.length + 1 := List.length_append
  have hlen := hl.page.2
  exact ⟨hl.page, hl.stands.write (by omega) (hsize.symm ▸ happ), hl.clean⟩

/-- A string that has just been written. -/
theorem stringAt_put {p : UInt32} {l : List UInt8} (hpage : PageBlock p (l.length + 1))
    (hclean : (0 : UInt8) ∉ l) : StringAt (v.put p (l ++ [0])).mem p l := by
  have hsize : (l ++ [0]).length = l.length + 1 := List.length_append
  have hlen := hpage.2
  exact ⟨hpage, stands_write (by omega), hclean⟩

/-- Strings that a program keeps apart from a buffer of `n` bytes it writes to. -/
structure StringsApart (strs : List (UInt32 × List UInt8)) (buf : UInt32) (n : ℕ)
    (mem : UInt32 → UInt8) : Prop where
  buffer : PageBlock buf n
  strings : ∀ x ∈ strs, StringAt mem x.1 x.2 ∧ Disjoint x.1 (x.2.length + 1) buf n

section StringsApart

variable {strs : List (UInt32 × List UInt8)} {buf : UInt32} {n : ℕ}

/-- What is put into the buffer does not reach the strings. -/
theorem StringsApart.put_at (h : StringsApart strs buf n v.mem) {i : ℕ} {l : List UInt8}
    (hl : i + l.length ≤ n) : StringsApart strs buf n (v.put (buf + UInt32.ofNat i) l).mem := by
  have hsize := h.buffer.2
  exact ⟨h.buffer, fun x hx =>
    ⟨(h.strings x hx).1.put ((h.strings x hx).2.part hl (by omega)), (h.strings x hx).2⟩⟩

theorem StringsApart.put (h : StringsApart strs buf n v.mem) {l : List UInt8} (hl : l.length ≤ n) :
    StringsApart strs buf n (v.put buf l).mem := by
  have hat := h.put_at (i := 0) (l := l) (by omega)
  rwa [Word32.add_ofNat_zero] at hat

end StringsApart

/-- **Opening a file that can be opened.** -/
theorem does_open {p : UInt32} {name : List UInt8} {d : Dentry} {i : Fin numMaxOpenFiles}
    (hname : StringAt v.mem p name) (hopen : P.Openable name v.files d)
    (hi : firstAvail v.files = some i) :
    P.Does f F v (P.ece391Open W p) (Int32.ofNat i) (v.setFile i (P.opened d (v.files i))) := by
  refine does_sys fun m W' n h => ?_
  have hfiles := h.fileArray_enter W' n
  obtain ⟨i', hi', hresult⟩ := openResult_openable hopen (hname.holds h (W'.regs n))
  cases hi.symm.trans hi'
  rw [← hfiles, ← hname.charPtr_eq] at hresult
  obtain ⟨k, hk, htables, hscreen, -⟩ := P.sysOpen_found hresult
  rw [hfiles] at htables
  refine ⟨k, hk, fun m' hframes hk' hs => ?_⟩
  have ht : m'.kernel.toTables
      = (m.enter (W'.regs n)).toTables.setFile i (P.opened d (v.files i)) := by
    rw [hk', htables]
  have hscreen' : m'.kernel.toScreen = m.kernel.toScreen := by
    rw [hk', hscreen]
    rfl
  refine h.next hs hframes (hscreen' ▸ h.views) h.pos_lt ?_ ?_ rfl
  · rw [View.mem_setFile, ← h.mem]
    exact userMem_congr (by rw [ht]; rfl) fun va _ => by rw [hscreen']
  · rw [← h.files] at ht
    rw [View.files_setFile, ← h.files]
    exact h.running.files_setFile (W'.depth_pos n) (W'.depth_le n) ht

/-- **Opening a file that cannot be opened.** -/
theorem does_open_refused {p : UInt32} {name : List UInt8} (hname : StringAt v.mem p name)
    (hopen : ∀ d, ¬P.Openable name v.files d) : P.Does f F v (P.ece391Open W p) (-1) v := by
  refine does_nothing fun m W' n h => ?_
  have hpage := hname.page.2
  have haddr : name.length < addressSpace := by
    unfold addressSpace
    omega
  have hresult := openResult_not (hname.holds h (W'.regs n)) haddr hopen
  rw [← hname.charPtr_eq, ← h.fileArray_enter W' n] at hresult
  exact P.sysOpen_refused hresult

/-- The control block the kernel finds is the program's. -/
theorem Shows.stores {m : Machine} (h : P.Shows f F v m) (W : World) (n : ℕ) :
    currentPcbAddr (m.enter (W.regs n)).toTables = pcbAddr f.pid :=
  (h.args.enter (by rw [h.frames]; rfl) (W.depth_pos n) (W.depth_le n)).2

/-- **Getting the arguments.** -/
theorem does_getargs {buf : UInt32} {nbytes : Int32} (hne : v.args ≠ [])
    (hn : v.args.length ≤ nbytes.toInt) (hpage : PageBlock buf (v.args.length + 1)) :
    P.Does f F v (P.ece391Getargs W buf nbytes) 0 (v.put buf (v.args ++ [0])) := by
  refine does_sys fun m W' n h => ?_
  have haddr := h.stores W' n
  have harg := h.args.arg
  have hcount := h.args.count
  have hsize : (v.args ++ [0]).length = v.args.length + 1 := List.length_append
  obtain ⟨k₁, hstore, htables, hnext⟩ := h.storeBytes (hsize.symm ▸ hpage)
    (m.enter (W'.regs n)) rfl rfl
  refine ⟨k₁, ?_, fun m' hframes hk' hs => ?_⟩
  · rw [← haddr] at harg hcount
    have hrun : P.getargs buf nbytes (m.enter (W'.regs n)) = _ :=
      getargs_run harg hcount hne h.length_args hpage.ne_zero hn
    exact hrun.trans (bind_of_ok hstore _)
  · have ht : m'.kernel.toTables = (m.enter (W'.regs n)).toTables := by rw [hk', htables]
    obtain ⟨hmem, hviews⟩ := hnext m' (by rw [hk']) (by rw [ht]; rfl)
    refine h.next hs hframes hviews h.pos_lt hmem ?_ rfl
    rw [View.files_put, ← h.files]
    exact files_same ht

/-- A program without arguments gets none. -/
theorem does_getargs_blank {buf : UInt32} {nbytes : Int32} (hblank : v.args = []) :
    P.Does f F v (P.ece391Getargs W buf nbytes) (-1) v := by
  refine does_nothing fun m W' n h => ?_
  refine getargs_blank ?_ buf nbytes
  have haddr := h.stores W' n
  have harg := h.args.arg
  rw [hblank] at harg
  rw [haddr]
  exact harg

/-- **Closing a file.** -/
theorem does_close {fd : Int32} {g : FileDesc} (hslot : Slot v fd g)
    (hops : g.fileOpsTablePtr ∈ [P.fileOps, P.directoryOps]) :
    P.Does f F v (P.ece391Close W fd) 0 (v.setFile (slot fd) blank) := by
  refine does_sys fun m W' n h => ?_
  have hfile : (m.enter (W'.regs n)).fileArray (slot fd) = g := by
    rw [h.fileArray_enter W' n, hslot.files]
  have hclose := P.sysClose_run (hslot.opened h W' n) hslot.user.1
  rw [hfile, if_pos hops] at hclose
  refine ⟨_, hclose, fun m' hframes hk' hs => ?_⟩
  have ht : m'.kernel.toTables
      = (m.enter (W'.regs n)).toTables.setFile (slot fd) blank := by rw [hk']
  have hscreen : m'.kernel.toScreen = m.kernel.toScreen := by
    rw [hk']
    rfl
  refine h.next hs hframes (hscreen ▸ h.views) h.pos_lt ?_ ?_ rfl
  · rw [View.mem_setFile, ← h.mem]
    exact userMem_congr (by rw [ht]; rfl) fun va _ => by rw [hscreen]
  · rw [View.files_setFile, ← h.files]
    exact h.running.files_setFile (W'.depth_pos n) (W'.depth_le n) ht

/-! ## ece391support.c -/

theorem StringAt.tail {p : UInt32} {c : UInt8} {l : List UInt8} (hl : StringAt v.mem p (c :: l)) :
    StringAt v.mem (p + 1) l := by
  refine ⟨?_, (stands_cons.1 hl.stands).2, fun h => hl.clean (List.mem_cons_of_mem c h)⟩
  have hpage := hl.page
  rw [List.length_cons, Nat.add_comm _ 1, Nat.add_comm _ 1, Nat.add_comm 1 l.length] at hpage
  exact hpage.shift

/-- The first byte of a string: a zero where it ends. -/
theorem StringAt.first {p : UInt32} {l : List UInt8} (hl : StringAt v.mem p l) :
    InUserPage p ∧ v.mem p = l.headD 0 := by
  refine ⟨hl.page.head (Nat.succ_pos _), ?_⟩
  cases l with
  | nil => exact (stands_cons.1 hl.stands).1
  | cons c l => exact (stands_cons.1 hl.stands).1

theorem does_strlenLoop {n : ℕ} {p len : UInt32} {l : List UInt8} (hl : StringAt v.mem p l)
    (hn : l.length < n) :
    P.Does f F v (P.strlenLoop n p len) (len + UInt32.ofNat l.length) v := by
  induction l generalizing n p len with
  | nil =>
    obtain ⟨n, rfl⟩ := Nat.exists_eq_succ_of_ne_zero (Nat.ne_of_gt hn)
    obtain ⟨hpage, hzero⟩ := hl.first
    refine (does_load hpage).bind ?_
    rw [hzero, List.headD_nil, if_pos rfl, List.length_nil, Word32.add_ofNat_zero]
    exact does_pure v len
  | cons c l ih =>
    obtain ⟨n, rfl⟩ := Nat.exists_eq_succ_of_ne_zero (Nat.ne_of_gt (Nat.zero_lt_of_lt hn))
    obtain ⟨hpage, hc⟩ := hl.first
    have hne : c ≠ 0 := by
      rintro rfl
      exact hl.clean List.mem_cons_self
    refine (does_load hpage).bind ?_
    rw [hc, List.headD_cons, if_neg hne, List.length_cons, ← Word32.add_one_add_ofNat]
    exact ih hl.tail (Nat.lt_of_succ_lt_succ hn)

theorem StringAt.length_lt {p : UInt32} {l : List UInt8} (hl : StringAt v.mem p l) :
    l.length < 0x08400000 := by
  have hpage := hl.page.2
  omega

/-- **Printing a string.** -/
theorem does_fdputs {p : UInt32} {l : List UInt8} (hl : StringAt v.mem p l) :
    P.Does f F v (P.ece391Fdputs W 1 p) () (v.print l) := by
  have hlen := hl.length_lt
  have haddr : addressSpace = 4294967296 := rfl
  have hstrlen : P.Does f F v (P.strlenLoop addressSpace p 0) (0 + UInt32.ofNat l.length) v :=
    does_strlenLoop hl (by omega)
  rw [UInt32.zero_add] at hstrlen
  refine hstrlen.bind ?_
  have hstands := hl.stands.take l.length
  rw [List.take_left' rfl] at hstands
  have hwrite := does_write (P := P) (W := W) (f := f) (F := F)
    (n := (UInt32.ofNat l.length).toInt32) (hl.page.mono (Nat.le_succ _)) hstands ?_
  · rw [textOf_of_clean hl.clean] at hwrite
    exact hwrite.bind (does_pure _ _)
  · have hnat : (UInt32.ofNat l.length).toInt32 = Int32.ofNat l.length := rfl
    rw [hnat]
    exact Int32.toInt_ofNat_of_lt (by omega)

/-- **Copying a string down.**  The copy may overlap the string. -/
theorem does_strcpyLoop {n i : ℕ} {dst : UInt32} {l : List UInt8}
    (hl : StringAt v.mem (dst + UInt32.ofNat i) l) (hdst : PageBlock dst (i + l.length + 1))
    (hi : 0 < i) (hn : l.length < n) :
    P.Does f F v (P.strcpyLoop n dst (dst + UInt32.ofNat i)) () (v.put dst (l ++ [0])) := by
  have hhi := hdst.2
  induction l generalizing n dst v with
  | nil =>
    obtain ⟨n, rfl⟩ := Nat.exists_eq_succ_of_ne_zero (Nat.ne_of_gt hn)
    obtain ⟨hpage, hzero⟩ := hl.first
    refine (does_load hpage).bind ?_
    rw [hzero, List.headD_nil]
    refine (does_store (hdst.head (by omega)) 0).bind ?_
    rw [if_pos rfl]
    exact does_pure _ ()
  | cons c l ih =>
    obtain ⟨n, rfl⟩ := Nat.exists_eq_succ_of_ne_zero (Nat.ne_of_gt (Nat.zero_lt_of_lt hn))
    obtain ⟨hpage, hc⟩ := hl.first
    rw [List.length_cons] at hdst hhi
    have hne : c ≠ 0 := by
      rintro rfl
      exact hl.clean List.mem_cons_self
    have hone : UInt32.ofNat 1 = 1 := rfl
    have hnext : dst + UInt32.ofNat i + 1 = dst + 1 + UInt32.ofNat i := by grind
    have hbelow : (dst + 1 + UInt32.ofNat i).toNat = dst.toNat + (i + 1) := by
      rw [Word32.add_one_add_ofNat]
      exact Word32.toNat_add_ofNat (by omega)
    have hdst' : PageBlock (dst + 1) (i + l.length + 1) := by
      rw [← hone]
      exact (hdst.mono (by omega)).shift (k := 1)
    -- the byte that was stored is not part of what is still to be copied
    have happ : Disjoint (dst + 1 + UInt32.ofNat i) (l.length + 1) dst 1 :=
      (disjoint_of_le (by omega) (by omega)).symm
    have htail := hl.tail
    rw [hnext] at htail
    refine (does_load hpage).bind ?_
    rw [hc, List.headD_cons]
    refine (does_store (hdst.head (by omega)) c).bind ?_
    rw [if_neg hne, hnext]
    have hmore := ih (v := v.put dst [c]) (htail.put happ) hdst' (Nat.lt_of_succ_lt_succ hn)
      (by have := hdst'.2; omega)
    have hput : (v.put dst [c]).put (dst + 1) (l ++ [0]) = v.put dst (c :: l ++ [0]) := by
      have hlen : (l ++ [0]).length + 1 ≤ 4294967296 := by
        rw [List.length_append, List.length_singleton]
        omega
      rw [View.put, View.put, View.put, write_singleton]
      dsimp only
      rw [write_cons c hlen]
      rfl
    rwa [hput] at hmore

theorem does_strcpy {i : ℕ} {dst : UInt32} {l : List UInt8}
    (hl : StringAt v.mem (dst + UInt32.ofNat i) l) (hdst : PageBlock dst (i + l.length + 1))
    (hi : 0 < i) :
    P.Does f F v (P.ece391Strcpy dst (dst + UInt32.ofNat i)) () (v.put dst (l ++ [0])) := by
  have hhi := hdst.2
  have haddr : addressSpace = 4294967296 := rfl
  exact does_strcpyLoop hl hdst hi (by omega)

theorem toInt32_sub_ne_zero {a b : UInt8} (h : a ≠ b) :
    a.toUInt32.toInt32 - b.toUInt32.toInt32 ≠ 0 := by
  intro hzero
  have hwords : a.toUInt32.toInt32 = b.toUInt32.toInt32 := by grind
  have hwords' := congrArg (fun i => i.toUInt32.toNat) hwords
  refine h (UInt8.toNat_inj.1 ?_)
  simpa using hwords'

/-- **Comparing with a prefix.**  The result is 0 where the string `t` begins with `l`. -/
theorem does_strncmpLoop {n : ℕ} {s1 s2 : UInt32} {t l : List UInt8} (ht : StringAt v.mem s1 t)
    (hl : StringAt v.mem s2 l) (hne : l ≠ []) (hn : l.length < n) :
    ∃ r, P.Does f F v (P.strncmpLoop n s1 s2 (UInt32.ofNat l.length)) r v ∧
      (r = 0 ↔ l <+: t) := by
  induction l generalizing n s1 s2 t with
  | nil => exact absurd rfl hne
  | cons c l ih =>
    obtain ⟨n, rfl⟩ := Nat.exists_eq_succ_of_ne_zero (Nat.ne_of_gt (Nat.zero_lt_of_lt hn))
    obtain ⟨hpage, hc⟩ := hl.first
    obtain ⟨hpage', hc'⟩ := ht.first
    have hlen := hl.length_lt
    rw [List.headD_cons] at hc
    rw [List.length_cons] at hlen
    have hzero : c ≠ 0 := by
      rintro rfl
      exact hl.clean List.mem_cons_self
    have hcount : UInt32.ofNat (c :: l).length - 1 = UInt32.ofNat l.length := by
      rw [List.length_cons, UInt32.ofNat_add]
      exact UInt32.add_sub_cancel ..
    by_cases heq : t.headD 0 = c
    · cases t with
      | nil => exact absurd heq.symm hzero
      | cons c' t =>
        rw [List.headD_cons] at heq hc'
        subst heq
        by_cases hlast : l = []
        · subst hlast
          refine ⟨0, (does_load hpage').bind ((does_load hpage).bind ?_), ?_⟩
          · rw [hc, hc', if_pos rfl, if_neg hzero, hcount, if_pos (by decide)]
            exact does_pure _ 0
          · exact ⟨fun _ => ⟨t, rfl⟩, fun _ => rfl⟩
        · obtain ⟨r, hdoes, hr⟩ := ih ht.tail hl.tail hlast (Nat.lt_of_succ_lt_succ hn)
          have hmore : UInt32.ofNat l.length ≠ 0 := by
            intro h0
            have hnat := congrArg UInt32.toNat h0
            rw [Word32.toNat_ofNat (by omega)] at hnat
            exact hlast (List.eq_nil_of_length_eq_zero hnat)
          refine ⟨r, (does_load hpage').bind ((does_load hpage).bind ?_), ?_⟩
          · rw [hc, hc', if_pos rfl, if_neg hzero, hcount, if_neg hmore]
            exact hdoes
          · rw [hr, List.cons_prefix_cons, and_iff_right rfl]
    · refine ⟨(t.headD 0).toUInt32.toInt32 - c.toUInt32.toInt32,
        (does_load hpage').bind ((does_load hpage).bind ?_), ?_⟩
      · rw [hc, hc', if_neg heq]
        exact does_pure _ _
      · refine ⟨fun h0 => absurd h0 (toInt32_sub_ne_zero heq), fun hprefix => ?_⟩
        obtain ⟨k, rfl⟩ := hprefix
        exact absurd rfl heq

theorem does_strncmp {s1 s2 : UInt32} {t l : List UInt8} (ht : StringAt v.mem s1 t)
    (hl : StringAt v.mem s2 l) (hne : l ≠ []) :
    ∃ r, P.Does f F v (P.ece391Strncmp s1 s2 (UInt32.ofNat l.length)) r v ∧
      (r = 0 ↔ l <+: t) := by
  have hlen := hl.length_lt
  have haddr : addressSpace = 4294967296 := rfl
  have hpos := List.length_pos_of_ne_nil hne
  obtain ⟨r, hdoes, hr⟩ := does_strncmpLoop (P := P) (f := f) (F := F) ht hl hne
    (show l.length < addressSpace by omega)
  refine ⟨r, ?_, hr⟩
  have hzero : UInt32.ofNat l.length ≠ 0 := by
    intro h0
    have hnat := congrArg UInt32.toNat h0
    rw [Word32.toNat_ofNat (by omega)] at hnat
    exact hne (List.eq_nil_of_length_eq_zero hnat)
  rw [ece391Strncmp, if_neg hzero]
  exact hdoes

end Does

/-! ## From start to end -/

/-- **A program is started** with the terminal, its arguments and an empty page. -/
theorem shows_started {m m₁ : Machine} {command : UInt32} {regs : Regs} {s : List UInt8}
    (hm : P.Reachable m) (hs : cstr (P.bytesAt m.kernel command) = some s)
    (hexec : P.step m (.call (.execute command) regs) = some m₁)
    (hstarted : m₁.frames.length = m.frames.length + 1)
    (hcursor : m₁.kernel.toScreen.InBounds) : ∃ f,
      P.Shows f m.frames { window := m₁.kernel.toScreen.window, mem := userMem m₁
                           files := P.initFileArray
                           args := [delim].intercalate (words delim s).tail } m₁ := by
  have hn := nested_reachable hm
  have hholds : Holds (P.bytesAt (m.enter regs) command) s := (cstr_eq_some.1 hs).2
  obtain ⟨r, hrun, ⟨ret, -, hframes, -⟩ | ⟨rfl, hframes⟩⟩ := P.execute_of_step hexec
  · rw [hframes] at hstarted
    omega
  obtain ⟨t₀, ts, d, i, hwords, -, -, htables, -, -⟩ :=
    execute_started (space_enter hm regs) hholds hrun
  -- longer arguments do not fit
  have hfit := (stores_words (space_enter hm regs) hholds hrun).length
  rw [hwords, List.tail_cons] at hfit
  obtain ⟨hviews, hpos⟩ := hcursor.window_views
  rw [hwords, List.tail_cons]
  refine ⟨_, hm.step hexec, hframes, hviews, hpos, rfl, fileArray_started hn hexec hstarted,
    hasArgs_started hn hexec htables (zero_notMem_args hwords hholds.clean) hframes, hfit⟩

/-- What is left of a program that has ended: its caller goes on, with the status. -/
structure Ended (P : Platform) (F : List Frame) (status : UInt8) (w : Window (UInt8 × UInt8))
    (m : Machine) : Prop where
  reachable : P.Reachable m
  frames : m.frames = F
  eax : m.eax = status.toUInt32
  views : m.kernel.toScreen.Views w

/-- The call of `halt` behind `main`. -/
theorem start_of_main {main : U Int32} {u u₁ : User} {status : Int32} {m' : Machine}
    (hmain : main u = some (status, u₁))
    (hhalt : P.step u₁.machine (.call (.halt status.toUInt32.toUInt8) (W.regs u₁.calls)) = some m') :
    P.start W main u = some ((), ⟨m', u₁.calls + 1⟩) := by
  show (main u).bind (fun p => (P.sys W _ >>= fun _ => pure ()) p.2) = _
  rw [hmain]
  show ((P.step u₁.machine _).map _).bind _ = _
  rw [hhalt]
  rfl

/-- **A program ends** with the result of `main`. -/
theorem start_ends {f : Frame} {F : List Frame} {v v' : View} {main : U Int32} {status : Int32}
    (hmain : P.Does f F v main status v') {u : User} (h : P.Shows f F v u.machine) :
    ∃ u', P.start W main u = some ((), u') ∧
      P.Ended F status.toUInt32.toUInt8 v'.window u'.machine := by
  obtain ⟨u₁, hu₁, h₁, -⟩ := hmain h
  obtain ⟨m', hs, hframes, heax, -⟩ := step_halt h₁.running.nested h₁.frames
    (W.depth_pos u₁.calls) (W.depth_le u₁.calls) status.toUInt32.toUInt8
  refine ⟨⟨m', u₁.calls + 1⟩, start_of_main hu₁ hs, h₁.reachable.step hs, hframes, heax, ?_⟩
  have hscreen : m'.kernel.toScreen = u₁.machine.kernel.toScreen :=
    congrArg Store.toScreen (P.halt_of_step hs).2
  rw [hscreen]
  exact h₁.views

end Platform

end CheetOS
