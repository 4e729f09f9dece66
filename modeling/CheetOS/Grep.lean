import CheetOS.FileSearch

/-!
# grep (`ece391grep.c`)

The program that searches every file of the directory for a string, run on the kernel.

* `grep` is the program; `GrepPrints` says what it is for: the text it prints and the result,
  for every argument and every directory;
* `Grepping` is what its loop keeps: the string and the literals, apart from its buffers;
* `grep_ends`: started by `execute`, it ends, with that text behind what was on the screen and
  that result in the hands of the caller.
-/

namespace CheetOS

open Exec ByteMemory TextWindow Words

namespace Platform

variable (P : Platform) (W : World) (lit : Literals)

/-! ## The program -/

/-- The loop of `main`. -/
def grepLoop (search data : UInt32) (fd : Int32) (buf : UInt32) : ℕ → U Int32
  | 0 => fun _ => none
  | n + 1 => do
    let cnt ← P.ece391Read W fd buf 32
    if cnt = 0 then return 0
    else if cnt = -1 then do
      P.ece391Fdputs W 1 (lit "directory entry read failed\n")
      return 3
    else do
      let c ← P.loadUser buf
      if c = 0x2E then grepLoop search data fd buf n
      else do
        P.storeUser (buf + cnt.toUInt32) 0
        let r ← P.doOneFile W lit search buf data
        if r ≠ 0 then return 3
        else grepLoop search data fd buf n

/-- `main` of `grep`, with its buffers at `search` and `buf` and that of `do_one_file` at
`data`. -/
def grep (search buf data : UInt32) : U Int32 := do
  let got ← P.ece391Getargs W search 1024
  if got ≠ 0 then do
    P.ece391Fdputs W 1 (lit "could not read argument\n")
    return 3
  else do
    let fd ← P.ece391Open W (lit ".")
    if fd = -1 then do
      P.ece391Fdputs W 1 (lit "directory open failed\n")
      return 2
    else P.grepLoop W lit search data fd buf addressSpace

/-! ## What it is for -/

/-- What `grep` returns and prints for the names it reads from a directory of `n` entries. -/
inductive GrepShows (n : ℕ) (pattern : List UInt8) :
    List (List UInt8) → Int32 → List UInt8 → Prop
  | done (hn : n < numFiles) : GrepShows n pattern [] 0 []
  | full (hn : n = numFiles) :
      GrepShows n pattern [] 3 (bytes "directory entry read failed\n")
  | hidden {name : List UInt8} {names : List (List UInt8)} {status : Int32} {text : List UInt8}
      (hdot : name.head? = some 0x2E) (hnames : GrepShows n pattern names status text) :
      GrepShows n pattern (name :: names) status text
  | searched {name t : List UInt8} {names : List (List UInt8)} {status : Int32}
      {text : List UInt8} (hvisible : name.head? ≠ some 0x2E)
      (hfile : P.FileShows pattern name 0 t) (hnames : GrepShows n pattern names status text) :
      GrepShows n pattern (name :: names) status (t ++ text)
  | stopped {name t : List UInt8} {names : List (List UInt8)} (hvisible : name.head? ≠ some 0x2E)
      (hfile : P.FileShows pattern name (-1) t) : GrepShows n pattern (name :: names) 3 t

/-- What `grep` returns and prints for its arguments. -/
inductive GrepPrints (n : ℕ) : List UInt8 → Int32 → List UInt8 → Prop
  | noArguments : GrepPrints n [] 3 (bytes "could not read argument\n")
  | names {args : List UInt8} {status : Int32} {text : List UInt8} (hne : args ≠ [])
      (hnames : P.GrepShows n args ((List.range n).map P.nameAt) status text) :
      GrepPrints n args status text

variable {P} {W} {lit}

/-! ## The directory -/

/-- The string that is searched for and the literals, apart from the buffers for names and
lines. -/
structure Grepping (lit : Literals) (search buf data : UInt32) (pattern : List UInt8)
    (mem : UInt32 → UInt8) : Prop where
  names : StringsApart ((search, pattern) :: literals lit grepStrings) buf 33 mem
  lines : StringsApart ((search, pattern) :: literals lit grepStrings) data 1025 mem
  blocks : Disjoint buf 33 data 1025
  limit : mem (data + UInt32.ofNat 1024) ≠ 0x0A
  ne_nil : pattern ≠ []

section Directory

variable {f : Frame} {F : List Frame} {v : View} {search buf data : UInt32} {pattern : List UInt8}

theorem Grepping.literal {mem : UInt32 → UInt8} (h : Grepping lit search buf data pattern mem)
    {s : String} (hs : s ∈ grepStrings) : StringAt mem (lit s) (bytes s) :=
  (h.lines.strings _ (List.mem_cons_of_mem _ (List.mem_map_of_mem hs))).1

/-- The byte behind the lines is not in the buffer for names. -/
theorem mem_put_name {i : ℕ} {l : List UInt8} (hblocks : Disjoint buf 33 data 1025)
    (hl : i + l.length ≤ 33) : (v.put (buf + UInt32.ofNat i) l).mem (data + UInt32.ofNat 1024)
      = v.mem (data + UInt32.ofNat 1024) := by
  have hapart : Disjoint data 1025 (buf + UInt32.ofNat i) l.length :=
    hblocks.symm.part hl (by omega)
  have hin : InBlock data 1025 (data + UInt32.ofNat 1024) := by
    rw [InBlock, UInt32.add_comm, UInt32.add_sub_cancel]
    decide
  exact write_of_le (Nat.le_of_not_lt (hapart _ hin))

theorem Grepping.put_at (h : Grepping lit search buf data pattern v.mem) {i : ℕ} {l : List UInt8}
    (hl : i + l.length ≤ 33) :
    Grepping lit search buf data pattern (v.put (buf + UInt32.ofNat i) l).mem where
  names := h.names.put_at hl
  lines := ⟨h.lines.buffer, fun x hx =>
    ⟨((h.names.put_at hl).strings x hx).1, (h.lines.strings x hx).2⟩⟩
  blocks := h.blocks
  limit := by
    rw [mem_put_name h.blocks hl]
    exact h.limit
  ne_nil := h.ne_nil

/-- A name stands in its buffer. -/
theorem Grepping.searching {mem : UInt32 → UInt8} (h : Grepping lit search buf data pattern mem)
    {name : List UInt8} (hname : StringAt mem buf name) (hlen : name.length ≤ 32) :
    Searching lit search buf pattern name
      ((buf, name) :: (search, pattern) :: literals lit grepStrings) data mem where
  apart := by
    refine ⟨h.lines.buffer, fun x hx => ?_⟩
    rcases List.mem_cons.1 hx with rfl | hx
    · exact ⟨hname, h.blocks.mono (Nat.succ_le_succ hlen) le_rfl⟩
    · exact h.lines.strings x hx
  pattern_mem := List.mem_cons_of_mem _ List.mem_cons_self
  name_mem := List.mem_cons_self
  literal_mem := fun t ht =>
    List.mem_cons_of_mem _ (List.mem_cons_of_mem _ (List.mem_map_of_mem ht))
  ne_nil := h.ne_nil

/-- A file has been searched. -/
theorem Grepping.searched {mem mem' : UInt32 → UInt8}
    (h : Grepping lit search buf data pattern mem) {name : List UInt8}
    (hsearching : Searching lit search buf pattern name
      ((buf, name) :: (search, pattern) :: literals lit grepStrings) data mem')
    (hlimit : mem' (data + UInt32.ofNat 1024) ≠ 0x0A) :
    Grepping lit search buf data pattern mem' where
  names := ⟨h.names.buffer, fun x hx =>
    ⟨hsearching.string (List.mem_cons_of_mem _ hx), (h.names.strings x hx).2⟩⟩
  lines := ⟨h.lines.buffer, fun x hx =>
    ⟨hsearching.string (List.mem_cons_of_mem _ hx), (h.lines.strings x hx).2⟩⟩
  blocks := h.blocks
  limit := hlimit
  ne_nil := h.ne_nil

/-- The next name of the directory is read. -/
theorem does_readName (h : Grepping lit search buf data pattern v.mem) {inode : UInt32} {j : ℕ}
    (hfiles : v.files = Function.update P.initFileArray 2 (P.directoryAt inode j))
    (hj : j < numFiles) :
    ∃ v₁, P.Does f F v (P.ece391Read W 2 buf 32) (Int32.ofNat (P.nameAt j).length) v₁ ∧
      Grepping lit search buf data pattern v₁.mem ∧
      v₁.files = Function.update P.initFileArray 2 (P.directoryAt inode (j + 1)) ∧
      StringAt v₁.mem buf (P.nameAt j) ∧ v₁.window = v.window := by
  have hname : (P.nameAt j).length ≤ 32 := length_entryName_le _
  have hlen : (P.nameAt j ++ [0]).length = (P.nameAt j).length + 1 := List.length_append
  have hslot : Slot v 2 (P.directoryAt inode j) :=
    ⟨by decide, by rw [hfiles]; exact Function.update_self .., rfl⟩
  have hput := h.put_at (i := 0) (l := P.nameAt j ++ [0]) (by omega)
  rw [Word32.add_ofNat_zero] at hput
  refine ⟨_, does_read_directory hslot hj (h.names.buffer.mono (by omega)), hput, ?_,
    stringAt_put (h.names.buffer.mono (by omega)) (zero_notMem_nameAt j), rfl⟩
  rw [View.files_setFile, View.files_put, hfiles]
  exact Function.update_idem ..

/-- A zero is put behind a name, and the file is searched. -/
theorem does_grepName (h : Grepping lit search buf data pattern v.mem) {name : List UInt8}
    {inode : UInt32} {j : ℕ}
    (hfiles : v.files = Function.update P.initFileArray 2 (P.directoryAt inode j))
    (hname : StringAt v.mem buf name) (hlen : name.length ≤ 32)
    (hwf : ∀ d, FirstNamed P.fs name d → d.filetype = fileTypeFile → WellFormed P.fs d.inodeNum)
    (hdir : ∀ d, FirstNamed P.fs name d → d.filetype ≠ fileTypeDir) :
    ∃ v₂ r t v', P.Does f F v (P.storeUser (buf + (Int32.ofNat name.length).toUInt32) 0) () v₂ ∧
      P.Does f F v₂ (P.doOneFile W lit search buf data) r v' ∧ P.FileShows pattern name r t ∧
      v'.window = (v.print t).window ∧ (r ≠ 0 → r = -1) ∧
      (r = 0 → Grepping lit search buf data pattern v'.mem ∧ v'.files = v.files) := by
  obtain ⟨v₂, hv₂⟩ : ∃ v₂, v.put (buf + UInt32.ofNat name.length) [0] = v₂ := ⟨_, rfl⟩
  have h₂ : Grepping lit search buf data pattern v₂.mem := by
    rw [← hv₂]
    exact h.put_at (by rw [List.length_singleton]; omega)
  have hname₂ : StringAt v₂.mem buf name := by
    rw [← hv₂]
    exact ⟨hname.page, stands_append_write (stands_append.1 hname.stands).1
      (by rw [List.length_singleton]; omega), hname.clean⟩
  have hstore : P.Does f F v (P.storeUser (buf + (Int32.ofNat name.length).toUInt32) 0) () v₂ := by
    rw [Int32.toUInt32_ofNat', ← hv₂]
    exact does_store (h.names.buffer.mem (by omega)) 0
  have hfiles₂ : v₂.files = v.files := by rw [← hv₂]; rfl
  obtain ⟨r, t, v', hshows, hdoes, hwindow, hr, hkept⟩ :=
    does_doOneFile (P := P) (W := W) (f := f) (F := F) (h₂.searching hname₂ hlen)
      (hfiles₂.trans hfiles) h₂.limit hwf hdir
  refine ⟨v₂, r, t, v', hstore, hdoes, hshows, ?_, hr, fun h0 => ?_⟩
  · rw [hwindow, ← hv₂]
    rfl
  · obtain ⟨hsearching, hfiles', hlimit⟩ := hkept h0
    exact ⟨h₂.searched hsearching hlimit, hfiles'.trans hfiles₂⟩

/-- **The loop over the directory.** -/
theorem does_grepLoop {n j : ℕ} {inode : UInt32} (fuel : ℕ)
    (h : Grepping lit search buf data pattern v.mem)
    (hfiles : v.files = Function.update P.initFileArray 2 (P.directoryAt inode j))
    (hlist : Listing P.fs n) (hj : j ≤ n) (hfuel : n - j < fuel)
    (hwf : ∀ name d, FirstNamed P.fs name d → d.filetype = fileTypeFile →
      WellFormed P.fs d.inodeNum)
    (hdirs : ∀ name d, FirstNamed P.fs name d → d.filetype = fileTypeDir →
      name.head? = some 0x2E) :
    ∃ status text v',
      P.GrepShows n pattern ((List.range' j (n - j)).map P.nameAt) status text ∧
      P.Does f F v (P.grepLoop W lit search data 2 buf fuel) status v' ∧
      v'.window = (v.print text).window := by
  have hnum : numFiles = 63 := rfl
  have hle := hlist.le
  induction fuel generalizing v j with
  | zero => omega
  | succ fuel ih =>
    have hslot : Slot v 2 (P.directoryAt inode j) :=
      ⟨by decide, by rw [hfiles]; exact Function.update_self .., rfl⟩
    have hname : (P.nameAt j).length ≤ 32 := length_entryName_le _
    by_cases hend : j = numFiles
    · -- behind the table
      subst hend
      have hfull : n = numFiles := by omega
      subst hfull
      have hfailed := h.literal (s := "directory entry read failed\n") (by decide)
      refine ⟨3, _, v.print (bytes "directory entry read failed\n"), ?_,
        (does_read_directory_end hslot).bind ?_, rfl⟩
      · rw [Nat.sub_self]
        exact .full rfl
      · rw [if_neg (by decide), if_pos rfl]
        exact (does_fdputs hfailed).bind (does_pure _ 3)
    · obtain ⟨v₁, hread, h₁, hfiles₁, hstring, hwindow₁⟩ :=
        does_readName (P := P) (W := W) (f := f) (F := F) h hfiles (show j < numFiles by omega)
      by_cases hlast : j = n
      · -- the entries that are left are empty
        subst hlast
        have hempty : P.nameAt j = [] :=
          (entryName_eq_nil_iff _).2 (hlist.zero j le_rfl (by omega) 0 (by decide))
        rw [hempty, List.length_nil] at hread
        refine ⟨0, [], v₁, ?_, hread.bind ?_, hwindow₁⟩
        · rw [Nat.sub_self]
          exact .done (by omega)
        · rw [if_pos (show Int32.ofNat 0 = 0 from rfl)]
          exact does_pure _ 0
      · have hne : P.nameAt j ≠ [] := fun hnil =>
          hlist.named j (by omega) ((entryName_eq_nil_iff _).1 hnil)
        obtain ⟨hzero, hone⟩ := ofNat_ne_of_pos (List.length_pos_of_ne_nil hne) (by omega)
        obtain ⟨hpage, hfirst⟩ := hstring.first
        have hhead : (P.nameAt j).headD 0 = 0x2E ↔ (P.nameAt j).head? = some 0x2E := by
          obtain ⟨c, l, hc⟩ := List.exists_cons_of_ne_nil hne
          rw [hc, List.headD_cons, List.head?_cons, Option.some_inj]
        have hrange : List.range' j (n - j) = j :: List.range' (j + 1) (n - (j + 1)) := by
          rw [← List.range'_succ]
          congr 1
          omega
        rw [hrange, List.map_cons]
        by_cases hdot : (P.nameAt j).head? = some 0x2E
        · -- a directory
          obtain ⟨status, text, v', hshows, hdoes, hwindow⟩ := ih h₁ hfiles₁ (by omega) (by omega)
          refine ⟨status, text, v', .hidden hdot hshows, hread.bind ?_, ?_⟩
          · rw [if_neg hzero, if_neg hone]
            refine (does_load hpage).bind ?_
            rw [hfirst, if_pos (hhead.2 hdot)]
            exact hdoes
          · rw [hwindow, View.window_print, hwindow₁, View.window_print]
        · obtain ⟨v₂, r, t, v₃, hstore, hdoes, hshows, hwindow₃, hr, hkept⟩ :=
            does_grepName (P := P) (W := W) (f := f) (F := F) h₁ hfiles₁ hstring hname (hwf _)
              fun d hd hisdir => hdot (hdirs _ d hd hisdir)
          have hprinted : v₃.window = (v.print t).window := by
            rw [hwindow₃, View.window_print, hwindow₁, View.window_print]
          -- the program comes to the result of `do_one_file`
          have hgo {status : Int32} {v' : View} (hnext : P.Does f F v₃ (if r ≠ 0 then return 3 else
              P.grepLoop W lit search data 2 buf fuel) status v') :
              P.Does f F v (P.grepLoop W lit search data 2 buf (fuel + 1)) status v' := by
            refine hread.bind ?_
            rw [if_neg hzero, if_neg hone]
            refine (does_load hpage).bind ?_
            rw [hfirst, if_neg fun heq => hdot (hhead.1 heq)]
            exact hstore.bind (hdoes.bind hnext)
          by_cases hr0 : r = 0
          · subst hr0
            obtain ⟨h₃, hfiles₃⟩ := hkept rfl
            obtain ⟨status, text, v', hrest, hmore, hwindow⟩ :=
              ih h₃ (hfiles₃.trans hfiles₁) (by omega) (by omega)
            refine ⟨status, t ++ text, v', .searched hdot hshows hrest, hgo ?_, ?_⟩
            · rw [if_neg fun h0 => h0 rfl]
              exact hmore
            · rw [hwindow, View.window_print, hprinted, ← View.window_print, View.print_print]
          · have hminus := hr hr0
            subst hminus
            refine ⟨3, t, v₃, .stopped hdot hshows, hgo ?_, hprinted⟩
            rw [if_pos hr0]
            exact does_pure _ 3

/-- The literals and the buffers of `grep`, before it starts.  The byte behind the buffer for
lines is read by `do_one_file`, which does not set it. -/
structure GrepReady (lit : Literals) (search buf data : UInt32) (mem : UInt32 → UInt8) : Prop where
  pattern : Ready lit grepStrings search 1024 mem
  names : Ready lit grepStrings buf 33 mem
  lines : Ready lit grepStrings data 1025 mem
  pattern_names : Disjoint search 1024 buf 33
  pattern_lines : Disjoint search 1024 data 1025
  blocks : Disjoint buf 33 data 1025
  limit : mem (data + UInt32.ofNat 1024) ≠ 0x0A

/-- The arguments have been read. -/
theorem GrepReady.grepping (h : GrepReady lit search buf data v.mem) {args : List UInt8}
    (hne : args ≠ []) (hclean : (0 : UInt8) ∉ args) (hargs : args.length < 128) :
    Grepping lit search buf data args (v.put search (args ++ [0])).mem := by
  have hlen : (args ++ [0]).length = args.length + 1 := List.length_append
  have hput := h.pattern.put (l := args ++ [0]) (by omega)
  have hstring : StringAt (v.put search (args ++ [0])).mem search args :=
    stringAt_put (h.pattern.buffer.mono (by omega)) hclean
  have happ {q : UInt32} {m : ℕ} (hq : Disjoint search 1024 q m) :
      Disjoint search (args.length + 1) q m := hq.mono (by omega) le_rfl
  refine ⟨⟨h.names.buffer, fun x hx => ?_⟩, ⟨h.lines.buffer, fun x hx => ?_⟩, h.blocks, ?_, hne⟩
  · rcases List.mem_cons.1 hx with rfl | hx
    · exact ⟨hstring, happ h.pattern_names⟩
    · exact ⟨(hput.strings x hx).1, (h.names.strings x hx).2⟩
  · rcases List.mem_cons.1 hx with rfl | hx
    · exact ⟨hstring, happ h.pattern_lines⟩
    · exact ⟨(hput.strings x hx).1, (h.lines.strings x hx).2⟩
  · have hin : InBlock data 1025 (data + UInt32.ofNat 1024) := by
      rw [InBlock, UInt32.add_comm, UInt32.add_sub_cancel]
      decide
    have hout : ¬InBlock search (args ++ [0]).length (data + UInt32.ofNat 1024) :=
      h.pattern_lines.symm.mono le_rfl (by omega) _ hin
    rw [View.mem_put, write_of_le (Nat.le_of_not_lt hout)]
    exact h.limit

/-- **What `grep` does.** -/
theorem does_grep {n : ℕ} {d : Dentry} (hready : GrepReady lit search buf data v.mem)
    (hfiles : v.files = P.initFileArray) (hclean : (0 : UInt8) ∉ v.args)
    (hargs : v.args.length < 128) (hlist : Listing P.fs n)
    (hdot : FirstNamed P.fs (bytes ".") d) (hdir : d.filetype = fileTypeDir)
    (hwf : ∀ name d, FirstNamed P.fs name d → d.filetype = fileTypeFile →
      WellFormed P.fs d.inodeNum)
    (hdirs : ∀ name d, FirstNamed P.fs name d → d.filetype = fileTypeDir →
      name.head? = some 0x2E) :
    ∃ status text v', P.GrepPrints n v.args status text ∧
      P.Does f F v (P.grep W lit search buf data) status v' ∧
      v'.window = (v.print text).window := by
  by_cases hblank : v.args = []
  · refine ⟨3, _, _, hblank ▸ GrepPrints.noArguments, (does_getargs_blank hblank).bind ?_, rfl⟩
    rw [if_pos (by decide)]
    exact Ready.complain hready.pattern (by decide) 3
  · obtain ⟨v₁, hv₁⟩ : ∃ v₁, v.put search (v.args ++ [0]) = v₁ := ⟨_, rfl⟩
    have hnbytes : (1024 : Int32).toInt = 1024 := by decide
    have hget : P.Does f F v (P.ece391Getargs W search 1024) 0 v₁ := by
      rw [← hv₁]
      exact does_getargs hblank (by omega) (hready.pattern.buffer.mono (by omega))
    have h₁ : Grepping lit search buf data v.args v₁.mem := by
      rw [← hv₁]
      exact hready.grepping hblank hclean hargs
    have hfiles₁ : v₁.files = P.initFileArray := by rw [← hv₁]; exact hfiles
    have hopen : P.Openable (bytes ".") P.initFileArray d :=
      ⟨by decide +kernel, hdot, Or.inr (Or.inl hdir), 2, by decide, rfl⟩
    have hfirst := does_open_first (W := W) (f := f) (F := F) hfiles₁
      (h₁.literal (s := ".") (by decide)) hopen
    have hopened : (v₁.setFile 2 (P.opened d blank)).files
        = Function.update P.initFileArray 2 (P.directoryAt d.inodeNum 0) := by
      rw [View.files_setFile, hfiles₁, ← (slot_open_directory (v := v₁) 2 (by decide) hdir).files]
      exact congrArg _ (View.files_setFile_self v₁ 2 _).symm
    have haddr : addressSpace = 4294967296 := rfl
    have hnum : numFiles = 63 := rfl
    have hle := hlist.le
    obtain ⟨status, text, v', hshows, hdoes, hwindow⟩ := does_grepLoop (P := P) (W := W) (f := f)
      (F := F) (v := v₁.setFile 2 (P.opened d blank)) addressSpace h₁ hopened hlist
      (Nat.zero_le n) (by omega) hwf hdirs
    rw [Nat.sub_zero, ← List.range_eq_range'] at hshows
    refine ⟨status, text, v', .names hblank hshows, hget.bind ?_, ?_⟩
    · rw [if_neg (by decide)]
      refine hfirst.bind ?_
      rw [if_neg (by decide)]
      exact hdoes
    · rw [hwindow, View.window_print, View.window_print, ← hv₁]
      rfl

end Directory

/-! ## From start to end -/

/-- **`grep` from start to end.**  Started by `execute` on an image whose files are well formed,
whose directory `.` has `n` entries and where only names with a dot in front are directories,
`grep` ends for every command line: it has printed the lines of the files that have its argument
in them, up to the first name that cannot be opened or read, and its caller goes on with its
result. -/
theorem grep_ends (P : Platform) (W : World) {m m₁ : Machine}
    {command search buf data : UInt32} {regs : Regs} {s : List UInt8} {lit : Literals} {n : ℕ}
    {d : Dentry} (hm : P.Reachable m) (hs : cstr (P.bytesAt m.kernel command) = some s)
    (hexec : P.step m (.call (.execute command) regs) = some m₁)
    (hstarted : m₁.frames.length = m.frames.length + 1)
    (hcursor : m₁.kernel.toScreen.InBounds)
    (hready : GrepReady lit search buf data (userMem m₁)) (hlist : Listing P.fs n)
    (hdot : FirstNamed P.fs (bytes ".") d) (hdir : d.filetype = fileTypeDir)
    (hwf : ∀ name d, FirstNamed P.fs name d → d.filetype = fileTypeFile →
      WellFormed P.fs d.inodeNum)
    (hdirs : ∀ name d, FirstNamed P.fs name d → d.filetype = fileTypeDir →
      name.head? = some 0x2E) :
    ∃ status text u, P.GrepPrints n ([delim].intercalate (words delim s).tail) status text ∧
      P.start W (P.grep W lit search buf data) ⟨m₁, 0⟩ = some ((), u) ∧
      P.Ended m.frames status.toUInt32.toUInt8
        (text.foldl putcWindow m₁.kernel.toScreen.window) u.machine := by
  obtain ⟨f, hshows⟩ := shows_started hm hs hexec hstarted hcursor
  obtain ⟨status, text, v', htext, hdoes, hwindow⟩ := does_grep (W := W) (f := f)
    (F := m.frames) (v := ⟨m₁.kernel.toScreen.window, userMem m₁, P.initFileArray,
      [delim].intercalate (words delim s).tail⟩) hready rfl hshows.args.arg.clean
    hshows.length_args hlist hdot hdir hwf hdirs
  obtain ⟨u, hrun, hended⟩ := start_ends (W := W) hdoes (u := ⟨m₁, 0⟩) hshows
  rw [hwindow, View.window_print] at hended
  exact ⟨status, text, u, htext, hrun, hended⟩

/-! ## A sample -/

/-- In the sample only `.` is a directory. -/
theorem directory_named (name : List UInt8) (d : Dentry)
    (hfirst : FirstNamed samplePlatform.fs name d) (hdir : d.filetype = fileTypeDir) :
    name.head? = some 0x2E := by
  obtain ⟨idx, hd, rfl⟩ := hfirst
  have hdot : ∀ i < numFiles, (direntry samplePlatform.fs (UInt32.ofNat i)).filetype = fileTypeDir →
      (entryName (direntry samplePlatform.fs (UInt32.ofNat i))).head? = some 0x2E := by
    decide +kernel
  rw [hd.entry] at hdir ⊢
  exact hdot idx hd.index hdir

/-- `grep` searches the sample for `sh`. -/
theorem grep_ends_sh :
    ∃ m₁ status text u, samplePlatform.step (filesBoot grepStrings "sh sh")
        (.call (.execute 0x500000) ⟨64, 0x7FFFF0⟩) = some m₁ ∧
      samplePlatform.GrepPrints 3 (bytes "sh") status text ∧
      samplePlatform.start sampleWorld (samplePlatform.grep sampleWorld
        (sampleLiterals grepStrings) 0x8010000 0x8011000 0x8012000) ⟨m₁, 0⟩ = some ((), u) ∧
      samplePlatform.Ended [] status.toUInt32.toUInt8
        (text.foldl putcWindow m₁.kernel.toScreen.window) u.machine := by
  have hstring : cstr (samplePlatform.bytesAt (filesBoot grepStrings "sh sh").kernel 0x500000)
      = some (bytes "sh sh") := by
    decide +kernel
  have hplace : ∀ s ∈ grepStrings, 0x8000000 ≤ (sampleLiterals grepStrings s).toNat ∧
      (sampleLiterals grepStrings s).toNat + ((bytes s).length + 1) ≤ 0x8010000 ∧
        (0 : UInt8) ∉ bytes s := by
    decide +kernel
  obtain ⟨m₁, hm₁, hframes, hcursor, hlimit, hstands⟩ := filesBoot_started grepStrings "sh sh"
    (by decide +kernel)
  have hready : GrepReady (sampleLiterals grepStrings) 0x8010000 0x8011000 0x8012000
      (userMem m₁) := by
    refine ⟨ready_sample 0x8010000 (by decide) (by decide) hplace hstands,
      ready_sample 0x8011000 (by decide) (by decide) hplace hstands,
      ready_sample 0x8012000 (by decide) (by decide) hplace hstands,
      disjoint_of_le (by decide) (by decide), disjoint_of_le (by decide) (by decide),
      disjoint_of_le (by decide) (by decide), ?_⟩
    rw [show (0x8012000 : UInt32) + UInt32.ofNat 1024 = 0x8012400 from rfl, hlimit]
    decide
  obtain ⟨status, text, u, hrest⟩ := grep_ends samplePlatform sampleWorld
    ⟨_, [], boot_bootMachine _ _, rfl⟩ hstring hm₁ hframes hcursor hready
    listing_sample firstNamed_dot (by decide +kernel) wellFormed_named directory_named
  have hargs : [delim].intercalate (words delim (bytes "sh sh")).tail = bytes "sh" := by
    decide +kernel
  rw [hargs] at hrest
  exact ⟨m₁, status, text, u, hm₁, hrest⟩

end Platform

end CheetOS
