import CheetOS.FailedRead
import CheetOS.Loading
import CheetOS.UserCalls

/-!
# cat and ls (`ece391cat.c`, `ece391ls.c`)

The two programs that print what they read, run on the kernel.

* `cat` and `ls` are the programs, their loops over the calls of `read` included;
* `CatShows` and `lsText` say what they are for: the text they print and the result, for
  every argument and every directory;
* `cat_ends` and `ls_ends`: started by `execute`, they end, with that text behind what was on
  the screen and that result in the hands of the caller.
-/

namespace CheetOS

open Exec ByteMemory TextWindow Words

namespace Platform

/-! ## The programs -/

/-- Where a program has its string literals. -/
abbrev Literals := String → UInt32

/-- The bytes of a string literal. -/
def bytes (s : String) : List UInt8 := s.toUTF8.toList

variable (P : Platform) (W : World) (lit : Literals)

/-- The loop of a program that prints what it reads, with what it does to write the bytes in the
buffer. -/
def readLoop (fd : Int32) (buf : UInt32) (nbytes : Int32) (failed : String)
    (write : Int32 → U Int32) : ℕ → U Int32
  | 0 => fun _ => none
  | n + 1 => do
    let cnt ← P.ece391Read W fd buf nbytes
    if cnt = 0 then return 0
    else if cnt = -1 then do
      P.ece391Fdputs W 1 (lit failed)
      return 3
    else do
      let written ← write cnt
      if written = -1 then return 3
      else readLoop fd buf nbytes failed write n

/-- The body of the loop of `cat`. -/
def catWrite (buf : UInt32) (cnt : Int32) : U Int32 := P.ece391Write W 1 buf cnt

/-- `main` of `cat`, with its buffer at `buf`. -/
def cat (buf : UInt32) : U Int32 := do
  let got ← P.ece391Getargs W buf 1024
  if got ≠ 0 then do
    P.ece391Fdputs W 1 (lit "could not read arguments\n")
    return 3
  else do
    let fd ← P.ece391Open W buf
    if fd = -1 then do
      P.ece391Fdputs W 1 (lit "file not found\n")
      return 2
    else P.readLoop W lit fd buf 1024 "file read failed\n" (P.catWrite W buf) addressSpace

/-- The body of the loop of `ls`: a newline behind the name. -/
def lsWrite (buf : UInt32) (cnt : Int32) : U Int32 := do
  P.storeUser (buf + cnt.toUInt32) 0x0A
  P.ece391Write W 1 buf (cnt + 1)

/-- `main` of `ls`, with its buffer at `buf`. -/
def ls (buf : UInt32) : U Int32 := do
  let fd ← P.ece391Open W (lit ".")
  if fd = -1 then do
    P.ece391Fdputs W 1 (lit "directory open failed\n")
    return 2
  else
    P.readLoop W lit fd buf 32 "directory entry read failed\n" (P.lsWrite W buf) addressSpace

/-! ## What they are for -/

/-- What `cat` prints of a file: pieces of 1024 bytes, each up to its first zero. -/
def pieces (l : List UInt8) : List UInt8 :=
  if l = [] then [] else textOf (l.take 1024) ++ pieces (l.drop 1024)
termination_by l.length
decreasing_by
  rw [List.length_drop]
  have hpos := List.length_pos_of_ne_nil ‹l ≠ []›
  omega

/-- What `cat` returns and prints, on an image whose directory has `n` entries. -/
inductive CatShows (n : ℕ) : List UInt8 → Int32 → List UInt8 → Prop
  | noArguments : CatShows n [] 3 (bytes "could not read arguments\n")
  | notFound {args : List UInt8} (hne : args ≠ [])
      (hnone : ∀ d, ¬P.Openable args P.initFileArray d) :
      CatShows n args 2 (bytes "file not found\n")
  | file {args : List UInt8} {d : Dentry} (hopen : P.Openable args P.initFileArray d)
      (hfile : d.filetype = fileTypeFile) : CatShows n args 0 (pieces (contents P.fs d.inodeNum))
  | directory {args : List UInt8} {d : Dentry} (hopen : P.Openable args P.initFileArray d)
      (hdir : d.filetype = fileTypeDir) (hn : n < numFiles) :
      CatShows n args 0 ((List.range n).flatMap P.nameAt)
  | fullDirectory {args : List UInt8} {d : Dentry} (hopen : P.Openable args P.initFileArray d)
      (hdir : d.filetype = fileTypeDir) (hn : n = numFiles) :
      CatShows n args 3 ((List.range n).flatMap P.nameAt ++ bytes "file read failed\n")
  | clock {args : List UInt8} {d : Dentry} (hopen : P.Openable args P.initFileArray d)
      (hrtc : d.filetype = fileTypeRtc) : CatShows n args 3 (bytes "file read failed\n")

/-- What `ls` prints: the names, one a line. -/
def lsText (n : ℕ) : List UInt8 := (List.range n).flatMap fun j => P.nameAt j ++ [0x0A]

variable {P} {W} {lit}

@[simp] theorem pieces_nil : pieces [] = [] := by
  rw [pieces, if_pos rfl]

theorem pieces_of_ne_nil {l : List UInt8} (h : l ≠ []) :
    pieces l = textOf (l.take 1024) ++ pieces (l.drop 1024) := by
  rw [pieces, if_neg h]

/-- A file without zeros is printed as it is. -/
theorem pieces_of_clean {l : List UInt8} (h : (0 : UInt8) ∉ l) : pieces l = l := by
  induction l using pieces.induct with
  | case1 => rw [pieces_nil]
  | case2 l hne ih =>
    have htake : (0 : UInt8) ∉ l.take 1024 := fun hmem => h (List.mem_of_mem_take hmem)
    have hdrop : (0 : UInt8) ∉ l.drop 1024 := fun hmem => h (List.mem_of_mem_drop hmem)
    rw [pieces_of_ne_nil hne, ih hdrop, textOf_of_clean htake, List.take_append_drop]

/-- A name has no zero in it. -/
theorem zero_notMem_nameFrom (d : Dentry) (n i : ℕ) : (0 : UInt8) ∉ nameFrom d n i := by
  induction n generalizing i with
  | zero => exact List.not_mem_nil
  | succ n ih =>
    rw [nameFrom]
    split
    · exact List.not_mem_nil
    · rename_i hne
      intro hmem
      rcases List.mem_cons.1 hmem with heq | hmem
      · exact hne heq.symm
      · exact ih (i + 1) hmem

theorem zero_notMem_nameAt (j : ℕ) : (0 : UInt8) ∉ P.nameAt j := zero_notMem_nameFrom _ _ _

/-! ## The loops -/

/-- The string literals `ss`, where they are. -/
def literals (lit : Literals) (ss : List String) : List (UInt32 × List UInt8) :=
  ss.map fun s => (lit s, bytes s)

/-- The buffer is in the page, and the string literals are, apart from it. -/
abbrev Ready (lit : Literals) (ss : List String) (buf : UInt32) (n : ℕ)
    (mem : UInt32 → UInt8) : Prop := StringsApart (literals lit ss) buf n mem

section Ready

variable {ss : List String} {buf : UInt32} {n : ℕ} {v : View}

theorem Ready.literal {mem : UInt32 → UInt8} (h : Ready lit ss buf n mem) {s : String}
    (hs : s ∈ ss) : StringAt mem (lit s) (bytes s) :=
  (h.strings _ (List.mem_map_of_mem hs)).1

/-- A program prints a message and ends. -/
theorem Ready.complain (h : Ready lit ss buf n v.mem) {f : Frame} {F : List Frame} {s : String}
    (hs : s ∈ ss) (status : Int32) :
    P.Does f F v (do P.ece391Fdputs W 1 (lit s); return status) status (v.print (bytes s)) :=
  (does_fdputs (h.literal hs)).bind (does_pure _ status)

end Ready

theorem ofNat_ne_of_pos {k : ℕ} (hpos : 0 < k) (hlt : k < 2147483648) :
    Int32.ofNat k ≠ 0 ∧ Int32.ofNat k ≠ -1 := by
  refine ⟨fun h => ?_, ofNat_ne_neg_one hlt⟩
  have hint := Int32.toInt_ofNat_of_lt (n := k) (by omega)
  rw [h] at hint
  simp only [Int32.reduceToInt] at hint
  omega

section Loops

variable {f : Frame} {F : List Frame} {v : View} {fd : Int32} {buf : UInt32}

/-- The next piece of a file. -/
theorem drop_contents (fs : Image) (inode : UInt32) {n k : ℕ}
    (hk : n + k ≤ (inodeLength fs inode).toNat) :
    (contents fs inode).drop n = fileBytes fs inode n k ++ (contents fs inode).drop (n + k) := by
  have htake : ((contents fs inode).drop n).take k = fileBytes fs inode n k := by
    rw [← drop_take_dataBlocks hk, contents, List.drop_take, List.take_take, min_eq_left (by omega)]
  rw [← htake, ← List.drop_drop, List.take_append_drop]

/-- **The loop of `cat` prints the rest of a file.** -/
theorem readLoop_file {ss : List String} {failed : String} {inode : UInt32} {n fuel : ℕ}
    (hready : Ready lit ss buf 1024 v.mem) (hslot : Slot v fd (P.fileAt inode n))
    (hwf : WellFormed P.fs inode) (hn : n ≤ (inodeLength P.fs inode).toNat)
    (hfuel : (inodeLength P.fs inode).toNat - n < fuel) :
    ∃ v', P.Does f F v (P.readLoop W lit fd buf 1024 failed (P.catWrite W buf) fuel) 0 v' ∧
      v'.window = (v.print (pieces ((contents P.fs inode).drop n))).window := by
  induction fuel generalizing v n with
  | zero => omega
  | succ fuel ih =>
    obtain ⟨k, hk⟩ : ∃ k, k = delivered (inodeLength P.fs inode).toNat n 1024 := ⟨_, rfl⟩
    have hlen := length_contents P.fs inode
    have hsize : (fileBytes P.fs inode n k).length = k := Blocks.length_slice ..
    unfold delivered at hk
    have hle : k ≤ 1024 := by
      split at hk <;> omega
    obtain ⟨v₁, hv₁⟩ : ∃ v₁, (v.put buf (fileBytes P.fs inode n k)).setFile (slot fd)
      (P.fileAt inode (n + k)) = v₁ := ⟨_, rfl⟩
    have hwindow₁ : v₁.window = v.window := by rw [← hv₁]; rfl
    have hread : P.Does f F v (P.ece391Read W fd buf 1024) (Int32.ofNat k) v₁ := by
      rw [← hv₁]
      exact does_read_file hslot hwf hn (by decide) hk (hready.buffer.mono hle)
    split at hk
    · -- the end of the file
      have hend : (contents P.fs inode).drop n = [] := List.drop_eq_nil_of_le (by omega)
      subst hk
      refine ⟨v₁, hread.bind ?_, ?_⟩
      · rw [if_pos (show Int32.ofNat 0 = 0 from rfl)]
        exact does_pure _ 0
      · rw [hend, pieces_nil, View.print_nil, hwindow₁]
    · have hpos : 0 < k := by omega
      obtain ⟨hzero, hone⟩ := ofNat_ne_of_pos hpos (by omega)
      have hready₁ : Ready lit ss buf 1024 v₁.mem := by
        rw [← hv₁]
        exact hready.put (by omega)
      have hslot₁ : Slot v₁ fd (P.fileAt inode (n + k)) := by
        rw [← hv₁]
        exact ⟨hslot.user, Function.update_self .., rfl⟩
      have hstands : Stands v₁.mem buf (fileBytes P.fs inode n k) := by
        rw [← hv₁]
        exact stands_write (by omega)
      have hwrite := does_write (P := P) (W := W) (f := f) (F := F) (n := Int32.ofNat k)
        (hsize.symm ▸ hready.buffer.mono hle) hstands (by
          rw [hsize]
          exact Int32.toInt_ofNat_of_lt (by omega))
      have htext := textOf_length_le (fileBytes P.fs inode n k)
      obtain ⟨v', hdoes, hwindow⟩ := ih (v := v₁.print (textOf (fileBytes P.fs inode n k)))
        hready₁ ⟨hslot₁.user, hslot₁.files, hslot₁.used⟩ (by omega) (by omega)
      refine ⟨v', hread.bind ?_, ?_⟩
      · rw [if_neg hzero, if_neg hone]
        refine hwrite.bind ?_
        rw [if_neg (ofNat_ne_neg_one (by omega))]
        exact hdoes
      · have hmore : (contents P.fs inode).drop n ≠ [] := by
          intro hnil
          have hnone := List.length_drop (i := n) (l := contents P.fs inode)
          rw [hnil, List.length_nil] at hnone
          omega
        have hpiece := drop_contents (n := n) (k := k) P.fs inode (by omega)
        have htake : ((contents P.fs inode).drop n).take 1024 = fileBytes P.fs inode n k := by
          rcases Nat.lt_or_ge k 1024 with hshort | hfull
          · rw [hpiece, List.drop_eq_nil_of_le (by omega), List.append_nil,
              List.take_of_length_le (by omega)]
          · rw [hpiece, List.take_left' (by omega)]
        have hrest : (contents P.fs inode).drop (n + 1024)
            = (contents P.fs inode).drop (n + k) := by
          rcases Nat.lt_or_ge k 1024 with hshort | hfull
          · rw [List.drop_eq_nil_of_le (by omega), List.drop_eq_nil_of_le (by omega)]
          · rw [show k = 1024 by omega]
        rw [hwindow, View.print_print, pieces_of_ne_nil hmore, List.drop_drop, hrest, htake,
          View.window_print, View.window_print, hwindow₁]

/-- **The loop on a directory** writes the names that are left, whatever it does to write one
of them. -/
theorem readLoop_directory {ss : List String} {failed : String} (nbytes : Int32)
    {write : Int32 → U Int32} (shown : List UInt8 → List UInt8) {size n j fuel : ℕ} {inode : UInt32}
    (hfailed : failed ∈ ss) (hsize : 32 < size) (hlist : Listing P.fs n)
    (hwrite : ∀ i < n, ∀ v₁, Ready lit ss buf size v₁.mem → Stands v₁.mem buf (P.nameAt i ++ [0]) →
      ∃ r v₂, r ≠ -1 ∧ P.Does f F v₁ (write (Int32.ofNat (P.nameAt i).length)) r v₂ ∧
        Ready lit ss buf size v₂.mem ∧ v₂.files = v₁.files ∧
        v₂.window = (v₁.print (shown (P.nameAt i))).window)
    (hready : Ready lit ss buf size v.mem) (hslot : Slot v fd (P.directoryAt inode j)) (hj : j ≤ n)
    (hfuel : n - j < fuel) :
    ∃ v', P.Does f F v (P.readLoop W lit fd buf nbytes failed write fuel)
        (if n < numFiles then 0 else 3) v' ∧
      v'.window = (v.print ((List.range' j (n - j)).flatMap (fun i => shown (P.nameAt i)) ++
        if n < numFiles then [] else bytes failed)).window := by
  have hnum : numFiles = 63 := rfl
  have hle := hlist.le
  induction fuel generalizing v j with
  | zero => omega
  | succ fuel ih =>
    have hname : (P.nameAt j).length ≤ 32 := length_entryName_le _
    by_cases hend : j = numFiles
    · -- behind the table
      subst hend
      have hfull : n = numFiles := by omega
      subst hfull
      refine ⟨v.print (bytes failed), (does_read_directory_end hslot).bind ?_, ?_⟩
      · rw [if_neg (by decide), if_pos rfl, if_neg (Nat.lt_irrefl _)]
        exact Ready.complain hready hfailed 3
      · rw [if_neg (Nat.lt_irrefl _), Nat.sub_self]
        rfl
    · obtain ⟨v₁, hv₁⟩ : ∃ v₁, (v.put buf (P.nameAt j ++ [0])).setFile (slot fd)
        (P.directoryAt inode (j + 1)) = v₁ := ⟨_, rfl⟩
      have hlen : (P.nameAt j ++ [0]).length = (P.nameAt j).length + 1 := List.length_append
      have hwindow₁ : v₁.window = v.window := by rw [← hv₁]; rfl
      have hread : P.Does f F v (P.ece391Read W fd buf nbytes)
          (Int32.ofNat (P.nameAt j).length) v₁ := by
        rw [← hv₁]
        exact does_read_directory hslot (by omega) (hready.buffer.mono (by omega))
      by_cases hlast : j = n
      · -- the entries that are left are empty
        subst hlast
        have hempty : P.nameAt j = [] :=
          (entryName_eq_nil_iff _).2 (hlist.zero j le_rfl (by omega) 0 (by decide))
        rw [hempty, List.length_nil] at hread
        refine ⟨v₁, hread.bind ?_, ?_⟩
        · rw [if_pos (show Int32.ofNat 0 = 0 from rfl), if_pos (show j < numFiles by omega)]
          exact does_pure _ 0
        · rw [if_pos (show j < numFiles by omega), Nat.sub_self]
          exact hwindow₁
      · have hpos : 0 < (P.nameAt j).length := by
          refine List.length_pos_of_ne_nil fun hnil => hlist.named j (by omega) ?_
          exact (entryName_eq_nil_iff _).1 hnil
        obtain ⟨hzero, hone⟩ := ofNat_ne_of_pos hpos (by omega)
        have hready₁ : Ready lit ss buf size v₁.mem := by
          rw [← hv₁]
          exact hready.put (by omega)
        have hslot₁ : v₁.files (slot fd) = P.directoryAt inode (j + 1) := by
          rw [← hv₁]
          exact Function.update_self ..
        have hstands : Stands v₁.mem buf (P.nameAt j ++ [0]) := by
          rw [← hv₁]
          exact stands_write (by omega)
        obtain ⟨r, v₂, hr, hdoes, hready₂, hfiles₂, hwindow₂⟩ :=
          hwrite j (by omega) v₁ hready₁ hstands
        obtain ⟨v', hdoes', hwindow'⟩ := ih (v := v₂) (j := j + 1) hready₂
          ⟨hslot.user, by rw [hfiles₂, hslot₁], rfl⟩ (by omega) (by omega)
        refine ⟨v', hread.bind ?_, ?_⟩
        · rw [if_neg hzero, if_neg hone]
          refine hdoes.bind ?_
          rw [if_neg hr]
          exact hdoes'
        · have hrange : List.range' j (n - j) = j :: List.range' (j + 1) (n - (j + 1)) := by
            rw [← List.range'_succ]
            congr 1
            omega
          rw [hwindow', View.window_print, hwindow₂, ← View.window_print, View.print_print,
            View.window_print, hwindow₁, ← View.window_print, hrange, List.flatMap_cons,
            List.append_assoc]

end Loops

/-! ## From start to end -/

/-- The string literals of `cat`. -/
def catStrings : List String :=
  ["could not read arguments\n", "file not found\n", "file read failed\n"]

/-- The string literals of `ls`. -/
def lsStrings : List String := [".", "directory open failed\n", "directory entry read failed\n"]

/-- The first descriptor a program opens is 2. -/
theorem does_open_first {f : Frame} {F : List Frame} {v : View} {p : UInt32} {name : List UInt8}
    {d : Dentry} (hfiles : v.files = P.initFileArray) (hname : StringAt v.mem p name)
    (hopen : P.Openable name P.initFileArray d) :
    P.Does f F v (P.ece391Open W p) 2 (v.setFile 2 (P.opened d blank)) := by
  rw [← hfiles] at hopen
  have hdoes := does_open (W := W) (f := f) (F := F) (i := 2) hname hopen (by rw [hfiles]; rfl)
  have hblank : v.files 2 = blank := by rw [hfiles]; rfl
  rwa [hblank] at hdoes

/-- The descriptor of a file that has just been opened. -/
theorem slot_open_file {v : View} {d : Dentry} (fd : Int32) (hfd : 2 ≤ fd ∧ fd ≤ 7)
    (hfile : d.filetype = fileTypeFile) :
    Slot (v.setFile (slot fd) (P.opened d blank)) fd (P.fileAt d.inodeNum 0) where
  user := hfd
  files := by
    rw [opened, if_pos hfile]
    exact View.files_setFile_self v _ _
  used := rfl

theorem slot_open_directory {v : View} {d : Dentry} (fd : Int32) (hfd : 2 ≤ fd ∧ fd ≤ 7)
    (hdir : d.filetype = fileTypeDir) :
    Slot (v.setFile (slot fd) (P.opened d blank)) fd (P.directoryAt d.inodeNum 0) where
  user := hfd
  files := by
    rw [opened, hdir, if_neg (by decide), if_pos rfl]
    exact View.files_setFile_self v _ _
  used := rfl

/-- The clock takes no descriptor. -/
theorem not_opened_clock {v : View} {d : Dentry} (fd : Int32) (hrtc : d.filetype = fileTypeRtc) :
    ¬Opened (v.setFile (slot fd) (P.opened d blank)).files fd := by
  intro hopened
  refine hopened.2.2 ?_
  have hslot : (v.setFile (slot fd) (P.opened d blank)).files (slot fd) = P.opened d blank :=
    View.files_setFile_self v _ _
  rw [hslot, P.flags_opened d _ hrtc]
  rfl

section Programs

variable {f : Frame} {F : List Frame} {v : View} {buf : UInt32} {n : ℕ}

/-- `cat` writes a name. -/
theorem does_catWrite {ss : List String} {i : ℕ} (hready : Ready lit ss buf 1024 v.mem)
    (hstands : Stands v.mem buf (P.nameAt i ++ [0])) :
    ∃ r v', r ≠ -1 ∧ P.Does f F v (P.catWrite W buf (Int32.ofNat (P.nameAt i).length)) r v' ∧
      Ready lit ss buf 1024 v'.mem ∧ v'.files = v.files ∧
      v'.window = (v.print (id (P.nameAt i))).window := by
  have hlen : (P.nameAt i).length ≤ 32 := length_entryName_le _
  have hname := hstands.take (P.nameAt i).length
  rw [List.take_left' rfl] at hname
  have hwrite := does_write (P := P) (W := W) (f := f) (F := F)
    (n := Int32.ofNat (P.nameAt i).length) (hready.buffer.mono (by omega)) hname
    (Int32.toInt_ofNat_of_lt (by omega))
  rw [textOf_of_clean (zero_notMem_nameAt i)] at hwrite
  exact ⟨_, _, ofNat_ne_neg_one (by omega), hwrite, hready, rfl, rfl⟩

/-- The loop of `cat`, on what has been opened. -/
theorem does_catLoop {args : List UInt8} {d : Dentry}
    (hready : Ready lit catStrings buf 1024 v.mem) (hopen : P.Openable args P.initFileArray d)
    (hlist : Listing P.fs n) (hwf : d.filetype = fileTypeFile → WellFormed P.fs d.inodeNum) :
    ∃ status text v', P.CatShows n args status text ∧
      P.Does f F (v.setFile 2 (P.opened d blank)) (P.readLoop W lit 2 buf 1024
        "file read failed\n" (P.catWrite W buf) addressSpace) status v' ∧
      v'.window = (v.print text).window := by
  have haddr : addressSpace = 4294967296 := rfl
  rcases hopen.type with hrtc | hdir | hfile
  · refine ⟨3, _, (v.setFile 2 (P.opened d blank)).print (bytes "file read failed\n"),
      CatShows.clock hopen hrtc, (does_read_closed (not_opened_clock 2 hrtc)).bind ?_, rfl⟩
    rw [if_neg (by decide), if_pos rfl]
    exact Ready.complain (v := v.setFile 2 (P.opened d blank)) hready (s := "file read failed\n")
      (by decide) 3
  · have hnum : numFiles = 63 := rfl
    have hle := hlist.le
    obtain ⟨v', hdoes, hwindow⟩ : ∃ v', P.Does f F (v.setFile 2 (P.opened d blank))
        (P.readLoop W lit 2 buf 1024 "file read failed\n" (P.catWrite W buf) addressSpace)
          (if n < numFiles then 0 else 3) v' ∧
        v'.window = ((v.setFile 2 (P.opened d blank)).print
          ((List.range' 0 (n - 0)).flatMap (fun i => id (P.nameAt i)) ++
            if n < numFiles then [] else bytes "file read failed\n")).window :=
      readLoop_directory 1024 id (show "file read failed\n" ∈ catStrings by decide)
        (show 32 < 1024 by decide) hlist
        (fun i _ v₁ hready₁ hstands => does_catWrite hready₁ hstands) hready
        (slot_open_directory 2 (by decide) hdir) (Nat.zero_le n) (by omega)
    rw [Nat.sub_zero, ← List.range_eq_range'] at hwindow
    by_cases hn : n < numFiles
    · rw [if_pos hn, List.append_nil] at hwindow
      rw [if_pos hn] at hdoes
      exact ⟨0, _, v', CatShows.directory hopen hdir hn, hdoes, hwindow⟩
    · rw [if_neg hn] at hwindow hdoes
      exact ⟨3, _, v', CatShows.fullDirectory hopen hdir (by omega), hdoes, hwindow⟩
  · have hlen := (hwf hfile).length_le
    obtain ⟨v', hdoes, hwindow⟩ : ∃ v', P.Does f F (v.setFile 2 (P.opened d blank))
        (P.readLoop W lit 2 buf 1024 "file read failed\n" (P.catWrite W buf) addressSpace) 0 v' ∧
        v'.window = ((v.setFile 2 (P.opened d blank)).print
          (pieces ((contents P.fs d.inodeNum).drop 0))).window :=
      readLoop_file hready (slot_open_file 2 (by decide) hfile) (hwf hfile) (Nat.zero_le _)
        (by omega)
    rw [List.drop_zero] at hwindow
    exact ⟨0, _, v', CatShows.file hopen hfile, hdoes, hwindow⟩

/-- **What `cat` does.** -/
theorem does_cat (hready : Ready lit catStrings buf 1024 v.mem) (hfiles : v.files = P.initFileArray)
    (hclean : (0 : UInt8) ∉ v.args) (hargs : v.args.length < 128) (hlist : Listing P.fs n)
    (hwf : ∀ name d, FirstNamed P.fs name d → d.filetype = fileTypeFile →
      WellFormed P.fs d.inodeNum) :
    ∃ status text v', P.CatShows n v.args status text ∧
      P.Does f F v (P.cat W lit buf) status v' ∧ v'.window = (v.print text).window := by
  by_cases hblank : v.args = []
  · refine ⟨3, _, _, hblank ▸ CatShows.noArguments, (does_getargs_blank hblank).bind ?_, rfl⟩
    rw [if_pos (by decide)]
    exact Ready.complain hready (by decide) 3
  · obtain ⟨v₁, hv₁⟩ : ∃ v₁, v.put buf (v.args ++ [0]) = v₁ := ⟨_, rfl⟩
    have hsize : (v.args ++ [0]).length = v.args.length + 1 := List.length_append
    have hpage : PageBlock buf (v.args.length + 1) := hready.buffer.mono (by omega)
    have hnbytes : (1024 : Int32).toInt = 1024 := by decide
    have hget : P.Does f F v (P.ece391Getargs W buf 1024) 0 v₁ := by
      rw [← hv₁]
      exact does_getargs hblank (by omega) hpage
    have hname : StringAt v₁.mem buf v.args := hv₁ ▸ stringAt_put hpage hclean
    have hready₁ : Ready lit catStrings buf 1024 v₁.mem := hv₁ ▸ hready.put (by omega)
    have hfiles₁ : v₁.files = P.initFileArray := by rw [← hv₁]; exact hfiles
    have hwindow₁ : v₁.window = v.window := by rw [← hv₁]; rfl
    by_cases hopen : ∃ d, P.Openable v.args P.initFileArray d
    · obtain ⟨d, hopen⟩ := hopen
      obtain ⟨status, text, v', hshows, hloop, hwindow⟩ := does_catLoop (W := W) (f := f) (F := F)
        hready₁ hopen hlist (hwf _ d hopen.first)
      refine ⟨status, text, v', hshows, hget.bind ?_, ?_⟩
      · rw [if_neg (by decide)]
        refine (does_open_first hfiles₁ hname hopen).bind ?_
        rw [if_neg (by decide)]
        exact hloop
      · rw [hwindow, View.window_print, hwindow₁, View.window_print]
    · have hnone : ∀ d, ¬P.Openable v.args P.initFileArray d := fun d h => hopen ⟨d, h⟩
      refine ⟨2, _, v₁.print (bytes "file not found\n"), CatShows.notFound hblank hnone,
        hget.bind ?_, ?_⟩
      · rw [if_neg (by decide)]
        refine (does_open_refused hname (hfiles₁ ▸ hnone)).bind ?_
        rw [if_pos rfl]
        exact Ready.complain hready₁ (by decide) 2
      · rw [View.window_print, hwindow₁, View.window_print]

/-- `ls` writes a name with a newline behind it. -/
theorem does_lsWrite {ss : List String} {i : ℕ} (hready : Ready lit ss buf 33 v.mem)
    (hstands : Stands v.mem buf (P.nameAt i ++ [0])) :
    ∃ r v', r ≠ -1 ∧ P.Does f F v (P.lsWrite W buf (Int32.ofNat (P.nameAt i).length)) r v' ∧
      Ready lit ss buf 33 v'.mem ∧ v'.files = v.files ∧
      v'.window = (v.print (P.nameAt i ++ [0x0A])).window := by
  have hlen : (P.nameAt i).length ≤ 32 := length_entryName_le _
  have hsize : (P.nameAt i ++ [0x0A]).length = (P.nameAt i).length + 1 := List.length_append
  -- the newline takes the place of the zero
  have hword : buf + (Int32.ofNat (P.nameAt i).length).toUInt32
      = buf + UInt32.ofNat (P.nameAt i).length := by rw [Int32.toUInt32_ofNat']
  have hstore := does_store (P := P) (f := f) (F := F) (v := v)
    (hready.buffer.mem (show (P.nameAt i).length < 33 by omega)) 0x0A
  rw [← hword] at hstore
  have hline : Stands (v.put (buf + UInt32.ofNat (P.nameAt i).length) [0x0A]).mem buf
      (P.nameAt i ++ [0x0A]) := stands_append_write (stands_append.1 hstands).1 (by simp; omega)
  have hcount : Int32.ofNat (P.nameAt i).length + 1
      = Int32.ofNat (P.nameAt i ++ [0x0A]).length := by
    rw [hsize, Int32.ofNat_add]
    rfl
  have hwrite := does_write (P := P) (W := W) (f := f) (F := F)
    (n := Int32.ofNat (P.nameAt i ++ [0x0A]).length)
    (v := v.put (buf + UInt32.ofNat (P.nameAt i).length) [0x0A])
    (hready.buffer.mono (by omega)) hline (Int32.toInt_ofNat_of_lt (by omega))
  have hclean : (0 : UInt8) ∉ P.nameAt i ++ [0x0A] := by
    intro hmem
    rcases List.mem_append.1 hmem with hmem | hmem
    · exact zero_notMem_nameAt i hmem
    · exact absurd (List.mem_singleton.1 hmem) (by decide)
  rw [textOf_of_clean hclean, ← hword] at hwrite
  refine ⟨_, (v.put (buf + (Int32.ofNat (P.nameAt i).length).toUInt32) [0x0A]).print
    (P.nameAt i ++ [0x0A]), ofNat_ne_neg_one (n := (P.nameAt i ++ [0x0A]).length) (by omega),
    hstore.bind ?_, ?_, rfl, rfl⟩
  · rw [hcount]
    exact hwrite
  · rw [hword]
    exact hready.put_at (by rw [List.length_singleton]; omega)

/-- **What `ls` does.** -/
theorem does_ls {d : Dentry} (hready : Ready lit lsStrings buf 33 v.mem)
    (hfiles : v.files = P.initFileArray) (hlist : Listing P.fs n)
    (hdot : FirstNamed P.fs (bytes ".") d) (hdir : d.filetype = fileTypeDir) :
    ∃ v', P.Does f F v (P.ls W lit buf) (if n < numFiles then 0 else 3) v' ∧
      v'.window = (v.print (P.lsText n ++
        if n < numFiles then [] else bytes "directory entry read failed\n")).window := by
  have hopen : P.Openable (bytes ".") P.initFileArray d :=
    ⟨by decide +kernel, hdot, Or.inr (Or.inl hdir), 2, by decide, rfl⟩
  have hfirst := does_open_first (W := W) (f := f) (F := F) hfiles
    (Ready.literal hready (s := ".") (by decide)) hopen
  have hnum : numFiles = 63 := rfl
  have haddr : addressSpace = 4294967296 := rfl
  have hle := hlist.le
  obtain ⟨v', hdoes, hwindow⟩ : ∃ v', P.Does f F (v.setFile 2 (P.opened d blank))
      (P.readLoop W lit 2 buf 32 "directory entry read failed\n" (P.lsWrite W buf) addressSpace)
        (if n < numFiles then 0 else 3) v' ∧
      v'.window = ((v.setFile 2 (P.opened d blank)).print
        ((List.range' 0 (n - 0)).flatMap (fun i => P.nameAt i ++ [0x0A]) ++
          if n < numFiles then [] else bytes "directory entry read failed\n")).window :=
    readLoop_directory 32 (· ++ [0x0A])
      (show "directory entry read failed\n" ∈ lsStrings by decide) (by decide) hlist
      (fun i _ v₁ hready₁ hstands => does_lsWrite hready₁ hstands) hready
      (slot_open_directory 2 (by decide) hdir) (Nat.zero_le n) (by omega)
  refine ⟨v', hfirst.bind ?_, ?_⟩
  · rw [if_neg (by decide)]
    exact hdoes
  · rw [hwindow, Nat.sub_zero, ← List.range_eq_range', lsText]
    rfl

end Programs

/-- **`cat` from start to end.**  Started by `execute` on an image whose directory has `n`
entries and whose files are well formed, `cat` ends for every command line: it has printed the
file it was asked for, or the message for what went wrong, behind what was on the screen, and
its caller goes on with its result. -/
theorem cat_ends (P : Platform) (W : World) {m m₁ : Machine} {command buf : UInt32} {regs : Regs}
    {s : List UInt8} {lit : Literals} {n : ℕ} (hm : P.Reachable m)
    (hs : cstr (P.bytesAt m.kernel command) = some s)
    (hexec : P.step m (.call (.execute command) regs) = some m₁)
    (hstarted : m₁.frames.length = m.frames.length + 1)
    (hcursor : m₁.kernel.toScreen.InBounds) (hready : Ready lit catStrings buf 1024 (userMem m₁))
    (hlist : Listing P.fs n) (hwf : ∀ name d, FirstNamed P.fs name d →
      d.filetype = fileTypeFile → WellFormed P.fs d.inodeNum) :
    ∃ status text u, P.CatShows n ([delim].intercalate (words delim s).tail) status text ∧
      P.start W (P.cat W lit buf) ⟨m₁, 0⟩ = some ((), u) ∧
      P.Ended m.frames status.toUInt32.toUInt8
        (text.foldl putcWindow m₁.kernel.toScreen.window) u.machine := by
  obtain ⟨f, hshows⟩ := shows_started hm hs hexec hstarted hcursor
  obtain ⟨status, text, v', htext, hdoes, hwindow⟩ := does_cat (W := W) (f := f)
    (F := m.frames) (v := ⟨m₁.kernel.toScreen.window, userMem m₁, P.initFileArray,
      [delim].intercalate (words delim s).tail⟩) hready rfl hshows.args.arg.clean hshows.length_args
    hlist hwf
  obtain ⟨u, hrun, hended⟩ := start_ends (W := W) hdoes (u := ⟨m₁, 0⟩) hshows
  rw [hwindow] at hended
  exact ⟨status, text, u, htext, hrun, hended⟩

/-- **`ls` from start to end.**  It prints the names of the directory, one a line, and ends
with success, or with a failed read where the directory is full. -/
theorem ls_ends (P : Platform) (W : World) {m m₁ : Machine} {command buf : UInt32} {regs : Regs}
    {s : List UInt8} {lit : Literals} {n : ℕ} {d : Dentry} (hm : P.Reachable m)
    (hs : cstr (P.bytesAt m.kernel command) = some s)
    (hexec : P.step m (.call (.execute command) regs) = some m₁)
    (hstarted : m₁.frames.length = m.frames.length + 1)
    (hcursor : m₁.kernel.toScreen.InBounds) (hready : Ready lit lsStrings buf 33 (userMem m₁))
    (hlist : Listing P.fs n) (hdot : FirstNamed P.fs (bytes ".") d)
    (hdir : d.filetype = fileTypeDir) :
    ∃ u, P.start W (P.ls W lit buf) ⟨m₁, 0⟩ = some ((), u) ∧
      P.Ended m.frames (if n < numFiles then 0 else 3)
        ((P.lsText n ++ if n < numFiles then [] else bytes "directory entry read failed\n").foldl
          putcWindow m₁.kernel.toScreen.window) u.machine := by
  obtain ⟨f, hshows⟩ := shows_started hm hs hexec hstarted hcursor
  obtain ⟨v', hdoes, hwindow⟩ := does_ls (W := W) (f := f) (F := m.frames)
    (v := ⟨m₁.kernel.toScreen.window, userMem m₁, P.initFileArray,
      [delim].intercalate (words delim s).tail⟩) hready rfl hlist hdot hdir
  obtain ⟨u, hrun, hended⟩ := start_ends (W := W) hdoes (u := ⟨m₁, 0⟩) hshows
  rw [hwindow, View.window_print] at hended
  refine ⟨u, hrun, ?_⟩
  by_cases hn : n < numFiles
  · rw [if_pos hn] at hended ⊢
    exact hended
  · rw [if_neg hn] at hended ⊢
    exact hended

/-! ## A sample -/

/-- String literals, 64 bytes each. -/
def sampleLiterals (ss : List String) : Literals := fun s =>
  0x8001000 + 64 * UInt32.ofNat (ss.idxOf s)

/-- A machine with a command, and with string literals in the page of the first program. -/
def filesBoot (ss : List String) (command : String) : Machine :=
  bootMachine samplePlatform ((0x500000, bytes command) :: ss.map fun s =>
    (sampleLiterals ss s - 0x7800000, bytes s))

/-- Every system call is made with 64 bytes on the stack. -/
def sampleWorld : World where
  regs := fun _ => ⟨64, 0⟩
  input := fun _ => ⟨[], false⟩
  depth_pos := fun _ => by decide
  depth_le := fun _ => by decide

theorem ready_sample {ss : List String} (buf : UInt32) {n : ℕ} {mem : UInt32 → UInt8}
    (hlo : 0x8010000 ≤ buf.toNat) (hhi : buf.toNat + n ≤ 0x8400000)
    (hplace : ∀ s ∈ ss, 0x8000000 ≤ (sampleLiterals ss s).toNat ∧
      (sampleLiterals ss s).toNat + ((bytes s).length + 1) ≤ 0x8010000 ∧ (0 : UInt8) ∉ bytes s)
    (hmem : ∀ s ∈ ss, Stands mem (sampleLiterals ss s) (bytes s ++ [0])) :
    Ready (sampleLiterals ss) ss buf n mem := by
  refine ⟨⟨by omega, by omega⟩, fun x hx => ?_⟩
  obtain ⟨s, hs, rfl⟩ := List.mem_map.1 hx
  obtain ⟨hstart, hend, hclean⟩ := hplace s hs
  dsimp only
  exact ⟨⟨⟨hstart, by omega⟩, hmem s hs, hclean⟩, disjoint_of_le (by omega) (by omega)⟩

/-- The sample image has one file. -/
theorem wellFormed_named (name : List UInt8) (d : Dentry)
    (hfirst : FirstNamed samplePlatform.fs name d) (hfile : d.filetype = fileTypeFile) :
    WellFormed samplePlatform.fs d.inodeNum := by
  obtain ⟨idx, hd, -⟩ := hfirst
  have hinode : ∀ i < numFiles,
      (direntry samplePlatform.fs (UInt32.ofNat i)).filetype = fileTypeFile →
        (direntry samplePlatform.fs (UInt32.ofNat i)).inodeNum = 1 := by
    decide +kernel
  rw [hd.entry] at hfile ⊢
  rw [hinode idx hd.index hfile]
  exact wellFormed_sample

theorem firstNamed_dot :
    FirstNamed samplePlatform.fs (bytes ".") (direntry samplePlatform.fs 0) :=
  ⟨0, ⟨by decide, rfl, by decide +kernel, fun j hj => absurd hj (Nat.not_lt_zero j)⟩,
    by decide +kernel⟩

/-- A program of the sample is started. -/
theorem filesBoot_started (ss : List String) (command : String)
    (h : (samplePlatform.step (filesBoot ss command) (.call (.execute 0x500000)
      ⟨64, 0x7FFFF0⟩)).any
      (fun m₁ => decide (m₁.frames.length = 1) && decide (0 ≤ m₁.kernel.screenX) &&
        decide (m₁.kernel.screenX < numCols) && decide (0 ≤ m₁.kernel.screenY) &&
        decide (m₁.kernel.screenY < numRows) && decide (userMem m₁ 0x8012400 = 0) &&
        ss.all fun s =>
          decide (Stands (userMem m₁) (sampleLiterals ss s) (bytes s ++ [0]))) = true) :
    ∃ m₁, samplePlatform.step (filesBoot ss command) (.call (.execute 0x500000) ⟨64, 0x7FFFF0⟩)
        = some m₁ ∧ m₁.frames.length = 1 ∧ m₁.kernel.toScreen.InBounds ∧
      userMem m₁ 0x8012400 = 0 ∧
      ∀ s ∈ ss, Stands (userMem m₁) (sampleLiterals ss s) (bytes s ++ [0]) := by
  simp only [Option.any_eq_true, Bool.and_eq_true, decide_eq_true_eq, List.all_eq_true] at h
  obtain ⟨m₁, hm₁, ⟨⟨⟨⟨⟨hframes, hx⟩, hx'⟩, hy⟩, hy'⟩, hlimit⟩, hstands⟩ := h
  exact ⟨m₁, hm₁, hframes, ⟨hx, hx', hy, hy'⟩, hlimit, hstands⟩

/-- `cat` prints the file `sh`. -/
theorem cat_ends_sh :
    ∃ m₁ status text u, samplePlatform.step (filesBoot catStrings "sh sh")
        (.call (.execute 0x500000) ⟨64, 0x7FFFF0⟩) = some m₁ ∧
      samplePlatform.CatShows 3 (bytes "sh") status text ∧
      samplePlatform.start sampleWorld (samplePlatform.cat sampleWorld (sampleLiterals catStrings)
        0x8010000) ⟨m₁, 0⟩ = some ((), u) ∧
      samplePlatform.Ended [] status.toUInt32.toUInt8
        (text.foldl putcWindow m₁.kernel.toScreen.window) u.machine := by
  have hstring : cstr (samplePlatform.bytesAt (filesBoot catStrings "sh sh").kernel 0x500000)
      = some (bytes "sh sh") := by
    decide +kernel
  obtain ⟨m₁, hm₁, hframes, hcursor, -, hstands⟩ := filesBoot_started catStrings "sh sh"
    (by decide +kernel)
  obtain ⟨status, text, u, hrest⟩ := cat_ends samplePlatform sampleWorld
    ⟨_, [], boot_bootMachine _ _, rfl⟩ hstring hm₁ hframes hcursor
    (ready_sample 0x8010000 (by decide) (by decide) (by decide +kernel) hstands) listing_sample
    wellFormed_named
  have hargs : [delim].intercalate (words delim (bytes "sh sh")).tail = bytes "sh" := by
    decide +kernel
  rw [hargs] at hrest
  exact ⟨m₁, status, text, u, hm₁, hrest⟩

/-- `ls` prints the three names of the sample. -/
theorem ls_ends_three :
    ∃ m₁ u, samplePlatform.step (filesBoot lsStrings "sh")
        (.call (.execute 0x500000) ⟨64, 0x7FFFF0⟩) = some m₁ ∧
      samplePlatform.start sampleWorld (samplePlatform.ls sampleWorld (sampleLiterals lsStrings)
        0x8010000) ⟨m₁, 0⟩ = some ((), u) ∧
      samplePlatform.Ended [] 0 ((bytes ".\nrtc\nsh\n").foldl putcWindow
        m₁.kernel.toScreen.window) u.machine := by
  have hstring : cstr (samplePlatform.bytesAt (filesBoot lsStrings "sh").kernel 0x500000)
      = some (bytes "sh") := by
    decide +kernel
  obtain ⟨m₁, hm₁, hframes, hcursor, -, hstands⟩ := filesBoot_started lsStrings "sh"
    (by decide +kernel)
  obtain ⟨u, hrun, hended⟩ := ls_ends samplePlatform sampleWorld
    ⟨_, [], boot_bootMachine _ _, rfl⟩ hstring hm₁ hframes hcursor
    (ready_sample 0x8010000 (by decide) (by decide) (by decide +kernel) hstands) listing_sample
    firstNamed_dot (by decide +kernel)
  have htext : samplePlatform.lsText 3 ++ (if 3 < numFiles then [] else
      bytes "directory entry read failed\n") = bytes ".\nrtc\nsh\n" := by
    decide +kernel
  rw [htext] at hended
  exact ⟨m₁, u, hm₁, hrun, hended⟩

end Platform

end CheetOS
