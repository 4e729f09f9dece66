import CheetOS.Allocation
import CheetOS.Commands

/-!
# The names of the directory

Which of the names that `directory_read` lists can be passed to `open` and to
`execute`.  A name fills up to 32 bytes of its entry; the look-up compares all 32,
but `file_open` wants a zero among them, and `execute` wants two.

* `strncmp_eq_zero_iff` says that the look-up compares whole names;
* `findDentry_first` that it returns the first entry with a name;
* `listed_names_iff` which names are accepted.
-/

namespace CheetOS

open Exec
open Platform (delim)

/-! ## Comparing names -/

theorem toInt32_sub_eq_zero {a b : UInt8} :
    a.toInt8.toInt32 - b.toInt8.toInt32 = 0 ↔ a = b := by
  constructor
  · intro h
    have heq : a.toInt8.toInt32 = b.toInt8.toInt32 := by
      have hadd := congrArg (· + b.toInt8.toInt32) h
      simpa using hadd
    have hint := congrArg Int32.toInt heq
    rw [Int8.toInt_toInt32, Int8.toInt_toInt32] at hint
    have hback := congrArg Int8.toUInt8 (Int8.toInt_inj.1 hint)
    rwa [UInt8.toUInt8_toInt8, UInt8.toUInt8_toInt8] at hback
  · rintro rfl
    exact Int32.sub_self _

/-- `strncmp` compares a string with what stands in a name field before its first
zero or its end. -/
theorem strncmpFrom_holds {s : ℕ → Option UInt8} {d : Dentry} {n i : ℕ} {l : List UInt8}
    (h : Holds (fun j => s (i + j)) l) (hlen : l.length ≤ n) :
    ∃ r, strncmpFrom s d.filename n i = some r ∧ (r = 0 ↔ Platform.nameFrom d n i = l) := by
  induction n generalizing i l with
  | zero =>
    obtain rfl := List.eq_nil_of_length_eq_zero (Nat.le_zero.1 hlen)
    exact ⟨0, rfl, by simp [Platform.nameFrom]⟩
  | succ n ih =>
    cases l with
    | nil =>
      have hstop : s i = some 0 := h.stop
      refine ⟨(0 : UInt8).toInt8.toInt32 - (d.filename i).toInt8.toInt32, ?_, ?_⟩
      · rw [strncmpFrom]
        simp only [hstop, or_true, if_true]
      · rw [toInt32_sub_eq_zero, Platform.nameFrom]
        by_cases hz : d.filename i = 0
        · simp [hz]
        · simp [hz, Ne.symm hz]
    | cons c l =>
      obtain ⟨hc, hne, hrest⟩ := holds_index_cons h
      by_cases heq : c = d.filename i
      · obtain ⟨r, hr, hiff⟩ := ih hrest (Nat.le_of_succ_le_succ hlen)
        refine ⟨r, ?_, ?_⟩
        · rw [strncmpFrom]
          simp only [hc, ← heq, ne_eq, not_true_eq_false, hne, or_self, if_false]
          exact hr
        · rw [hiff, Platform.nameFrom, if_neg (heq ▸ hne), ← heq, List.cons.injEq]
          simp
      · refine ⟨c.toInt8.toInt32 - (d.filename i).toInt8.toInt32, ?_, ?_⟩
        · rw [strncmpFrom]
          simp only [hc, ne_eq, heq, not_false_eq_true, true_or, if_true]
        · rw [toInt32_sub_eq_zero, Platform.nameFrom]
          by_cases hz : d.filename i = 0
          · simp [hz, hne]
          · simp [hz, heq, Ne.symm heq]

theorem strncmp_holds {s : ℕ → Option UInt8} {d : Dentry} {l : List UInt8} (h : Holds s l)
    (hlen : l.length ≤ filenameLen) :
    ∃ r, strncmp s d.filename filenameLen = some r ∧ (r = 0 ↔ Platform.entryName d = l) := by
  refine strncmpFrom_holds (i := 0) ?_ hlen
  simp only [Nat.zero_add]
  exact h

theorem length_nameFrom_le (d : Dentry) (n i : ℕ) : (Platform.nameFrom d n i).length ≤ n := by
  induction n generalizing i with
  | zero => exact le_refl 0
  | succ n ih =>
    rw [Platform.nameFrom]
    split_ifs
    · exact Nat.zero_le _
    · exact Nat.succ_le_succ (ih (i + 1))

theorem length_entryName_le (d : Dentry) : (Platform.entryName d).length ≤ filenameLen :=
  length_nameFrom_le d filenameLen 0

/-! ## Looking up a name -/

/-- The look-up returns the first entry with the name. -/
theorem findDentry_first {fs : Image} {s : ℕ → Option UInt8} {l : List UInt8} (h : Holds s l)
    (hlen : l.length ≤ filenameLen) {start idx n : ℕ} (hstart : start ≤ idx)
    (hend : idx < start + n) (hidx : idx < numFiles)
    (hname : Platform.entryName (direntry fs (UInt32.ofNat idx)) = l)
    (hfirst : ∀ j, start ≤ j → j < idx →
      Platform.entryName (direntry fs (UInt32.ofNat j)) ≠ l) :
    findDentry fs s n (UInt32.ofNat start) = some (some (direntry fs (UInt32.ofNat idx))) := by
  induction n generalizing start with
  | zero => omega
  | succ n ih =>
    obtain ⟨r, hr, hiff⟩ := strncmp_holds (d := direntry fs (UInt32.ofNat start)) h hlen
    rw [findDentry]
    simp only [hr]
    by_cases heq : start = idx
    · subst heq
      rw [if_pos (hiff.2 hname)]
      have hlt : ¬UInt32.ofNat start ≥ UInt32.ofNat numFiles := by
        have hsmall : start < 63 := hidx
        have hcount : (UInt32.ofNat numFiles).toNat = 63 := rfl
        rw [ge_iff_le, UInt32.le_iff_toNat_le, hcount, Word32.toNat_ofNat (by omega)]
        omega
      rw [readDentryByIndex, if_neg hlt]
    · have hne : r ≠ 0 := fun h0 => hfirst start (le_refl _) (by omega) (hiff.1 h0)
      rw [if_neg hne]
      have hnext : UInt32.ofNat start + 1 = UInt32.ofNat (start + 1) := by
        rw [UInt32.ofNat_add]
        rfl
      rw [hnext]
      exact ih (by omega) (by omega) fun j hj hj' => hfirst j (by omega) hj'

/-- An entry that is the first with its name. -/
structure Listed (fs : Image) (idx : ℕ) (d : Dentry) : Prop where
  index : idx < numFiles
  entry : d = direntry fs (UInt32.ofNat idx)
  name_ne : Platform.entryName d ≠ []
  first : ∀ j < idx, Platform.entryName (direntry fs (UInt32.ofNat j)) ≠ Platform.entryName d

theorem Listed.readDentryByName_eq {fs : Image} {idx : ℕ} {d : Dentry} (hd : Listed fs idx d)
    {s : ℕ → Option UInt8} (h : Holds s (Platform.entryName d)) :
    readDentryByName fs (some s) = some (some d) := by
  have hfind := findDentry_first (n := numFiles) h (length_entryName_le d) (Nat.zero_le idx)
    (by rw [Nat.zero_add]; exact hd.index) hd.index (by rw [← hd.entry])
    fun j _ hj => hd.first j hj
  obtain ⟨c, l, hl⟩ := List.exists_cons_of_ne_nil hd.name_ne
  rw [hl] at h
  obtain ⟨hc, hne, -⟩ := holds_cons.1 h
  rw [readDentryByName]
  simp only [hc, if_neg hne]
  rw [hd.entry]
  exact hfind

namespace Platform

variable {P : Platform}

/-! ## open -/

variable (P) in
/-- The operations for a file type. -/
def tableOf (ty : UInt32) : UInt32 :=
  if ty = fileTypeFile then P.fileOps else if ty = fileTypeDir then P.directoryOps else P.rtcOps

variable (P) in
/-- The slot belongs to the entry. -/
structure BoundTo (d : Dentry) (f : FileDesc) : Prop where
  inode : f.inodeNum = d.inodeNum
  table : f.fileOpsTablePtr = P.tableOf d.filetype

theorem boundTo_opened (d : Dentry) (old : FileDesc) : P.BoundTo d (P.opened d old) := by
  unfold opened
  split_ifs with hfile hdir
  · exact ⟨rfl, by rw [tableOf, if_pos hfile]⟩
  · exact ⟨rfl, by rw [tableOf, if_neg hfile, if_pos hdir]⟩
  · exact ⟨rfl, by rw [tableOf, if_neg hfile, if_neg hdir]⟩

/-- Only the clock's slot is not marked. -/
theorem flags_opened_iff {d : Dentry} {old : FileDesc} (hold : old.flags = fileAvail)
    (hty : knownType d.filetype) :
    (P.opened d old).flags = fileOccup ↔ d.filetype ≠ fileTypeRtc := by
  have hne : fileAvail ≠ fileOccup := by decide
  rcases hty with hr | hr | hr
  · rw [P.flags_opened d old hr, hold, hr]
    exact iff_of_false hne (not_not.2 rfl)
  · rw [opened, hr]
    exact iff_of_true rfl (by decide)
  · rw [opened, hr]
    exact iff_of_true rfl (by decide)

theorem firstAvail_isSome {files : FileArray}
    (h : ∃ i : Fin numMaxOpenFiles, 2 ≤ i.val ∧ (files i).flags = fileAvail) :
    ∃ i, firstAvail files = some i := by
  obtain ⟨i, hi, hfree⟩ := h
  rw [← Option.isSome_iff_exists, firstAvail, List.find?_isSome]
  exact ⟨i, List.mem_finRange i, by simp [hi, hfree]⟩

/-- What `open` decides for a listed name. -/
theorem openResult_listed {idx : ℕ} {d : Dentry} (hd : Listed P.fs idx d)
    (hty : knownType d.filetype) {s : ℕ → Option UInt8} (h : Holds s (entryName d))
    (files : FileArray) :
    P.openResult files (some s) =
      some (if (entryName d).length ≥ filenameLen then none
        else (firstAvail files).map fun i => (i, d)) := by
  have hlen : strlen s = some (entryName d).length := by
    unfold strlen
    rw [cstr_eq_some.2 ⟨lt_of_le_of_lt (length_entryName_le d) (by decide), h⟩]
    rfl
  unfold openResult
  simp only [hd.readDentryByName_eq h, hty, if_true, hlen]
  split_ifs
  · rfl
  · rfl

/-! ## execute -/

/-- `execute` and a name without spaces. -/
theorem findProgram_listed {idx : ℕ} {d : Dentry} (hd : Listed P.fs idx d)
    (hfile : d.filetype = fileTypeFile) (hspace : delim ∉ entryName d) {p : UInt32} {k : Kernel}
    (hp : p ≠ 0) (h : Holds (P.bytesAt k p) (entryName d)) :
    P.findProgram p k = .ok (programNamed P.fs (entryName d)) { k with last := 0 } := by
  have hlen : (entryName d).length < addressSpace :=
    lt_of_le_of_lt (length_entryName_le d) (by decide)
  have hread : P.readString p { k with last := 0 }
      = .ok (entryName d) { k with last := 0 } := by
    unfold readString
    have hcstr : cstr (P.bytesAt { k with last := 0 } p) = some (entryName d) :=
      cstr_eq_some.2 ⟨hlen, h⟩
    rw [get_bind_run, hcstr]
    rfl
  have hlookup := hd.readDentryByName_eq (holds_ofList h.clean)
  unfold findProgram
  rw [bind_of_ok (strtok_single hp h hd.name_ne hspace hlen), if_neg hp, bind_of_ok hread]
  unfold programNamed
  split_ifs with hlong
  · rfl
  · rw [bind_of_ok (strcpyFilename_fits hlong _), hlookup, orUnread_bind_some]
    simp only [hfile, ne_eq, not_true_eq_false, if_false, if_true]
    rfl

theorem programNamed_listed {idx : ℕ} {d : Dentry} (hd : Listed P.fs idx d)
    (hfile : d.filetype = fileTypeFile) (hclean : (0 : UInt8) ∉ entryName d) :
    programNamed P.fs (entryName d) = some d ↔ (entryName d).length ≤ 30 := by
  rw [programNamed_eq_some]
  have hlt : (entryName d).length < filenameLen - 1 ↔ (entryName d).length ≤ 30 :=
    Nat.lt_succ_iff
  constructor
  · exact fun h => hlt.1 h.1
  · exact fun h => ⟨hlt.2 h, hd.readDentryByName_eq (holds_ofList hclean), hfile⟩

/-! ## Which names are accepted -/

variable (P) in
/-- `open` of the string at `p` returns a descriptor whose slot belongs to the entry
and satisfies `q`. -/
def OpensAs (m : Machine) (p : UInt32) (regs : Regs) (d : Dentry) (q : FileDesc → Prop) : Prop :=
  ∃ m' i, P.step m (.call (.plain (.open p)) regs) = some m' ∧ 2 ≤ Fin.val i ∧
    m'.eax = UInt32.ofNat (Fin.val i) ∧ P.BoundTo d (m'.files i) ∧ q (m'.files i)

section Open

variable {m : Machine} {regs : Regs} {p : UInt32} {idx : ℕ} {d : Dentry}
  (hrunning : Running P m) (h0 : 0 < regs.depth) (hroom : regs.depth ≤ stackRoom)
  (hd : Listed P.fs idx d) (hty : knownType d.filetype) (hp : p ≠ 0)
  (hstring : Holds (P.bytesAt (m.enter regs) p) (entryName d))

include hrunning h0 hroom hd hty hp hstring

/-- A name that fills its field is refused. -/
theorem not_opensAs (hlen : 31 < (entryName d).length) (q : FileDesc → Prop) :
    ¬P.OpensAs m p regs d q := by
  rintro ⟨m', i, hstep, -, heax, -⟩
  have hlong : (entryName d).length ≥ filenameLen := hlen
  have hresult := openResult_listed hd hty hstring (m.enter regs).fileArray
  rw [if_pos hlong] at hresult
  have hcall : P.plain (.open p) (m.enter regs) = .ok (-1) (m.enter regs) := by
    refine P.sysOpen_refused ?_
    rw [charPtr, if_neg hp]
    exact hresult
  rw [P.step_of_plain hrunning.live h0 hroom hcall] at hstep
  obtain rfl := Option.some.inj hstep
  have hall : ∀ i : Fin numMaxOpenFiles, (-1 : Int32).toUInt32 ≠ UInt32.ofNat i := by decide
  exact hall i heax

/-- A shorter one is opened. -/
theorem opensAs (hlen : (entryName d).length ≤ 31)
    (hfree : ∃ i : Fin numMaxOpenFiles, 2 ≤ i.val ∧ (m.files i).flags = fileAvail) :
    ∃ m' i, P.step m (.call (.plain (.open p)) regs) = some m' ∧ 2 ≤ Fin.val i ∧
      m'.eax = UInt32.ofNat (Fin.val i) ∧ (m.files i).flags = fileAvail ∧
      m'.files i = P.opened d (m.files i) := by
  have hfiles := hrunning.fileArray_enter h0 hroom
  obtain ⟨i, hi⟩ := firstAvail_isSome hfree
  obtain ⟨htwo, havail, -⟩ := firstAvail_spec hi
  have hshort : ¬(entryName d).length ≥ filenameLen := Nat.not_le.2 (Nat.lt_succ_of_le hlen)
  have hresult := openResult_listed hd hty hstring (m.enter regs).fileArray
  rw [if_neg hshort, hfiles, hi] at hresult
  have hfound : P.openResult (m.enter regs).fileArray (P.charPtr (m.enter regs) p)
      = some (some (i, d)) := by
    rw [charPtr, if_neg hp, hfiles]
    exact hresult
  obtain ⟨k', hcall, htables, -⟩ := P.sysOpen_found hfound
  refine ⟨_, i, P.step_of_plain hrunning.live h0 hroom hcall, htwo, ?_, havail, ?_⟩
  · exact Int32.toUInt32_ofNat'
  · rw [hrunning.files_setFile h0 hroom htables, Function.update_self, hfiles]

end Open

/-- **Which of the listed names can be used.**  For every entry that is the first with
its name and has a known type, and the name `directory_read` delivers for it: `open`
returns a descriptor for the entry exactly if the name does not fill its field, one
that is marked as in use exactly if the entry is no clock either; and `execute` finds
a regular file whose name has no space exactly if two bytes of the field are left. -/
theorem listed_names_iff (P : Platform) {m : Machine} {regs : Regs} {p : UInt32} {idx : ℕ}
    {d : Dentry} (hm : P.Reachable m) (hlive : m.frames ≠ []) (h0 : 0 < regs.depth)
    (hroom : regs.depth ≤ stackRoom) (hd : Listed P.fs idx d) (hty : knownType d.filetype)
    (hstring : cstr (P.bytesAt m.kernel p) = some (entryName d))
    (hfree : ∃ i : Fin numMaxOpenFiles, 2 ≤ i.val ∧ (m.files i).flags = fileAvail) :
    (P.OpensAs m p regs d (fun _ => True) ↔ (entryName d).length ≤ 31) ∧
    (P.OpensAs m p regs d (fun f => f.flags = fileOccup) ↔
      (entryName d).length ≤ 31 ∧ d.filetype ≠ fileTypeRtc) ∧
    (d.filetype = fileTypeFile → delim ∉ entryName d →
      ((∃ k', P.findProgram p (m.enter regs) = .ok (some d) k') ↔ (entryName d).length ≤ 30)) := by
  have hrunning := running_reachable hm hlive
  have hholds : Holds (P.bytesAt (m.enter regs) p) (entryName d) := (cstr_eq_some.1 hstring).2
  have hspace := space_enter hm regs
  have hp : p ≠ 0 := ne_zero_of_holds hspace hholds
  have hlong : ∀ q, P.OpensAs m p regs d q → (entryName d).length ≤ 31 := by
    intro q hopens
    by_contra hlen
    exact not_opensAs hrunning h0 hroom hd hty hp hholds (not_le.1 hlen) q hopens
  refine ⟨⟨hlong _, fun hlen => ?_⟩, ⟨fun hopens => ⟨hlong _ hopens, ?_⟩, ?_⟩, fun hfile hdelim => ?_⟩
  · obtain ⟨m', i, hstep, htwo, heax, -, hslot⟩ :=
      opensAs hrunning h0 hroom hd hty hp hholds hlen hfree
    exact ⟨m', i, hstep, htwo, heax, hslot ▸ boundTo_opened d _, trivial⟩
  · obtain ⟨m₁, j, hstep₁, htwo₁, heax₁, havail, hslot⟩ :=
      opensAs hrunning h0 hroom hd hty hp hholds (hlong _ hopens) hfree
    obtain ⟨m', i, hstep, htwo, heax, -, hocc⟩ := hopens
    rw [hstep₁] at hstep
    obtain rfl := Option.some.inj hstep
    have hinj : ∀ i j : Fin numMaxOpenFiles, UInt32.ofNat i = UInt32.ofNat j → i = j := by decide
    obtain rfl := hinj j i (heax₁.symm.trans heax)
    rw [hslot] at hocc
    exact (flags_opened_iff havail hty).1 hocc
  · rintro ⟨hlen, hclock⟩
    obtain ⟨m', i, hstep, htwo, heax, havail, hslot⟩ :=
      opensAs hrunning h0 hroom hd hty hp hholds hlen hfree
    refine ⟨m', i, hstep, htwo, heax, hslot ▸ boundTo_opened d _, ?_⟩
    rw [hslot]
    exact (flags_opened_iff havail hty).2 hclock
  · rw [findProgram_listed hd hfile hdelim hp hholds, ← programNamed_listed hd hfile hholds.clean]
    constructor
    · rintro ⟨k', hfound⟩
      injection hfound
    · intro hnamed
      exact ⟨_, by rw [hnamed]⟩

/-- The name of the shell can be used. -/
theorem listed_names_iff_sh :
    ∃ m, Run.run samplePlatform.step sampleBoot [.call (.execute 0x500000) ⟨64, 0x7FFFF0⟩] = some m ∧
      samplePlatform.OpensAs m 0x500100 ⟨64, 0⟩ (direntry sampleImage 2)
        (fun f => f.flags = fileOccup) := by
  have hrun : (Run.run samplePlatform.step sampleBoot
      [.call (.execute 0x500000) ⟨64, 0x7FFFF0⟩]).any (fun m : Machine => decide (m.frames ≠ []) &&
        decide (cstr (samplePlatform.bytesAt m.kernel 0x500100)
          = some (entryName (direntry sampleImage 2))) &&
        decide ((m.files 2).flags = fileAvail)) = true := by
    decide +kernel
  simp only [Option.any_eq_true, Bool.and_eq_true, decide_eq_true_eq] at hrun
  obtain ⟨m, hm, ⟨hlive, hstring⟩, hfree⟩ := hrun
  have hlisted : Listed samplePlatform.fs 2 (direntry sampleImage 2) :=
    ⟨by decide, rfl, by decide +kernel, by decide +kernel⟩
  have hnames := listed_names_iff samplePlatform ⟨_, _, boot_bootMachine _ _, hm⟩ hlive
    (show 0 < (⟨64, 0⟩ : Regs).depth by decide) (by decide) hlisted (by decide +kernel) hstring
    ⟨2, by decide, hfree⟩
  exact ⟨m, hm, hnames.2.1.2 ⟨by decide +kernel, by decide +kernel⟩⟩

/-- A directory with a name of 32 bytes. -/
def longImage : Image := memoryOf
  [(0, Bytes.wordBytes 3 ++ Bytes.wordBytes 2 ++ Bytes.wordBytes 2),
   (64, dentryBytes ".".toUTF8.toList fileTypeDir 0),
   (128, dentryBytes "sh".toUTF8.toList fileTypeFile 1),
   (192, dentryBytes "verylargetextwithverylongname.tx".toUTF8.toList fileTypeFile 1),
   (8192, Bytes.wordBytes 28),
   (12288, [0x7F, 0x45, 0x4C, 0x46] ++ List.replicate 20 0 ++ Bytes.wordBytes 0x8048020)]

def longPlatform : Platform := { sampleLayout with fs := longImage }

def longBoot : Machine :=
  bootMachine longPlatform [(0x500000, "sh".toUTF8.toList),
    (0x500100, "verylargetextwithverylongname.tx".toUTF8.toList)]

/-- A program asks for a file by the 32 bytes the directory lists, with every slot
free, and gets `-1`. -/
theorem long_name_refused :
    ∃ m m', Run.run longPlatform.step longBoot [.call (.execute 0x500000) ⟨64, 0x7FFFF0⟩] = some m ∧
      Listed longPlatform.fs 2 (direntry longImage 2) ∧
      (direntry longImage 2).filetype = fileTypeFile ∧
      cstr (longPlatform.bytesAt m.kernel 0x500100) = some (entryName (direntry longImage 2)) ∧
      (m.files 2).flags = fileAvail ∧
      longPlatform.step m (.call (.plain (.open 0x500100)) ⟨64, 0⟩) = some m' ∧
      m'.eax = (-1 : Int32).toUInt32 ∧
      ¬longPlatform.OpensAs m 0x500100 ⟨64, 0⟩ (direntry longImage 2) (fun _ => True) := by
  have hrun : (Run.run longPlatform.step longBoot
      [.call (.execute 0x500000) ⟨64, 0x7FFFF0⟩]).any (fun m : Machine => decide (m.frames ≠ []) &&
        decide (cstr (longPlatform.bytesAt m.kernel 0x500100)
          = some (entryName (direntry longImage 2))) &&
        decide ((m.files 2).flags = fileAvail) &&
        (longPlatform.step m (.call (.plain (.open 0x500100)) ⟨64, 0⟩)).any fun m' =>
          decide (m'.eax = (-1 : Int32).toUInt32)) = true := by
    decide +kernel
  simp only [Option.any_eq_true, Bool.and_eq_true, decide_eq_true_eq] at hrun
  obtain ⟨m, hm, ⟨⟨hlive, hstring⟩, hfree⟩, m', hm', heax⟩ := hrun
  have hlisted : Listed longPlatform.fs 2 (direntry longImage 2) :=
    ⟨by decide, rfl, by decide +kernel, by decide +kernel⟩
  refine ⟨m, m', hm, hlisted, by decide +kernel, hstring, hfree, hm', heax, ?_⟩
  rintro ⟨m₁, i, hstep, -, hret, -⟩
  rw [hm'] at hstep
  obtain rfl := Option.some.inj hstep
  have hall : ∀ i : Fin numMaxOpenFiles, (-1 : Int32).toUInt32 ≠ UInt32.ofNat i := by decide
  exact hall i (heax.symm.trans hret)

end Platform

end CheetOS
