import CheetOS.LineEcho
import CheetOS.Sequential

/-!
# Listing a directory

What a program receives that reads a directory entry by entry, as `ls` does, whatever
else it does with other descriptors in between.

* `Listing` is a directory of `n` named entries with zeros behind them;
* `directoryAt` is a descriptor in front of an entry, `directory_read_step` one read
  on it: the position stops behind the last of the 63 entries of the table, where
  every read fails;
* `directory_reads` — the reads enumerate the directory and then return 0, and `ls`
  ends with success, exactly as long as there are at most 63 of them.
-/

namespace CheetOS

open Exec

/-! ## Directories -/

/-- `boot_block_t.dir_count`. -/
def dirCount (fs : Image) : UInt32 := imageWord fs 0

/-- The first `n` entries have names, and the others are zero. -/
structure Listing (fs : Image) (n : ℕ) : Prop where
  count : dirCount fs = UInt32.ofNat n
  le : n ≤ numFiles
  named : ∀ i < n, (direntry fs (UInt32.ofNat i)).filename 0 ≠ 0
  zero : ∀ i, n ≤ i → i < numFiles → ∀ j < 64, (direntry fs (UInt32.ofNat i)).byte j = 0

namespace Platform

/-- The name of an entry ends at the first NUL, or with the field. -/
theorem length_nameFrom_le (d : Dentry) (n i : ℕ) : (nameFrom d n i).length ≤ n := by
  induction n generalizing i with
  | zero => exact le_rfl
  | succ n ih =>
    rw [nameFrom]
    split
    · exact Nat.zero_le _
    · exact Nat.succ_le_succ (ih (i + 1))

theorem length_entryName_le (d : Dentry) : (entryName d).length ≤ filenameLen :=
  length_nameFrom_le d filenameLen 0

theorem entryName_eq_nil_iff (d : Dentry) : entryName d = [] ↔ d.filename 0 = 0 := by
  rw [entryName, nameFrom]
  split
  · simp_all
  · simp_all

/-- The loop of `ls`: its result, from what the calls of `read` return; `none` while it
goes on.  The calls of `write` in between do not fail. -/
def lsLoop : List UInt32 → Option Int32
  | [] => none
  | cnt :: rest =>
    if cnt.toInt32 = 0 then some 0 else if cnt.toInt32 = -1 then some 3 else lsLoop rest

variable (P : Platform)

/-- The name `read` number `j` is to deliver. -/
def nameAt (j : ℕ) : List UInt8 := entryName (direntry P.fs (UInt32.ofNat j))

/-- What `read` number `j` is to do: to return the length of a name and to leave the
name in the buffer, and behind the last name to return 0. -/
def Answered (n j : ℕ) (buf : UInt32) (m : Machine) : Prop :=
  if j < n then
    m.eax = UInt32.ofNat (P.nameAt j).length ∧
      (∀ i (h : i < (P.nameAt j).length),
        P.load m.kernel (buf + UInt32.ofNat i) = some (P.nameAt j)[i]) ∧
      P.load m.kernel (buf + UInt32.ofNat (P.nameAt j).length) = some 0
  else m.eax = 0

/-- An event is a read of `fd`. -/
def isRead (fd : Int32) : Event → Bool
  | .call (.plain (.read fd' _ _ _)) _ => fd' = fd
  | _ => false

/-- How often a run reads `fd`. -/
def reads (fd : Int32) (es : List Event) : ℕ := es.countP (isRead fd)

/-- Every read of `fd` in a run does what it is to do; `j` of them came before. -/
def Enumerates (fd : Int32) (n : ℕ) : ℕ → Machine → List Event → Prop
  | _, _, [] => True
  | j, m, e :: es =>
    ∀ u, P.step m e = some u →
      (∀ buf nbytes input regs, e = .call (.plain (.read fd buf nbytes input)) regs →
        P.Answered n j buf u) ∧
      Enumerates fd n (if isRead fd e then j + 1 else j) u es

/-- What the reads of `fd` in a run return. -/
def answers (fd : Int32) : Machine → List Event → List UInt32
  | _, [] => []
  | m, e :: es =>
    match P.step m e with
    | none => []
    | some u => (if isRead fd e then [u.eax] else []) ++ answers fd u es

/-! ## One read -/

/-- A descriptor in front of entry `j` of the table. -/
def directoryAt (inode : UInt32) (j : ℕ) : FileDesc where
  fileOpsTablePtr := P.directoryOps
  inodeNum := inode
  filePosition := UInt32.ofNat j
  flags := fileOccup

variable {P}

/-- `read` on a directory. -/
theorem sysRead_directoryAt {fd : Int32} {inode : UInt32} {j : ℕ} {m : Machine}
    (h : P.Standing fd (P.directoryAt inode j) m) {regs : Regs} (h0 : 0 < regs.depth)
    (hroom : regs.depth ≤ stackRoom) (buf : UInt32) (nbytes : Int32) (input : Input) :
    P.sysRead fd buf nbytes input (m.enter regs) = P.directoryRead fd buf nbytes (m.enter regs) := by
  refine P.sysRead_directory (h.opened h0 hroom) buf nbytes ?_ input
  rw [h.fileArray_enter h0 hroom]
  rfl

/-- What a read in front of entry `j` returns. -/
def answer (P : Platform) (j : ℕ) : UInt32 :=
  if j < numFiles then UInt32.ofNat (P.nameAt j).length else 0xFFFFFFFF

/-- The entry that is looked up, or none behind the table. -/
theorem readDentryByIndex_min (fs : Image) (j : ℕ) :
    readDentryByIndex fs (UInt32.ofNat (min j numFiles))
      = if j < numFiles then some (direntry fs (UInt32.ofNat j)) else none := by
  split
  · rename_i hj
    have hword : (UInt32.ofNat j).toNat = j := Word32.toNat_ofNat (hj.trans (by decide))
    rw [min_eq_left hj.le, readDentryByIndex, if_neg]
    rw [ge_iff_le, UInt32.le_iff_toNat_le, hword]
    exact not_le.2 hj
  · rename_i hj
    rw [min_eq_right (not_lt.1 hj), readDentryByIndex, if_pos (UInt32.le_refl _)]

/-- **One read.**  It delivers the entry and moves on, or fails behind the table. -/
theorem directory_read_step {fd : Int32} {inode : UInt32} {j : ℕ} {m m' : Machine}
    {buf : UInt32} {nbytes : Int32} {input : Input} {regs : Regs}
    (h : P.Standing fd (P.directoryAt inode (min j numFiles)) m)
    (hs : P.step m (.call (.plain (.read fd buf nbytes input)) regs) = some m') :
    P.Standing fd (P.directoryAt inode (min (j + 1) numFiles)) m' ∧
      m'.eax = P.answer j ∧
      (j < numFiles →
        (∀ i (h : i < (P.nameAt j).length),
          P.load m'.kernel (buf + UInt32.ofNat i) = some (P.nameAt j)[i]) ∧
        P.load m'.kernel (buf + UInt32.ofNat (P.nameAt j).length) = some 0) := by
  obtain ⟨h0, hroom, -, hframes, r, hrun, heax⟩ := P.plain_of_step hs
  have hread : P.directoryRead fd buf nbytes (m.enter regs) = .ok r m'.kernel := by
    rw [← sysRead_directoryAt h h0 hroom buf nbytes input]
    exact hrun
  have hslot := h.fileArray_enter h0 hroom
  have hcases := P.directoryRead_cases hslot hread
  rw [answer]
  by_cases hj : j < numFiles
  · have hindex := readDentryByIndex_min P.fs j
    rw [if_pos hj] at hindex
    obtain ⟨d, hd, hr, hstore⟩ := hcases.resolve_left fun hend => by
      cases hindex.symm.trans hend.2.2
    rw [directoryAt, hindex] at hd
    cases hd
    have htables := (storeBytes_rest hstore).1
    have hspace (f : FileDesc) : P.Space ((m.enter regs).toTables.setFile (slot fd) f) :=
      h.space.congr rfl rfl rfl
    have hload : ∀ i (hi : i < (P.nameAt j ++ [0]).length),
        P.load m'.kernel (buf + UInt32.ofNat i) = some (P.nameAt j ++ [0])[i] :=
      storeBytes_load (hspace _) hstore
    rw [if_pos hj]
    refine ⟨?_, ?_, fun _ => ⟨fun i hi => ?_, ?_⟩⟩
    · refine h.of_files hs hframes ?_ rfl
      rw [h.running.files_setFile h0 hroom htables, Function.update_self, min_eq_left hj.le,
        min_eq_left (show j + 1 ≤ numFiles from hj), directoryAt, directoryAt, UInt32.ofNat_add]
      rfl
    · rw [heax, hr]
      exact Int32.toUInt32_ofNat'
    · have hbyte := hload i (by rw [List.length_append]; exact Nat.lt_add_right 1 hi)
      rwa [List.getElem_append_left hi] at hbyte
    · have hbyte := hload (P.nameAt j).length (by rw [List.length_append]; exact Nat.lt_succ_self _)
      rw [hbyte, List.getElem_append_right le_rfl]
      simp
  · have hindex := readDentryByIndex_min P.fs j
    rw [if_neg hj] at hindex
    obtain ⟨hr, hk, -⟩ := hcases.resolve_right fun hmore => by
      obtain ⟨d, hd, -⟩ := hmore
      cases hindex.symm.trans hd
    rw [if_neg hj]
    refine ⟨?_, by rw [heax, hr, toUInt32_neg_one], fun hlt => absurd hlt hj⟩
    refine h.of_files hs hframes ?_ rfl
    rw [files_same (congrArg Kernel.toTables hk), h.slot, min_eq_right (not_lt.1 hj),
      min_eq_right (by omega)]

/-- What is asked of a read is what it does, as long as there are entries left. -/
theorem answered_iff {n j : ℕ} {buf : UInt32} {m : Machine} (hlist : Listing P.fs n)
    (hanswer : m.eax = P.answer j)
    (hbuf : j < numFiles →
      (∀ i (h : i < (P.nameAt j).length),
        P.load m.kernel (buf + UInt32.ofNat i) = some (P.nameAt j)[i]) ∧
      P.load m.kernel (buf + UInt32.ofNat (P.nameAt j).length) = some 0) :
    P.Answered n j buf m ↔ j < numFiles := by
  rw [Answered, hanswer, answer]
  by_cases hn : j < n
  · have hj : j < numFiles := hn.trans_le hlist.le
    rw [if_pos hn, if_pos hj]
    exact ⟨fun _ => hj, fun _ => ⟨rfl, hbuf hj⟩⟩
  · rw [if_neg hn]
    by_cases hj : j < numFiles
    · -- the entry is zero
      have hname : P.nameAt j = [] :=
        (entryName_eq_nil_iff _).2 (hlist.zero j (not_lt.1 hn) hj 0 (by decide))
      rw [if_pos hj, hname]
      exact ⟨fun _ => hj, fun _ => rfl⟩
    · rw [if_neg hj]
      exact ⟨fun h => absurd h (by decide), fun h => absurd h hj⟩

/-! ## Runs -/

theorem reads_cons (fd : Int32) (e : Event) (es : List Event) :
    reads fd (e :: es) = reads fd es + if isRead fd e then 1 else 0 := List.countP_cons

theorem isRead_iff {fd : Int32} {e : Event} :
    isRead fd e = true ↔
      ∃ buf nbytes input regs, e = .call (.plain (.read fd buf nbytes input)) regs := by
  constructor
  · intro h
    unfold isRead at h
    split at h
    · rename_i fd' buf nbytes input regs
      rw [of_decide_eq_true h]
      exact ⟨_, _, _, _, rfl⟩
    · cases h
  · rintro ⟨buf, nbytes, input, regs, rfl⟩
    exact decide_eq_true rfl

theorem enumerates_read {fd nbytes : Int32} {buf : UInt32} {input : Input} {regs : Regs} {n j : ℕ}
    {m u : Machine} {es : List Event}
    (hu : P.step m (.call (.plain (.read fd buf nbytes input)) regs) = some u) :
    P.Enumerates fd n j m (.call (.plain (.read fd buf nbytes input)) regs :: es) ↔
      P.Answered n j buf u ∧ P.Enumerates fd n (j + 1) u es := by
  have hread : isRead fd (.call (.plain (.read fd buf nbytes input)) regs) = true :=
    decide_eq_true rfl
  rw [Enumerates, if_pos hread]
  refine ⟨fun hall => ?_, fun hboth v hv => ?_⟩
  · exact ⟨(hall u hu).1 _ _ _ _ rfl, (hall u hu).2⟩
  · cases hu.symm.trans hv
    refine ⟨?_, hboth.2⟩
    rintro _ _ _ _ ⟨⟩
    exact hboth.1

theorem not_isRead {fd : Int32} {e : Event}
    (h : ∀ buf nbytes input regs, e ≠ .call (.plain (.read fd buf nbytes input)) regs) :
    ¬isRead fd e = true := by
  intro hread
  obtain ⟨buf, nbytes, input, regs, heq⟩ := isRead_iff.1 hread
  exact h buf nbytes input regs heq

theorem enumerates_other {fd : Int32} {n j : ℕ} {m u : Machine} {e : Event} {es : List Event}
    (h : ∀ buf nbytes input regs, e ≠ .call (.plain (.read fd buf nbytes input)) regs)
    (hu : P.step m e = some u) :
    P.Enumerates fd n j m (e :: es) ↔ P.Enumerates fd n j u es := by
  rw [Enumerates, if_neg (not_isRead h)]
  refine ⟨fun hall => (hall u hu).2, fun hall v hv => ?_⟩
  cases hu.symm.trans hv
  exact ⟨fun _ _ _ _ heq => absurd heq (h _ _ _ _), hall⟩

/-- The reads of a run enumerate the directory as long as the table does not end. -/
theorem enumerates_iff {fd : Int32} {inode : UInt32} {n j : ℕ} {m m' : Machine}
    {es : List Event} (hlist : Listing P.fs n)
    (h : P.Standing fd (P.directoryAt inode (min j numFiles)) m)
    (hes : ∀ e ∈ es, Undisturbed fd e) (hrun : Run.run P.step m es = some m') :
    (P.Enumerates fd n j m es ↔ reads fd es = 0 ∨ j + reads fd es ≤ numFiles) ∧
      P.answers fd m es = (List.range' j (reads fd es)).map P.answer ∧
      P.Standing fd (P.directoryAt inode (min (j + reads fd es) numFiles)) m' := by
  induction es generalizing j m with
  | nil =>
    cases hrun
    exact ⟨⟨fun _ => Or.inl rfl, fun _ => trivial⟩, rfl, h⟩
  | cons e es ih =>
    obtain ⟨u, hu, hrest⟩ := Run.run_cons_eq_some.1 hrun
    have he := hes e List.mem_cons_self
    have hes' : ∀ e ∈ es, Undisturbed fd e := fun e' h' => hes e' (List.mem_cons_of_mem e h')
    have hanswers : P.answers fd m (e :: es)
        = (if isRead fd e then [u.eax] else []) ++ P.answers fd u es := by
      simp only [answers, hu]
    by_cases hown : ∃ buf nbytes input regs, e = .call (.plain (.read fd buf nbytes input)) regs
    · obtain ⟨buf, nbytes, input, regs, rfl⟩ := hown
      obtain ⟨hnext, heax, hbuf⟩ := directory_read_step h hu
      obtain ⟨hiff, hmore, hlast⟩ := ih hnext hes' hrest
      have hread : isRead fd (.call (.plain (.read fd buf nbytes input)) regs) = true :=
        decide_eq_true rfl
      have hcount : reads fd (.call (.plain (.read fd buf nbytes input)) regs :: es)
          = reads fd es + 1 := by
        rw [reads_cons, if_pos hread]
      refine ⟨?_, ?_, ?_⟩
      · rw [enumerates_read hu, answered_iff hlist heax hbuf, hiff, hcount]
        omega
      · rw [hanswers, if_pos hread, hmore, hcount, heax, List.range'_succ]
        rfl
      · rw [hcount, Nat.add_comm (reads fd es) 1, ← Nat.add_assoc]
        exact hlast
    · push Not at hown
      have hnext := standing_other h he hown hu
      obtain ⟨hiff, hmore, hlast⟩ := ih hnext hes' hrest
      have hread := not_isRead hown
      have hcount : reads fd (e :: es) = reads fd es := by
        rw [reads_cons, if_neg hread, Nat.add_zero]
      refine ⟨?_, ?_, ?_⟩
      · rw [enumerates_other hown hu, hcount, ← hiff]
      · rw [hanswers, if_neg hread, hmore, hcount, List.nil_append]
      · rw [hcount]
        exact hlast

/-- A read into a buffer of 33 bytes returns. -/
theorem directory_read_returns {fd : Int32} {inode : UInt32} {j : ℕ} {m : Machine}
    (h : P.Standing fd (P.directoryAt inode j) m) {buf : UInt32} (hlo : 0x8000000 ≤ buf)
    (hhi : buf.toNat + filenameLen < 0x8400000) (nbytes : Int32) (input : Input) {regs : Regs}
    (h0 : 0 < regs.depth) (hroom : regs.depth ≤ stackRoom) :
    ∃ m', P.step m (.call (.plain (.read fd buf nbytes input)) regs) = some m' := by
  have hbuf := lineBuffer_running h.running hlo hhi
  have hrun : ∃ r k', P.plain (.read fd buf nbytes input) (m.enter regs) = .ok r k' := by
    show ∃ r k', P.sysRead fd buf nbytes input (m.enter regs) = .ok r k'
    rw [sysRead_directoryAt h h0 hroom, directoryRead, getFileArray_bind]
    cases hindex : readDentryByIndex P.fs ((m.enter regs).fileArray (slot fd)).filePosition with
    | none => exact ⟨_, _, rfl⟩
    | some d =>
      dsimp only
      rw [setFile_bind]
      have hlen : (entryName d ++ [0]).length ≤ filenameLen + 1 := by
        rw [List.length_append]
        exact Nat.add_le_add_right (length_entryName_le d) 1
      have hstore : ∃ k', P.storeBytes buf (entryName d ++ [0]) { m.enter regs with
          toTables := (m.enter regs).toTables.setFile (slot fd)
            { (m.enter regs).fileArray (slot fd) with
              filePosition := ((m.enter regs).fileArray (slot fd)).filePosition + 1 } }
          = .ok () k' := by
        refine storeBytes_run fun i hi => ?_
        obtain ⟨a, htr, hdata, -⟩ := hbuf i (Nat.le_of_lt_succ (hi.trans_le hlen))
        exact ⟨a, htr, hdata⟩
      obtain ⟨k', hstore⟩ := hstore
      exact ⟨_, k', bind_of_ok hstore _⟩
  obtain ⟨r, k', hrun⟩ := hrun
  exact ⟨_, P.step_of_plain h.running.live h0 hroom hrun⟩

/-- What `ls` makes of the answers, `j` names into the directory. -/
theorem lsLoop_answers {n j r : ℕ} (hlist : Listing P.fs n) (hj : j ≤ n) (hr : n < j + r) :
    lsLoop ((List.range' j r).map P.answer) = some (if n < numFiles then 0 else 3) := by
  have hnum : numFiles = 63 := rfl
  have hle := hlist.le
  induction r generalizing j with
  | zero => omega
  | succ r ih =>
    rw [List.range'_succ, List.map_cons, lsLoop, answer]
    by_cases hn : j < n
    · -- a name: its length is neither 0 nor -1
      have hsmall : ∀ len < 33, 0 < len →
          (UInt32.ofNat len).toInt32 ≠ 0 ∧ (UInt32.ofNat len).toInt32 ≠ -1 := by
        decide +kernel
      have hpos : 0 < (P.nameAt j).length := by
        refine List.length_pos_of_ne_nil fun hnil => hlist.named j hn ?_
        exact (entryName_eq_nil_iff _).1 hnil
      have hlen : (P.nameAt j).length ≤ 32 := length_entryName_le _
      obtain ⟨hne, hne'⟩ := hsmall _ (by omega) hpos
      rw [if_pos (show j < numFiles by omega), if_neg hne, if_neg hne']
      exact ih (by omega) (by omega)
    · obtain rfl : j = n := by omega
      by_cases hfull : j < numFiles
      · have hname : P.nameAt j = [] :=
          (entryName_eq_nil_iff _).2 (hlist.zero j le_rfl hfull 0 (by decide))
        rw [if_pos hfull, hname, if_pos (by decide), if_pos hfull]
      · rw [if_neg hfull, if_neg (by decide), if_pos (by decide), if_neg hfull]

/-- A descriptor that was just opened on a directory is in front of the first entry. -/
theorem standing_directory {m₀ m : Machine} {filename : UInt32} {regs : Regs} {fd : Int32}
    {d : Dentry} (hm₀ : P.Reachable m₀)
    (hopen : P.step m₀ (.call (.plain (.open filename)) regs) = some m)
    (hfd : m.eax = fd.toUInt32) (hfd0 : 0 ≤ fd)
    (hentry : readDentryByName P.fs (P.charPtr (m₀.enter regs) filename) = some (some d))
    (hdir : d.filetype = fileTypeDir) :
    P.Standing fd (P.directoryAt d.inodeNum (min 0 numFiles)) m := by
  have hstanding := standing_open hm₀ hopen hfd hfd0 hentry (by rw [hdir]; decide)
  have hslot : P.opened d blank = P.directoryAt d.inodeNum (min 0 numFiles) := by
    rw [opened, hdir, if_neg (by decide), if_pos rfl]
    rfl
  rwa [hslot] at hstanding

/-- **The directory is enumerated, 63 reads long.**  On a descriptor that was just opened
on a directory of `n` entries, the reads deliver the names in order and then return 0,
and `ls` ends with success, exactly as long as there are at most 63 of them.  Every read
into a buffer of 33 bytes returns. -/
theorem directory_reads (P : Platform) {m₀ m m' : Machine} {filename : UInt32} {regs : Regs}
    {fd : Int32} {d : Dentry} {n : ℕ} {es : List Event} (hm₀ : P.Reachable m₀)
    (hopen : P.step m₀ (.call (.plain (.open filename)) regs) = some m)
    (hfd : m.eax = fd.toUInt32) (hfd0 : 0 ≤ fd)
    (hentry : readDentryByName P.fs (P.charPtr (m₀.enter regs) filename) = some (some d))
    (hdir : d.filetype = fileTypeDir) (hlist : Listing P.fs n)
    (hes : ∀ e ∈ es, Undisturbed fd e) (hrun : Run.run P.step m es = some m') :
    (P.Enumerates fd n 0 m es ∧ (n < reads fd es → lsLoop (P.answers fd m es) = some 0) ↔
      reads fd es ≤ numFiles) ∧
    ∀ (buf : UInt32) (nbytes : Int32) (input : Input) (regs' : Regs), 0x8000000 ≤ buf →
      buf.toNat + filenameLen < 0x8400000 → 0 < regs'.depth → regs'.depth ≤ stackRoom →
      ∃ m'', P.step m' (.call (.plain (.read fd buf nbytes input)) regs') = some m'' := by
  have hstanding := standing_directory hm₀ hopen hfd hfd0 hentry hdir
  obtain ⟨hiff, hanswers, hlast⟩ := enumerates_iff hlist hstanding hes hrun
  rw [Nat.zero_add] at hiff
  refine ⟨⟨fun h => ?_, fun h => ⟨hiff.2 (Or.inr h), fun hmany => ?_⟩⟩, ?_⟩
  · rcases hiff.1 h.1 with hnone | hle
    · exact hnone.trans_le (Nat.zero_le _)
    · exact hle
  · rw [hanswers, lsLoop_answers hlist (Nat.zero_le n) (by omega), if_pos (by omega)]
  · intro buf nbytes input regs' hlo hhi h0 hroom
    exact directory_read_returns hlast hlo hhi nbytes input h0 hroom

theorem listing_sample : Listing samplePlatform.fs 3 where
  count := by decide +kernel
  le := by decide
  named := by decide +kernel
  zero := by
    intro i hi hi' j hj
    have hnum : numFiles = 63 := rfl
    have hindex : (64 * UInt32.ofNat i).toNat = 64 * i := by
      rw [UInt32.toNat_mul, Word32.toNat_ofNat (by omega)]
      simp only [UInt32.reduceToNat]
      omega
    have hentry : (64 + 64 * UInt32.ofNat i).toNat = 64 + 64 * i := by
      have hsixty : (64 : UInt32).toNat = 64 := rfl
      rw [Word32.toNat_add_of_lt (by omega), hindex, hsixty]
    have haddr : (64 + 64 * UInt32.ofNat i + UInt32.ofNat j).toNat = 64 + 64 * i + j := by
      rw [Word32.toNat_add_ofNat (by omega), hentry]
    exact memoryOf_gap 256 8192 (by omega) (by omega) (by decide +kernel)

/-- A program, and a directory for it to list. -/
def listBoot : Machine :=
  bootMachine samplePlatform [(0x500000, "sh".toUTF8.toList), (0x500100, ".".toUTF8.toList)]

/-- A read as `ls` makes it. -/
def lsRead : Event := .call (.plain (.read 2 0x8050000 32 ⟨[], false⟩)) ⟨64, 0⟩

theorem lsRead_run {inode : UInt32} (r j : ℕ) {m : Machine}
    (h : P.Standing 2 (P.directoryAt inode (min j numFiles)) m) :
    ∃ m', Run.run P.step m (List.replicate r lsRead) = some m' := by
  induction r generalizing j m with
  | zero => exact ⟨m, rfl⟩
  | succ r ih =>
    have hreturns : ∃ u, P.step m lsRead = some u :=
      directory_read_returns h (by decide) (by decide) 32 ⟨[], false⟩ (by decide) (by decide)
    obtain ⟨u, hu⟩ := hreturns
    obtain ⟨m', hm'⟩ := ih (j + 1) (directory_read_step h hu).1
    exact ⟨m', Run.run_cons_eq_some.2 ⟨u, hu, hm'⟩⟩

/-- The program opens the directory and reads it `r` times. -/
theorem list_run (r : ℕ) :
    ∃ m₀ m m' d, samplePlatform.Reachable m₀ ∧
      samplePlatform.step m₀ (.call (.plain (.open 0x500100)) ⟨64, 0⟩) = some m ∧
      m.eax = (2 : Int32).toUInt32 ∧
      readDentryByName samplePlatform.fs (samplePlatform.charPtr (m₀.enter ⟨64, 0⟩) 0x500100)
        = some (some d) ∧
      d.filetype = fileTypeDir ∧
      samplePlatform.Standing 2 (samplePlatform.directoryAt d.inodeNum (min 0 numFiles)) m ∧
      Run.run samplePlatform.step m (List.replicate r lsRead) = some m' := by
  have h : ((Run.run samplePlatform.step listBoot
      [.call (.execute 0x500000) ⟨64, 0x7FFFF0⟩]).any fun m₀ =>
        (readDentryByName samplePlatform.fs
          (samplePlatform.charPtr (m₀.enter ⟨64, 0⟩) 0x500100)).any (fun found =>
            found.any fun d => decide (d.filetype = fileTypeDir)) &&
        (samplePlatform.step m₀ (.call (.plain (.open 0x500100)) ⟨64, 0⟩)).any fun m =>
          decide (m.eax = 2)) = true := by
    decide +kernel
  simp only [Option.any_eq_true, Bool.and_eq_true, decide_eq_true_eq] at h
  obtain ⟨m₀, hm₀, ⟨found, hentry, d, rfl, hdir⟩, m, hopen, heax⟩ := h
  have hreach : samplePlatform.Reachable m₀ := ⟨_, _, boot_bootMachine _ _, hm₀⟩
  have hstanding := standing_directory hreach hopen heax (by decide) hentry hdir
  obtain ⟨m', hm'⟩ := lsRead_run r 0 hstanding
  exact ⟨m₀, m, m', d, hreach, hopen, heax, hentry, hdir, hstanding, hm'⟩

/-- Four reads of a directory of three entries. -/
theorem directory_reads_sample :
    ∃ m m', Run.run samplePlatform.step m (List.replicate 4 lsRead) = some m' ∧
      samplePlatform.Enumerates 2 3 0 m (List.replicate 4 lsRead) ∧
      lsLoop (samplePlatform.answers 2 m (List.replicate 4 lsRead)) = some 0 := by
  obtain ⟨m₀, m, m', d, hm₀, hopen, heax, hentry, hdir, -, hm'⟩ := list_run 4
  obtain ⟨hiff, -⟩ := directory_reads samplePlatform hm₀ hopen heax (by decide) hentry hdir
    listing_sample (by simp [lsRead, Undisturbed]) hm'
  have hboth := hiff.2 (by decide)
  exact ⟨m, m', hm', hboth.1, hboth.2 (by decide)⟩

/-- The 64th read of a directory of three entries fails. -/
theorem directory_read_64_fails :
    ∃ m₀ m m', samplePlatform.Reachable m₀ ∧
      samplePlatform.step m₀ (.call (.plain (.open 0x500100)) ⟨64, 0⟩) = some m ∧
      m.eax = 2 ∧ Listing samplePlatform.fs 3 ∧
      Run.run samplePlatform.step m (List.replicate 64 lsRead) = some m' ∧
      (samplePlatform.answers 2 m (List.replicate 64 lsRead))[63]? = some 0xFFFFFFFF ∧
      ¬samplePlatform.Enumerates 2 3 0 m (List.replicate 64 lsRead) := by
  obtain ⟨m₀, m, m', d, hm₀, hopen, heax, -, -, hstanding, hm'⟩ := list_run 64
  have hreads : reads 2 (List.replicate 64 lsRead) = 64 := by decide
  obtain ⟨hiff, hanswers, -⟩ := enumerates_iff listing_sample hstanding
    (by simp [lsRead, Undisturbed]) hm'
  refine ⟨m₀, m, m', hm₀, hopen, heax, listing_sample, hm', ?_, ?_⟩
  · rw [hanswers, hreads, List.getElem?_map, List.getElem?_range' (by decide)]
    rfl
  · rw [hiff, hreads]
    decide

end Platform

end CheetOS
