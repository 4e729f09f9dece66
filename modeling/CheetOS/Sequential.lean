import CheetOS.Allocation
import CheetOS.Memory
import CheetOS.ReadData

/-!
# Reading a file in pieces

What a program receives from a descriptor it has just opened on a regular file
and reads a piece at a time, whatever else it does with other descriptors in
between.

* `requested` is what the reads of a run ask for, `deliveries` what the program
  finds in its buffers after them;
* `AtPosition` is the invariant: the descriptor stands behind what was delivered;
  `atPosition_read` and `standing_other` are its step lemmas;
* `sequential_reads` is the law: the deliveries are a prefix of the file, as long
  as the requests add up to.
-/

namespace CheetOS

open Exec

namespace Platform

variable (P : Platform)

/-! ## Requests and deliveries -/

/-- What an event does to the descriptor `fd`: the program does not close it or
read a negative amount from it, and does not start or end programs. -/
def Interleaved (fd : Int32) : Event → Prop
  | .store _ _ => True
  | .call (.plain (.read fd' _ nbytes _)) _ => fd' = fd → 0 ≤ nbytes
  | .call (.plain (.close fd')) _ => fd' ≠ fd
  | .call (.plain _) _ => True
  | .call _ _ => False

/-- The same, whatever the program reads from it. -/
def Undisturbed (fd : Int32) : Event → Prop
  | .store _ _ => True
  | .call (.plain (.close fd')) _ => fd' ≠ fd
  | .call (.plain _) _ => True
  | .call _ _ => False

theorem Interleaved.undisturbed {fd : Int32} {e : Event} (h : Interleaved fd e) :
    Undisturbed fd e := by
  cases e with
  | store va b => trivial
  | call c regs =>
    cases c with
    | halt | execute => exact h
    | plain c =>
      cases c with
      | close fd' => exact h
      | read | write | «open» | getargs | vidmap => trivial

/-- How many bytes an event asks for on `fd`. -/
def asked (fd : Int32) : Event → ℕ
  | .call (.plain (.read fd' _ nbytes _)) _ => if fd' = fd then nbytes.toNatClampNeg else 0
  | _ => 0

/-- How many bytes a run asks for on `fd`. -/
def requested (fd : Int32) (es : List Event) : ℕ := (es.map (asked fd)).sum

/-- What is in the buffer of a read on `fd` when it has returned. -/
def received (fd : Int32) (m' : Machine) : Event → List (Option UInt8)
  | .call (.plain (.read fd' buf _ _)) _ =>
    if fd' = fd then
      (List.range m'.eax.toInt32.toNatClampNeg).map fun i => P.load m'.kernel (buf + UInt32.ofNat i)
    else []
  | _ => []

/-- What the reads of a run on `fd` deliver. -/
def deliveries (fd : Int32) : Machine → List Event → List (Option UInt8)
  | _, [] => []
  | m, e :: es =>
    match P.step m e with
    | none => []
    | some m' => P.received fd m' e ++ deliveries fd m' es

/-! ## The invariant -/

/-- The running program has `fd` open, and its slot holds `f`. -/
structure Standing (fd : Int32) (f : FileDesc) (m : Machine) : Prop where
  running : Running P m
  space : P.Space m.kernel.toTables
  user : 2 ≤ fd ∧ fd ≤ 7
  slot : m.files (slot fd) = f
  used : f.flags = fileOccup

/-- The running program has `fd` open on a file, and `n` bytes were delivered. -/
structure AtPosition (fd : Int32) (inode : UInt32) (n : ℕ) (m : Machine) : Prop where
  running : Running P m
  space : P.Space m.kernel.toTables
  user : 2 ≤ fd ∧ fd ≤ 7
  slot : m.files (slot fd) =
    { fileOpsTablePtr := P.fileOps, inodeNum := inode, filePosition := UInt32.ofNat n,
      flags := fileOccup }

variable {P}

theorem slot_inj {fd fd' : Int32} (h : 0 ≤ fd ∧ fd ≤ 7) (h' : 0 ≤ fd' ∧ fd' ≤ 7)
    (heq : slot fd' = slot fd) : fd' = fd := by
  have hval := congrArg Fin.val heq
  rw [slot_val h.1 h.2, slot_val h'.1 h'.2] at hval
  have h1 := Int32.le_iff_toInt_le.1 h.1
  have h2 := Int32.le_iff_toInt_le.1 h'.1
  rw [← Int32.toNat_toInt, ← Int32.toNat_toInt] at hval
  simp only [Int32.reduceToInt] at h1 h2
  exact Int32.toInt_inj.1 (by omega)

/-- Only the slot of the descriptor counts. -/
theorem Standing.of_files {fd : Int32} {f g : FileDesc} {m m' : Machine} {e : Event}
    (h : P.Standing fd f m) (hs : P.step m e = some m') (hframes : m'.frames = m.frames)
    (hslot : m'.files (CheetOS.slot fd) = g) (hused : g.flags = fileOccup) :
    P.Standing fd g m' where
  running := ⟨nested_step h.running.nested hs, by rw [hframes]; exact h.running.live⟩
  space := space_step h.running.nested h.space hs
  user := h.user
  slot := hslot
  used := hused

/-- A change of another slot does not matter. -/
theorem Standing.slot_of_ne {fd : Int32} {f g : FileDesc} {m m' : Machine}
    (h : P.Standing fd f m) {regs : Regs} (h0 : 0 < regs.depth)
    (hroom : regs.depth ≤ stackRoom) {i : Fin numMaxOpenFiles}
    (ht : m'.kernel.toTables = (m.enter regs).toTables.setFile i g) (hne : i ≠ CheetOS.slot fd) :
    m'.files (CheetOS.slot fd) = f := by
  rw [h.running.files_setFile h0 hroom ht, Function.update_of_ne hne.symm, h.slot]

theorem Standing.fileArray_enter {fd : Int32} {f : FileDesc} {m : Machine}
    (h : P.Standing fd f m) {regs : Regs} (h0 : 0 < regs.depth) (hroom : regs.depth ≤ stackRoom) :
    (m.enter regs).fileArray (CheetOS.slot fd) = f := by
  rw [h.running.fileArray_enter h0 hroom, h.slot]

/-- The system calls find it open. -/
theorem Standing.opened {fd : Int32} {f : FileDesc} {m : Machine} (h : P.Standing fd f m)
    {regs : Regs} (h0 : 0 < regs.depth) (hroom : regs.depth ≤ stackRoom) :
    Opened (m.enter regs).fileArray fd := by
  refine ⟨Int32.le_trans (by decide) h.user.1, h.user.2, ?_⟩
  rw [h.fileArray_enter h0 hroom, h.used]
  decide

/-- **Everything but a read on the descriptor leaves it where it is.** -/
theorem standing_other {fd : Int32} {f : FileDesc} {m m' : Machine} {e : Event}
    (h : P.Standing fd f m) (he : Undisturbed fd e)
    (hother : ∀ buf nbytes input regs, e ≠ .call (.plain (.read fd buf nbytes input)) regs)
    (hs : P.step m e = some m') : P.Standing fd f m' := by
  have keep (hframes : m'.frames = m.frames) (hslot : m'.files (slot fd) = f) :
      P.Standing fd f m' := h.of_files hs hframes hslot h.used
  have same (htables : m'.files = m.files) : m'.files (slot fd) = f := by rw [htables, h.slot]
  cases e with
  | store va b =>
    obtain ⟨-, hframes, -⟩ := P.store_of_step hs
    exact keep hframes (same (files_store hs))
  | call c regs =>
    cases c with
    | halt | execute => exact he.elim
    | plain c =>
      obtain ⟨h0, hroom, -, hframes, r, hrun, -⟩ := P.plain_of_step hs
      have hopen := h.opened h0 hroom
      refine keep hframes ?_
      cases c with
      | read fd' buf nbytes input =>
        have hne : fd' ≠ fd := by
          rintro rfl
          exact hother buf nbytes input regs rfl
        rcases P.sysRead_tables hrun with ht | ⟨hopened, pos, ht⟩
        · exact same (files_same ht)
        · refine h.slot_of_ne h0 hroom ht fun heq => hne ?_
          exact slot_inj ⟨hopen.1, h.user.2⟩ ⟨hopened.1, hopened.2.1⟩ heq
      | write fd' buf nbytes => exact same (files_same (P.quiet_sysWrite _ _ _ hrun))
      | «open» filename =>
        rcases P.sysOpen_cases hrun with ⟨-, -, hk⟩ | ⟨idx, d, hfound, -, ht, -⟩
        · exact same (files_same (congrArg Kernel.toTables hk))
        · obtain ⟨-, -, -, -, -, -, -, havail⟩ := P.openResult_eq_some hfound
          refine h.slot_of_ne h0 hroom ht ?_
          rintro rfl
          exact hopen.2.2 (firstAvail_spec havail).2.1
      | close fd' =>
        rcases P.sysClose_cases hrun with hk | ⟨hopened, -, ht⟩
        · exact same (files_same (congrArg Kernel.toTables hk))
        · refine h.slot_of_ne h0 hroom ht fun heq => he ?_
          exact slot_inj ⟨hopen.1, h.user.2⟩ ⟨hopened.1, hopened.2.1⟩ heq
      | getargs buf nbytes => exact same (files_same (P.quiet_getargs _ _ hrun))
      | vidmap screenStart =>
        refine same ?_
        rcases P.vidmap_cases hrun with ⟨-, hk⟩ | ⟨-, ht⟩
        · exact files_same (congrArg Kernel.toTables hk)
        · unfold Machine.files
          rw [ht]
          rfl

/-- A descriptor at position `n` of a file. -/
def fileAt (P : Platform) (inode : UInt32) (n : ℕ) : FileDesc where
  fileOpsTablePtr := P.fileOps
  inodeNum := inode
  filePosition := UInt32.ofNat n
  flags := fileOccup

theorem atPosition_iff {fd : Int32} {inode : UInt32} {n : ℕ} {m : Machine} :
    P.AtPosition fd inode n m ↔ P.Standing fd (P.fileAt inode n) m :=
  ⟨fun h => ⟨h.running, h.space, h.user, h.slot, rfl⟩,
    fun h => ⟨h.running, h.space, h.user, h.slot⟩⟩

/-- A read has delivered the bytes that are in the buffer. -/
theorem received_eq {fd nbytes : Int32} {buf : UInt32} {input : Input} {regs : Regs} {m : Machine}
    {bs : List UInt8} (hcount : m.eax.toInt32.toNatClampNeg = bs.length)
    (hload : ∀ i (hi : i < bs.length), P.load m.kernel (buf + UInt32.ofNat i) = some bs[i]) :
    P.received fd m (.call (.plain (.read fd buf nbytes input)) regs) = bs.map some := by
  unfold received
  dsimp only
  rw [if_pos rfl, hcount]
  refine List.ext_getElem (by rw [List.length_map, List.length_map, List.length_range])
    fun i hi hi' => ?_
  rw [List.length_map] at hi'
  rw [List.getElem_map, List.getElem_map, List.getElem_range, hload i hi']

/-- **A read delivers the next bytes of the file**, as many as there are and were
asked for, and moves the position behind them. -/
theorem atPosition_read {fd : Int32} {inode : UInt32} {n : ℕ} {m m' : Machine} {buf : UInt32}
    {nbytes : Int32} {input : Input} {regs : Regs} (h : P.AtPosition fd inode n m)
    (hwf : WellFormed P.fs inode) (hn : n ≤ (inodeLength P.fs inode).toNat) (hnbytes : 0 ≤ nbytes)
    (hs : P.step m (.call (.plain (.read fd buf nbytes input)) regs) = some m') :
    let k := delivered (inodeLength P.fs inode).toNat n nbytes.toNatClampNeg
    m'.eax = UInt32.ofNat k ∧
    P.received fd m' (.call (.plain (.read fd buf nbytes input)) regs)
      = (fileBytes P.fs inode n k).map some ∧
    P.AtPosition fd inode (n + k) m' := by
  obtain ⟨h0, hroom, -, hframes, r, hrun, heax⟩ := P.plain_of_step hs
  have hstanding := atPosition_iff.1 h
  have hslot := hstanding.fileArray_enter h0 hroom
  have hopened := hstanding.opened h0 hroom
  have hlen := hwf.length_le
  have hpos : (UInt32.ofNat n).toNat = n := Word32.toNat_ofNat (by omega)
  -- the slot is a file's, so `read` calls `file_read`
  have hread : P.fileRead fd buf nbytes (m.enter regs) = .ok r m'.kernel := by
    have hops : ((m.enter regs).fileArray (slot fd)).fileOpsTablePtr = P.fileOps := by
      rw [hslot]
      rfl
    rw [← P.sysRead_file hopened buf nbytes hops input]
    exact hrun
  rcases P.fileRead_cases hslot hread with ⟨-, -, hfd⟩ | ⟨k₁, hstore, hr, hk⟩
  · rcases hfd with rfl | rfl
    · exact absurd h.user.1 (by decide)
    · exact absurd h.user.1 (by decide)
  · dsimp only [fileAt] at hstore hr hk
    rw [hwf.readData_eq, hpos, Int32.toNat_toUInt32_of_le hnbytes] at hstore hr
    intro k
    have hkdef : k = delivered (inodeLength P.fs inode).toNat n nbytes.toNatClampNeg := rfl
    rw [← hkdef] at hstore hr
    have hkle : k ≤ (inodeLength P.fs inode).toNat - n := delivered_le _ _ _
    have hr' : r = Int32.ofNat k := hr
    have heax' : m'.eax = UInt32.ofNat k := by
      rw [heax, hr', Int32.toUInt32_ofNat']
    have hcount : m'.eax.toInt32.toNatClampNeg = k := by
      rw [heax, hr']
      exact Int32.toNatClampNeg_ofNat_of_lt (by omega)
    have hsize : (fileBytes P.fs inode n k).length = k := Blocks.length_slice ..
    refine ⟨heax', received_eq (hcount.trans hsize.symm) (fun i hi => ?_), ?_, ?_, h.user, ?_⟩
    · have hspace : P.Space (m.enter regs).toTables := h.space.congr rfl rfl rfl
      have htables := (storeBytes_rest hstore).1
      have hsame : P.load m'.kernel = P.load k₁ := by
        rw [hk]
        exact load_congr (congrArg Tables.pageDirectory htables).symm
          (congrArg Tables.pageTable htables).symm (congrArg Tables.videoPages htables).symm rfl
      rw [hsame, storeBytes_load hspace hstore i hi]
    · exact ⟨nested_step h.running.nested hs, by rw [hframes]; exact h.running.live⟩
    · exact space_step h.running.nested h.space hs
    · rw [h.running.files_setFile h0 hroom (congrArg Kernel.toTables hk), Function.update_self]
      unfold FileDesc.moveTo
      rw [hr', Int32.toUInt32_ofNat', UInt32.ofNat_add]

/-! ## Runs -/

/-- Only a read on the descriptor delivers anything. -/
theorem received_other {fd : Int32} {u : Machine} {e : Event}
    (h : ∀ buf nbytes input regs, e ≠ .call (.plain (.read fd buf nbytes input)) regs) :
    P.received fd u e = [] ∧ asked fd e = 0 := by
  cases e with
  | store va b => exact ⟨rfl, rfl⟩
  | call c regs =>
    cases c with
    | halt | execute => exact ⟨rfl, rfl⟩
    | plain c =>
      cases c with
      | read fd' buf nbytes input =>
        have hne : fd' ≠ fd := by
          rintro rfl
          exact h buf nbytes input regs rfl
        exact ⟨if_neg hne, if_neg hne⟩
      | write | «open» | close | getargs | vidmap => exact ⟨rfl, rfl⟩

/-- What the reads of a run deliver, from a position inside the file. -/
theorem deliveries_eq {fd : Int32} {inode : UInt32} {n : ℕ} {m m' : Machine} {es : List Event}
    (h : P.AtPosition fd inode n m) (hwf : WellFormed P.fs inode)
    (hn : n ≤ (inodeLength P.fs inode).toNat) (hes : ∀ e ∈ es, Interleaved fd e)
    (hrun : Run.run P.step m es = some m') :
    let count := min (requested fd es) ((inodeLength P.fs inode).toNat - n)
    P.deliveries fd m es = (fileBytes P.fs inode n count).map some ∧
    P.AtPosition fd inode (n + count) m' := by
  induction es generalizing m n with
  | nil =>
    cases hrun
    simp only [requested, List.map_nil, List.sum_nil, Nat.zero_min, Nat.add_zero]
    exact ⟨rfl, h⟩
  | cons e es ih =>
    obtain ⟨u, hu, hrest⟩ := Run.run_cons_eq_some.1 hrun
    have he := hes e List.mem_cons_self
    have hes' : ∀ e ∈ es, Interleaved fd e := fun e' h' => hes e' (List.mem_cons_of_mem e h')
    have hdeliver : P.deliveries fd m (e :: es) = P.received fd u e ++ P.deliveries fd u es := by
      simp only [deliveries, hu]
    have hrequest : requested fd (e :: es) = asked fd e + requested fd es := by
      simp [requested]
    intro count
    have hcount : count = min (asked fd e + requested fd es)
        ((inodeLength P.fs inode).toNat - n) := by rw [← hrequest]
    rw [hdeliver]
    by_cases hown : ∃ buf nbytes input regs, e = .call (.plain (.read fd buf nbytes input)) regs
    · obtain ⟨buf, nbytes, input, regs, rfl⟩ := hown
      obtain ⟨-, hreceived, hat⟩ := atPosition_read h hwf hn (he rfl) hu
      have hasked : asked fd (.call (.plain (.read fd buf nbytes input)) regs)
          = nbytes.toNatClampNeg := if_pos rfl
      set k := delivered (inodeLength P.fs inode).toNat n nbytes.toNatClampNeg with hk
      have hkle : k ≤ (inodeLength P.fs inode).toNat - n := delivered_le _ _ _
      obtain ⟨hmore, hat'⟩ := ih hat (by omega) hes' hrest
      have hsum : k + min (requested fd es) ((inodeLength P.fs inode).toNat - (n + k)) = count := by
        rw [hcount, hasked, hk]
        exact delivered_add _ _ _ _
      rw [hreceived, hmore, ← List.map_append, ← hsum, ← Nat.add_assoc]
      unfold fileBytes
      rw [Blocks.slice_append]
      exact ⟨rfl, hat'⟩
    · push Not at hown
      have hat := atPosition_iff.2 (standing_other (atPosition_iff.1 h) he.undisturbed hown hu)
      obtain ⟨hreceived, hasked⟩ := received_other (P := P) (u := u) hown
      obtain ⟨hmore, hat'⟩ := ih hat hn hes' hrest
      rw [hcount, hreceived, hasked, Nat.zero_add, List.nil_append]
      exact ⟨hmore, hat'⟩

/-- What `open` leaves in a slot for a file or a directory does not depend on what was
there. -/
theorem opened_eq_of_ne_rtc {d : Dentry} (hty : knownType d.filetype)
    (hrtc : d.filetype ≠ fileTypeRtc) (old old' : FileDesc) :
    P.opened d old = P.opened d old' := by
  unfold opened
  rcases hty with hr | hr | hr
  · exact absurd hr hrtc
  · rw [hr, if_neg (by decide), if_pos rfl, if_neg (by decide), if_pos rfl]
  · rw [hr, if_pos rfl, if_pos rfl]

/-- A descriptor that was just opened on a file or a directory. -/
theorem standing_open {m₀ m : Machine} {filename : UInt32} {regs : Regs} {fd : Int32}
    {d : Dentry} (hm₀ : P.Reachable m₀)
    (hopen : P.step m₀ (.call (.plain (.open filename)) regs) = some m)
    (hfd : m.eax = fd.toUInt32) (hfd0 : 0 ≤ fd)
    (hentry : readDentryByName P.fs (P.charPtr (m₀.enter regs) filename) = some (some d))
    (hrtc : d.filetype ≠ fileTypeRtc) : P.Standing fd (P.opened d blank) m := by
  obtain ⟨huser, hlive, hframes, hty, old, -, hslot⟩ := opened_of_step hm₀ hopen hfd hfd0 hentry
  have hnested := nested_reachable hm₀
  refine ⟨⟨nested_step hnested hopen, by rw [hframes]; exact hlive⟩,
    space_step hnested (space_reachable hm₀) hopen, huser, ?_,
    (opened_of_ne_rtc blank hty hrtc).1⟩
  rw [hslot]
  exact opened_eq_of_ne_rtc hty hrtc _ _

/-- A descriptor that was just opened on a regular file stands at its beginning. -/
theorem atPosition_open {m₀ m : Machine} {filename : UInt32} {regs : Regs} {fd : Int32}
    {d : Dentry} (hm₀ : P.Reachable m₀)
    (hopen : P.step m₀ (.call (.plain (.open filename)) regs) = some m)
    (hfd : m.eax = fd.toUInt32) (hfd0 : 0 ≤ fd)
    (hentry : readDentryByName P.fs (P.charPtr (m₀.enter regs) filename) = some (some d))
    (hfile : d.filetype = fileTypeFile) : P.AtPosition fd d.inodeNum 0 m := by
  have hstanding := standing_open hm₀ hopen hfd hfd0 hentry (by rw [hfile]; decide)
  have hslot : P.opened d blank = P.fileAt d.inodeNum 0 := if_pos hfile
  rw [hslot] at hstanding
  exact atPosition_iff.2 hstanding

/-- **Sequential reads do not depend on chunking.**  On a descriptor that was just
opened on a regular file, whatever happens on other descriptors in between, the
reads deliver the beginning of the file, as much of it as they ask for together;
the position is the number of bytes delivered, and at the end of the file it stays. -/
theorem sequential_reads (P : Platform) {m₀ m m' : Machine} {filename : UInt32} {regs : Regs}
    {fd : Int32} {d : Dentry} {es : List Event} (hm₀ : P.Reachable m₀)
    (hopen : P.step m₀ (.call (.plain (.open filename)) regs) = some m)
    (hfd : m.eax = fd.toUInt32) (hfd0 : 0 ≤ fd)
    (hentry : readDentryByName P.fs (P.charPtr (m₀.enter regs) filename) = some (some d))
    (hfile : d.filetype = fileTypeFile) (hwf : WellFormed P.fs d.inodeNum)
    (hes : ∀ e ∈ es, Interleaved fd e) (hrun : Run.run P.step m es = some m') :
    let fileLength := (inodeLength P.fs d.inodeNum).toNat
    let count := min (requested fd es) fileLength
    P.deliveries fd m es = ((dataBlocks P.fs d.inodeNum).flatten.take count).map some ∧
    (m'.files (slot fd)).filePosition.toNat = count ∧ count ≤ fileLength ∧
    (fileLength ≤ requested fd es → ∀ buf nbytes input regs' m'', 0 ≤ nbytes →
      P.step m' (.call (.plain (.read fd buf nbytes input)) regs') = some m'' → m''.eax = 0) ∧
    (∀ es₂ m₂, (∀ e ∈ es₂, Interleaved fd e) → Run.run P.step m es₂ = some m₂ →
      requested fd es₂ = requested fd es → P.deliveries fd m es₂ = P.deliveries fd m es) := by
  have hat := atPosition_open hm₀ hopen hfd hfd0 hentry hfile
  have hlen := hwf.length_le
  obtain ⟨hdeliver, hat'⟩ := deliveries_eq hat hwf (Nat.zero_le _) hes hrun
  rw [Nat.sub_zero] at hdeliver hat'
  rw [Nat.zero_add] at hat'
  intro fileLength count
  have hcount : count ≤ fileLength := min_le_right _ _
  refine ⟨?_, ?_, hcount, ?_, ?_⟩
  · rw [hdeliver, ← drop_take_dataBlocks (by rw [Nat.zero_add]; exact hcount), List.drop_zero]
  · rw [hat'.slot]
    exact Word32.toNat_ofNat (by omega)
  · intro hend buf nbytes input regs' m'' hnbytes hs
    have hall : count = fileLength := min_eq_right hend
    have hat'' : P.AtPosition fd d.inodeNum fileLength m' := hall ▸ hat'
    obtain ⟨heax, -, -⟩ := atPosition_read hat'' hwf (le_refl _) hnbytes hs
    have hzero : delivered fileLength fileLength nbytes.toNatClampNeg = 0 := if_pos (le_refl _)
    rw [heax, hzero]
    rfl
  · intro es₂ m₂ hes₂ hrun₂ hsame
    obtain ⟨hdeliver₂, -⟩ := deliveries_eq hat hwf (Nat.zero_le _) hes₂ hrun₂
    rw [Nat.sub_zero] at hdeliver₂
    rw [hdeliver₂, hdeliver, hsame]

/-- A program reads a file of 28 bytes, 10 and then 100 at a time. -/
theorem sequential_reads_twice :
    ∃ m m', Run.run samplePlatform.step sampleBoot
        [.call (.execute 0x500000) ⟨64, 0x7FFFF0⟩,
         .call (.plain (.open 0x500100)) ⟨64, 0⟩] = some m ∧
      Run.run samplePlatform.step m
        [.call (.plain (.read 2 0x8050000 10 ⟨[], false⟩)) ⟨64, 0⟩,
         .call (.plain (.read 2 0x8050100 100 ⟨[], false⟩)) ⟨64, 0⟩] = some m' ∧
      (m'.files (slot 2)).filePosition.toNat = 28 := by
  have hrun : (Run.run samplePlatform.step sampleBoot
      [.call (.execute 0x500000) ⟨64, 0x7FFFF0⟩]).any (fun m₀ =>
        (readDentryByName samplePlatform.fs
          (samplePlatform.charPtr (m₀.enter ⟨64, 0⟩) 0x500100)).any (fun found =>
            found.any fun d => decide (d.filetype = fileTypeFile) && decide (d.inodeNum = 1)) &&
        (samplePlatform.step m₀ (.call (.plain (.open 0x500100)) ⟨64, 0⟩)).any fun m =>
          decide (m.eax = 2) &&
          (Run.run samplePlatform.step m
            [.call (.plain (.read 2 0x8050000 10 ⟨[], false⟩)) ⟨64, 0⟩,
             .call (.plain (.read 2 0x8050100 100 ⟨[], false⟩)) ⟨64, 0⟩]).isSome) = true := by
    decide +kernel
  simp only [Option.any_eq_true, Option.isSome_iff_exists, Bool.and_eq_true,
    decide_eq_true_eq] at hrun
  obtain ⟨m₀, hm₀, ⟨found, hentry, d, rfl, hfile, hinode⟩, m, hopen, heax, m', hm'⟩ := hrun
  have hstart : Run.run samplePlatform.step sampleBoot
      [.call (.execute 0x500000) ⟨64, 0x7FFFF0⟩, .call (.plain (.open 0x500100)) ⟨64, 0⟩]
      = some m := by
    obtain ⟨u, hu, hnil⟩ := Run.run_cons_eq_some.1 hm₀
    cases hnil
    exact Run.run_cons_eq_some.2 ⟨m₀, hu, Run.run_cons_eq_some.2 ⟨m, hopen, rfl⟩⟩
  have hwf : WellFormed samplePlatform.fs d.inodeNum := hinode ▸ wellFormed_sample
  have hfd : m.eax = (2 : Int32).toUInt32 := heax
  obtain ⟨-, hposition, -⟩ := sequential_reads samplePlatform ⟨_, _, boot_bootMachine _ _, hm₀⟩
    hopen hfd (by decide) hentry hfile hwf (by simp [Interleaved]) hm'
  refine ⟨m, m', hstart, hm', hposition.trans ?_⟩
  rw [hinode]
  decide +kernel

end Platform

end CheetOS
