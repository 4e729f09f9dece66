import CheetOS.Processes

/-!
# Isolation of the address spaces

What a program can reach through the page tables, in every state.

* `Mapped` is the invariant on the entries of the page directory and of the two
  tables, `mapped_step`, `mapped_run` its preservation;
* `translate_user_page`, `translate_user_video`, `translate_user_fault`,
  `translate_kernel`, `translate_screen` read the five kinds of address off it;
* `isolated_run` puts them together for the program that runs.
-/

namespace CheetOS

namespace Platform

variable (P : Platform)

/-! ## The invariant -/

/-- The entries of the page directory but that of the user page, and the two
tables; the screen is mapped for programs if `v` holds. -/
structure Mapped (v : Prop) (t : Tables) : Prop where
  low : t.pageDirectory 0 = P.pageTable ||| 3
  kernel : t.pageDirectory 1 = 0x00400083
  shown : v → t.pageDirectory 33 = P.videoPages ||| 7 ∧ t.videoPages 0 = 0xB8007
  hidden : ¬v → t.pageDirectory 33 = 2
  absent : ∀ i < 1024, i ≠ 0 → i ≠ 1 → i ≠ 32 → i ≠ 33 → t.pageDirectory i = 2
  others : ∀ i < 1024, i ≠ 0 → t.videoPages i = 0
  table : t.pageTable = initPageTable

/-- A `vidmap` in the run returned `0`. -/
def Shown (m : Machine) : List Event → Prop
  | [] => False
  | e :: es => ∃ m', P.step m e = some m' ∧ (Vidmapped e m' ∨ Shown m' es)

variable {P}

theorem mapped_boot {m : Machine} (h : P.Boot m) : P.Mapped False m.kernel.toTables where
  low := by rw [h.pageDirectory]; rfl
  kernel := by rw [h.pageDirectory]; rfl
  shown := False.elim
  hidden := fun _ => by rw [h.pageDirectory]; rfl
  absent := by
    intro i _ h0 h1 _ _
    rw [h.pageDirectory, Layout.initDirectory, if_neg h0, if_neg h1]
  others := fun i hi _ => h.videoPages i hi
  table := h.pageTable

/-- Only the directory and the tables matter. -/
theorem Mapped.congr {v : Prop} {t t' : Tables} (h : P.Mapped v t)
    (hdir : ∀ i, i ≠ 32 → t'.pageDirectory i = t.pageDirectory i)
    (htable : t'.pageTable = t.pageTable) (hvideo : t'.videoPages = t.videoPages) :
    P.Mapped v t' where
  low := (hdir 0 (by decide)).trans h.low
  kernel := (hdir 1 (by decide)).trans h.kernel
  shown := by
    intro hv
    rw [hdir 33 (by decide), hvideo]
    exact h.shown hv
  hidden := fun hv => (hdir 33 (by decide)).trans (h.hidden hv)
  absent := fun i hi h0 h1 h32 h33 => (hdir i h32).trans (h.absent i hi h0 h1 h32 h33)
  others := by
    rw [hvideo]
    exact h.others
  table := htable.trans h.table

theorem pageDirectory_mapVideo (t : Tables) :
    (P.mapVideo t).pageDirectory = Function.update t.pageDirectory 33 (P.videoPages ||| 7) := rfl

theorem videoPages_mapVideo (t : Tables) :
    (P.mapVideo t).videoPages = Function.update t.videoPages 0 0xB8007 := by
  have hentry : video ||| 7 = 0xB8007 := by decide
  unfold Layout.mapVideo
  rw [hentry]

/-- `vidmap` maps the screen, whether it was mapped before or not. -/
theorem Mapped.mapVideo {v : Prop} {t : Tables} (h : P.Mapped v t) :
    P.Mapped True (P.mapVideo t) where
  low := by rw [pageDirectory_mapVideo, Function.update_of_ne (by decide), h.low]
  kernel := by rw [pageDirectory_mapVideo, Function.update_of_ne (by decide), h.kernel]
  shown := by
    intro _
    rw [pageDirectory_mapVideo, videoPages_mapVideo]
    exact ⟨Function.update_self .., Function.update_self ..⟩
  hidden := fun h => absurd trivial h
  absent := by
    intro i hi h0 h1 h32 h33
    rw [pageDirectory_mapVideo, Function.update_of_ne h33, h.absent i hi h0 h1 h32 h33]
  others := by
    intro i hi h0
    rw [videoPages_mapVideo, Function.update_of_ne h0, h.others i hi h0]
  table := h.table

/-- Every effect but that of `vidmap` keeps the invariant as it is. -/
theorem Effect.mapped {v w : Prop} {t t' : Tables} {fs fs' : List Frame}
    (h : P.Effect v t fs t' fs') (hv : ¬v) (hm : P.Mapped w t) : P.Mapped w t' := by
  cases h with
  | same => exact hm
  | opened | closed | moved => exact hm.congr (fun _ _ => rfl) rfl rfl
  | video _ called => exact absurd called hv
  | leaked i free =>
    rw [t.leak_eq]
    exact hm.congr (fun i hi => Function.update_of_ne hi _ _) rfl rfl
  | started i free arg =>
    rw [P.startTables_eq]
    exact hm.congr (fun i hi => Function.update_of_ne hi _ _) rfl rfl
  | halted _ _ _ _ =>
    rw [t.halt_eq]
    exact hm.congr (fun i hi => Function.update_of_ne hi _ _) rfl rfl

/-- A `vidmap` that returns `0` is a system call that returns. -/
theorem plain_of_vidmapped {m' : Machine} {e : Event} (hv : Vidmapped e m') :
    ∃ screenStart regs, e = .call (.plain (.vidmap screenStart)) regs ∧ m'.eax = 0 := by
  cases e with
  | store va b => exact hv.elim
  | call c regs =>
    cases c with
    | halt status => exact hv.elim
    | execute command => exact hv.elim
    | plain c =>
      cases c with
      | vidmap screenStart => exact ⟨screenStart, regs, rfl, hv.2⟩
      | read | write | «open» | close | getargs => cases hv.1

/-- The effect of a `vidmap` that returns `0`. -/
theorem step_vidmapped {m m' : Machine} {e : Event} (h : P.step m e = some m')
    (hv : Vidmapped e m') :
    ∃ regs, m'.kernel.toTables = P.mapVideo (m.enter regs).toTables := by
  obtain ⟨screenStart, regs, rfl, heax⟩ := plain_of_vidmapped hv
  obtain ⟨-, -, -, -, r, hrun, hret⟩ := P.plain_of_step h
  rw [hret] at heax
  rcases P.vidmap_cases hrun with ⟨rfl, -⟩ | ⟨-, htables⟩
  · exact absurd (toUInt32_eq_zero.1 heax) (by decide)
  · exact ⟨regs, htables⟩

/-- **One step keeps the invariant.** -/
theorem mapped_step {v : Prop} {m m' : Machine} {e : Event}
    (hm : P.Mapped v m.kernel.toTables) (h : P.step m e = some m') :
    P.Mapped (v ∨ Vidmapped e m') m'.kernel.toTables := by
  by_cases hv : Vidmapped e m'
  · obtain ⟨regs, htables⟩ := step_vidmapped h hv
    rw [htables, eq_true (Or.inr hv : v ∨ Vidmapped e m')]
    have henter : P.Mapped v (m.enter regs).toTables := hm.congr (fun _ _ => rfl) rfl rfl
    exact henter.mapVideo
  · rw [or_iff_left hv]
    rcases P.step_effect h with ⟨-, -, htables⟩ | ⟨regs, -, -, heffect⟩
    · rw [htables]
      exact hm
    · exact heffect.mapped hv (hm.congr (fun _ _ => rfl) rfl rfl)

theorem mapped_run {v : Prop} {m m' : Machine} {es : List Event}
    (hm : P.Mapped v m.kernel.toTables) (h : Run.run P.step m es = some m') :
    P.Mapped (v ∨ P.Shown m es) m'.kernel.toTables := by
  induction es generalizing m v with
  | nil =>
    cases h
    simpa [Shown] using hm
  | cons e es ih =>
    obtain ⟨u, hu, hrest⟩ := Run.run_cons_eq_some.1 h
    have hall := ih (mapped_step hm hu) hrest
    have hshown : P.Shown m (e :: es) ↔ Vidmapped e u ∨ P.Shown u es := by
      simp [Shown, hu]
    rw [hshown, ← or_assoc]
    exact hall

/-! ## Addresses -/

/-- The index of an address in the directory, as a word. -/
theorem dirIndex_eq {va i : UInt32} (h : va.toNat / 4194304 = i.toNat) : va >>> 22 = i := by
  rw [← UInt32.toNat_inj, Paging.toNat_dirIndex, h]

/-- What is in the flag bits of an entry that names a table. -/
theorem table_flags {a f : UInt32} (ha : Paging.Aligned a) (hf : (0xFFF : UInt32) &&& f = f) :
    Paging.present (a ||| f) = Paging.present f ∧ Paging.userBit (a ||| f) = Paging.userBit f ∧
      Paging.writable (a ||| f) = Paging.writable f ∧ Paging.large (a ||| f) = Paging.large f ∧
      (a ||| f) &&& 0xFFFFF000 = a := by
  have hbit : ∀ bit : UInt32, (0xFFF : UInt32) &&& bit = bit → (a ||| f) &&& bit = f &&& bit :=
    fun _ => Paging.flags_or ha
  have hframe : f &&& 0xFFFFF000 = 0 := by
    rw [← hf, UInt32.and_comm 0xFFF f, UInt32.and_assoc, show (0xFFF : UInt32) &&& 0xFFFFF000 = 0
      from by decide, UInt32.and_zero]
  unfold Paging.present Paging.userBit Paging.writable Paging.large
  rw [hbit 1 (by decide), hbit 2 (by decide), hbit 4 (by decide), hbit 0x80 (by decide)]
  exact ⟨rfl, rfl, rfl, rfl, Paging.frame_or ha hframe⟩

/-- Where the addresses of the user page are. -/
theorem toNat_user {pid va : UInt32} (hpid : pid < numMaxProcesses) (h : 0x08000000 ≤ va)
    (h' : va < 0x08400000) : (userPage pid + (va - 0x08000000)).toNat
      = (userPage pid).toNat + (va.toNat - 0x08000000) := by
  have hhi := UInt32.lt_iff_toNat_lt.1 h'
  have hsub : (va - 0x08000000).toNat = va.toNat - 0x08000000 := UInt32.toNat_sub_of_le va _ h
  have hbase := toNat_userPage hpid
  have hsix := toNat_lt_six hpid
  simp only [UInt32.reduceToNat] at hhi
  rw [Word32.toNat_add_of_lt (by omega), hsub]

theorem toNat_programImage {j : ℕ} (hj : j < 0x744000) :
    (programImage + UInt32.ofNat j).toNat = 0x8048000 + j := by
  have hbase : programImage.toNat = 0x8048000 := rfl
  rw [Word32.toNat_add_ofNat (by omega), hbase]

/-- The program image is in the user page. -/
theorem programImage_user {j : ℕ} (hj : j < 0x3B8000) :
    0x08000000 ≤ programImage + UInt32.ofNat j ∧ programImage + UInt32.ofNat j < 0x08400000 := by
  rw [UInt32.le_iff_toNat_le, UInt32.lt_iff_toNat_lt, toNat_programImage (by omega)]
  simp only [UInt32.reduceToNat]
  omega

/-- An address in the user page. -/
theorem translate_user_page {t : Tables} {pid : UInt32} (hpid : pid < numMaxProcesses)
    (hpage : t.pageDirectory 32 = userEntry pid) (mode : Paging.Mode) (w : Paging.Access)
    {va : UInt32} (h : 0x08000000 ≤ va) (h' : va < 0x08400000) :
    P.translate t mode w va = some (userPage pid + (va - 0x08000000)) := by
  have hlo : 134217728 ≤ va.toNat := UInt32.le_iff_toNat_le.1 h
  have hhi : va.toNat < 138412032 := UInt32.lt_iff_toNat_lt.1 h'
  have hindex : va >>> 22 = 32 := dirIndex_eq (by simp only [UInt32.reduceToNat]; omega)
  have hentry : t.pageDirectory (va >>> 22) = userEntry pid := by rw [hindex, hpage]
  have hpermits : Paging.permits mode w (userEntry pid) = true := by
    rcases pid_cases hpid with rfl | rfl | rfl | rfl | rfl | rfl <;>
      cases mode <;> cases w <;> decide
  have hlarge : Paging.large (userEntry pid) = true := by
    rcases pid_cases hpid with rfl | rfl | rfl | rfl | rfl | rfl <;> decide
  have hframe : userEntry pid &&& 0xFFC00000 = userPage pid := by
    rcases pid_cases hpid with rfl | rfl | rfl | rfl | rfl | rfl <;> decide
  have hbase := toNat_userPage hpid
  have hsix := toNat_lt_six hpid
  unfold translate
  rw [Paging.translate_large hentry hpermits hlarge, hframe, Option.some.injEq,
    ← UInt32.toNat_inj, Paging.toNat_or_low (k := 22) rfl (by omega), toNat_user hpid h h']
  omega

/-- Physical memory behind the user page is not the kernel's. -/
theorem kernelData_user_page {pid : UInt32} (hpid : pid < numMaxProcesses) {va : UInt32}
    (h : 0x08000000 ≤ va) (h' : va < 0x08400000) :
    P.kernelData (userPage pid + (va - 0x08000000)) = false := by
  rw [Bool.eq_false_iff]
  intro hdata
  have hrange := UInt32.lt_iff_toNat_lt.1 (P.kernelData_range _ hdata).2
  rw [toNat_user hpid h h', toNat_userPage hpid] at hrange
  simp only [UInt32.reduceToNat] at hrange
  omega

/-- The table of `vidmap`, when it is in the directory. -/
theorem translate_video {v : Prop} {t : Tables} (hm : P.Mapped v t) (hv : v) (mode : Paging.Mode)
    (w : Paging.Access) {va : UInt32} (hindex : va >>> 22 = 33) :
    P.translate t mode w va =
      if Paging.permits mode w (t.videoPages ((va >>> 12) &&& 0x3FF)) then
        some ((t.videoPages ((va >>> 12) &&& 0x3FF) &&& 0xFFFFF000) ||| (va &&& 0xFFF))
      else none := by
  obtain ⟨hdir, -⟩ := hm.shown hv
  obtain ⟨hpresent, huser, hwritable, hlarge, hframe⟩ :=
    table_flags (f := 7) P.videoPages_aligned (by decide)
  have hpermits : Paging.permits mode w (P.videoPages ||| 7) = true := by
    unfold Paging.permits
    rw [hpresent, huser, hwritable]
    cases mode <;> cases w <;> decide
  have htable : P.tablesOf t ((P.videoPages ||| 7) &&& 0xFFFFF000) = t.videoPages := by
    unfold tablesOf
    rw [hframe, if_neg P.tables_ne.symm, if_pos rfl]
  unfold translate
  exact Paging.translate_small (by rw [hindex, hdir]) hpermits (by rw [hlarge]; decide)
    (congrFun htable _)

/-- An address in the page of the screen, when it is mapped for programs. -/
theorem translate_user_video {v : Prop} {t : Tables} (hm : P.Mapped v t) (hv : v)
    (mode : Paging.Mode) (w : Paging.Access) {va : UInt32} (h : 0x08400000 ≤ va)
    (h' : va < 0x08401000) :
    P.translate t mode w va = some (0xB8000 + (va - 0x08400000)) := by
  have hlo : 138412032 ≤ va.toNat := UInt32.le_iff_toNat_le.1 h
  have hhi : va.toNat < 138416128 := UInt32.lt_iff_toNat_lt.1 h'
  have hindex : va >>> 22 = 33 := dirIndex_eq (by simp only [UInt32.reduceToNat]; omega)
  have hsecond : (va >>> 12) &&& 0x3FF = 0 := by
    rw [← UInt32.toNat_inj, Paging.toNat_tableIndex]
    simp only [UInt32.reduceToNat]
    omega
  have hpte : Paging.permits mode w 0xB8007 = true := by
    cases mode <;> cases w <;> decide
  have hsub : (va - 0x08400000).toNat = va.toNat - 138412032 := UInt32.toNat_sub_of_le va _ h
  have hvideo : ((0xB8007 : UInt32) &&& 0xFFFFF000).toNat = 753664 := by decide
  have hbase : (0xB8000 : UInt32).toNat = 753664 := rfl
  rw [translate_video hm hv mode w hindex, hsecond, (hm.shown hv).2, if_pos hpte,
    Option.some.injEq, ← UInt32.toNat_inj, Paging.toNat_or_low (k := 12) rfl (by decide),
    Word32.toNat_add_of_lt (by omega), hsub, hvideo]
  omega

/-- The table of the screen has one entry only. -/
theorem translate_video_none {v : Prop} {t : Tables} (hm : P.Mapped v t) (mode : Paging.Mode)
    (w : Paging.Access) {va : UInt32} (hindex : va >>> 22 = 33)
    (hout : ¬(v ∧ va.toNat < 0x8401000)) : P.translate t mode w va = none := by
  by_cases hv : v
  · have hpast : ¬va.toNat < 0x8401000 := fun hlt => hout ⟨hv, hlt⟩
    have hva := va.toNat_lt
    have hpage := congrArg UInt32.toNat hindex
    rw [Paging.toNat_dirIndex] at hpage
    have hsecond := Paging.toNat_tableIndex va
    simp only [UInt32.reduceToNat] at hpage
    have hzero : t.videoPages ((va >>> 12) &&& 0x3FF) = 0 := by
      refine hm.others _ ?_ ?_
      · rw [UInt32.lt_iff_toNat_lt, hsecond]
        simp only [UInt32.reduceToNat]
        omega
      · intro heq
        rw [heq] at hsecond
        simp only [UInt32.reduceToNat] at hsecond
        omega
    rw [translate_video hm hv mode w hindex, hzero,
      if_neg (by cases mode <;> cases w <;> decide)]
  · unfold translate
    refine Paging.translate_none ?_
    rw [hindex, hm.hidden hv]
    decide

/-- Every other address is out of reach of a program. -/
theorem translate_user_fault {v : Prop} {t : Tables} (hm : P.Mapped v t) (w : Paging.Access)
    {va : UInt32} (hpage : ¬(0x08000000 ≤ va ∧ va < 0x08400000))
    (hvideo : ¬(v ∧ 0x08400000 ≤ va ∧ va < 0x08401000)) : P.translate t .user w va = none := by
  simp only [UInt32.le_iff_toNat_le, UInt32.lt_iff_toNat_lt, UInt32.reduceToNat] at hpage hvideo
  have hva := va.toNat_lt
  have hlt : va >>> 22 < 1024 := by
    rw [UInt32.lt_iff_toNat_lt, Paging.toNat_dirIndex]
    simp only [UInt32.reduceToNat]
    omega
  have hne : va >>> 22 ≠ 32 := by
    intro heq
    have hindex := congrArg UInt32.toNat heq
    rw [Paging.toNat_dirIndex] at hindex
    simp only [UInt32.reduceToNat] at hindex
    omega
  unfold translate
  by_cases h0 : va >>> 22 = 0
  · obtain ⟨-, huser, -⟩ := table_flags (f := 3) P.pageTable_aligned (by decide)
    refine Paging.translate_user_none ?_
    rw [h0, hm.low, huser]
    decide
  by_cases h1 : va >>> 22 = 1
  · refine Paging.translate_user_none ?_
    rw [h1, hm.kernel]
    decide
  by_cases h33 : va >>> 22 = 33
  · refine translate_video_none hm .user w h33 ?_
    rintro ⟨hv, hlt⟩
    have hindex := congrArg UInt32.toNat h33
    rw [Paging.toNat_dirIndex] at hindex
    simp only [UInt32.reduceToNat] at hindex
    exact hvideo ⟨hv, by omega, hlt⟩
  · refine Paging.translate_none ?_
    rw [hm.absent _ hlt h0 h1 hne h33]
    decide

/-- The kernel's page is mapped to itself. -/
theorem translate_kernel {v : Prop} {t : Tables} (hm : P.Mapped v t) (w : Paging.Access)
    {va : UInt32} (h : 0x400000 ≤ va) (h' : va < 0x800000) :
    P.translate t .supervisor w va = some va := by
  have hlo : 4194304 ≤ va.toNat := UInt32.le_iff_toNat_le.1 h
  have hhi : va.toNat < 8388608 := UInt32.lt_iff_toNat_lt.1 h'
  have hindex : va >>> 22 = 1 := dirIndex_eq (by simp only [UInt32.reduceToNat]; omega)
  have hpermits : Paging.permits .supervisor w 0x00400083 = true := by
    cases w <;> decide
  have hbase : ((0x00400083 : UInt32) &&& 0xFFC00000).toNat = 4194304 := by decide
  unfold translate
  rw [Paging.translate_large (by rw [hindex, hm.kernel]) hpermits (by decide), Option.some.injEq,
    ← UInt32.toNat_inj, Paging.toNat_or_low (k := 22) rfl (by decide), hbase]
  omega

/-- The first table. -/
theorem translate_first {v : Prop} {t : Tables} (hm : P.Mapped v t) (w : Paging.Access)
    {va : UInt32} (hindex : va >>> 22 = 0) :
    P.translate t .supervisor w va =
      if Paging.permits .supervisor w (initPageTable ((va >>> 12) &&& 0x3FF)) then
        some ((initPageTable ((va >>> 12) &&& 0x3FF) &&& 0xFFFFF000) ||| (va &&& 0xFFF))
      else none := by
  obtain ⟨hpresent, -, -, hlarge, hframe⟩ :=
    table_flags (f := 3) P.pageTable_aligned (by decide)
  have hpermits : Paging.permits .supervisor w (P.pageTable ||| 3) = true := by
    unfold Paging.permits
    rw [hpresent]
    rfl
  have htable : P.tablesOf t ((P.pageTable ||| 3) &&& 0xFFFFF000) = initPageTable := by
    unfold tablesOf
    rw [hframe, if_pos rfl, hm.table]
  unfold translate
  exact Paging.translate_small (by rw [hindex, hm.low]) hpermits (by rw [hlarge]; decide)
    (congrFun htable _)

/-- The screen is mapped to itself. -/
theorem translate_screen {v : Prop} {t : Tables} (hm : P.Mapped v t) (w : Paging.Access)
    {va : UInt32} (h : 0xB8000 ≤ va) (h' : va < 0xBC000) :
    P.translate t .supervisor w va = some va := by
  have hlo : 753664 ≤ va.toNat := UInt32.le_iff_toNat_le.1 h
  have hhi : va.toNat < 770048 := UInt32.lt_iff_toNat_lt.1 h'
  have hindex : va >>> 22 = 0 := dirIndex_eq (by simp only [UInt32.reduceToNat]; omega)
  have hmod := Paging.toNat_tableIndex va
  -- the four pages of the screen
  have hpte : Paging.permits .supervisor w (initPageTable ((va >>> 12) &&& 0x3FF)) = true ∧
      (initPageTable ((va >>> 12) &&& 0x3FF) &&& 0xFFFFF000).toNat
        = va.toNat / 4096 % 1024 * 4096 := by
    have hsecond : ((va >>> 12) &&& 0x3FF) = 0xB8 ∨ ((va >>> 12) &&& 0x3FF) = 0xB9 ∨
        ((va >>> 12) &&& 0x3FF) = 0xBA ∨ ((va >>> 12) &&& 0x3FF) = 0xBB := by
      simp only [← UInt32.toNat_inj, hmod, UInt32.reduceToNat]
      omega
    rw [← hmod]
    rcases hsecond with heq | heq | heq | heq <;> rw [heq] <;> cases w <;> decide
  rw [translate_first hm w hindex, if_pos hpte.1, Option.some.injEq, ← UInt32.toNat_inj,
    Paging.toNat_or_low (k := 12) rfl (by rw [hpte.2]; omega), hpte.2]
  omega

/-! ## Isolation -/

/-- **Isolation.**  After every run from boot, whatever program runs, and for every
address: a program reaches its own 4 MB and, once a `vidmap` has succeeded, one
page of the screen, and nothing else; and the kernel reaches its own page and the
screen as it did at boot. -/
theorem isolated_run (P : Platform) {m₀ m : Machine} {es : List Event} (hboot : P.Boot m₀)
    (hrun : Run.run P.step m₀ es = some m) :
    (m.frames ≠ [] → ∀ w va,
      (0x08000000 ≤ va → va < 0x08400000 → P.translate m.kernel.toTables .user w va
        = some (0x800000 + m.kernel.currProcess * 0x400000 + (va - 0x08000000))) ∧
      (P.Shown m₀ es → 0x08400000 ≤ va → va < 0x08401000 →
        P.translate m.kernel.toTables .user w va = some (0xB8000 + (va - 0x08400000))) ∧
      (¬(0x08000000 ≤ va ∧ va < 0x08400000) →
        ¬(P.Shown m₀ es ∧ 0x08400000 ≤ va ∧ va < 0x08401000) →
        P.translate m.kernel.toTables .user w va = none)) ∧
    (∀ w va, 0x400000 ≤ va → va < 0x800000 →
      P.translate m.kernel.toTables .supervisor w va = some va ∧
      P.translate m₀.kernel.toTables .supervisor w va = some va) ∧
    (∀ w va, 0xB8000 ≤ va → va < 0xBC000 →
      P.translate m.kernel.toTables .supervisor w va = some va ∧
      P.translate m₀.kernel.toTables .supervisor w va = some va) := by
  have hm₀ := mapped_boot hboot
  have hm : P.Mapped (False ∨ P.Shown m₀ es) m.kernel.toTables := mapped_run hm₀ hrun
  rw [false_or] at hm
  have hn := nested_reachable ⟨m₀, es, hboot, hrun⟩
  refine ⟨?_, ?_, ?_⟩
  · intro hlive w va
    have hpage := hn.userPage hlive
    refine ⟨?_, ?_, ?_⟩
    · intro h h'
      exact translate_user_page hn.running_bound hpage .user w h h'
    · intro hshown h h'
      exact translate_user_video hm hshown .user w h h'
    · intro h h'
      exact translate_user_fault hm w h h'
  · intro w va h h'
    exact ⟨translate_kernel hm w h h', translate_kernel hm₀ w h h'⟩
  · intro w va h h'
    exact ⟨translate_screen hm w h h', translate_screen hm₀ w h h'⟩

end Platform

end CheetOS
