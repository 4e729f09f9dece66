import CheetOS.Processes

/-!
# Dispatch through the operation tables

`read`, `write` and `close` call through a pointer that lies in the descriptor
table of the process.  It is one of the four tables whenever the slot is in use:

* `SlotOk`, `FilesOk` are the invariant of one descriptor table, kept by every
  operation on it;
* `FilesRule` is what it takes for a property of one table to hold of those of all live
  processes in every state, `allFiles_step` its preservation;
* `dispatch_safety` puts it together with what the system calls do on a bad
  descriptor.
-/

namespace CheetOS

/-! ## Looking up a name finds an entry -/

theorem findDentry_listed {fs : Image} {s : ℕ → Option UInt8} {n : ℕ} {index : UInt32}
    {d : Dentry} (h : findDentry fs s n index = some (some d)) :
    ∃ j < UInt32.ofNat numFiles, d = direntry fs j := by
  induction n generalizing index with
  | zero => cases h
  | succ n ih =>
    unfold findDentry at h
    cases hr : strncmp s (direntry fs index).filename filenameLen with
    | none => simp [hr] at h
    | some r =>
      simp only [hr] at h
      by_cases hzero : r = 0
      · rw [if_pos hzero, Option.some.injEq] at h
        unfold readDentryByIndex at h
        by_cases hindex : index ≥ UInt32.ofNat numFiles
        · rw [if_pos hindex] at h
          cases h
        · rw [if_neg hindex] at h
          cases h
          exact ⟨index, UInt32.not_le.1 hindex, rfl⟩
      · rw [if_neg hzero] at h
        exact ih h

/-- What a look-up returns is an entry of the directory. -/
theorem readDentryByName_listed {fs : Image} {name : CharPtr} {d : Dentry}
    (h : readDentryByName fs name = some (some d)) :
    ∃ j < UInt32.ofNat numFiles, d = direntry fs j := by
  unfold readDentryByName at h
  cases name with
  | none => cases h
  | some s =>
    cases hs : s 0 with
    | none => simp [hs] at h
    | some c =>
      simp only [hs] at h
      by_cases hc : c = 0
      · rw [if_pos hc] at h
        cases h
      · rw [if_neg hc] at h
        exact findDentry_listed h

theorem slot_val {fd : Int32} (h : 0 ≤ fd) (h' : fd ≤ 7) : (slot fd).val = fd.toNatClampNeg := by
  unfold slot
  have hle : fd.toNatClampNeg ≤ 7 := by
    have := Int32.le_iff_toInt_le.1 h'
    have := Int32.le_iff_toInt_le.1 h
    rw [← Int32.toNat_toInt]
    simp only [Int32.reduceToInt] at *
    omega
  exact Nat.mod_eq_of_lt (Nat.lt_succ_of_le hle)

theorem two_le_slot {fd : Int32} (h : 2 ≤ fd) (h' : fd ≤ 7) : 2 ≤ (slot fd).val := by
  have h2 := Int32.le_iff_toInt_le.1 h
  rw [slot_val (Int32.le_trans (by decide) h) h', ← Int32.toNat_toInt]
  simp only [Int32.reduceToInt] at h2
  omega

namespace Platform

variable (P : Platform)

/-! ## One table of descriptors -/

/-- `file_open` takes the lowest free slot. -/
theorem firstAvail_spec {files : FileArray} {i : Fin numMaxOpenFiles}
    (h : firstAvail files = some i) :
    2 ≤ i.val ∧ (files i).flags = fileAvail ∧
      ∀ j : Fin numMaxOpenFiles, 2 ≤ j.val → j < i → (files j).flags ≠ fileAvail := by
  obtain ⟨hi, as, bs, hsplit, has⟩ := List.find?_eq_some_iff_append.1 h
  simp only [Bool.and_eq_true, decide_eq_true_eq] at hi
  refine ⟨hi.1, hi.2, fun j hj hlt hflags => ?_⟩
  -- what is smaller stands before it in the list
  have hsorted : (List.finRange numMaxOpenFiles).Pairwise (· < ·) := by decide
  have hmem : j ∈ List.finRange numMaxOpenFiles := List.mem_finRange j
  rw [hsplit] at hsorted hmem
  rcases List.mem_append.1 hmem with hbefore | hafter
  · have hnot := has j hbefore
    simp [hj, hflags] at hnot
  · rcases List.mem_cons.1 hafter with rfl | hafter
    · exact absurd hlt (lt_irrefl j)
    · have hij := (List.pairwise_cons.1 (List.pairwise_append.1 hsorted).2.1).1 j hafter
      exact absurd (lt_trans hlt hij) (lt_irrefl j)

/-- A slot is free, or it holds one of the four tables and, unless it is one of
the terminal's, the inode number of a directory entry. -/
structure SlotOk (i : Fin numMaxOpenFiles) (f : FileDesc) : Prop where
  flag : f.flags = fileAvail ∨ f.flags = fileOccup
  table : f.flags ≠ fileAvail →
    f.fileOpsTablePtr ∈ [P.terminalOps, P.fileOps, P.directoryOps, P.rtcOps]
  inode : f.flags ≠ fileAvail → 2 ≤ i.val →
    ∃ j < UInt32.ofNat numFiles, f.inodeNum = (direntry P.fs j).inodeNum

/-- A table of descriptors: the terminal is open on slots 0 and 1. -/
structure FilesOk (files : FileArray) : Prop where
  slots : ∀ i, P.SlotOk i (files i)
  terminal : ∀ i : Fin numMaxOpenFiles, i.val < 2 →
    (files i).flags = fileOccup ∧ (files i).fileOpsTablePtr = P.terminalOps

variable {P}

theorem filesOk_init : P.FilesOk P.initFileArray where
  slots := by
    intro i
    unfold initFileArray
    by_cases hi : i.val < 2
    · rw [if_pos hi]
      refine ⟨Or.inr rfl, fun _ => List.mem_cons_self, fun _ h => ?_⟩
      omega
    · rw [if_neg hi]
      exact ⟨Or.inl rfl, fun h => absurd rfl h, fun h => absurd rfl h⟩
  terminal := by
    intro i hi
    unfold initFileArray
    rw [if_pos hi]
    exact ⟨rfl, rfl⟩

/-- A slot of the program's own may get any contents that are in order. -/
theorem FilesOk.update {files : FileArray} (h : P.FilesOk files) {i : Fin numMaxOpenFiles}
    {f : FileDesc} (hi : 2 ≤ i.val) (hf : P.SlotOk i f) :
    P.FilesOk (Function.update files i f) where
  slots := by
    intro j
    by_cases hj : j = i
    · subst hj
      rwa [Function.update_self]
    · rw [Function.update_of_ne hj]
      exact h.slots j
  terminal := by
    intro j hj
    have hne : j ≠ i := by
      rintro rfl
      omega
    rw [Function.update_of_ne hne]
    exact h.terminal j hj

theorem slotOk_blank (i : Fin numMaxOpenFiles) : P.SlotOk i blank :=
  ⟨Or.inl rfl, fun h => absurd rfl h, fun h => absurd rfl h⟩

/-- What `file_open` leaves in a slot is in order; a clock entry leaves it free. -/
theorem slotOk_opened {i : Fin numMaxOpenFiles} {d : Dentry} {old : FileDesc}
    (hfree : old.flags = fileAvail)
    (hd : ∃ j < UInt32.ofNat numFiles, d = direntry P.fs j) : P.SlotOk i (P.opened d old) := by
  obtain ⟨j, hj, rfl⟩ := hd
  unfold opened
  split_ifs with h1 h2
  · exact ⟨Or.inr rfl, fun _ => by simp, fun _ _ => ⟨j, hj, rfl⟩⟩
  · exact ⟨Or.inr rfl, fun _ => by simp, fun _ _ => ⟨j, hj, rfl⟩⟩
  · exact ⟨Or.inl hfree, fun h => absurd hfree h, fun h => absurd hfree h⟩

/-- Moving the position of a descriptor changes nothing that matters here. -/
theorem FilesOk.moveTo {files : FileArray} (h : P.FilesOk files) (i : Fin numMaxOpenFiles)
    (pos : UInt32) : P.FilesOk (Function.update files i ((files i).moveTo pos)) where
  slots := by
    intro j
    by_cases hj : j = i
    · subst hj
      rw [Function.update_self]
      exact ⟨(h.slots j).flag, (h.slots j).table, (h.slots j).inode⟩
    · rw [Function.update_of_ne hj]
      exact h.slots j
  terminal := by
    intro j hj
    by_cases hji : j = i
    · subst hji
      rw [Function.update_self]
      exact h.terminal j hj
    · rw [Function.update_of_ne hji]
      exact h.terminal j hj

/-! ## All tables -/

variable (P) in
/-- A property that a fresh table of descriptors has, and that `open`, `close` and `read`
keep. -/
structure FilesRule (I : FileArray → Prop) : Prop where
  init : I P.initFileArray
  opened : ∀ (files : FileArray) (i : Fin numMaxOpenFiles) (d : Dentry), I files →
    2 ≤ i.val → (files i).flags = fileAvail → knownType d.filetype →
    (∃ j < UInt32.ofNat numFiles, d = direntry P.fs j) →
    I (Function.update files i (P.opened d (files i)))
  closed : ∀ (files : FileArray) (i : Fin numMaxOpenFiles), I files → 2 ≤ i.val →
    I (Function.update files i blank)
  moved : ∀ (files : FileArray) (i : Fin numMaxOpenFiles) (pos : UInt32), I files →
    I (Function.update files i ((files i).moveTo pos))

/-- The tables of all live processes have a property. -/
def AllFiles (I : FileArray → Prop) (t : Tables) (fs : List Frame) : Prop :=
  ∀ f ∈ fs, I (t.pcb (pcbAddr f.pid)).fileArray

section Rule

variable {I : FileArray → Prop}

/-- A change to the running process's own table. -/
theorem AllFiles.setFile {t : Tables} {fs : List Frame} (h : AllFiles I t fs)
    {i : Fin numMaxOpenFiles} {f : FileDesc}
    (hf : I t.fileArray → I (Function.update t.fileArray i f)) :
    AllFiles I (t.setFile i f) fs := by
  intro g hg
  by_cases haddr : pcbAddr g.pid = currentPcbAddr t
  · have hfiles := (t.fileArray_setFile i f)
    unfold Tables.fileArray at hfiles hf
    rw [Tables.currentPcbAddr_setFile] at hfiles
    rw [haddr, hfiles]
    refine hf ?_
    rw [← haddr]
    exact h g hg
  · rw [t.pcb_setFile_of_ne i f haddr]
    exact h g hg

/-- Every effect keeps such a property of the tables of all live processes. -/
theorem Effect.allFiles (hI : P.FilesRule I) {v : Prop} {t t' : Tables} {fs fs' : List Frame}
    (h : P.Effect v t fs t' fs') (hn : P.Nested t fs) (ha : AllFiles I t fs) :
    AllFiles I t' fs' := by
  cases h with
  | same => exact ha
  | opened _ name idx d found =>
    obtain ⟨s, len, -, hread, hty, -, -, havail⟩ := P.openResult_eq_some found
    obtain ⟨hidx, hfree, -⟩ := firstAvail_spec havail
    exact ha.setFile fun hf =>
      hI.opened _ idx d hf hidx hfree hty (readDentryByName_listed hread)
  | closed _ fd used user =>
    exact ha.setFile fun hf => hI.closed _ _ hf (two_le_slot user used.2.1)
  | moved _ fd _ pos => exact ha.setFile fun hf => hI.moved _ _ pos hf
  | video _ _ => exact ha
  | leaked i free =>
    rw [t.leak_eq]
    exact ha
  | started i free arg =>
    obtain ⟨hi, -, -⟩ := firstInactive_eq_some free
    rw [P.startTables_eq]
    intro g hg
    rcases List.mem_cons.1 hg with rfl | hg
    · dsimp only
      rw [Function.update_self]
      exact hI.init
    · have hne : pcbAddr g.pid ≠ pcbAddr i :=
        pcbAddr_ne (hn.chain.bound_of_mem g hg) hi (UInt32.ne_of_lt (hn.lt_free free g hg))
      dsimp only
      rw [Function.update_of_ne hne]
      exact ha g hg
  | halted running fs' ret resumed =>
    rw [t.halt_eq]
    intro g hg
    obtain ⟨f, rfl⟩ := hn.resumed running resumed
    exact ha g (List.mem_cons_of_mem f hg)

/-- **One step keeps such a property.** -/
theorem allFiles_step (hI : P.FilesRule I) {m m' : Machine} {e : Event}
    (hn : P.Nested m.kernel.toTables m.frames) (ha : AllFiles I m.kernel.toTables m.frames)
    (h : P.step m e = some m') : AllFiles I m'.kernel.toTables m'.frames := by
  rcases P.step_effect h with ⟨-, hframes, htables⟩ | ⟨regs, -, -, heffect⟩
  · rw [hframes, htables]
    exact ha
  · exact heffect.allFiles hI (hn.enter regs) ha

theorem allFiles_reachable (hI : P.FilesRule I) {m : Machine} (h : P.Reachable m) :
    AllFiles I m.kernel.toTables m.frames := by
  obtain ⟨m₀, es, hboot, hrun⟩ := h
  have hboth := Run.invariant_run
    (I := fun m => P.Nested m.kernel.toTables m.frames ∧ AllFiles I m.kernel.toTables m.frames)
    (fun _ _ _ hi hs => ⟨nested_step hi.1 hs, allFiles_step hI hi.1 hi.2 hs⟩)
    ⟨nested_boot hboot, ?_⟩ hrun
  · exact hboth.2
  · rw [hboot.frames]
    intro f hf
    cases hf

/-- It holds of the table of the running program. -/
theorem allFiles_running (hI : P.FilesRule I) {m : Machine} (h : P.Reachable m)
    (hlive : m.frames ≠ []) : I (m.kernel.pcb (pcbAddr m.kernel.currProcess)).fileArray := by
  obtain ⟨f, fs, hfs⟩ := List.exists_cons_of_ne_nil hlive
  rw [(nested_reachable h).current, hfs]
  exact allFiles_reachable hI h f (by rw [hfs]; exact List.mem_cons_self)

end Rule

theorem filesOk_rule : P.FilesRule P.FilesOk where
  init := filesOk_init
  opened := fun _ _ _ hf hi hfree _ hd => hf.update hi (slotOk_opened hfree hd)
  closed := fun _ i hf hi => hf.update hi (slotOk_blank i)
  moved := fun _ i pos hf => hf.moveTo i pos

variable (P) in
/-- The descriptors of every live process are in order. -/
def AllFilesOk (t : Tables) (fs : List Frame) : Prop :=
  ∀ f ∈ fs, P.FilesOk (t.pcb (pcbAddr f.pid)).fileArray

theorem allFilesOk_reachable {m : Machine} (h : P.Reachable m) :
    P.AllFilesOk m.kernel.toTables m.frames := allFiles_reachable filesOk_rule h

/-! ## Dispatch -/

/-- The descriptors a system call works on are those of the running process. -/
theorem fileArray_enter {m : Machine} (hn : P.Nested m.kernel.toTables m.frames)
    (hlive : m.frames ≠ []) {regs : Regs} (h0 : 0 < regs.depth) (hroom : regs.depth ≤ stackRoom) :
    (m.enter regs).fileArray = (m.kernel.pcb (pcbAddr m.kernel.currProcess)).fileArray := by
  unfold Tables.fileArray
  rw [hn.currentPcb hlive h0 hroom]
  rfl

theorem FilesOk.table_of_opened {files : FileArray} (h : P.FilesOk files) {fd : Int32}
    (hfd : Opened files fd) :
    (files (slot fd)).fileOpsTablePtr ∈ [P.terminalOps, P.fileOps, P.directoryOps, P.rtcOps] :=
  (h.slots (slot fd)).table hfd.2.2

/-- One of four routines is run. -/
theorem mem_of_dispatch {c₁ c₂ c₃ c₄ : Prop} [Decidable c₁] [Decidable c₂] [Decidable c₃]
    [Decidable c₄] (h : c₁ ∨ c₂ ∨ c₃ ∨ c₄) (x₁ x₂ x₃ x₄ y : K Int32) (k : Kernel) :
    (if c₁ then x₁ else if c₂ then x₂ else if c₃ then x₃ else if c₄ then x₄ else y) k
      ∈ [x₁ k, x₂ k, x₃ k, x₄ k] := by
  simp only [List.mem_cons, List.not_mem_nil, or_false]
  split_ifs with h₁ h₂ h₃ h₄
  · exact Or.inl rfl
  · exact Or.inr (Or.inl rfl)
  · exact Or.inr (Or.inr (Or.inl rfl))
  · exact Or.inr (Or.inr (Or.inr rfl))
  · simp only [h₁, h₂, h₃, h₄, or_false] at h

/-- On an open descriptor, `read`, `write` and `close` each run one of the four
drivers. -/
theorem FilesOk.dispatch {k : Kernel} (h : P.FilesOk k.fileArray) {fd : Int32}
    (hfd : Opened k.fileArray fd) (buf : UInt32) (nbytes : Int32) (input : Input) :
    P.sysRead fd buf nbytes input k ∈
        [P.terminalRead fd buf nbytes.toUInt32 input k, P.fileRead fd buf nbytes k,
         P.directoryRead fd buf nbytes k, rtcRead fd.toUInt32 buf.toInt32 input k] ∧
    P.sysWrite fd buf nbytes k ∈
        [P.terminalWrite fd buf nbytes.toUInt32 k, fileWrite k, directoryWrite k,
         P.rtcWrite fd.toUInt32 buf.toInt32 k] ∧
    (2 ≤ fd → P.sysClose fd k ∈ [terminalClose k, fileClose fd k, directoryClose fd k,
      rtcClose k]) := by
  have htable := h.table_of_opened hfd
  simp only [List.mem_cons, List.not_mem_nil, or_false] at htable
  refine ⟨?_, ?_, fun h2 => ?_⟩
  · rw [P.sysRead_run hfd]
    exact mem_of_dispatch htable _ _ _ _ _ k
  · rw [P.sysWrite_run hfd]
    exact mem_of_dispatch htable _ _ _ _ _ k
  · unfold sysClose
    rw [getFileArray_bind, if_neg (by
      rw [not_or, Int32.not_lt, Int32.not_lt]
      exact ⟨hfd.2.1, h2⟩)]
    simp only [hfd.2.2, if_false]
    exact mem_of_dispatch htable _ _ _ _ _ k

/-- A slot is in use right after the start if and only if it is one of the
terminal's. -/
theorem initFileArray_flags (i : Fin numMaxOpenFiles) :
    (P.initFileArray i).flags ≠ fileAvail ↔ i.val < 2 := by
  unfold initFileArray
  by_cases hi : i.val < 2
  · rw [if_pos hi]
    exact ⟨fun _ => hi, fun _ => show fileOccup ≠ fileAvail by decide⟩
  · rw [if_neg hi]
    exact ⟨fun h => absurd rfl h, fun h => absurd h hi⟩

/-- A program that was just started has a fresh table of descriptors. -/
theorem fileArray_started {m m' : Machine} {c : Call} {regs : Regs}
    (hn : P.Nested m.kernel.toTables m.frames) (h : P.step m (.call c regs) = some m')
    (hstarted : m'.frames.length = m.frames.length + 1) :
    (m'.kernel.pcb (pcbAddr m'.kernel.currProcess)).fileArray = P.initFileArray := by
  obtain ⟨-, -, hcall⟩ := P.call_of_step h
  obtain ⟨i, arg, -, htables, -⟩ := (P.call_effect hcall).push (hn.enter regs) hstarted
  rw [htables, P.startTables_eq]
  dsimp only
  rw [Function.update_self]
  rfl

/-- The descriptors of the running program are in order. -/
theorem filesOk_running {m : Machine} (h : P.Reachable m) (hlive : m.frames ≠ []) :
    P.FilesOk (m.kernel.pcb (pcbAddr m.kernel.currProcess)).fileArray :=
  allFiles_running filesOk_rule h hlive

/-- **Dispatch is safe.**  In every state, the descriptors of every live process
are in order, and those of a program that was just started are the terminal's
two.  So `read`, `write` and `close` on an open descriptor run one of the drivers,
and on any other they fail and change nothing. -/
theorem dispatch_safety (P : Platform) {m : Machine} (h : P.Reachable m) :
    (∀ pid ∈ m.live, ∀ i : Fin numMaxOpenFiles,
      let f := (m.kernel.pcb (pcbAddr pid)).fileArray i
      (i.val < 2 → f.flags = fileOccup ∧ f.fileOpsTablePtr = P.terminalOps) ∧
      (f.flags = fileAvail ∨ f.flags = fileOccup) ∧
      (f.flags = fileOccup →
        f.fileOpsTablePtr ∈ [P.terminalOps, P.fileOps, P.directoryOps, P.rtcOps] ∧
        (2 ≤ i.val → ∃ j < UInt32.ofNat numFiles,
          f.inodeNum = (direntry P.fs j).inodeNum))) ∧
    (∀ c regs m', P.step m (.call c regs) = some m' →
      m'.frames.length = m.frames.length + 1 → ∀ i : Fin numMaxOpenFiles,
        ((m'.kernel.pcb (pcbAddr m'.kernel.currProcess)).fileArray i).flags = fileOccup
          ↔ i.val < 2) ∧
    (m.frames ≠ [] → ∀ regs : Regs, 0 < regs.depth → regs.depth ≤ stackRoom →
      ∀ fd buf nbytes input,
      let k := m.enter regs
      k.fileArray = (m.kernel.pcb (pcbAddr m.kernel.currProcess)).fileArray ∧
      (Opened k.fileArray fd →
        P.sysRead fd buf nbytes input k ∈
          [P.terminalRead fd buf nbytes.toUInt32 input k, P.fileRead fd buf nbytes k,
           P.directoryRead fd buf nbytes k, rtcRead fd.toUInt32 buf.toInt32 input k] ∧
        P.sysWrite fd buf nbytes k ∈
          [P.terminalWrite fd buf nbytes.toUInt32 k, fileWrite k, directoryWrite k,
           P.rtcWrite fd.toUInt32 buf.toInt32 k] ∧
        (2 ≤ fd → P.sysClose fd k ∈
          [terminalClose k, fileClose fd k, directoryClose fd k, rtcClose k])) ∧
      (¬Opened k.fileArray fd → P.sysRead fd buf nbytes input k = .ok (-1) k ∧
        P.sysWrite fd buf nbytes k = .ok (-1) k) ∧
      (¬Opened k.fileArray fd ∨ fd < 2 → P.sysClose fd k = .ok (-1) k)) := by
  have hn := nested_reachable h
  have hall := allFilesOk_reachable h
  refine ⟨?_, ?_, ?_⟩
  · intro pid hpid i
    obtain ⟨f, hf, rfl⟩ := List.mem_map.1 hpid
    have hfiles := hall f hf
    have hne : fileOccup ≠ fileAvail := by decide
    refine ⟨hfiles.terminal i, (hfiles.slots i).flag, fun hflags => ?_⟩
    exact ⟨(hfiles.slots i).table (by rw [hflags]; exact hne),
      (hfiles.slots i).inode (by rw [hflags]; exact hne)⟩
  · intro c regs m' hstep hstarted i
    rw [fileArray_started hn hstep hstarted, ← initFileArray_flags (P := P)]
    constructor
    · intro hflags
      rw [hflags]
      decide
    · exact ((filesOk_init (P := P)).slots i).flag.resolve_left
  · intro hlive regs h0 hroom fd buf nbytes input
    have hfiles := fileArray_enter hn hlive h0 hroom
    have hok : P.FilesOk (m.enter regs).fileArray := hfiles ▸ filesOk_running h hlive
    refine ⟨hfiles, ?_, ?_, ?_⟩
    · intro hfd
      exact hok.dispatch hfd buf nbytes input
    · intro hfd
      exact ⟨P.sysRead_rejected hfd buf nbytes input, P.sysWrite_rejected hfd buf nbytes⟩
    · exact P.sysClose_rejected

/-- A program opens a file on descriptor 2; descriptor 3 stays closed. -/
theorem dispatch_safety_open :
    ∃ m, Run.run samplePlatform.step sampleBoot
        [.call (.execute 0x500000) ⟨64, 0x7FFFF0⟩,
         .call (.plain (.open 0x500100)) ⟨64, 0x7FBFF0⟩] = some m ∧ m.eax = 2 ∧
      ((m.kernel.pcb (pcbAddr 0)).fileArray 2).fileOpsTablePtr ∈
        [samplePlatform.terminalOps, samplePlatform.fileOps, samplePlatform.directoryOps,
         samplePlatform.rtcOps] ∧
      samplePlatform.sysClose 3 (m.enter ⟨64, 0⟩) = .ok (-1) (m.enter ⟨64, 0⟩) := by
  have hrun : (Run.run samplePlatform.step sampleBoot
      [.call (.execute 0x500000) ⟨64, 0x7FFFF0⟩,
       .call (.plain (.open 0x500100)) ⟨64, 0x7FBFF0⟩]).any (fun m =>
        decide (m.live = [0]) && decide (m.frames ≠ []) && decide (m.eax = 2) &&
        decide (((m.kernel.pcb (pcbAddr 0)).fileArray 2).flags = fileOccup) &&
        decide (((m.enter ⟨64, 0⟩).fileArray (slot 3)).flags = fileAvail)) = true := by
    decide +kernel
  simp only [Option.any_eq_true, Bool.and_eq_true, decide_eq_true_eq] at hrun
  obtain ⟨m, hm, ⟨⟨⟨hpids, hlive⟩, heax⟩, hslot⟩, hfree⟩ := hrun
  have hsafe := dispatch_safety samplePlatform ⟨_, _, boot_bootMachine _ _, hm⟩
  refine ⟨m, hm, heax, ?_, ?_⟩
  · exact ((hsafe.1 0 (by rw [hpids]; exact List.mem_cons_self) 2).2.2 hslot).1
  · have hclosed : ¬Opened (m.enter ⟨64, 0⟩).fileArray 3 := fun hopen => hopen.2.2 hfree
    exact (hsafe.2.2 hlive ⟨64, 0⟩ (by decide) (by decide) 3 0 0 ⟨[], false⟩).2.2.2 (Or.inl hclosed)

end Platform

end CheetOS
