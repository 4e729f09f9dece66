import CheetOS.Overrun

/-!
# What a failed execute leaves behind

`execute` has several ways to return without having started a program.  All but one
leave the process state alone.  When the file cannot be loaded, the user page of
the caller is mapped again, but the process number that was taken is not given
back.

* `loadShort_iff` says which files cannot be loaded, in terms of the image;
* `LoadFails` is the condition on the command and the state, `failed_execute_iff` the
  law;
* `execute_leak` is the exit that leaves a trace.
-/

namespace CheetOS

open Exec

theorem firstInactive_eq_none {pidArray : UInt32 → UInt8} :
    firstInactive pidArray = none ↔ ∀ i < numMaxProcesses, pidArray i ≠ progNotActive := by
  unfold firstInactive
  rw [List.find?_eq_none]
  constructor
  · intro h i hi hfree
    have hmem : i ∈ ([0, 1, 2, 3, 4, 5] : List UInt32) := by
      simpa using pid_cases hi
    exact h i hmem (decide_eq_true hfree)
  · intro h i hmem hfree
    refine h i ?_ (of_decide_eq_true hfree)
    fin_cases hmem <;> decide

namespace Platform

variable {P : Platform}

/-! ## Files that cannot be loaded -/

section Load

variable {inode : UInt32}

/-- A file with a header has an inode and is not empty. -/
theorem bounds_of_isExecutable (h : P.isExecutable inode = true) :
    inode < inodeCount P.fs ∧ 0 < (inodeLength P.fs inode).toNat := by
  unfold isExecutable readData at h
  split_ifs at h with hinode hoff
  · exact absurd h (by decide)
  · exact absurd h (by decide)
  · exact ⟨UInt32.not_le.1 hinode, UInt32.lt_iff_toNat_lt.1 (UInt32.not_le.1 hoff)⟩

theorem total_whole (fs : Image) (inode : UInt32) :
    total (inodeLength fs inode).toNat (flength fs inode).toUInt32.toNat (0 : UInt32).toNat
      = (inodeLength fs inode).toNat := by
  unfold total flength
  rw [UInt32.toUInt32_toInt32]
  exact min_self _

/-- The whole file needs every place of the block list that it reaches to. -/
theorem needed_whole {fs : Image} {inode : UInt32} (hpos : 0 < (inodeLength fs inode).toNat)
    {b : ℕ} :
    Needed (inodeLength fs inode).toNat (flength fs inode).toUInt32.toNat (0 : UInt32).toNat b ↔
      b * 4096 < (inodeLength fs inode).toNat := by
  unfold Needed
  rw [total_whole, show (0 : UInt32).toNat = 0 from rfl]
  omega

/-- A load comes to the first bad block and stops there. -/
theorem readData_whole_bad (h : P.isExecutable inode = true) {b : ℕ}
    (hb : b * 4096 < (inodeLength P.fs inode).toNat) (hbad : ¬GoodBlock P.fs inode b)
    (hbefore : ∀ b' < b, GoodBlock P.fs inode b') :
    readData P.fs inode 0 (flength P.fs inode).toUInt32
      = (-1, fileBytes P.fs inode 0 (b * 4096)) := by
  obtain ⟨hinode, hpos⟩ := bounds_of_isExecutable h
  have hoff : (0 : UInt32).toNat < (inodeLength P.fs inode).toNat := hpos
  exact readData_bad hinode hoff hbad (fun b' _ hb' => hbefore b' hb') ((needed_whole hpos).2 hb)

/-- A load of good blocks reads the file. -/
theorem readData_whole_good (h : P.isExecutable inode = true)
    (hgood : ∀ b, b * 4096 < (inodeLength P.fs inode).toNat → GoodBlock P.fs inode b) :
    readData P.fs inode 0 (flength P.fs inode).toUInt32
      = (Int32.ofNat (inodeLength P.fs inode).toNat,
        fileBytes P.fs inode 0 (inodeLength P.fs inode).toNat) := by
  obtain ⟨hinode, hpos⟩ := bounds_of_isExecutable h
  have hoff : (0 : UInt32).toNat < (inodeLength P.fs inode).toNat := hpos
  have hread := readData_good hinode hoff fun b hb => hgood b ((needed_whole hpos).1 hb)
  rwa [total_whole] at hread

/-- **A file cannot be loaded if one of its blocks is bad**, but for the length that
looks like the result `-1`. -/
theorem loadShort_iff (h : P.isExecutable inode = true) :
    P.LoadShort inode ↔ inodeLength P.fs inode ≠ 0xFFFFFFFF ∧
      ∃ b, b * 4096 < (inodeLength P.fs inode).toNat ∧ ¬GoodBlock P.fs inode b := by
  have hlength : (flength P.fs inode).toUInt32 = inodeLength P.fs inode := by
    unfold flength
    rw [UInt32.toUInt32_toInt32]
  unfold LoadShort
  by_cases hex : ∃ b, b * 4096 < (inodeLength P.fs inode).toNat ∧ ¬GoodBlock P.fs inode b
  · obtain ⟨b, ⟨hb, hbad⟩, hmin⟩ := exists_first hex
    have hbefore : ∀ b' < b, GoodBlock P.fs inode b' := by
      intro b' hb'
      by_contra hbad'
      exact hmin b' hb' ⟨lt_of_le_of_lt (Nat.mul_le_mul_right 4096 hb'.le) hb, hbad'⟩
    rw [readData_whole_bad h hb hbad hbefore, hlength]
    constructor
    · exact fun hne => ⟨Ne.symm hne, hex⟩
    · exact fun hne => Ne.symm hne.1
  · have hgood : ∀ b, b * 4096 < (inodeLength P.fs inode).toNat → GoodBlock P.fs inode b := by
      intro b hb
      by_contra hbad
      exact hex ⟨b, hb, hbad⟩
    rw [readData_whole_good h hgood, hlength, Int32.toUInt32_ofNat', UInt32.ofNat_toNat]
    simp [hex]

end Load

/-! ## The law -/

variable (P) in
/-- The first word of the string `execute` reads; without a command that is what
`strtok` has left. -/
def CommandName (k : Kernel) (command : UInt32) (name : List UInt8) : Prop :=
  let s := if command = 0 then k.last else command
  s ≠ 0 ∧ ∃ n c, FirstToken (P.bytesAt k s) n name c

variable (P) in
/-- The command names an executable file with a bad block, and there is a free
process number. -/
def LoadFails (m : Machine) (command : UInt32) : Prop :=
  ∃ name d b, P.CommandName m.kernel command name ∧ programNamed P.fs name = some d ∧
    P.isExecutable d.inodeNum = true ∧
    (∃ i < numMaxProcesses, m.kernel.pidArray i = progNotActive) ∧
    b * 4096 < (inodeLength P.fs d.inodeNum).toNat ∧ ¬GoodBlock P.fs d.inodeNum b ∧
    inodeLength P.fs d.inodeNum ≠ 0xFFFFFFFF

/-- The process state of `m'` is that of `m`. -/
structure Untouched (m m' : Machine) : Prop where
  pidArray : m'.kernel.pidArray = m.kernel.pidArray
  currProcess : m'.kernel.currProcess = m.kernel.currProcess
  esp0 : m'.kernel.esp0 = m.kernel.esp0
  pageDirectory : m'.kernel.pageDirectory = m.kernel.pageDirectory
  pcb : ∀ pid ∈ m.live, m'.kernel.pcb (pcbAddr pid) = m.kernel.pcb (pcbAddr pid)

theorem untouched_of_tables {m m' : Machine} {regs : Regs}
    (h : m'.kernel.toTables = (m.enter regs).toTables) : Untouched m m' where
  pidArray := by rw [h]; rfl
  currProcess := by rw [h]; rfl
  esp0 := by rw [h]; rfl
  pageDirectory := by rw [h]; rfl
  pcb := fun _ _ => by rw [h]; rfl

/-- The leaked process number shows. -/
theorem not_untouched_leak {m m' : Machine} {regs : Regs} {i : UInt32}
    (hi : firstInactive m.kernel.pidArray = some i)
    (h : m'.kernel.toTables = (m.enter regs).toTables.leak i) : ¬Untouched m m' := by
  intro hsame
  have hpid := congrFun hsame.pidArray i
  rw [h, Tables.leak_eq] at hpid
  dsimp only at hpid
  rw [Function.update_self, (firstInactive_eq_some hi).2.1] at hpid
  exact absurd hpid (by decide)

/-- `execute` finds the file that the first word names. -/
theorem findProgram_named {command : UInt32} {k k' : Kernel} {found : Option Dentry}
    (hs : P.Space k.toTables) (h : P.findProgram command k = .ok found k') :
    (found = none ∧ ∀ name, ¬P.CommandName k command name) ∨
    ∃ name, P.CommandName k command name ∧ found = programNamed P.fs name := by
  obtain ⟨token, htoken, hfound⟩ := findProgram_ok h
  rcases strtok_ok rfl htoken with ⟨h0, rfl, rfl⟩ | ⟨h0, rfl, -, m, hskip, hstop⟩ |
    ⟨h0, m, w, c, hfirst, rfl, hend⟩
  · rcases hfound with ⟨-, hnone⟩ | ⟨hne, -⟩
    · exact Or.inl ⟨hnone, fun name hname => hname.1 h0⟩
    · exact absurd rfl hne
  · rcases hfound with ⟨-, hnone⟩ | ⟨hne, -⟩
    · refine Or.inl ⟨hnone, ?_⟩
      rintro name ⟨-, n, c, hname⟩
      exact hname.not_blank hskip hstop
    · exact absurd rfl hne
  · rcases hfound with ⟨hnull, -⟩ | ⟨-, v, hv, hprogram⟩
    · exact absurd hnull (ne_zero_of_firstToken hs hfirst)
    · obtain rfl := hv.inj (hend.holds hs hfirst)
      exact Or.inr ⟨v, ⟨h0, m, c, hfirst⟩, hprogram⟩

theorem CommandName.inj {k : Kernel} {command : UInt32} {name name' : List UInt8}
    (h : P.CommandName k command name) (h' : P.CommandName k command name') : name = name' := by
  obtain ⟨-, n, c, hname⟩ := h
  obtain ⟨-, n', c', hname'⟩ := h'
  exact (hname.inj hname').2.1

/-- **A failed `execute` leaves no trace exactly if it is not the load that fails**, as long as
the arguments fit in its buffer. -/
theorem failed_execute_iff (P : Platform) {m m' : Machine} {command : UInt32} {regs : Regs}
    (hm : P.Reachable m) (hexec : P.stepOver m (.call (.execute command) regs) = some m')
    (hfits : ¬P.Overruns (m.enter regs) command) (hfailed : m'.frames = m.frames) :
    Untouched m m' ↔ ¬P.LoadFails m command := by
  have hspace := space_enter hm regs
  have hstep : P.step m (.call (.execute command) regs) = some m' :=
    (step_iff hm).2 ⟨hexec, fits_execute.2 hfits⟩
  obtain ⟨r, hrun, ⟨ret, hret, -⟩ | ⟨-, hframes⟩⟩ := P.execute_of_step hstep
  swap
  · rw [hfailed] at hframes
    exact absurd (congrArg List.length hframes) (by simp)
  subst hret
  rcases P.execute_cases hrun with ⟨-, htables, found, hfind, hnot⟩ |
    ⟨d, k₁, buffer, k₂, hfind, hexecutable, -, hk₂, hlaunch⟩
  · -- no program was found
    refine iff_of_true (untouched_of_tables htables) ?_
    rintro ⟨name, d, b, hname, hd, hexecutable, -⟩
    rcases findProgram_named hspace hfind with ⟨-, hnone⟩ | ⟨name', hname', rfl⟩
    · exact hnone name hname
    · obtain rfl := hname.inj hname'
      rw [hnot d hd] at hexecutable
      cases hexecutable
  rcases P.launch_cases hlaunch with ⟨hfull, -, htables⟩ | ⟨i, k₃, hi, -, -,
    ⟨hshort, -, htables⟩ | ⟨entryPoint, arg, -, hstarted, -⟩⟩
  · -- there is no free process number
    rw [hk₂] at hfull htables
    refine iff_of_true (untouched_of_tables htables) ?_
    rintro ⟨name, d, b, -, -, -, ⟨i, hi, hfree⟩, -⟩
    exact firstInactive_eq_none.1 hfull i hi hfree
  · -- the file could not be loaded
    rw [hk₂] at hi htables
    refine iff_of_false (not_untouched_leak hi htables) (not_not.2 ?_)
    obtain ⟨hlt, hfree, -⟩ := firstInactive_eq_some hi
    obtain ⟨hlength, b, hb, hbad⟩ := (loadShort_iff hexecutable).1 hshort
    rcases findProgram_named hspace hfind with ⟨hnone, -⟩ | ⟨name, hname, hd⟩
    · cases hnone
    · exact ⟨name, d, b, hname, hd.symm, hexecutable, ⟨i, hlt, hfree⟩, hb, hbad, hlength⟩
  · cases hstarted

/-- A command that names the clock. -/
theorem failed_execute_iff_clock :
    ∃ m', samplePlatform.step sampleBoot (.call (.execute 0x500200) ⟨64, 0x7FFFF0⟩) = some m' ∧
      (Untouched sampleBoot m' ↔ ¬samplePlatform.LoadFails sampleBoot 0x500200) := by
  have hstep : (samplePlatform.step sampleBoot
      (.call (.execute 0x500200) ⟨64, 0x7FFFF0⟩)).any
        (fun m' : Machine => decide (m'.frames = sampleBoot.frames)) = true := by
    decide +kernel
  simp only [Option.any_eq_true, decide_eq_true_eq] at hstep
  obtain ⟨m', hm', hframes⟩ := hstep
  have hboot : samplePlatform.Reachable sampleBoot := ⟨_, [], boot_bootMachine _ _, rfl⟩
  obtain ⟨hover, hfits⟩ := (step_iff hboot).1 hm'
  exact ⟨m', hm',
    failed_execute_iff samplePlatform hboot hover (fits_execute.1 hfits) hframes⟩

/-! ## The exit that leaves a trace -/

/-- A program image that fits into the user page can be stored there. -/
theorem storeBytes_programImage {k : Kernel} {i : UInt32} (hi : i < numMaxProcesses)
    (hpage : k.pageDirectory 32 = userEntry i) {bs : List UInt8} (hlen : bs.length ≤ 0x3B8000) :
    ∃ k', P.storeBytes programImage bs k = .ok () k' := by
  refine storeBytes_run fun j hj => ?_
  obtain ⟨hlo, hhi⟩ := programImage_user (lt_of_lt_of_le hj hlen)
  exact ⟨_, translate_user_page hi hpage .supervisor .write hlo hhi, kernelData_user_page hi hlo hhi⟩

/-- The load that fails. -/
theorem launch_leak {inode : UInt32} {buffer : ℕ → UInt8} {k k₁ : Kernel} {i : UInt32}
    (hi : firstInactive k.pidArray = some i) (hshort : P.LoadShort inode)
    (hstore : P.storeBytes programImage (P.loadedBytes inode)
      { k with toTables := k.toTables.take i } = .ok () k₁) :
    ∃ k', P.launch inode buffer k = .ok (.returned (-1)) k' ∧ k'.toTables = k.toTables.leak i := by
  have htake : k₁.toTables = k.toTables.take i := (storeBytes_rest hstore).1
  refine ⟨{ k₁ with toTables := k.toTables.leak i }, ?_, rfl⟩
  rw [P.launch_taken hi, bind_of_ok hstore, if_pos hshort, get_bind_run]
  unfold updatePageDirectory
  rw [modify_bind_run, htake]
  rfl

/-- **`execute` fails and keeps the process number** when it comes to a bad block, as
long as the good ones before it fit into the user page. -/
theorem execute_leak {command : UInt32} {k k₁ k₂ : Kernel} {d : Dentry} {buffer : ℕ → UInt8}
    {i : UInt32} {b : ℕ} (hfind : P.findProgram command k = .ok (some d) k₁)
    (hexecutable : P.isExecutable d.inodeNum = true)
    (hjoin : P.joinArgs bufferSize (Bytes.writeAt (fun _ => 0) 0 (readData P.fs d.inodeNum 0 4).2) k₁
      = .ok buffer k₂)
    (hi : firstInactive k.pidArray = some i)
    (hlength : inodeLength P.fs d.inodeNum ≠ 0xFFFFFFFF)
    (hb : b * 4096 < (inodeLength P.fs d.inodeNum).toNat) (hbad : ¬GoodBlock P.fs d.inodeNum b)
    (hbefore : ∀ b' < b, GoodBlock P.fs d.inodeNum b') (hfit : b * 4096 ≤ 0x3B8000) :
    ∃ k', P.execute command k = .ok (.returned (-1)) k' ∧ k'.toTables = k.toTables.leak i := by
  have hk₂ : k₂.toTables = k.toTables :=
    Eq.trans (P.quiet_joinArgs _ _ hjoin) (P.quiet_findProgram _ hfind)
  have hloaded : P.loadedBytes d.inodeNum = fileBytes P.fs d.inodeNum 0 (b * 4096) := by
    unfold loadedBytes
    rw [readData_whole_bad hexecutable hb hbad hbefore]
  have hsize : (P.loadedBytes d.inodeNum).length ≤ 0x3B8000 := by
    rw [hloaded]
    unfold fileBytes
    rw [Blocks.length_slice]
    exact hfit
  obtain ⟨k₃, hstore⟩ := storeBytes_programImage (k := { k₂ with toTables := k₂.toTables.take i })
    (firstInactive_eq_some hi).1 (Tables.take_user ..) hsize
  have hshort : P.LoadShort d.inodeNum :=
    (loadShort_iff hexecutable).2 ⟨hlength, b, hb, hbad⟩
  rw [← hk₂] at hi ⊢
  obtain ⟨k', hlaunch, htables⟩ := launch_leak hi hshort hstore
  refine ⟨k', ?_, htables⟩
  unfold execute
  rw [bind_of_ok hfind]
  dsimp only
  rw [if_neg (by rw [hexecutable]; decide), bind_of_ok hjoin, hlaunch]

/-- A machine with a file that has a bad block. -/
def badImage : Image := memoryOf
  [(0, Bytes.wordBytes 3 ++ Bytes.wordBytes 3 ++ Bytes.wordBytes 1),
   (64, dentryBytes ".".toUTF8.toList fileTypeDir 0),
   (128, dentryBytes "sh".toUTF8.toList fileTypeFile 1),
   (192, dentryBytes "bad".toUTF8.toList fileTypeFile 2),
   (8192, Bytes.wordBytes 28),
   (12288, Bytes.wordBytes 5000 ++ Bytes.wordBytes 0 ++ Bytes.wordBytes 99),
   (16384, [0x7F, 0x45, 0x4C, 0x46] ++ List.replicate 20 0 ++ Bytes.wordBytes 0x8048020)]

def badPlatform : Platform := { sampleLayout with fs := badImage }

def badBoot : Machine :=
  bootMachine badPlatform [(0x500000, "sh".toUTF8.toList), (0x500100, "bad".toUTF8.toList)]

/-- A program calls `execute` for a file of 5000 bytes whose second block number is
bad: the call returns `-1`, and process number 1 is taken for good. -/
theorem execute_keeps_pid :
    ∃ m m', Run.run badPlatform.step badBoot [.call (.execute 0x500000) ⟨64, 0x7FFFF0⟩] = some m ∧
      badPlatform.step m (.call (.execute 0x500100) ⟨64, 0x7FBFF0⟩) = some m' ∧
      m'.frames = m.frames ∧ m'.eax = (-1 : Int32).toUInt32 ∧
      m.kernel.pidArray 1 = progNotActive ∧ m'.kernel.pidArray 1 = progActive ∧
      ¬Untouched m m' := by
  have hrun : (Run.run badPlatform.step badBoot
      [.call (.execute 0x500000) ⟨64, 0x7FFFF0⟩]).any (fun m : Machine =>
        decide (firstInactive m.kernel.pidArray = some 1) &&
        ends (fun found k₁ => found.any fun d => decide (d.inodeNum = 2) &&
            ends (fun _ _ => true) (badPlatform.joinArgs bufferSize (Bytes.writeAt (fun _ => 0) 0
              (readData badPlatform.fs d.inodeNum 0 4).2) k₁))
          (badPlatform.findProgram 0x500100 (m.enter ⟨64, 0x7FBFF0⟩))) = true := by
    decide +kernel
  simp only [Option.any_eq_true, Bool.and_eq_true, decide_eq_true_eq, ends_iff] at hrun
  obtain ⟨m, hm, hi, _, k₁, hfind, d, rfl, hinode, buffer, k₂, hjoin, -⟩ := hrun
  have hfree : m.kernel.pidArray 1 = progNotActive := (firstInactive_eq_some hi).2.1
  have hlength : inodeLength badPlatform.fs d.inodeNum = 5000 := by
    rw [hinode]
    decide +kernel
  obtain ⟨k', hexecute, htables⟩ := execute_leak (b := 1) hfind (by rw [hinode]; decide +kernel)
    hjoin hi (by rw [hlength]; decide) (by rw [hlength]; decide)
    (by rw [hinode]; decide +kernel)
    (fun b' hb' => by
      obtain rfl : b' = 0 := by omega
      rw [hinode]
      decide +kernel) (by decide)
  have hstep : badPlatform.step m (.call (.execute 0x500100) ⟨64, 0x7FBFF0⟩)
      = some { m with kernel := k', eax := (-1 : Int32).toUInt32 } :=
    badPlatform.step_of_returned (by decide) (by decide) hexecute
  refine ⟨m, _, hm, hstep, rfl, rfl, hfree, ?_, not_untouched_leak hi htables⟩
  show k'.pidArray 1 = progActive
  rw [htables, Tables.leak_eq]
  dsimp only
  rw [Function.update_self]

end Platform

end CheetOS
