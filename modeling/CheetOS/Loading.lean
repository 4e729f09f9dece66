import CheetOS.Arguments
import CheetOS.FailedExecute
import CheetOS.ParseHistory

/-!
# What execute loads

The file of a program is read to `program_image`, in the page of the new process, and the
address to jump to is read from there.

* `contents` is a file as the image has it, `loadedBytes_eq` says that all of it is read;
* `LoadsExactly` says that a call of `execute` loads the file and nothing else, and refuses
  it if that cannot be;
* `load_apart` tells the addresses of the file from the others the program has;
* `loads_exactly` — no file is refused, so the call loads exactly those files that have an
  entry point and fit.
-/

namespace CheetOS

open Exec

/-- A file of the image. -/
def contents (fs : Image) (inode : UInt32) : List UInt8 :=
  (dataBlocks fs inode).flatten.take (inodeLength fs inode).toNat

theorem contents_eq (fs : Image) (inode : UInt32) :
    contents fs inode = fileBytes fs inode 0 (inodeLength fs inode).toNat := by
  have hbytes : ((dataBlocks fs inode).flatten.drop 0).take (inodeLength fs inode).toNat = _ :=
    drop_take_dataBlocks (by omega)
  rw [List.drop_zero] at hbytes
  exact hbytes

@[simp] theorem length_contents (fs : Image) (inode : UInt32) :
    (contents fs inode).length = (inodeLength fs inode).toNat := by
  rw [contents_eq]
  exact Blocks.length_slice ..

namespace Platform

variable {P : Platform}

/-! ## What the load reads -/

section File

variable {inode : UInt32}

/-- All of the file is read. -/
theorem loadedBytes_eq (h : WellFormed P.fs inode) : P.loadedBytes inode = contents P.fs inode := by
  have hzero : (0 : UInt32).toNat = 0 := rfl
  have hdelivered : delivered (inodeLength P.fs inode).toNat (0 : UInt32).toNat
      (flength P.fs inode).toUInt32.toNat = (inodeLength P.fs inode).toNat := by
    unfold delivered flength
    rw [UInt32.toUInt32_toInt32, hzero, Nat.sub_zero, min_self]
    split <;> omega
  unfold loadedBytes
  rw [h.readData_eq, hdelivered, contents_eq]
  rfl

theorem not_loadShort (h : WellFormed P.fs inode) (hexecutable : P.isExecutable inode = true) :
    ¬P.LoadShort inode := by
  intro hshort
  obtain ⟨-, b, hb, hbad⟩ := (loadShort_iff hexecutable).1 hshort
  exact hbad (Int32.not_le.2 (h.blocks b hb).2)

end File

/-- **A file of a well-formed image with the header is never refused.** -/
theorem execute_not_refused {command : UInt32} {k k₁ k' : Kernel} {d : Dentry}
    (hfind : P.findProgram command k = .ok (some d) k₁)
    (hexecutable : P.isExecutable d.inodeNum = true) (hwf : WellFormed P.fs d.inodeNum) :
    P.execute command k ≠ .ok (.returned (-1)) k' := by
  intro h
  rcases P.execute_cases h with ⟨-, -, found, hfind', hnot⟩ |
    ⟨d', k₂, buffer, k₃, hfind', -, -, -, hlaunch⟩
  · rw [hfind] at hfind'
    obtain ⟨rfl, -⟩ := EStateM.Result.ok.inj hfind'
    rw [hnot d rfl] at hexecutable
    cases hexecutable
  · rw [hfind] at hfind'
    obtain ⟨heq, -⟩ := EStateM.Result.ok.inj hfind'
    obtain rfl := Option.some.inj heq
    rcases P.launch_cases hlaunch with ⟨-, hr, -⟩ | ⟨i, k₄, -, -, -, ⟨hshort, -, -⟩ |
      ⟨e, arg, -, hr, -⟩⟩
    · exact absurd (ExecResult.returned.inj hr) (by decide)
    · exact not_loadShort hwf hexecutable hshort
    · cases hr

/-! ## The address space of the program -/

/-- What a program has outside the place of its file is not where the file is. -/
theorem load_apart {t t' : Tables} {pid : UInt32} (hs : P.Space t') (hpid : pid < numMaxProcesses)
    (hpage : t.pageDirectory 32 = userEntry pid) (hpage' : t'.pageDirectory 32 = userEntry pid)
    {j : ℕ} (hj : j < 0x3B8000) {w : Paging.Access} {va a : UInt32}
    (htr : P.translate t' .user w va = some a) (hout : ¬(0x8048000 ≤ va ∧ va < 0x8400000)) :
    P.translate t .supervisor .write (programImage + UInt32.ofNat j) ≠ some a := by
  have hbase := toNat_userPage hpid
  -- the byte of the file
  obtain ⟨hlo, hhi⟩ := programImage_user hj
  rw [translate_user_page hpid hpage .supervisor .write hlo hhi]
  rintro heq
  have hnat := congrArg UInt32.toNat (Option.some.inj heq)
  rw [toNat_user hpid hlo hhi, toNat_programImage (by omega)] at hnat
  simp only [UInt32.le_iff_toNat_le, UInt32.lt_iff_toNat_lt, UInt32.reduceToNat] at hout
  obtain ⟨v, hmapped⟩ := hs.mapped
  by_cases huserPage : 0x08000000 ≤ va ∧ va < 0x08400000
  · -- the program's own page
    rw [translate_user_page hpid hpage' .user w huserPage.1 huserPage.2] at htr
    have ha := congrArg UInt32.toNat (Option.some.inj htr)
    rw [toNat_user hpid huserPage.1 huserPage.2] at ha
    simp only [UInt32.le_iff_toNat_le, UInt32.lt_iff_toNat_lt, UInt32.reduceToNat] at huserPage
    omega
  · by_cases hvideo : v ∧ 0x08400000 ≤ va ∧ va < 0x08401000
    · -- the screen
      rw [translate_user_video hmapped hvideo.1 .user w hvideo.2.1 hvideo.2.2] at htr
      have ha := congrArg UInt32.toNat (Option.some.inj htr)
      have hsub : (va - 0x08400000).toNat = va.toNat - 138412032 :=
        UInt32.toNat_sub_of_le va _ hvideo.2.1
      have hscreen : (0xB8000 : UInt32).toNat = 753664 := rfl
      have hva' := hvideo.2
      simp only [UInt32.le_iff_toNat_le, UInt32.lt_iff_toNat_lt, UInt32.reduceToNat] at hva'
      rw [Word32.toNat_add_of_lt (by omega), hsub, hscreen] at ha
      omega
    · rw [translate_user_fault hmapped w huserPage hvideo] at htr
      cases htr

/-! ## The law -/

variable (P) in
/-- The call of `execute` loads the file with the inode exactly. -/
structure LoadsExactly (k : Kernel) (command inode : UInt32) : Prop where
  /-- The file is in memory when the program is entered. -/
  image : ∀ entryPoint k', P.executeOver command k = .ok (.started entryPoint) k' →
    ∀ j (hj : j < (contents P.fs inode).length),
      P.load k' (programImage + UInt32.ofNat j) = some (contents P.fs inode)[j]
  /-- The load has written nothing else in the address space of the program. -/
  frame : ∀ parsed k₁ entryPoint k', P.parse command k = .ok parsed k₁ →
    P.executeOver command k = .ok (.started entryPoint) k' → ∀ w va a,
      P.translate k'.toTables .user w va = some a → ¬(0x8048000 ≤ va ∧ va < 0x8400000) →
      k'.mem a = k₁.mem a
  /-- It is entered where the file says. -/
  entry : ∀ entryPoint k', P.executeOver command k = .ok (.started entryPoint) k' →
    28 ≤ (contents P.fs inode).length ∧
      entryPoint = Bytes.word fun i => (contents P.fs inode).getD (24 + i) 0
  /-- A file that does not say it, or does not fit, is refused. -/
  refused : (contents P.fs inode).length < 28 ∨ 0x3B8000 < (contents P.fs inode).length →
    ∃ k', P.executeOver command k = .ok (.returned (-1)) k'

/-- What `execute` has done when it starts the program `d`. -/
theorem execute_loaded {k k₁ k' : Kernel} {command entryPoint : UInt32} {d : Dentry}
    (hspace : P.Space k.toTables) (hfind : P.findProgram command k = .ok (some d) k₁)
    (hwf : WellFormed P.fs d.inodeNum) (h : P.execute command k = .ok (.started entryPoint) k') :
    ∃ parsed k₂ i, P.parse command k = .ok parsed k₂ ∧ i < numMaxProcesses ∧
      P.Space k'.toTables ∧ k'.pageDirectory 32 = userEntry i ∧
      (∀ j (hj : j < (contents P.fs d.inodeNum).length),
        P.load k' (programImage + UInt32.ofNat j) = some (contents P.fs d.inodeNum)[j]) ∧
      (∀ a, (∀ j < (contents P.fs d.inodeNum).length, P.translate (k₂.toTables.take i) .supervisor
        .write (programImage + UInt32.ofNat j) ≠ some a) → k'.mem a = k₂.mem a) ∧
      P.loadWord (programImage + 24) k' = .ok entryPoint k' := by
  obtain ⟨parsed, k₂, hparse, ⟨-, hr, -⟩ | ⟨d', buffer, rfl, hlaunch⟩⟩ := execute_parsed h
  · cases hr
  obtain ⟨k₃, hfind', -, -⟩ := parse_some hparse
  rw [hfind] at hfind'
  obtain rfl := Option.some.inj (EStateM.Result.ok.inj hfind').1
  have htables : k₂.toTables = k.toTables := quiet_parse command hparse
  have hspace₂ : P.Space k₂.toTables := htables ▸ hspace
  obtain ⟨i, arg, hi, -, hstart, hload, hframe, hword⟩ := launch_started hspace₂ hlaunch
  rw [loadedBytes_eq hwf] at hframe
  simp only [loadedBytes_eq hwf] at hload
  have hlt := (firstInactive_eq_some hi).1
  refine ⟨_, k₂, i, hparse, hlt, ?_, ?_, hload, hframe, hword⟩
  · rw [hstart]
    exact hspace₂.start hlt arg
  · rw [hstart]
    exact Tables.take_user k₂.toTables i

/-- A file that has an entry point and fits is loaded exactly. -/
theorem loadsExactly_of_fits {k k₁ : Kernel} {command : UInt32} {d : Dentry}
    (hspace : P.Space k.toTables) (hfits : ¬P.Overruns k command)
    (hfind : P.findProgram command k = .ok (some d) k₁) (hwf : WellFormed P.fs d.inodeNum)
    (hheader : 28 ≤ (inodeLength P.fs d.inodeNum).toNat)
    (hfit : (inodeLength P.fs d.inodeNum).toNat ≤ 0x3B8000) :
    P.LoadsExactly k command d.inodeNum := by
  have hlength := length_contents P.fs d.inodeNum
  refine ⟨?_, ?_, ?_, ?_⟩
  · intro entryPoint k' h
    have hexec := execute_of_executeOver hspace h hfits
    obtain ⟨-, -, -, -, -, -, -, hload, -⟩ := execute_loaded hspace hfind hwf hexec
    exact hload
  · intro parsed k₂ entryPoint k' hparse h w va a htr hout
    have hexec := execute_of_executeOver hspace h hfits
    obtain ⟨parsed', k₃, i, hparse', hi, hspace', hpage, -, hframe, -⟩ :=
      execute_loaded hspace hfind hwf hexec
    rw [hparse] at hparse'
    obtain ⟨-, rfl⟩ := EStateM.Result.ok.inj hparse'
    refine hframe a fun j hj => ?_
    exact load_apart hspace' hi (Tables.take_user ..) hpage (by omega) htr hout
  · intro entryPoint k' h
    have hexec := execute_of_executeOver hspace h hfits
    obtain ⟨-, -, -, -, -, -, -, hload, -, hword⟩ := execute_loaded hspace hfind hwf hexec
    have hread : P.loadWord (programImage + 24) k'
        = .ok (Bytes.word fun i => (contents P.fs d.inodeNum).getD (24 + i) 0) k' := by
      refine loadWord_run fun i hi => ?_
      have hin : 24 + i < (contents P.fs d.inodeNum).length := by omega
      have haddr : programImage + 24 + UInt32.ofNat i = programImage + UInt32.ofNat (24 + i) :=
        Word32.add_ofNat_add_ofNat programImage 24 i
      rw [haddr, hload _ hin, List.getD_eq_getElem _ _ hin]
    rw [hword] at hread
    exact ⟨by omega, (EStateM.Result.ok.inj hread).1⟩
  · -- no file that fits is to be refused
    rintro (hshort | hlong)
    · omega
    · omega

/-- **`execute` loads a file exactly if it is long enough to have an entry point and short
enough for the page**, for a command whose arguments fit in its buffer.  It asks for neither,
and a file for which the load cannot be exact is not refused. -/
theorem loads_exactly (P : Platform) {m : Machine} {regs : Regs} {command : UInt32} {d : Dentry}
    {k₁ : Kernel} (hm : P.Reachable m) (hfits : ¬P.Overruns (m.enter regs) command)
    (hwf : WellFormed P.fs d.inodeNum)
    (hfind : P.findProgram command (m.enter regs) = .ok (some d) k₁)
    (hexecutable : P.isExecutable d.inodeNum = true) :
    P.LoadsExactly (m.enter regs) command d.inodeNum ↔
      28 ≤ (inodeLength P.fs d.inodeNum).toNat ∧
        (inodeLength P.fs d.inodeNum).toNat ≤ 0x3B8000 := by
  have hspace := space_enter hm regs
  constructor
  · intro h
    by_contra hnot
    have hbad : (contents P.fs d.inodeNum).length < 28 ∨
        0x3B8000 < (contents P.fs d.inodeNum).length := by
      rw [length_contents]
      omega
    obtain ⟨k', hrefused⟩ := h.refused hbad
    exact execute_not_refused hfind hexecutable hwf (execute_of_executeOver hspace hrefused hfits)
  · rintro ⟨hheader, hfit⟩
    exact loadsExactly_of_fits hspace hfits hfind hwf hheader hfit

/-- The program of the small machine has 28 bytes. -/
theorem loads_exactly_sh :
    ∃ m', samplePlatform.step sampleBoot (.call (.execute 0x500100) ⟨64, 0x7FFFF0⟩) = some m' ∧
      m'.entry = 0x8048020 ∧
      samplePlatform.LoadsExactly (sampleBoot.enter ⟨64, 0x7FFFF0⟩) 0x500100 1 := by
  have hstep : (samplePlatform.step sampleBoot (.call (.execute 0x500100) ⟨64, 0x7FFFF0⟩)).any
      (fun m' : Machine => decide (m'.entry = 0x8048020)) = true := by
    decide +kernel
  simp only [Option.any_eq_true, decide_eq_true_eq] at hstep
  obtain ⟨m', hm', hentry⟩ := hstep
  refine ⟨m', hm', hentry, ?_⟩
  have hfound : ends (fun found _ => found.any fun d => decide (d.inodeNum = 1))
      (samplePlatform.findProgram 0x500100 (sampleBoot.enter ⟨64, 0x7FFFF0⟩)) = true := by
    decide +kernel
  simp only [ends_iff, Option.any_eq_true, decide_eq_true_eq] at hfound
  obtain ⟨_, k₁, hfind, d, rfl, hinode⟩ := hfound
  rw [← hinode]
  have hboot : samplePlatform.Reachable sampleBoot := ⟨_, [], boot_bootMachine _ _, rfl⟩
  have hfits := fits_execute.1 ((step_iff hboot).1 hm').2
  refine (loads_exactly samplePlatform hboot hfits ?_ hfind ?_).2 ?_
  · rw [hinode]
    exact wellFormed_sample
  · rw [hinode]
    decide +kernel
  · rw [hinode]
    decide +kernel

/-- A machine with a file that consists of the header. -/
def tinyImage : Image := memoryOf
  [(0, Bytes.wordBytes 3 ++ Bytes.wordBytes 3 ++ Bytes.wordBytes 2),
   (64, dentryBytes ".".toUTF8.toList fileTypeDir 0),
   (128, dentryBytes "sh".toUTF8.toList fileTypeFile 1),
   (192, dentryBytes "tiny".toUTF8.toList fileTypeFile 2),
   (8192, Bytes.wordBytes 28 ++ Bytes.wordBytes 0),
   (12288, Bytes.wordBytes 4 ++ Bytes.wordBytes 1),
   (16384, [0x7F, 0x45, 0x4C, 0x46] ++ List.replicate 20 0 ++ Bytes.wordBytes 0x8048020),
   (20480, [0x7F, 0x45, 0x4C, 0x46])]

def tinyPlatform : Platform := { sampleLayout with fs := tinyImage }

def tinyBoot : Machine :=
  bootMachine tinyPlatform [(0x500000, "sh".toUTF8.toList), (0x500100, "tiny".toUTF8.toList)]

theorem wellFormed_tiny : WellFormed tinyImage 2 where
  inode_lt := by decide +kernel
  length_le := by decide +kernel
  blocks := by
    intro b hb
    have hlen : (inodeLength tinyImage 2).toNat = 4 := by decide +kernel
    obtain rfl : b = 0 := by omega
    decide +kernel

/-- When `sh` has halted, a file of four bytes is entered where `sh` was. -/
theorem tiny_started :
    ∃ m d k₁ k', Run.run tinyPlatform.step tinyBoot
        [.call (.execute 0x500000) ⟨64, 0x7FFFF0⟩, .call (.halt 0) ⟨64, 0⟩] = some m ∧
      tinyPlatform.findProgram 0x500100 (m.enter ⟨64, 0x7FFFF0⟩) = .ok (some d) k₁ ∧
      tinyPlatform.isExecutable d.inodeNum = true ∧ WellFormed tinyPlatform.fs d.inodeNum ∧
      inodeLength tinyPlatform.fs d.inodeNum = 4 ∧
      tinyPlatform.execute 0x500100 (m.enter ⟨64, 0x7FFFF0⟩) = .ok (.started 0x8048020) k' ∧
      ¬tinyPlatform.LoadsExactly (m.enter ⟨64, 0x7FFFF0⟩) 0x500100 d.inodeNum := by
  have hrun : (Run.run tinyPlatform.step tinyBoot
      [.call (.execute 0x500000) ⟨64, 0x7FFFF0⟩, .call (.halt 0) ⟨64, 0⟩]).any (fun m : Machine =>
        ends (fun found _ => found.any fun d => decide (d.inodeNum = 2))
          (tinyPlatform.findProgram 0x500100 (m.enter ⟨64, 0x7FFFF0⟩)) &&
        ends (fun r _ => decide (r = .started 0x8048020))
          (tinyPlatform.execute 0x500100 (m.enter ⟨64, 0x7FFFF0⟩))) = true := by
    decide +kernel
  simp only [Option.any_eq_true, Bool.and_eq_true, decide_eq_true_eq, ends_iff] at hrun
  obtain ⟨m, hm, ⟨_, k₁, hfind, d, rfl, hinode⟩, _, k', hexecute, rfl⟩ := hrun
  have hlength : inodeLength tinyPlatform.fs d.inodeNum = 4 := by
    rw [hinode]
    decide +kernel
  have hwf : WellFormed tinyPlatform.fs d.inodeNum := hinode ▸ wellFormed_tiny
  refine ⟨m, d, k₁, k', hm, hfind, by rw [hinode]; decide +kernel, hwf, hlength, hexecute,
    fun h => ?_⟩
  have hshort : (contents tinyPlatform.fs d.inodeNum).length < 28 := by
    rw [length_contents, hlength]
    decide
  obtain ⟨k₂, hrefused⟩ := h.refused (Or.inl hshort)
  have hreach : tinyPlatform.Reachable m := ⟨_, _, boot_bootMachine _ _, hm⟩
  rw [(executeOver_of_execute (space_enter hreach _) hexecute).1] at hrefused
  cases hrefused

end Platform

end CheetOS
