import CheetOS.Enumeration

/-!
# Reads that fail

What is left of a `read` that returns -1.

* `Refuses` is when a driver refuses a read before it does anything, `sysRead_refused`
  says that such a read changes nothing however often it is tried;
* `BadFile` is when `read_data` gives up in `file_read`, which then adds the result -1
  to the position; `sysRead_failed` says that there is no third way to fail;
* `failed_read` — a failed read leaves the descriptors alone, and fails again, exactly
  when it is not one of the second kind;
* `negative_read` — a negative size is no third reason to refuse a read.
-/

namespace CheetOS

open Exec

namespace Platform

/-! ## The ways to fail -/

variable (P : Platform)

/-- `read` returns -1 before a driver does anything. -/
def Refuses (files : FileArray) (fd : Int32) (buf : UInt32) : Prop :=
  ¬Opened files fd ∨
    (files (slot fd)).fileOpsTablePtr = P.terminalOps ∧ (fd ≠ 0 ∨ buf = 0) ∨
    (files (slot fd)).fileOpsTablePtr = P.directoryOps ∧
      readDentryByIndex P.fs (files (slot fd)).filePosition = none

/-- `fd` is open on a regular file, and `read_data` refuses the request: the inode number
is not below `inode_count`, or a block number it comes to is not below `data_count`. -/
def BadFile (files : FileArray) (fd nbytes : Int32) : Prop :=
  Opened files fd ∧ (files (slot fd)).fileOpsTablePtr = P.fileOps ∧
    BadRequest P.fs (files (slot fd)).inodeNum (files (slot fd)).filePosition nbytes.toUInt32

variable {P}

theorem Refuses.not_badFile {files : FileArray} {fd nbytes : Int32} {buf : UInt32}
    (h : P.Refuses files fd buf) : ¬P.BadFile files fd nbytes := by
  rintro ⟨hopened, hfile, -⟩
  rcases h with hnot | ⟨hterminal, -⟩ | ⟨hdirectory, -⟩
  · exact hnot hopened
  · exact P.fileOps_ne_terminalOps (hfile.symm.trans hterminal)
  · exact P.directoryOps_ne_fileOps (hdirectory.symm.trans hfile)

theorem sysRead_refused {files : FileArray} {fd : Int32} {buf : UInt32}
    (h : P.Refuses files fd buf) (nbytes : Int32) (input : Input) {k : Kernel}
    (hfiles : k.fileArray = files) : P.sysRead fd buf nbytes input k = .ok (-1) k := by
  subst hfiles
  by_cases hopened : Opened k.fileArray fd
  · rcases h with hnot | ⟨hterminal, hargs⟩ | ⟨hdirectory, hend⟩
    · exact absurd hopened hnot
    · rw [P.sysRead_terminal hopened buf nbytes hterminal, terminalRead]
      by_cases hfd : fd ≠ 0
      · rw [if_pos hfd]
        rfl
      · rw [if_neg hfd, if_pos (hargs.resolve_left hfd)]
        rfl
    · rw [P.sysRead_directory hopened buf nbytes hdirectory, directoryRead, getFileArray_bind]
      simp only [hend]
      rfl
  · exact P.sysRead_rejected hopened buf nbytes input

/-- `getline` never returns -1. -/
theorem getline_result {buf : UInt32} {max : Int32} (hmax : max ≤ 128) {keys : List UInt8}
    {lp : UInt32} {len : ℕ} (hlp : lp = buf + UInt32.ofNat len) (hlen : len ≤ 128) {k k' : Kernel}
    {r : Int32} (h : P.getline buf max keys lp k = .ok r k') :
    ∃ n ≤ 128, r = Int32.ofNat n := by
  induction keys generalizing lp len k with
  | nil => cases h
  | cons key keys ih =>
    have hdiff : (lp - buf).toInt32 = Int32.ofNat len := by rw [hlp, lp_sub_buf]
    rw [getline_cons] at h
    split_ifs at h with henter herase hback hclear hfull hprint
    · obtain ⟨⟨⟩, k₁, -, h⟩ := bind_eq_ok.1 h
      obtain ⟨⟨⟩, k₂, -, h⟩ := bind_eq_ok.1 h
      obtain ⟨rfl, -⟩ := pure_eq_ok.1 h
      exact ⟨len, hlen, hdiff⟩
    · obtain ⟨⟨⟩, k₁, -, h⟩ := bind_eq_ok.1 h
      cases len with
      | zero =>
        rw [hlp, Word32.add_ofNat_zero] at hback
        exact absurd hback (UInt32.lt_irrefl buf)
      | succ len =>
        have hprev : lp - 1 = buf + UInt32.ofNat len := by
          rw [hlp, ← Word32.add_ofNat_add_ofNat]
          exact UInt32.add_sub_cancel _ _
        exact ih hprev (by omega) h
    · exact ih hlp hlen h
    · obtain ⟨⟨⟩, k₁, -, h⟩ := bind_eq_ok.1 h
      have hstart : buf = buf + UInt32.ofNat 0 := (Word32.add_ofNat_zero buf).symm
      exact ih hstart (Nat.zero_le _) h
    · exact ih hlp hlen h
    · obtain ⟨⟨⟩, k₁, -, h⟩ := bind_eq_ok.1 h
      obtain ⟨⟨⟩, k₂, -, h⟩ := bind_eq_ok.1 h
      have hroom : len < 128 := by
        rw [hdiff, ge_iff_le, Int32.not_le, Int32.lt_iff_toInt_lt,
          Int32.toInt_ofNat_of_lt (by omega)] at hfull
        have hmax' : max.toInt ≤ 128 := Int32.le_iff_toInt_le.1 hmax
        omega
      have hnext : lp + 1 = buf + UInt32.ofNat (len + 1) := by
        rw [hlp, ← Word32.add_ofNat_add_ofNat]
        rfl
      exact ih hnext hroom h
    · exact ih hlp hlen h

theorem ofNat_ne_neg_one {n : ℕ} (h : n < 2147483648) : Int32.ofNat n ≠ -1 := by
  intro heq
  have hint := congrArg Int32.toInt heq
  rw [Int32.toInt_ofNat_of_lt h] at hint
  have hneg : (-1 : Int32).toInt = -1 := rfl
  omega

theorem terminalRead_failed {buf numChars : UInt32} {fd : Int32} {input : Input} {k k' : Kernel}
    (h : P.terminalRead fd buf numChars input k = .ok (-1) k') : (fd ≠ 0 ∨ buf = 0) ∧ k' = k := by
  by_cases hfd : fd ≠ 0
  · rw [terminalRead, if_pos hfd] at h
    exact ⟨Or.inl hfd, (pure_eq_ok.1 h).2.symm⟩
  · by_cases hbuf : buf = 0
    · rw [terminalRead, if_neg hfd, if_pos hbuf] at h
      exact ⟨Or.inr hbuf, (pure_eq_ok.1 h).2.symm⟩
    · obtain rfl : fd = 0 := not_not.1 hfd
      obtain ⟨max, hline, hmax⟩ := terminalRead_getline P hbuf numChars input
      have hle : max ≤ 128 := by
        have hmany : (128 : Int32).toInt = 128 := rfl
        rw [Int32.le_iff_toInt_le, hmax, hmany]
        omega
      rw [hline] at h
      obtain ⟨n, hn, heq⟩ := getline_result hle (Word32.add_ofNat_zero buf).symm (Nat.zero_le _) h
      exact absurd heq.symm (ofNat_ne_neg_one (by omega))

/-- **A failed read was refused, or met a bad file.** -/
theorem sysRead_failed {fd nbytes : Int32} {buf : UInt32} {input : Input} {k k' : Kernel}
    (hs : P.Space k.toTables) (hf : P.FilesOk k.fileArray)
    (h : P.sysRead fd buf nbytes input k = .ok (-1) k') :
    (P.Refuses k.fileArray fd buf ∧ k' = k) ∨
    (P.BadFile k.fileArray fd nbytes ∧ k'.toTables = k.toTables.setFile (slot fd)
      ((k.fileArray (slot fd)).moveTo ((k.fileArray (slot fd)).filePosition - 1))) := by
  by_cases hopened : Opened k.fileArray fd
  · rw [P.sysRead_run hopened] at h
    dsimp only at h
    split_ifs at h with hterminal hfile hdirectory hrtc
    · obtain ⟨hargs, hk⟩ := terminalRead_failed h
      exact Or.inl ⟨Or.inr (Or.inl ⟨hterminal, hargs⟩), hk⟩
    · rcases P.fileRead_cases rfl h with ⟨-, -, hfd⟩ | ⟨k₁, hstore, hr, hk⟩
      · -- the terminal's slots hold no file
        have hslot : (slot fd).val < 2 := by
          rcases hfd with rfl | rfl
          · decide
          · decide
        exact absurd (hf.terminal _ hslot).2 hterminal
      · refine Or.inr ⟨⟨hopened, hfile, ?_⟩, ?_⟩
        · by_contra haccepted
          have hdata := readData_accepted haccepted
          rw [hdata] at hstore hr
          have hlen := storeBytes_length hs hstore
          have hsize : ∀ n, (fileBytes P.fs (k.fileArray (slot fd)).inodeNum
              (k.fileArray (slot fd)).filePosition.toNat n).length = n :=
            fun n => Blocks.length_slice ..
          rw [hsize] at hlen
          exact ofNat_ne_neg_one (by omega) hr.symm
        · have hback : (k.fileArray (slot fd)).filePosition + (-1 : Int32).toUInt32
              = (k.fileArray (slot fd)).filePosition - 1 := by
            rw [UInt32.sub_eq_add_neg, toUInt32_neg_one]
            rfl
          rw [hk, hback]
    · rcases P.directoryRead_cases rfl h with ⟨-, hk, hindex⟩ | ⟨d, -, hr, -⟩
      · exact Or.inl ⟨Or.inr (Or.inr ⟨hdirectory, hindex⟩), hk⟩
      · have hlen : (entryName d).length ≤ 32 := length_entryName_le d
        exact absurd hr.symm (ofNat_ne_neg_one (by omega))
    · exact absurd (rtcRead_result h) (by decide)
    · cases h
  · rw [P.sysRead_rejected hopened] at h
    cases h
    exact Or.inl ⟨Or.inl hopened, rfl⟩

/-- A read that failed was refused, or moved the position of a bad file. -/
theorem failed_read_cases {m m' : Machine} {fd nbytes : Int32} {buf : UInt32} {input : Input}
    {regs : Regs} (hm : P.Reachable m)
    (hs : P.step m (.call (.plain (.read fd buf nbytes input)) regs) = some m')
    (hfail : m'.eax = 0xFFFFFFFF) :
    (P.Refuses m.files fd buf ∧ m'.files = m.files) ∨
      (P.BadFile m.files fd nbytes ∧ m'.files ≠ m.files) := by
  obtain ⟨h0, hroom, hlive, -, r, hrun, heax⟩ := P.plain_of_step hs
  have hrunning := running_reachable hm hlive
  have hfiles := hrunning.fileArray_enter h0 hroom
  have hr : r = -1 := by
    rw [heax] at hfail
    exact (Int32.toInt32_toUInt32 r).symm.trans (congrArg UInt32.toInt32 hfail)
  subst hr
  have hspace := space_enter hm regs
  have hok : P.FilesOk (m.enter regs).fileArray := hfiles ▸ filesOk_running hm hlive
  rcases sysRead_failed hspace hok hrun with ⟨hrefused, hk⟩ | ⟨hbad, ht⟩
  · exact Or.inl ⟨hfiles ▸ hrefused, files_same (congrArg Kernel.toTables hk)⟩
  · rw [hfiles] at hbad ht
    refine Or.inr ⟨hbad, fun hsame => ?_⟩
    have hmoved := congrFun hsame (slot fd)
    rw [hrunning.files_setFile h0 hroom ht, Function.update_self] at hmoved
    have hone : (m.files (slot fd)).filePosition - 1 ≠ (m.files (slot fd)).filePosition := by
      grind
    exact hone (congrArg FileDesc.filePosition hmoved)

/-! ## The law -/

/-- **A failed read changes nothing, except on a bad file.**  The descriptors are as before
and every further try fails in the same way, exactly if the read was not one of a
regular file that `read_data` gives up on: that one moves the position back by one. -/
theorem failed_read (P : Platform) {m m' : Machine} {fd nbytes : Int32} {buf : UInt32}
    {input : Input} {regs : Regs} (hm : P.Reachable m)
    (hs : P.step m (.call (.plain (.read fd buf nbytes input)) regs) = some m')
    (hfail : m'.eax = 0xFFFFFFFF) :
    (m'.files = m.files ∧ ∀ (input' : Input) (regs' : Regs), 0 < regs'.depth →
      regs'.depth ≤ stackRoom → ∃ m'',
        P.step m' (.call (.plain (.read fd buf nbytes input')) regs') = some m'' ∧
          m''.eax = 0xFFFFFFFF ∧ m''.files = m.files) ↔
      ¬P.BadFile m.files fd nbytes := by
  obtain ⟨-, -, hlive, hframes, -⟩ := P.plain_of_step hs
  rcases failed_read_cases hm hs hfail with ⟨hrefused, hsame⟩ | ⟨hbad, hmoved⟩
  · refine ⟨fun _ => hrefused.not_badFile, fun _ => ⟨hsame, fun input' regs' h0' hroom' => ?_⟩⟩
    have hrunning' : Running P m' :=
      ⟨nested_step (nested_reachable hm) hs, by rw [hframes]; exact hlive⟩
    have hagain := sysRead_refused hrefused nbytes input'
      ((hrunning'.fileArray_enter h0' hroom').trans hsame)
    refine ⟨_, P.step_of_plain hrunning'.live h0' hroom' hagain, toUInt32_neg_one, ?_⟩
    rw [← hsame]
    exact files_same rfl
  · exact ⟨fun h _ => hmoved h.1, fun h => absurd hbad h⟩

/-- An image with a file whose only block number is not one of the image's. -/
def faultyImage : Image := memoryOf
  [(0, Bytes.wordBytes 2 ++ Bytes.wordBytes 2 ++ Bytes.wordBytes 2),
   (64, dentryBytes "sh".toUTF8.toList fileTypeFile 1),
   (128, dentryBytes "bad".toUTF8.toList fileTypeFile 0),
   (4096, Bytes.wordBytes 4 ++ Bytes.wordBytes 99),
   (8192, Bytes.wordBytes 28),
   (12288, [0x7F, 0x45, 0x4C, 0x46] ++ List.replicate 20 0 ++ Bytes.wordBytes 0x8048020)]

def faultyPlatform : Platform := { sampleLayout with fs := faultyImage }

def faultyBoot : Machine :=
  bootMachine faultyPlatform [(0x500000, "sh".toUTF8.toList), (0x500100, "bad".toUTF8.toList)]

/-- A read from a descriptor that is not open. -/
theorem failed_read_closed :
    ∃ m m', Run.run faultyPlatform.step faultyBoot
        [.call (.execute 0x500000) ⟨64, 0x7FFFF0⟩] = some m ∧
      faultyPlatform.step m (.call (.plain (.read 5 0x8050000 4 ⟨[], false⟩)) ⟨64, 0⟩) = some m' ∧
      m'.files = m.files := by
  have hrun : (Run.run faultyPlatform.step faultyBoot
      [.call (.execute 0x500000) ⟨64, 0x7FFFF0⟩]).any (fun m =>
        decide ((m.files (slot 5)).flags = fileAvail) &&
        (faultyPlatform.step m (.call (.plain (.read 5 0x8050000 4 ⟨[], false⟩)) ⟨64, 0⟩)).any
          fun m' => decide (m'.eax = 0xFFFFFFFF)) = true := by
    decide +kernel
  simp only [Option.any_eq_true, Bool.and_eq_true, decide_eq_true_eq] at hrun
  obtain ⟨m, hm, hfree, m', hm', heax⟩ := hrun
  have hlaw := failed_read faultyPlatform ⟨_, _, boot_bootMachine _ _, hm⟩ hm' heax
  exact ⟨m, m', hm, hm', (hlaw.2 fun hbad => hbad.1.2.2 hfree).1⟩

/-- A read of the faulty file fails, and moves the position to `0xFFFFFFFF`: tried again it
does not fail. -/
theorem failed_read_moves :
    ∃ m m' m'', Run.run faultyPlatform.step faultyBoot
        [.call (.execute 0x500000) ⟨64, 0x7FFFF0⟩,
         .call (.plain (.open 0x500100)) ⟨64, 0⟩] = some m ∧
      faultyPlatform.step m (.call (.plain (.read 2 0x8050000 4 ⟨[], false⟩)) ⟨64, 0⟩) = some m' ∧
      m'.eax = 0xFFFFFFFF ∧ (m.files 2).filePosition = 0 ∧
      (m'.files 2).filePosition = 0xFFFFFFFF ∧
      faultyPlatform.step m' (.call (.plain (.read 2 0x8050000 4 ⟨[], false⟩)) ⟨64, 0⟩)
        = some m'' ∧ m''.eax = 0 := by
  have hrun : (Run.run faultyPlatform.step faultyBoot
      [.call (.execute 0x500000) ⟨64, 0x7FFFF0⟩,
       .call (.plain (.open 0x500100)) ⟨64, 0⟩]).any (fun m =>
        (faultyPlatform.step m (.call (.plain (.read 2 0x8050000 4 ⟨[], false⟩)) ⟨64, 0⟩)).any
          fun m' => decide (m'.eax = 0xFFFFFFFF) && decide ((m.files 2).filePosition = 0) &&
            decide ((m'.files 2).filePosition = 0xFFFFFFFF) &&
            (faultyPlatform.step m'
              (.call (.plain (.read 2 0x8050000 4 ⟨[], false⟩)) ⟨64, 0⟩)).any
                fun m'' => decide (m''.eax = 0)) = true := by
    decide +kernel
  simp only [Option.any_eq_true, Bool.and_eq_true, decide_eq_true_eq] at hrun
  obtain ⟨m, hm, m', hm', ⟨⟨heax, hbefore⟩, hafter⟩, m'', hm'', heax'⟩ := hrun
  exact ⟨m, m', m'', hm, hm', heax, hbefore, hafter, hm'', heax'⟩

/-! ## Negative sizes -/

variable (P) in
/-- The read is refused: the result is -1, memory and descriptors are as before. -/
def RefusedRead (m : Machine) (fd : Int32) (buf : UInt32) (nbytes : Int32) (input : Input)
    (regs : Regs) : Prop :=
  ∃ m', P.step m (.call (.plain (.read fd buf nbytes input)) regs) = some m' ∧
    m'.eax = 0xFFFFFFFF ∧ m'.kernel.mem = m.kernel.mem ∧ m'.files = m.files

/-- **A negative size is refused only by accident.**  `read` with a negative size returns -1
and changes nothing exactly if it would for every size: the descriptor is not open, or it
is the terminal's and not 0 or the buffer is `NULL`, or it is a directory at its end. -/
theorem negative_read (P : Platform) {m : Machine} {fd nbytes : Int32} {buf : UInt32}
    {input : Input} {regs : Regs} (hm : P.Reachable m) (hlive : m.frames ≠ [])
    (h0 : 0 < regs.depth) (hroom : regs.depth ≤ stackRoom) (_hneg : nbytes < 0) :
    P.RefusedRead m fd buf nbytes input regs ↔ P.Refuses m.files fd buf := by
  have hrunning := running_reachable hm hlive
  constructor
  · rintro ⟨m', hs, hfail, -, hfiles⟩
    rcases failed_read_cases hm hs hfail with ⟨hrefused, -⟩ | ⟨-, hmoved⟩
    · exact hrefused
    · exact absurd hfiles hmoved
  · intro hrefused
    have hcall := sysRead_refused hrefused nbytes input (hrunning.fileArray_enter h0 hroom)
    exact ⟨_, P.step_of_plain hrunning.live h0 hroom hcall, toUInt32_neg_one, rfl, files_same rfl⟩

/-- A negative size on a descriptor that is not open. -/
theorem negative_read_closed :
    ∃ m, Run.run samplePlatform.step sampleBoot [.call (.execute 0x500000) ⟨64, 0x7FFFF0⟩] = some m ∧
      samplePlatform.RefusedRead m 5 0x8050000 (-1) ⟨[], false⟩ ⟨64, 0⟩ := by
  have hrun : (Run.run samplePlatform.step sampleBoot
      [.call (.execute 0x500000) ⟨64, 0x7FFFF0⟩]).any (fun m : Machine => decide (m.frames ≠ []) &&
        decide ((m.files (slot 5)).flags = fileAvail)) = true := by
    decide +kernel
  simp only [Option.any_eq_true, Bool.and_eq_true, decide_eq_true_eq] at hrun
  obtain ⟨m, hm, hlive, hfree⟩ := hrun
  refine ⟨m, hm, ?_⟩
  exact (negative_read samplePlatform ⟨_, _, boot_bootMachine _ _, hm⟩ hlive
    (show 0 < (⟨64, 0⟩ : Regs).depth by decide) (by decide) (by decide)).2
      (Or.inl fun hopened => hopened.2.2 hfree)

/-- A read of -1 bytes from the shell's file delivers all 28 of them and moves the position
to its end. -/
theorem negative_read_accepted :
    ∃ m m', Run.run samplePlatform.step sampleBoot
        [.call (.execute 0x500000) ⟨64, 0x7FFFF0⟩,
         .call (.plain (.open 0x500100)) ⟨64, 0⟩] = some m ∧
      samplePlatform.step m (.call (.plain (.read 2 0x8050000 (-1) ⟨[], false⟩)) ⟨64, 0⟩)
        = some m' ∧
      m'.eax = 28 ∧ samplePlatform.load m.kernel 0x8050000 = some 0 ∧
      samplePlatform.load m'.kernel 0x8050000 = some 0x7F ∧
      (m.files 2).filePosition = 0 ∧ (m'.files 2).filePosition = 28 ∧
      ¬samplePlatform.RefusedRead m 2 0x8050000 (-1) ⟨[], false⟩ ⟨64, 0⟩ := by
  have hrun : (Run.run samplePlatform.step sampleBoot
      [.call (.execute 0x500000) ⟨64, 0x7FFFF0⟩,
       .call (.plain (.open 0x500100)) ⟨64, 0⟩]).any (fun m =>
        (samplePlatform.step m (.call (.plain (.read 2 0x8050000 (-1) ⟨[], false⟩)) ⟨64, 0⟩)).any
          fun m' => decide (m'.eax = 28) &&
            decide (samplePlatform.load m.kernel 0x8050000 = some 0) &&
            decide (samplePlatform.load m'.kernel 0x8050000 = some 0x7F) &&
            decide ((m.files 2).filePosition = 0) &&
            decide ((m'.files 2).filePosition = 28)) = true := by
    decide +kernel
  simp only [Option.any_eq_true, Bool.and_eq_true, decide_eq_true_eq] at hrun
  obtain ⟨m, hm, m', hm', ⟨⟨⟨heax, hload⟩, hload'⟩, hbefore⟩, hafter⟩ := hrun
  refine ⟨m, m', hm, hm', heax, hload, hload', hbefore, hafter, ?_⟩
  rintro ⟨m'', hstep, hfail, -⟩
  rw [hm'] at hstep
  obtain rfl := Option.some.inj hstep
  rw [heax] at hfail
  exact absurd hfail (by decide)

end Platform

end CheetOS
