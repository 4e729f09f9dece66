import CheetOS.Memory
import CheetOS.Allocation

/-!
# The clock behind its descriptor

What `write`, `read` and `close` do on a descriptor that `open` returned for the clock.

* `UserSlots` is the invariant: a slot from 2 on that is in use holds a file or a
  directory, never the clock, because `file_open` returns for a clock entry before it
  marks the slot;
* `ClockLaw` is what a descriptor of the clock should do, `clock_law_fails` says that none
  ever does.
-/

namespace CheetOS

open Exec

namespace Platform

/-! ## What is in use -/

variable (P : Platform)

/-- A slot that is in use, the terminal's two apart, holds a file or a directory. -/
def UserSlots (files : FileArray) : Prop :=
  ∀ i : Fin numMaxOpenFiles, 2 ≤ i.val → (files i).flags ≠ fileAvail →
    (files i).fileOpsTablePtr ∈ [P.fileOps, P.directoryOps]

variable {P}

/-- A slot may get anything that is free or holds a file or a directory. -/
theorem UserSlots.update {files : FileArray} (h : P.UserSlots files) {i : Fin numMaxOpenFiles}
    {f : FileDesc} (hf : f.flags ≠ fileAvail → f.fileOpsTablePtr ∈ [P.fileOps, P.directoryOps]) :
    P.UserSlots (Function.update files i f) := by
  intro j hj hused
  by_cases hji : j = i
  · subst hji
    rw [Function.update_self] at hused ⊢
    exact hf hused
  · rw [Function.update_of_ne hji] at hused ⊢
    exact h j hj hused

theorem userSlots_rule : P.FilesRule P.UserSlots where
  init := by
    intro i hi hused
    unfold initFileArray at hused
    rw [if_neg (by omega)] at hused
    exact absurd rfl hused
  opened := by
    intro files i d h _ hfree hty _
    refine h.update fun hused => ?_
    by_cases hrtc : d.filetype = fileTypeRtc
    · rw [P.flags_opened d _ hrtc] at hused
      exact absurd hfree hused
    · exact (opened_of_ne_rtc _ hty hrtc).2
  closed := fun _ _ h _ => h.update fun hused => absurd rfl hused
  moved := by
    intro files i pos h j hj
    by_cases hji : j = i
    · subst hji
      rw [Function.update_self]
      exact h j hj
    · rw [Function.update_of_ne hji]
      exact h j hj

/-- `write` fails on every descriptor but the terminal's. -/
theorem sysWrite_user {k : Kernel} (h : P.UserSlots k.fileArray) {fd : Int32} (hfd : 2 ≤ fd)
    (buf : UInt32) (nbytes : Int32) : P.sysWrite fd buf nbytes k = .ok (-1) k := by
  by_cases hopened : Opened k.fileArray fd
  · rw [P.sysWrite_run hopened]
    dsimp only
    rcases List.mem_pair.1 (h (slot fd) (two_le_slot hfd hopened.2.1) hopened.2.2) with hfile | hdir
    · rw [if_neg (hfile.symm ▸ P.fileOps_ne_terminalOps), if_pos hfile]
      rfl
    · rw [if_neg (hdir.symm ▸ P.directoryOps_ne_terminalOps),
        if_neg (hdir.symm ▸ P.directoryOps_ne_fileOps), if_pos hdir]
      rfl
  · exact P.sysWrite_rejected hopened buf nbytes

/-! ## The law -/

variable (P) in
/-- What `write(fd, &f, 4)`, `read` and `close` should do on a descriptor of the clock. -/
structure ClockLaw (fd : Int32) (k : Kernel) : Prop where
  /-- `write` has the result of `rtc_write` and its effect on register A. -/
  write : ∀ buf f, P.loadWord buf k = .ok f k → ∃ r k₁ k₂,
    P.sysWrite fd buf 4 k = .ok r k₁ ∧ P.rtcWrite buf 4 k = .ok r k₂ ∧
      k₁.rtc.regA = k₂.rtc.regA
  /-- `read` is `rtc_read`. -/
  read : ∀ buf nbytes input, P.sysRead fd buf nbytes input k = rtcRead buf nbytes input k
  /-- `close` returns 0 and frees the slot. -/
  close : ∃ k', P.sysClose fd k = .ok 0 k' ∧ (k'.fileArray (slot fd)).flags = fileAvail

/-- `rtc_write` never returns -1. -/
theorem rtcRate_ne (frequency : Int32) : rtcRate frequency ≠ -1 := by
  unfold rtcRate
  split_ifs
  all_goals decide

theorem rtcWrite_result {buf : UInt32} {nbytes r : Int32} {k k' : Kernel}
    (h : P.rtcWrite buf nbytes k = .ok r k') : r ≠ -1 := by
  obtain ⟨f, k₁, -, h⟩ := bind_eq_ok.1 h
  rw [get_bind_run] at h
  obtain ⟨rfl, -⟩ := pure_eq_ok.1 h
  exact rtcRate_ne _

/-- A word in the page of the running program can be read. -/
theorem loadWord_user {m : Machine} (h : Running P m) (regs : Regs) :
    ∃ f, P.loadWord 0x8050000 (m.enter regs) = .ok f (m.enter regs) := by
  have hpage := h.nested.userPage h.live
  have hbyte : ∀ i < 4, ∃ b, P.load (m.enter regs) (0x8050000 + UInt32.ofNat i) = some b := by
    intro i hi
    have hva : (0x8050000 + UInt32.ofNat i : UInt32).toNat = 0x8050000 + i :=
      Word32.toNat_add_ofNat (by simp only [UInt32.reduceToNat]; omega)
    have hlo : (0x08000000 : UInt32) ≤ 0x8050000 + UInt32.ofNat i := by
      rw [UInt32.le_iff_toNat_le, hva]
      simp only [UInt32.reduceToNat]
      omega
    have hhi : 0x8050000 + UInt32.ofNat i < (0x08400000 : UInt32) := by
      rw [UInt32.lt_iff_toNat_lt, hva]
      simp only [UInt32.reduceToNat]
      omega
    have htr : P.translate (m.enter regs).toTables .supervisor .read _ = some _ :=
      translate_user_page h.nested.running_bound hpage .supervisor .read hlo hhi
    exact ⟨_, load_eq_some.2 ⟨_, htr, kernelData_user_page h.nested.running_bound hlo hhi, rfl⟩⟩
  choose! b hb using hbyte
  exact ⟨_, loadWord_run hb⟩

/-- A descriptor that `open` returned for the clock is not in use. -/
theorem clock_open {m₀ m : Machine} {filename : UInt32} {regs : Regs} {fd : Int32}
    {d : Dentry} (hm₀ : P.Reachable m₀)
    (hopen : P.step m₀ (.call (.plain (.open filename)) regs) = some m)
    (hfd : m.eax = fd.toUInt32) (hfd0 : 0 ≤ fd)
    (hentry : readDentryByName P.fs (P.charPtr (m₀.enter regs) filename) = some (some d))
    (hrtc : d.filetype = fileTypeRtc) :
    2 ≤ fd ∧ m.frames ≠ [] ∧ (m.files (slot fd)).flags = fileAvail := by
  obtain ⟨huser, hlive, hframes, -, old, hfree, hslot⟩ := opened_of_step hm₀ hopen hfd hfd0 hentry
  refine ⟨huser.1, by rw [hframes]; exact hlive, ?_⟩
  rw [hslot, P.flags_opened d _ hrtc]
  exact hfree

/-- **No descriptor of the clock ever behaves as the clock.**  After any later run `write`
on it fails where `rtc_write` does not; and as soon as it is returned, `read` and `close`
fail as well. -/
theorem clock_law_fails (P : Platform) {m₀ m : Machine} {filename : UInt32} {regs : Regs}
    {fd : Int32} {d : Dentry} (hm₀ : P.Reachable m₀)
    (hopen : P.step m₀ (.call (.plain (.open filename)) regs) = some m)
    (hfd : m.eax = fd.toUInt32) (hfd0 : 0 ≤ fd)
    (hentry : readDentryByName P.fs (P.charPtr (m₀.enter regs) filename) = some (some d))
    (hrtc : d.filetype = fileTypeRtc) :
    (∀ es m', Run.run P.step m es = some m' → m'.frames ≠ [] → ∀ regs' : Regs,
      0 < regs'.depth → regs'.depth ≤ stackRoom → ¬P.ClockLaw fd (m'.enter regs')) ∧
    ∀ regs' : Regs, 0 < regs'.depth → regs'.depth ≤ stackRoom →
      (∀ buf nbytes input, P.sysRead fd buf nbytes input (m.enter regs')
        ≠ rtcRead buf nbytes input (m.enter regs')) ∧
      ∀ k', P.sysClose fd (m.enter regs') ≠ .ok 0 k' := by
  obtain ⟨h2, hlive, hfree⟩ := clock_open hm₀ hopen hfd hfd0 hentry hrtc
  have hm : P.Reachable m := hm₀.step hopen
  refine ⟨fun es m' hrun hlive' regs' h0 hroom hlaw => ?_, fun regs' h0 hroom => ?_⟩
  · have hm' := hm.run hrun
    have hrunning := running_reachable hm' hlive'
    have hslots : P.UserSlots (m'.enter regs').fileArray :=
      (hrunning.fileArray_enter h0 hroom) ▸ allFiles_running userSlots_rule hm' hlive'
    obtain ⟨f, hf⟩ := loadWord_user hrunning regs'
    obtain ⟨r, k₁, k₂, hwrite, hdriver, -⟩ := hlaw.write _ f hf
    rw [sysWrite_user hslots h2] at hwrite
    cases hwrite
    exact rtcWrite_result hdriver rfl
  · have hnot : ¬Opened (m.enter regs').fileArray fd := by
      rintro ⟨-, -, hused⟩
      rw [(running_reachable hm hlive).fileArray_enter h0 hroom] at hused
      exact hused hfree
    refine ⟨fun buf nbytes input heq => ?_, fun k' heq => ?_⟩
    · rw [P.sysRead_rejected hnot] at heq
      exact absurd (rtcRead_result heq.symm) (by decide)
    · rw [P.sysClose_rejected (Or.inl hnot)] at heq
      cases heq

/-- A program opens the clock on descriptor 2. -/
theorem clock_law_fails_sample :
    ∃ m, Run.run samplePlatform.step sampleBoot
        [.call (.execute 0x500000) ⟨64, 0x7FFFF0⟩,
         .call (.plain (.open 0x500200)) ⟨64, 0⟩] = some m ∧ m.eax = 2 ∧
      ¬samplePlatform.ClockLaw 2 (m.enter ⟨64, 0⟩) := by
  have hrun : (Run.run samplePlatform.step sampleBoot
      [.call (.execute 0x500000) ⟨64, 0x7FFFF0⟩]).any (fun m₀ =>
        (readDentryByName samplePlatform.fs
          (samplePlatform.charPtr (m₀.enter ⟨64, 0⟩) 0x500200)).any (fun found =>
            found.any fun d => decide (d.filetype = fileTypeRtc)) &&
        (samplePlatform.step m₀ (.call (.plain (.open 0x500200)) ⟨64, 0⟩)).any fun m =>
          decide (m.eax = 2) && decide (m.frames ≠ [])) = true := by
    decide +kernel
  simp only [Option.any_eq_true, Bool.and_eq_true, decide_eq_true_eq] at hrun
  obtain ⟨m₀, hm₀, ⟨found, hentry, d, rfl, hrtc⟩, m, hopen, heax, hlive⟩ := hrun
  have hall := clock_law_fails samplePlatform ⟨_, _, boot_bootMachine _ _, hm₀⟩ hopen
    (show m.eax = (2 : Int32).toUInt32 from heax) (by decide) hentry hrtc
  obtain ⟨u, hu, hnil⟩ := Run.run_cons_eq_some.1 hm₀
  cases hnil
  exact ⟨m, Run.run_cons_eq_some.2 ⟨m₀, hu, Run.run_cons_eq_some.2 ⟨m, hopen, rfl⟩⟩, heax,
    hall.1 [] m rfl hlive ⟨64, 0⟩ (by decide) (by decide)⟩

/-- It writes the frequency 2 to the clock and closes it: both calls return -1, where the
driver sets the rate 15. -/
theorem clock_descriptor_fails :
    ∃ m m' m'', Run.run samplePlatform.step sampleBoot
        [.call (.execute 0x500000) ⟨64, 0x7FFFF0⟩, .store 0x8050000 2,
         .call (.plain (.open 0x500200)) ⟨64, 0⟩] = some m ∧ m.eax = 2 ∧
      samplePlatform.step m (.call (.plain (.write 2 0x8050000 4)) ⟨64, 0⟩) = some m' ∧
      m'.eax = 0xFFFFFFFF ∧
      samplePlatform.step m' (.call (.plain (.close 2)) ⟨64, 0⟩) = some m'' ∧
      m''.eax = 0xFFFFFFFF ∧
      ∃ k, samplePlatform.rtcWrite 0x8050000 4 (m.enter ⟨64, 0⟩) = .ok 15 k := by
  have hrun : (Run.run samplePlatform.step sampleBoot
      [.call (.execute 0x500000) ⟨64, 0x7FFFF0⟩, .store 0x8050000 2,
       .call (.plain (.open 0x500200)) ⟨64, 0⟩]).any (fun m =>
        decide (m.eax = 2) &&
        (samplePlatform.step m (.call (.plain (.write 2 0x8050000 4)) ⟨64, 0⟩)).any (fun m' =>
          decide (m'.eax = 0xFFFFFFFF) &&
          (samplePlatform.step m' (.call (.plain (.close 2)) ⟨64, 0⟩)).any fun m'' =>
            decide (m''.eax = 0xFFFFFFFF)) &&
        ends (fun r _ => decide (r = 15))
          (samplePlatform.rtcWrite 0x8050000 4 (m.enter ⟨64, 0⟩))) = true := by
    decide +kernel
  simp only [Option.any_eq_true, Bool.and_eq_true, decide_eq_true_eq, ends_iff] at hrun
  obtain ⟨m, hm, ⟨heax, m', hm', heax', m'', hm'', heax''⟩, r, k, hwrite, rfl⟩ := hrun
  exact ⟨m, m', m'', hm, heax, hm', heax', hm'', heax'', k, hwrite⟩

end Platform

end CheetOS
