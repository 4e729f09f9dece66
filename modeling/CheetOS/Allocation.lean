import CheetOS.Dispatch

/-!
# Descriptors as an allocator

What `open` and `close` should do, stated as the law of an allocator that hands
out the lowest slot nobody holds, and when the kernel follows it.

* `OpenLaw`, `CloseLaw`, `StepLaw` are the law of one call, `LawfulRun` that of a
  run, with the slots the program holds as it knows them from the results;
* `HeldOk` ties them to the descriptor table, `heldOk_open`, `heldOk_close` keep it;
* `lawfulRun_iff` says that a run follows the law exactly as long as no clock entry
  is opened: `file_open` takes a slot for one and does not mark it.
-/

namespace CheetOS

open Exec

/-- The descriptors of the running process. -/
def Machine.files (m : Machine) : FileArray :=
  (m.kernel.pcb (pcbAddr m.kernel.currProcess)).fileArray

namespace Platform

variable (P : Platform)

/-! ## The law -/

/-- A program holds `held` and calls `open`. -/
structure OpenLaw (held : Finset (Fin numMaxOpenFiles)) (files files' : FileArray)
    (r : UInt32) : Prop where
  /-- A failure changes nothing. -/
  failed : r = 0xFFFFFFFF → files' = files
  /-- Otherwise the result is the lowest slot not held, and this slot only is newly
  marked. -/
  found : r ≠ 0xFFFFFFFF → ∃ i : Fin numMaxOpenFiles, r = UInt32.ofNat i ∧
    IsLeast {j | 2 ≤ j.val ∧ j ∉ held} i ∧
    (files i).flags = fileAvail ∧ (files' i).flags = fileOccup ∧ ∀ j ≠ i, files' j = files j

/-- A program holds `held` and calls `close`. -/
structure CloseLaw (held : Finset (Fin numMaxOpenFiles)) (files files' : FileArray)
    (fd : Int32) (r : UInt32) : Prop where
  /-- A failure changes nothing. -/
  failed : r = 0xFFFFFFFF → files' = files
  /-- A slot that is held is freed, and no other. -/
  freed : 2 ≤ fd → fd ≤ 7 → slot fd ∈ held →
    r = 0 ∧ (files' (slot fd)).flags = fileAvail ∧ ∀ j ≠ slot fd, files' j = files j

/-- What the program holds after an event, going by the results it got. -/
def heldAfter (held : Finset (Fin numMaxOpenFiles)) (e : Event) (m' : Machine) :
    Finset (Fin numMaxOpenFiles) :=
  match e with
  | .call (.plain (.open _)) _ =>
    if m'.eax = 0xFFFFFFFF then held else insert (Fin.ofNat numMaxOpenFiles m'.eax.toNat) held
  | .call (.plain (.close fd)) _ =>
    if m'.eax = 0xFFFFFFFF then held else held.erase (slot fd)
  | _ => held

/-- The law of one event: a write of the program to its memory leaves the table
alone. -/
def StepLaw (held : Finset (Fin numMaxOpenFiles)) (m : Machine) (e : Event) (m' : Machine) :
    Prop :=
  match e with
  | .call (.plain (.open _)) _ => OpenLaw held m.files m'.files m'.eax
  | .call (.plain (.close fd)) _ => CloseLaw held m.files m'.files fd m'.eax
  | _ => m'.files = m.files

/-- Every call of a run follows the law, and a held slot is never refused as not
open. -/
def LawfulRun (held : Finset (Fin numMaxOpenFiles)) (m : Machine) : List Event → Prop
  | [] => ∀ i ∈ held, (m.files i).flags ≠ fileAvail
  | e :: es => (∀ i ∈ held, (m.files i).flags ≠ fileAvail) ∧
      ∀ m', P.step m e = some m' → StepLaw held m e m' ∧ LawfulRun (heldAfter held e m') m' es

/-- The events of a program that opens and closes files, and prepares names. -/
def OpensAndCloses : Event → Prop
  | .store _ _ => True
  | .call (.plain (.open _)) _ => True
  | .call (.plain (.close _)) _ => True
  | _ => False

/-- A name of a clock entry, short enough for `file_open`, while a slot is free. -/
def ClockName (files : FileArray) (name : CharPtr) : Prop :=
  ∃ s d len, name = some s ∧ readDentryByName P.fs (some s) = some (some d) ∧
    d.filetype = fileTypeRtc ∧ strlen s = some len ∧ len < filenameLen ∧
    ∃ i : Fin numMaxOpenFiles, 2 ≤ i.val ∧ (files i).flags = fileAvail

/-- No call of the run opens a clock entry. -/
def NoClock (m : Machine) : List Event → Prop
  | [] => True
  | e :: es => ∀ m', P.step m e = some m' →
      (∀ filename regs, e = .call (.plain (.open filename)) regs →
        ¬P.ClockName m.files (P.charPtr (m.enter regs) filename)) ∧ NoClock m' es

/-! ## The table and what the program holds -/

/-- The slots that are held are those in use, and their files can be closed. -/
structure HeldOk (held : Finset (Fin numMaxOpenFiles)) (files : FileArray) : Prop where
  user : ∀ i ∈ held, 2 ≤ i.val
  used : ∀ i ∈ held, (files i).flags = fileOccup ∧
    (files i).fileOpsTablePtr ∈ [P.fileOps, P.directoryOps]
  free : ∀ i : Fin numMaxOpenFiles, 2 ≤ i.val → i ∉ held → (files i).flags = fileAvail

variable {P}

theorem HeldOk.flags_iff {held : Finset (Fin numMaxOpenFiles)} {files : FileArray}
    (h : P.HeldOk held files) {i : Fin numMaxOpenFiles} (hi : 2 ≤ i.val) :
    (files i).flags = fileAvail ↔ i ∉ held := by
  constructor
  · intro hflags hheld
    rw [(h.used i hheld).1] at hflags
    exact absurd hflags (by decide)
  · exact h.free i hi

theorem heldOk_init : P.HeldOk ∅ P.initFileArray where
  user := by
    intro i hi
    cases hi
  used := by
    intro i hi
    cases hi
  free := by
    intro i hi _
    unfold initFileArray
    rw [if_neg (by omega)]
    rfl

/-- The slot `file_open` looks for is the lowest one not held. -/
theorem HeldOk.isLeast {held : Finset (Fin numMaxOpenFiles)} {files : FileArray}
    (h : P.HeldOk held files) {i : Fin numMaxOpenFiles} (hi : firstAvail files = some i) :
    IsLeast {j | 2 ≤ j.val ∧ j ∉ held} i := by
  obtain ⟨h2, hflags, hbelow⟩ := firstAvail_spec hi
  refine ⟨⟨h2, (h.flags_iff h2).1 hflags⟩, ?_⟩
  rintro j ⟨hj, hheld⟩
  by_contra hlt
  exact hbelow j hj (not_le.1 hlt) (h.free j hj hheld)

/-- What `file_open` leaves for an entry that is not a clock. -/
theorem opened_of_ne_rtc {d : Dentry} (old : FileDesc) (hty : knownType d.filetype)
    (hne : d.filetype ≠ fileTypeRtc) :
    (P.opened d old).flags = fileOccup ∧
      (P.opened d old).fileOpsTablePtr ∈ [P.fileOps, P.directoryOps] := by
  unfold opened
  rcases hty with hr | hd | hf
  · exact absurd hr hne
  · rw [if_neg (by rw [hd]; decide), if_pos hd]
    exact ⟨rfl, by simp⟩
  · rw [if_pos hf]
    exact ⟨rfl, by simp⟩

/-- An open that takes a slot for a file or a directory. -/
theorem HeldOk.insert {held : Finset (Fin numMaxOpenFiles)} {files : FileArray}
    (h : P.HeldOk held files) {i : Fin numMaxOpenFiles} {f : FileDesc} (hi : 2 ≤ i.val)
    (hflags : f.flags = fileOccup) (htable : f.fileOpsTablePtr ∈ [P.fileOps, P.directoryOps]) :
    P.HeldOk (insert i held) (Function.update files i f) where
  user := by
    intro j hj
    rcases Finset.mem_insert.1 hj with rfl | hj
    · exact hi
    · exact h.user j hj
  used := by
    intro j hj
    by_cases hji : j = i
    · subst hji
      rw [Function.update_self]
      exact ⟨hflags, htable⟩
    · rw [Function.update_of_ne hji]
      exact h.used j ((Finset.mem_insert.1 hj).resolve_left hji)
  free := by
    intro j hj hnot
    rw [Finset.mem_insert, not_or] at hnot
    rw [Function.update_of_ne hnot.1]
    exact h.free j hj hnot.2

/-- A close. -/
theorem HeldOk.erase {held : Finset (Fin numMaxOpenFiles)} {files : FileArray}
    (h : P.HeldOk held files) (i : Fin numMaxOpenFiles) :
    P.HeldOk (held.erase i) (Function.update files i blank) where
  user := fun j hj => h.user j (Finset.mem_of_mem_erase hj)
  used := by
    intro j hj
    rw [Function.update_of_ne (Finset.ne_of_mem_erase hj)]
    exact h.used j (Finset.mem_of_mem_erase hj)
  free := by
    intro j hj hnot
    by_cases hji : j = i
    · subst hji
      rw [Function.update_self]
      rfl
    · rw [Function.update_of_ne hji]
      exact h.free j hj fun hheld => hnot (Finset.mem_erase.2 ⟨hji, hheld⟩)

/-! ## The tables of the running process -/

/-- A program runs. -/
structure Running (P : Platform) (m : Machine) : Prop where
  nested : P.Nested m.kernel.toTables m.frames
  live : m.frames ≠ []

theorem running_reachable {m : Machine} (h : P.Reachable m) (hlive : m.frames ≠ []) :
    Running P m := ⟨nested_reachable h, hlive⟩

theorem Running.fileArray_enter {m : Machine} (h : Running P m) {regs : Regs}
    (h0 : 0 < regs.depth) (hroom : regs.depth ≤ stackRoom) :
    (m.enter regs).fileArray = m.files :=
  Platform.fileArray_enter h.nested h.live h0 hroom

/-- The table of the running process after a change of one slot. -/
theorem Running.files_setFile {m m' : Machine} (h : Running P m) {regs : Regs}
    (h0 : 0 < regs.depth) (hroom : regs.depth ≤ stackRoom) {i : Fin numMaxOpenFiles}
    {f : FileDesc} (ht : m'.kernel.toTables = (m.enter regs).toTables.setFile i f) :
    m'.files = Function.update m.files i f := by
  have haddr := h.nested.currentPcb h.live h0 hroom
  have hfiles := (m.enter regs).toTables.fileArray_setFile i f
  rw [h.fileArray_enter h0 hroom] at hfiles
  unfold Tables.fileArray at hfiles
  rw [Tables.currentPcbAddr_setFile, haddr] at hfiles
  unfold Machine.files
  rw [ht]
  exact hfiles

theorem files_same {m m' : Machine} {regs : Regs}
    (ht : m'.kernel.toTables = (m.enter regs).toTables) : m'.files = m.files := by
  unfold Machine.files
  rw [ht]
  rfl

/-- Opening, closing and writing to memory do not switch to another program. -/
theorem Running.step {m m' : Machine} {e : Event} (h : Running P m) (he : OpensAndCloses e)
    (hs : P.step m e = some m') : Running P m' := by
  refine ⟨nested_step h.nested hs, ?_⟩
  have hframes : m'.frames = m.frames := by
    cases e with
    | store va b => exact (P.store_of_step hs).2.1
    | call c regs =>
      cases c with
      | halt | execute => exact he.elim
      | plain c =>
        obtain ⟨-, -, -, hframes, -⟩ := P.plain_of_step hs
        exact hframes
  rw [hframes]
  exact h.live

/-! ## One call -/

/-- The register value of a failure. -/
theorem toUInt32_neg_one : (-1 : Int32).toUInt32 = 0xFFFFFFFF := by decide

theorem toUInt32_slot_ne (i : Fin numMaxOpenFiles) :
    (Int32.ofNat i : Int32).toUInt32 ≠ 0xFFFFFFFF := by
  revert i
  decide

theorem toUInt32_slot (i : Fin numMaxOpenFiles) :
    (Int32.ofNat i : Int32).toUInt32 = UInt32.ofNat i := by
  revert i
  decide

theorem ofNat_slot (i : Fin numMaxOpenFiles) :
    Fin.ofNat numMaxOpenFiles (UInt32.ofNat i).toNat = i := by
  revert i
  decide

/-- The descriptor of a slot. -/
theorem slot_ofNat {i : Fin numMaxOpenFiles} (h : 2 ≤ i.val) :
    2 ≤ (Int32.ofNat i : Int32) ∧ (Int32.ofNat i : Int32) ≤ 7 ∧ slot (Int32.ofNat i) = i := by
  revert i
  decide

/-- The result in the register. -/
theorem eq_of_eax {eax : UInt32} {fd r : Int32} (heax : eax = r.toUInt32)
    (hfd : eax = fd.toUInt32) : fd = r := by
  have hback := congrArg UInt32.toInt32 (hfd.symm.trans heax)
  rwa [Int32.toInt32_toUInt32, Int32.toInt32_toUInt32] at hback

/-- What an `open` that succeeds leaves in the slot of its descriptor. -/
theorem opened_of_step {m₀ m : Machine} {filename : UInt32} {regs : Regs} {fd : Int32}
    {d : Dentry} (hm₀ : P.Reachable m₀)
    (hopen : P.step m₀ (.call (.plain (.open filename)) regs) = some m)
    (hfd : m.eax = fd.toUInt32) (hfd0 : 0 ≤ fd)
    (hentry : readDentryByName P.fs (P.charPtr (m₀.enter regs) filename) = some (some d)) :
    (2 ≤ fd ∧ fd ≤ 7) ∧ m₀.frames ≠ [] ∧ m.frames = m₀.frames ∧ knownType d.filetype ∧
      ∃ old, old.flags = fileAvail ∧ m.files (slot fd) = P.opened d old := by
  obtain ⟨h0, hroom, hlive, hframes, r, hrun, heax⟩ := P.plain_of_step hopen
  have hrunning := running_reachable hm₀ hlive
  obtain rfl : fd = r := eq_of_eax heax hfd
  rcases P.sysOpen_cases hrun with ⟨-, rfl, -⟩ | ⟨idx, d', hfound, rfl, ht, -⟩
  · exact absurd hfd0 (by decide)
  · obtain ⟨s, len, hname, hread, hty, -, -, havail⟩ := P.openResult_eq_some hfound
    obtain ⟨hidx, hfree, -⟩ := firstAvail_spec havail
    rw [hname, hread] at hentry
    cases hentry
    obtain ⟨h2, h7, hslot⟩ := slot_ofNat hidx
    refine ⟨⟨h2, h7⟩, hlive, hframes, hty, _, hfree, ?_⟩
    rw [hslot, hrunning.files_setFile h0 hroom ht, Function.update_self]

/-- `open` on anything but a clock entry follows the law. -/
theorem heldOk_open {m m' : Machine} {filename : UInt32} {regs : Regs}
    {held : Finset (Fin numMaxOpenFiles)} (h : Running P m) (hheld : P.HeldOk held m.files)
    (hs : P.step m (.call (.plain (.open filename)) regs) = some m')
    (hclock : ¬P.ClockName m.files (P.charPtr (m.enter regs) filename)) :
    OpenLaw held m.files m'.files m'.eax ∧
      P.HeldOk (heldAfter held (.call (.plain (.open filename)) regs) m') m'.files := by
  obtain ⟨h0, hroom, -, -, r, hrun, heax⟩ := P.plain_of_step hs
  unfold heldAfter
  dsimp only
  rw [heax]
  rcases P.sysOpen_cases hrun with ⟨-, rfl, hsame⟩ | ⟨i, d, hfound, rfl, ht, -⟩
  · have hfiles : m'.files = m.files := files_same (congrArg Kernel.toTables hsame)
    rw [hfiles, if_pos toUInt32_neg_one]
    exact ⟨⟨fun _ => rfl, fun hne => absurd toUInt32_neg_one hne⟩, hheld⟩
  · rw [h.fileArray_enter h0 hroom] at hfound ht
    obtain ⟨s, len, hname, hread, hty, hlen, hl, havail⟩ := P.openResult_eq_some hfound
    obtain ⟨hi, hflags, -⟩ := firstAvail_spec havail
    have hrtc : d.filetype ≠ fileTypeRtc := fun hr =>
      hclock ⟨s, d, len, hname, hread, hr, hlen, hl, i, hi, hflags⟩
    obtain ⟨hocc, htable⟩ := opened_of_ne_rtc (m.files i) hty hrtc
    rw [h.files_setFile h0 hroom ht, if_neg (toUInt32_slot_ne i), toUInt32_slot, ofNat_slot]
    refine ⟨⟨fun hfail => ?_, fun _ => ?_⟩, hheld.insert hi hocc htable⟩
    · rw [← toUInt32_slot] at hfail
      exact absurd hfail (toUInt32_slot_ne i)
    · refine ⟨i, rfl, hheld.isLeast havail, hflags, ?_, ?_⟩
      · rw [Function.update_self, hocc]
      · intro j hj
        exact Function.update_of_ne hj _ _

/-- `open` on a clock entry takes a slot without marking it, which breaks the law. -/
theorem openLaw_clock {m m' : Machine} {filename : UInt32} {regs : Regs}
    {held : Finset (Fin numMaxOpenFiles)} (h : Running P m)
    (hs : P.step m (.call (.plain (.open filename)) regs) = some m')
    (hclock : P.ClockName m.files (P.charPtr (m.enter regs) filename)) :
    ¬OpenLaw held m.files m'.files m'.eax := by
  intro hlaw
  obtain ⟨h0, hroom, -, -, r, hrun, heax⟩ := P.plain_of_step hs
  obtain ⟨s, d, len, hname, hread, hr, hlen, hl, j, hj, hfree⟩ := hclock
  obtain ⟨i, hi⟩ : ∃ i, firstAvail m.files = some i := by
    rw [← Option.isSome_iff_exists]
    unfold firstAvail
    rw [List.find?_isSome]
    exact ⟨j, List.mem_finRange j, by simp [hj, hfree]⟩
  have hfound : P.openResult (m.enter regs).fileArray (P.charPtr (m.enter regs) filename)
      = some (some (i, d)) := by
    rw [h.fileArray_enter h0 hroom, hname]
    unfold openResult
    simp only [hread, hlen, if_pos (show knownType d.filetype from Or.inl hr),
      if_neg (not_le.2 hl), hi, Option.map_some]
  obtain ⟨k, hrun', ht, -, -⟩ := P.sysOpen_found hfound
  have hopen : P.sysOpen filename (m.enter regs) = .ok r m'.kernel := hrun
  rw [hopen] at hrun'
  cases hrun'
  rw [h.fileArray_enter h0 hroom] at ht
  rw [heax] at hlaw
  obtain ⟨i', heq, -, havail, hocc, -⟩ := hlaw.found (toUInt32_slot_ne i)
  have hii : i' = i := by
    rw [← ofNat_slot i', ← ofNat_slot i, ← heq, ← toUInt32_slot i]
  subst hii
  rw [h.files_setFile h0 hroom ht, Function.update_self, P.flags_opened d _ hr, havail] at hocc
  exact absurd hocc (by decide)

/-- `close` follows the law. -/
theorem heldOk_close {m m' : Machine} {fd : Int32} {regs : Regs}
    {held : Finset (Fin numMaxOpenFiles)} (h : Running P m) (hheld : P.HeldOk held m.files)
    (hs : P.step m (.call (.plain (.close fd)) regs) = some m') :
    CloseLaw held m.files m'.files fd m'.eax ∧
      P.HeldOk (heldAfter held (.call (.plain (.close fd)) regs) m') m'.files := by
  obtain ⟨h0, hroom, -, -, r, hrun, heax⟩ := P.plain_of_step hs
  have hclose : P.sysClose fd (m.enter regs) = .ok r m'.kernel := hrun
  have hfiles := h.fileArray_enter h0 hroom
  unfold heldAfter
  dsimp only
  rw [heax]
  by_cases hfd : 2 ≤ fd ∧ fd ≤ 7 ∧ slot fd ∈ held
  · obtain ⟨h2, h7, hmem⟩ := hfd
    obtain ⟨hocc, htable⟩ := hheld.used (slot fd) hmem
    have hopened : Opened (m.enter regs).fileArray fd := by
      refine ⟨Int32.le_trans (by decide) h2, h7, ?_⟩
      rw [hfiles, hocc]
      decide
    rw [P.sysClose_run hopened h2, if_pos (by rw [hfiles]; exact htable)] at hclose
    injection hclose with hr hk
    have ht : m'.kernel.toTables = (m.enter regs).toTables.setFile (slot fd) blank := by
      rw [← hk]
    rw [← hr, h.files_setFile h0 hroom ht, if_neg (by decide)]
    refine ⟨⟨fun hfail => absurd hfail (by decide), fun _ _ _ => ⟨rfl, ?_, ?_⟩⟩,
      hheld.erase (slot fd)⟩
    · rw [Function.update_self]
      rfl
    · intro j hj
      exact Function.update_of_ne hj _ _
  · have hnot : ¬Opened (m.enter regs).fileArray fd ∨ fd < 2 := by
      by_cases h2 : fd < 2
      · exact Or.inr h2
      · refine Or.inl fun hopened => ?_
        have h2' := Int32.not_lt.1 h2
        refine hopened.2.2 ?_
        rw [hfiles]
        refine hheld.free _ (two_le_slot h2' hopened.2.1) fun hmem => ?_
        exact hfd ⟨h2', hopened.2.1, hmem⟩
    rw [P.sysClose_rejected hnot] at hclose
    injection hclose with hr hk
    have hsame : m'.files = m.files := files_same (congrArg Kernel.toTables hk.symm)
    rw [← hr, hsame, if_pos toUInt32_neg_one]
    exact ⟨⟨fun _ => rfl, fun h2 h7 hmem => absurd ⟨h2, h7, hmem⟩ hfd⟩, hheld⟩

/-- A write to memory leaves the descriptors alone. -/
theorem files_store {m m' : Machine} {va : UInt32} {b : UInt8}
    (hs : P.step m (.store va b) = some m') : m'.files = m.files := by
  obtain ⟨-, -, htables, -⟩ := P.store_of_step hs
  unfold Machine.files
  rw [htables]

/-! ## Runs -/

/-- Without clock entries, the law holds from every table that is in order. -/
theorem lawfulRun_of_noClock {m : Machine} {es : List Event}
    {held : Finset (Fin numMaxOpenFiles)} (hr : Running P m) (hheld : P.HeldOk held m.files)
    (hes : ∀ e ∈ es, OpensAndCloses e) (h : P.NoClock m es) : P.LawfulRun held m es := by
  have hused : ∀ {held : Finset (Fin numMaxOpenFiles)} {files : FileArray},
      P.HeldOk held files → ∀ i ∈ held, (files i).flags ≠ fileAvail := by
    intro held files hok i hi
    rw [(hok.used i hi).1]
    decide
  induction es generalizing m held with
  | nil => exact hused hheld
  | cons e es ih =>
    refine ⟨hused hheld, fun m' hs => ?_⟩
    obtain ⟨hclock, hrest⟩ := h m' hs
    have he := hes e List.mem_cons_self
    have hes' : ∀ e ∈ es, OpensAndCloses e := fun e' h' => hes e' (List.mem_cons_of_mem e h')
    have hr' := hr.step he hs
    cases e with
    | store va b =>
      have hfiles := files_store hs
      exact ⟨hfiles, ih hr' (by rw [hfiles]; exact hheld) hes' hrest⟩
    | call c regs =>
      cases c with
      | halt | execute => exact he.elim
      | plain c =>
        cases c with
        | «open» filename =>
          obtain ⟨hlaw, hheld'⟩ := heldOk_open hr hheld hs (hclock filename regs rfl)
          exact ⟨hlaw, ih hr' hheld' hes' hrest⟩
        | close fd =>
          obtain ⟨hlaw, hheld'⟩ := heldOk_close hr hheld hs
          exact ⟨hlaw, ih hr' hheld' hes' hrest⟩
        | read | write | getargs | vidmap => exact he.elim

/-- A run that follows the law opens no clock entry. -/
theorem noClock_of_lawfulRun {m : Machine} {es : List Event}
    {held : Finset (Fin numMaxOpenFiles)} (hr : Running P m)
    (hes : ∀ e ∈ es, OpensAndCloses e) (h : P.LawfulRun held m es) : P.NoClock m es := by
  induction es generalizing m held with
  | nil => trivial
  | cons e es ih =>
    intro m' hs
    obtain ⟨hlaw, hrest⟩ := h.2 m' hs
    have hr' := hr.step (hes e List.mem_cons_self) hs
    refine ⟨?_, ih hr' (fun e' h' => hes e' (List.mem_cons_of_mem e h')) hrest⟩
    rintro filename regs rfl hclock
    exact openLaw_clock hr hs hclock hlaw

/-- **Descriptors are allocated lawfully exactly as long as no clock is opened.**
For every process whose table is as `init_file_array` leaves it, and every run of
its opens and closes: each of them follows the law of an allocator that hands out
the lowest slot not held, if and only if none of the opens finds a clock entry
under a name `file_open` accepts while a slot is free. -/
theorem lawfulRun_iff (P : Platform) {m : Machine} {es : List Event} (hm : P.Reachable m)
    (hlive : m.frames ≠ []) (hinit : m.files = P.initFileArray)
    (hes : ∀ e ∈ es, OpensAndCloses e) : P.LawfulRun ∅ m es ↔ P.NoClock m es := by
  have hr := running_reachable hm hlive
  constructor
  · intro hlaw
    exact noClock_of_lawfulRun hr hes hlaw
  · intro hclock
    have hheld : P.HeldOk ∅ m.files := by
      rw [hinit]
      exact heldOk_init
    exact lawfulRun_of_noClock hr hheld hes hclock

/-- A program opens a file twice and closes the first descriptor. -/
theorem lawfulRun_iff_files :
    ∃ m, Run.run samplePlatform.step sampleBoot [.call (.execute 0x500000) ⟨64, 0x7FFFF0⟩]
        = some m ∧
      (samplePlatform.LawfulRun ∅ m
          [.call (.plain (.open 0x500100)) ⟨64, 0⟩, .call (.plain (.open 0x500100)) ⟨64, 0⟩,
           .call (.plain (.close 2)) ⟨64, 0⟩] ↔
        samplePlatform.NoClock m
          [.call (.plain (.open 0x500100)) ⟨64, 0⟩, .call (.plain (.open 0x500100)) ⟨64, 0⟩,
           .call (.plain (.close 2)) ⟨64, 0⟩]) := by
  have hrun : (Run.run samplePlatform.step sampleBoot
      [.call (.execute 0x500000) ⟨64, 0x7FFFF0⟩]).any (fun m => decide (m.frames ≠ []) &&
        decide (∀ i, m.files i = samplePlatform.initFileArray i)) = true := by
    decide +kernel
  simp only [Option.any_eq_true, Bool.and_eq_true, decide_eq_true_eq] at hrun
  obtain ⟨m, hm, hlive, hinit⟩ := hrun
  refine ⟨m, hm, lawfulRun_iff samplePlatform ⟨_, _, boot_bootMachine _ _, hm⟩ hlive
    (funext hinit) ?_⟩
  simp [OpensAndCloses]

/-- Opening the clock does not follow the law: the next open, of another file, gets
the same descriptor. -/
theorem clock_aliases_file :
    ∃ m m₁ m₂, Run.run samplePlatform.step sampleBoot
        [.call (.execute 0x500000) ⟨64, 0x7FFFF0⟩] = some m ∧
      m.frames ≠ [] ∧ m.files = samplePlatform.initFileArray ∧
      samplePlatform.step m (.call (.plain (.open 0x500200)) ⟨64, 0⟩) = some m₁ ∧
      samplePlatform.step m₁ (.call (.plain (.open 0x500100)) ⟨64, 0⟩) = some m₂ ∧
      m₁.eax = 2 ∧ m₂.eax = 2 ∧ (m₁.files 2).flags = fileAvail ∧
      ¬samplePlatform.LawfulRun ∅ m
        [.call (.plain (.open 0x500200)) ⟨64, 0⟩, .call (.plain (.open 0x500100)) ⟨64, 0⟩] := by
  have hrun : (Run.run samplePlatform.step sampleBoot
      [.call (.execute 0x500000) ⟨64, 0x7FFFF0⟩]).any (fun m => decide (m.frames ≠ []) &&
        decide (∀ i, m.files i = samplePlatform.initFileArray i) &&
        (samplePlatform.step m (.call (.plain (.open 0x500200)) ⟨64, 0⟩)).any fun m₁ =>
          decide (m₁.eax = 2) && decide ((m₁.files 2).flags = fileAvail) &&
          (samplePlatform.step m₁ (.call (.plain (.open 0x500100)) ⟨64, 0⟩)).any fun m₂ =>
            decide (m₂.eax = 2)) = true := by
    decide +kernel
  simp only [Option.any_eq_true, Bool.and_eq_true, decide_eq_true_eq] at hrun
  obtain ⟨m, hm, ⟨hlive, hinit⟩, m₁, hm₁, ⟨heax, hfree⟩, m₂, hm₂, heax₂⟩ := hrun
  refine ⟨m, m₁, m₂, hm, hlive, funext hinit, hm₁, hm₂, heax, heax₂, hfree, ?_⟩
  intro hlaw
  have hopen : OpenLaw ∅ m.files m₁.files m₁.eax := (hlaw.2 m₁ hm₁).1
  obtain ⟨i, hi, -, -, hocc, -⟩ := hopen.found (by rw [heax]; decide)
  have honly : ∀ j : Fin numMaxOpenFiles, (2 : UInt32) = UInt32.ofNat j → j = 2 := by decide
  rw [heax] at hi
  have hslot := honly i hi
  subst hslot
  rw [hfree] at hocc
  exact absurd hocc (by decide)

end Platform

end CheetOS
