import CheetOS.Syscalls

/-!
# Descriptor operations

What `open`, `close`, `read` and `write` do to the descriptor table of the
process that calls them.

`openResult` is what `open` decides before it touches anything; `sysOpen_found`,
`sysOpen_refused` and `sysOpen_unread` say that `open` does exactly that, for all
its exits.  `sysClose_run` does the same for `close`, and `sysRead_tables`,
`sysWrite_tables` say what the other two leave alone.
-/

namespace CheetOS

open Exec

/-! ## Tables with other descriptors -/

/-- A descriptor at another position in its file. -/
def FileDesc.moveTo (f : FileDesc) (pos : UInt32) : FileDesc := { f with filePosition := pos }

namespace Tables

variable (t : Tables) (i : Fin numMaxOpenFiles) (f : FileDesc)

@[simp] theorem currentPcbAddr_setFile : currentPcbAddr (t.setFile i f) = currentPcbAddr t := rfl

@[simp] theorem fileArray_setFile :
    (t.setFile i f).fileArray = Function.update t.fileArray i f := by
  unfold Tables.fileArray
  simp only [currentPcbAddr_setFile]
  simp [Tables.setFile]

theorem setFile_setFile (g : FileDesc) : (t.setFile i f).setFile i g = t.setFile i g := by
  unfold Tables.setFile
  simp [currentPcbAddr]

/-- A process control block elsewhere is not touched. -/
theorem pcb_setFile_of_ne {a : UInt32} (ha : a ≠ currentPcbAddr t) :
    (t.setFile i f).pcb a = t.pcb a := by
  simp [Tables.setFile, Function.update_of_ne ha]

/-- Nothing but the descriptors of a process control block changes. -/
theorem pcb_setFile (a : UInt32) :
    ∃ files, (t.setFile i f).pcb a = { t.pcb a with fileArray := files } := by
  by_cases ha : a = currentPcbAddr t
  · subst ha
    exact ⟨_, by simp [Tables.setFile]; rfl⟩
  · exact ⟨(t.pcb a).fileArray, t.pcb_setFile_of_ne i f ha⟩

end Tables

@[simp] theorem getFileArray_bind {α : Type} (f : FileArray → K α) (k : Kernel) :
    (getFileArray >>= f) k = f k.fileArray k := rfl

@[simp] theorem setFile_bind {α : Type} (i : Fin numMaxOpenFiles) (g : FileDesc)
    (f : Unit → K α) (k : Kernel) :
    (setFile i g >>= f) k = f () { k with toTables := k.toTables.setFile i g } := rfl

theorem orUnread_bind_some {α β : Type} (a : α) (f : α → K β) (k : Kernel) :
    (orUnread (some a) >>= f) k = f a k := rfl

theorem orUnread_bind_none {α β : Type} (f : α → K β) (k : Kernel) :
    ((orUnread none : K α) >>= f) k = .error .unread k := rfl

theorem orUnread_eq_ok {α : Type} {o : Option α} {a : α} {k k' : Kernel} :
    orUnread o k = .ok a k' ↔ o = some a ∧ k = k' := by
  cases o with
  | none => simp [orUnread]
  | some b => simp [orUnread]

namespace Platform

variable (P : Platform)

/-! ## open -/

/-- The file types `open` knows. -/
def knownType (ty : UInt32) : Prop := ty = fileTypeRtc ∨ ty = fileTypeDir ∨ ty = fileTypeFile

instance (ty : UInt32) : Decidable (knownType ty) := inferInstanceAs (Decidable (_ ∨ _ ∨ _))

/-- What `file_open` leaves in the slot it takes. -/
def opened (d : Dentry) (old : FileDesc) : FileDesc :=
  if d.filetype = fileTypeFile then
    { fileOpsTablePtr := P.fileOps, inodeNum := d.inodeNum, filePosition := 0,
      flags := fileOccup }
  else if d.filetype = fileTypeDir then
    { fileOpsTablePtr := P.directoryOps, inodeNum := d.inodeNum, filePosition := 0,
      flags := fileOccup }
  else { old with fileOpsTablePtr := P.rtcOps, inodeNum := d.inodeNum }

/-- What `open` finds for a name in a table of descriptors: `none` if the
name cannot be read, `some none` for the result `-1`, else the slot and the entry. -/
def openResult (files : FileArray) (name : CharPtr) :
    Option (Option (Fin numMaxOpenFiles × Dentry)) :=
  match name with
  | none => some none
  | some s =>
    match readDentryByName P.fs (some s) with
    | none => none
    | some none => some none
    | some (some d) =>
      if knownType d.filetype then
        match strlen s with
        | none => none
        | some len =>
          if len ≥ filenameLen then some none
          else some ((firstAvail files).map fun idx => (idx, d))
      else some none

theorem flags_opened (d : Dentry) (old : FileDesc) (h : d.filetype = fileTypeRtc) :
    (P.opened d old).flags = old.flags := by
  unfold opened
  rw [h, if_neg (by decide), if_neg (by decide)]

theorem opened_opened (d : Dentry) (old : FileDesc) :
    P.opened d (P.opened d old) = P.opened d old := by
  unfold opened
  split_ifs <;> rfl

/-- Changing a slot without marking it does not change which slot is found. -/
theorem firstAvail_update {files : FileArray} {i : Fin numMaxOpenFiles} {f : FileDesc}
    (h : f.flags = (files i).flags) : firstAvail (Function.update files i f) = firstAvail files := by
  unfold firstAvail
  congr 1
  funext j
  by_cases hj : j = i
  · subst hj
    simp [h]
  · simp [Function.update_of_ne hj]

/-- A slot is never numbered `-1`. -/
theorem ofNat_slot_ne (idx : Fin numMaxOpenFiles) : (Int32.ofNat idx : Int32) ≠ -1 := by
  revert idx
  decide

/-- `file_open` stops in a name that has no end. -/
theorem fileOpen_unread {s : ℕ → Option UInt8} {k : Kernel} (hlen : strlen s = none) :
    P.fileOpen (some s) k = .error .unread k := by
  unfold fileOpen
  rw [getFileArray_bind]
  simp only [hlen, orUnread_bind_none]

section Name

variable {s : ℕ → Option UInt8} {d : Dentry} {len : ℕ} {k : Kernel}
  (hd : readDentryByName P.fs (some s) = some (some d))

include hd

/-- `file_open` on a name the directory has. -/
theorem fileOpen_some (hlen : strlen s = some len) (hty : knownType d.filetype) :
    match (if len ≥ filenameLen then none else firstAvail k.fileArray) with
    | none => P.fileOpen (some s) k = .ok (-1) k
    | some idx => ∃ k', P.fileOpen (some s) k = .ok (Int32.ofNat idx) k' ∧
        k'.toTables = k.toTables.setFile idx (P.opened d (k.fileArray idx)) ∧
        k'.toScreen = k.toScreen ∧ k'.last = k.last := by
  unfold fileOpen
  rw [getFileArray_bind]
  simp only [hlen, hd, orUnread_bind_some]
  by_cases h : len ≥ filenameLen
  · simp [h]
  · simp only [h, if_false, orUnread_bind_some]
    cases ha : firstAvail k.fileArray with
    | none => rfl
    | some idx =>
      unfold opened
      rcases hty with hr | hr | hr
      · simp only [hr]
        exact ⟨_, rfl, rfl, rfl, rfl⟩
      · simp only [hr]
        exact ⟨_, rfl, rfl, rfl, rfl⟩
      · simp only [hr]
        exact ⟨_, rfl, rfl, rfl, rfl⟩

theorem directoryOpen_some (hr : d.filetype = fileTypeDir) :
    P.directoryOpen (some s) k = P.fileOpen (some s) k := by
  unfold directoryOpen
  rw [hd, orUnread_bind_some]
  simp only [hr, ne_eq, not_true_eq_false, if_false]

/-- `open` on a name the directory has: a clock entry is opened twice. -/
theorem sysOpen_some {filename : UInt32} (hname : P.charPtr k filename = some s)
    (hty : knownType d.filetype) :
    P.sysOpen filename k =
      if d.filetype = fileTypeRtc then
        (do
          let ret ← P.fileOpen (some s)
          if ret = -1 then return -1 else P.fileOpen (some s)) k
      else P.fileOpen (some s) k := by
  unfold sysOpen
  rw [get_bind_run]
  simp only [hname, hd, orUnread_bind_some]
  rcases hty with hr | hr | hr
  · simp only [hr]
    rfl
  · rw [if_pos hr, if_neg (by rw [hr]; decide), P.directoryOpen_some hd hr]
  · simp only [hr]
    rfl

end Name

/-- What `openResult` looked at when it found something. -/
theorem openResult_eq_some {files : FileArray} {name : CharPtr} {idx : Fin numMaxOpenFiles}
    {d : Dentry} (h : P.openResult files name = some (some (idx, d))) :
    ∃ s len, name = some s ∧ readDentryByName P.fs (some s) = some (some d) ∧
      knownType d.filetype ∧ strlen s = some len ∧ len < filenameLen ∧
      firstAvail files = some idx := by
  unfold openResult at h
  cases name with
  | none => simp at h
  | some s =>
    cases hread : readDentryByName P.fs (some s) with
    | none => simp [hread] at h
    | some o =>
      cases o with
      | none => simp [hread] at h
      | some d' =>
        simp only [hread] at h
        by_cases hty : knownType d'.filetype
        · cases hlen : strlen s with
          | none => simp [hty, hlen] at h
          | some len =>
            simp only [hty, if_true, hlen] at h
            by_cases hl : len ≥ filenameLen
            · simp [hl] at h
            · simp only [hl, if_false, Option.some.injEq, Option.map_eq_some_iff] at h
              obtain ⟨idx', hidx, heq⟩ := h
              cases heq
              exact ⟨s, len, rfl, hread, hty, hlen, not_le.1 hl, hidx⟩
        · simp [hty] at h

/-- `open` takes the slot it finds for the entry it finds. -/
theorem sysOpen_found {filename : UInt32} {k : Kernel} {idx : Fin numMaxOpenFiles} {d : Dentry}
    (h : P.openResult k.fileArray (P.charPtr k filename) = some (some (idx, d))) :
    ∃ k', P.sysOpen filename k = .ok (Int32.ofNat idx) k' ∧
      k'.toTables = k.toTables.setFile idx (P.opened d (k.fileArray idx)) ∧
      k'.toScreen = k.toScreen ∧ k'.last = k.last := by
  obtain ⟨s, len, hname, hread, hty, hlen, hl, hidx⟩ := P.openResult_eq_some h
  have hopen := P.fileOpen_some (k := k) hread hlen hty
  simp only [not_le.2 hl, if_false, hidx] at hopen
  obtain ⟨k₁, hk₁, ht₁, hs₁, hl₁⟩ := hopen
  rw [P.sysOpen_some hread hname hty]
  by_cases hr : d.filetype = fileTypeRtc
  · -- the second call finds the slot still unmarked and takes it again
    have hfiles : k₁.fileArray
        = Function.update k.fileArray idx (P.opened d (k.fileArray idx)) := by
      rw [ht₁, Tables.fileArray_setFile]
    have hagain : firstAvail k₁.fileArray = some idx := by
      rw [hfiles, firstAvail_update (P.flags_opened d _ hr), hidx]
    have hopen₂ := P.fileOpen_some (k := k₁) hread hlen hty
    simp only [not_le.2 hl, if_false, hagain] at hopen₂
    obtain ⟨k₂, hk₂, ht₂, hs₂, hl₂⟩ := hopen₂
    refine ⟨k₂, ?_, ?_, hs₂.trans hs₁, hl₂.trans hl₁⟩
    · rw [if_pos hr, bind_of_ok hk₁, if_neg (ofNat_slot_ne idx), hk₂]
    · rw [ht₂, hfiles, ht₁, Tables.setFile_setFile, Function.update_self, opened_opened]
  · exact ⟨k₁, by rw [if_neg hr, hk₁], ht₁, hs₁, hl₁⟩

/-- `open` fails without changing anything. -/
theorem sysOpen_refused {filename : UInt32} {k : Kernel}
    (h : P.openResult k.fileArray (P.charPtr k filename) = some none) :
    P.sysOpen filename k = .ok (-1) k := by
  unfold openResult at h
  cases hname : P.charPtr k filename with
  | none =>
    unfold sysOpen
    rw [get_bind_run, hname]
    rfl
  | some s =>
    simp only [hname] at h
    cases hread : readDentryByName P.fs (some s) with
    | none => simp [hread] at h
    | some o =>
      cases o with
      | none =>
        unfold sysOpen
        rw [get_bind_run, hname, hread]
        rfl
      | some d =>
        simp only [hread] at h
        by_cases hty : knownType d.filetype
        · cases hlen : strlen s with
          | none => simp [hty, hlen] at h
          | some len =>
            simp only [hty, if_true, hlen] at h
            have hnone : (if len ≥ filenameLen then none else firstAvail k.fileArray) = none := by
              by_cases hl : len ≥ filenameLen
              · simp [hl]
              · simpa [hl] using h
            have hopen := P.fileOpen_some (k := k) hread hlen hty
            rw [hnone] at hopen
            rw [P.sysOpen_some hread hname hty]
            by_cases hr : d.filetype = fileTypeRtc
            · rw [if_pos hr, bind_of_ok hopen, if_pos rfl]
              rfl
            · rw [if_neg hr]
              exact hopen
        · unfold sysOpen
          rw [get_bind_run, hname, hread]
          unfold knownType at hty
          push Not at hty
          simp only [orUnread_bind_some, hty, if_false]
          rfl

/-- `open` stops in a name that cannot be read. -/
theorem sysOpen_unread {filename : UInt32} {k : Kernel}
    (h : P.openResult k.fileArray (P.charPtr k filename) = none) :
    P.sysOpen filename k = .error .unread k := by
  unfold openResult at h
  cases hname : P.charPtr k filename with
  | none => simp [hname] at h
  | some s =>
    simp only [hname] at h
    cases hread : readDentryByName P.fs (some s) with
    | none =>
      unfold sysOpen
      rw [get_bind_run, hname, hread]
      rfl
    | some o =>
      cases o with
      | none => simp [hread] at h
      | some d =>
        simp only [hread] at h
        by_cases hty : knownType d.filetype
        · cases hlen : strlen s with
          | none =>
            have hopen : P.fileOpen (some s) k = .error .unread k := P.fileOpen_unread hlen
            rw [P.sysOpen_some hread hname hty]
            by_cases hr : d.filetype = fileTypeRtc
            · rw [if_pos hr, bind_of_error hopen]
            · rw [if_neg hr, hopen]
          | some len =>
            simp only [hty, if_true, hlen] at h
            split at h
            · simp at h
            · simp at h
        · simp [hty] at h

/-- The exits of `open`. -/
theorem sysOpen_cases {filename : UInt32} {k k' : Kernel} {r : Int32}
    (h : P.sysOpen filename k = .ok r k') :
    (P.openResult k.fileArray (P.charPtr k filename) = some none ∧ r = -1 ∧ k' = k) ∨
    ∃ idx d, P.openResult k.fileArray (P.charPtr k filename) = some (some (idx, d)) ∧
      r = Int32.ofNat idx ∧
      k'.toTables = k.toTables.setFile idx (P.opened d (k.fileArray idx)) ∧
      k'.toScreen = k.toScreen := by
  cases hres : P.openResult k.fileArray (P.charPtr k filename) with
  | none =>
    rw [P.sysOpen_unread hres] at h
    cases h
  | some o =>
    cases o with
    | none =>
      rw [P.sysOpen_refused hres] at h
      cases h
      exact Or.inl ⟨rfl, rfl, rfl⟩
    | some p =>
      obtain ⟨k₁, hk₁, ht, hs, -⟩ := P.sysOpen_found hres
      rw [hk₁] at h
      cases h
      exact Or.inr ⟨p.1, p.2, rfl, rfl, ht, hs⟩

/-! ## close, read, write -/

/-- The system calls find an open file behind `fd`. -/
def Opened (files : FileArray) (fd : Int32) : Prop :=
  0 ≤ fd ∧ fd ≤ 7 ∧ (files (slot fd)).flags ≠ fileAvail

instance (files : FileArray) (fd : Int32) : Decidable (Opened files fd) :=
  inferInstanceAs (Decidable (_ ∧ _ ∧ _))

theorem not_opened {files : FileArray} {fd : Int32} (h : ¬Opened files fd) :
    (7 < fd ∨ fd < 0) ∨ ¬(7 < fd ∨ fd < 0) ∧ (files (slot fd)).flags = fileAvail := by
  by_cases hfd : 7 < fd ∨ fd < 0
  · exact Or.inl hfd
  · refine Or.inr ⟨hfd, ?_⟩
    by_contra hflags
    rw [not_or, Int32.not_lt, Int32.not_lt] at hfd
    exact h ⟨hfd.2, hfd.1, hflags⟩

theorem sysRead_rejected {fd : Int32} {k : Kernel} (h : ¬Opened k.fileArray fd) (buf : UInt32)
    (nbytes : Int32) (input : Input) : P.sysRead fd buf nbytes input k = .ok (-1) k := by
  unfold sysRead
  rw [getFileArray_bind]
  rcases not_opened h with hfd | ⟨hfd, hflags⟩
  · rw [if_pos hfd]
    rfl
  · rw [if_neg hfd]
    simp only [hflags, if_true]
    rfl

theorem sysWrite_rejected {fd : Int32} {k : Kernel} (h : ¬Opened k.fileArray fd) (buf : UInt32)
    (nbytes : Int32) : P.sysWrite fd buf nbytes k = .ok (-1) k := by
  unfold sysWrite
  rw [getFileArray_bind]
  rcases not_opened h with hfd | ⟨hfd, hflags⟩
  · rw [if_pos hfd]
    rfl
  · rw [if_neg hfd]
    simp only [hflags, if_true]
    rfl

theorem sysClose_rejected {fd : Int32} {k : Kernel} (h : ¬Opened k.fileArray fd ∨ fd < 2) :
    P.sysClose fd k = .ok (-1) k := by
  unfold sysClose
  rw [getFileArray_bind]
  by_cases hfd : 7 < fd ∨ fd < 2
  · rw [if_pos hfd]
    rfl
  · rw [if_neg hfd]
    rw [not_or] at hfd
    have hflags : (k.fileArray (slot fd)).flags = fileAvail := by
      rcases h with h | h
      · rcases not_opened h with (h7 | h0) | ⟨-, hflags⟩
        · exact absurd h7 hfd.1
        · exact absurd (Int32.lt_trans h0 (by decide)) hfd.2
        · exact hflags
      · exact absurd h hfd.2
    simp only [hflags, if_true]
    rfl

theorem Opened.not_out {files : FileArray} {fd : Int32} (h : Opened files fd) :
    ¬(7 < fd ∨ fd < 0) := by
  rw [not_or, Int32.not_lt, Int32.not_lt]
  exact ⟨h.2.1, h.1⟩

/-- `close` on an open descriptor. -/
theorem sysClose_run {fd : Int32} {k : Kernel} (h : Opened k.fileArray fd) (hfd : 2 ≤ fd) :
    P.sysClose fd k =
      if (k.fileArray (slot fd)).fileOpsTablePtr ∈ [P.fileOps, P.directoryOps] then
        .ok 0 { k with toTables := k.toTables.setFile (slot fd) blank }
      else if (k.fileArray (slot fd)).fileOpsTablePtr ∈ [P.terminalOps, P.rtcOps] then .ok 0 k
      else .error .undefined k := by
  have hops := P.ops_nodup
  have hout : ¬(7 < fd ∨ fd < 2) := by
    rw [not_or, Int32.not_lt, Int32.not_lt]
    exact ⟨h.2.1, hfd⟩
  have hclose : fileClose fd k
      = .ok 0 { k with toTables := k.toTables.setFile (slot fd) blank } := by
    unfold fileClose
    rw [getFileArray_bind, if_neg, if_neg h.2.2]
    · rfl
    · rw [not_or, ge_iff_le, Int32.not_le, Int32.not_lt]
      exact ⟨Int32.lt_of_le_of_lt h.2.1 (by decide), h.1⟩
  unfold sysClose
  rw [getFileArray_bind, if_neg hout]
  simp only [h.2.2, if_false]
  simp only [List.nodup_cons, List.mem_cons, List.not_mem_nil, or_false, not_or] at hops ⊢
  obtain ⟨⟨htf, htd, htr⟩, ⟨hfd', hfr⟩, hdr, -⟩ := hops
  split_ifs with h1 h2 h3 h4 h5 h6 h7 h8 h9
  all_goals first
    | rfl
    | exact hclose
    | simp_all

/-- `close` frees the slot, or does nothing. -/
theorem sysClose_cases {fd r : Int32} {k k' : Kernel} (h : P.sysClose fd k = .ok r k') :
    k' = k ∨ (Opened k.fileArray fd ∧ 2 ≤ fd ∧ k'.toTables = k.toTables.setFile (slot fd) blank) := by
  by_cases hfd : Opened k.fileArray fd ∧ 2 ≤ fd
  · rw [P.sysClose_run hfd.1 hfd.2] at h
    split_ifs at h with h1 h2
    · cases h
      exact Or.inr ⟨hfd.1, hfd.2, rfl⟩
    · cases h
      exact Or.inl rfl
  · rw [not_and_or, Int32.not_le] at hfd
    rw [P.sysClose_rejected hfd] at h
    cases h
    exact Or.inl rfl

/-- `read` on an open descriptor calls through its table. -/
theorem sysRead_run {fd : Int32} {k : Kernel} (h : Opened k.fileArray fd) (buf : UInt32)
    (nbytes : Int32) (input : Input) :
    P.sysRead fd buf nbytes input k =
      (let f := k.fileArray (slot fd)
       if f.fileOpsTablePtr = P.terminalOps then P.terminalRead fd buf nbytes.toUInt32 input
       else if f.fileOpsTablePtr = P.fileOps then P.fileRead fd buf nbytes
       else if f.fileOpsTablePtr = P.directoryOps then P.directoryRead fd buf nbytes
       else if f.fileOpsTablePtr = P.rtcOps then rtcRead fd.toUInt32 buf.toInt32 input
       else throw .undefined : K Int32) k := by
  unfold sysRead
  rw [getFileArray_bind, if_neg h.not_out]
  simp only [h.2.2, if_false]

/-! The tables of functions are four different ones. -/

theorem fileOps_ne_terminalOps : P.fileOps ≠ P.terminalOps := by
  have hops := P.ops_nodup
  simp only [List.nodup_cons, List.mem_cons, not_or] at hops
  exact Ne.symm hops.1.1

theorem directoryOps_ne_terminalOps : P.directoryOps ≠ P.terminalOps := by
  have hops := P.ops_nodup
  simp only [List.nodup_cons, List.mem_cons, not_or] at hops
  exact Ne.symm hops.1.2.1

theorem directoryOps_ne_fileOps : P.directoryOps ≠ P.fileOps := by
  have hops := P.ops_nodup
  simp only [List.nodup_cons, List.mem_cons, not_or] at hops
  exact Ne.symm hops.2.1.1

section Dispatch

variable {fd : Int32} {k : Kernel} (h : Opened k.fileArray fd) (buf : UInt32) (nbytes : Int32)

include h

theorem sysRead_terminal (hops : (k.fileArray (slot fd)).fileOpsTablePtr = P.terminalOps)
    (input : Input) :
    P.sysRead fd buf nbytes input k = P.terminalRead fd buf nbytes.toUInt32 input k := by
  rw [P.sysRead_run h]
  dsimp only
  rw [if_pos hops]

theorem sysRead_file (hops : (k.fileArray (slot fd)).fileOpsTablePtr = P.fileOps)
    (input : Input) : P.sysRead fd buf nbytes input k = P.fileRead fd buf nbytes k := by
  rw [P.sysRead_run h]
  dsimp only
  rw [if_neg (hops.symm ▸ P.fileOps_ne_terminalOps), if_pos hops]

theorem sysRead_directory (hops : (k.fileArray (slot fd)).fileOpsTablePtr = P.directoryOps)
    (input : Input) : P.sysRead fd buf nbytes input k = P.directoryRead fd buf nbytes k := by
  rw [P.sysRead_run h]
  dsimp only
  rw [if_neg (hops.symm ▸ P.directoryOps_ne_terminalOps),
    if_neg (hops.symm ▸ P.directoryOps_ne_fileOps), if_pos hops]

end Dispatch

/-- `write` on an open descriptor calls through its table. -/
theorem sysWrite_run {fd : Int32} {k : Kernel} (h : Opened k.fileArray fd) (buf : UInt32)
    (nbytes : Int32) :
    P.sysWrite fd buf nbytes k =
      (let f := k.fileArray (slot fd)
       if f.fileOpsTablePtr = P.terminalOps then P.terminalWrite fd buf nbytes.toUInt32
       else if f.fileOpsTablePtr = P.fileOps then fileWrite
       else if f.fileOpsTablePtr = P.directoryOps then directoryWrite
       else if f.fileOpsTablePtr = P.rtcOps then P.rtcWrite fd.toUInt32 buf.toInt32
       else throw .undefined : K Int32) k := by
  unfold sysWrite
  rw [getFileArray_bind, if_neg h.not_out]
  simp only [h.2.2, if_false]

/-! ## What the drivers leave alone -/

theorem quiet_getline (buf : UInt32) (max : Int32) (keys : List UInt8) (lp : UInt32) :
    Keeps Quiet (P.getline buf max keys lp) := by
  induction keys generalizing lp with
  | nil => exact keeps_throw _
  | cons key keys ih =>
    unfold getline
    refine keeps_ite ?_ (keeps_ite (keeps_ite ?_ (ih lp)) (keeps_ite ?_ (keeps_ite (ih lp)
      (keeps_ite ?_ (ih lp)))))
    · exact quiet_bind (P.quiet_storeByte lp 0) fun _ =>
        quiet_bind (quiet_putc 0x0A) fun _ => quiet_pure _
    · exact quiet_bind (quiet_putc 0x08) fun _ => ih (lp - 1)
    · exact quiet_bind quiet_clear fun _ => ih buf
    · exact quiet_bind (P.quiet_storeByte lp _) fun _ =>
        quiet_bind (quiet_putc _) fun _ => ih (lp + 1)

theorem quiet_terminalRead (fd : Int32) (buffer numChars : UInt32) (input : Input) :
    Keeps Quiet (P.terminalRead fd buffer numChars input) :=
  keeps_ite (quiet_pure _) (keeps_ite (quiet_pure _) (P.quiet_getline _ _ _ _))

theorem quiet_writeLoop (buffer : UInt32) (n : ℕ) (idx : UInt32) :
    Keeps Quiet (P.writeLoop buffer n idx) := by
  induction n generalizing idx with
  | zero => exact quiet_pure idx
  | succ n ih =>
    refine quiet_bind (P.quiet_loadByte _) fun c => keeps_ite (quiet_pure idx) ?_
    exact quiet_bind (quiet_putc c) fun _ => ih (idx + 1)

theorem quiet_terminalWrite (fd : Int32) (buffer numChars : UInt32) :
    Keeps Quiet (P.terminalWrite fd buffer numChars) := by
  refine keeps_ite (quiet_pure _) (keeps_ite (quiet_pure _) (keeps_ite (quiet_pure _) ?_))
  exact quiet_bind (P.quiet_writeLoop buffer _ 0) fun _ => quiet_pure _

theorem quiet_rtcWrite (buf : UInt32) (nbytes : Int32) : Keeps Quiet (P.rtcWrite buf nbytes) := by
  refine quiet_bind (P.quiet_loadWord buf) fun _ => quiet_bind quiet_get fun k => ?_
  exact quiet_bind (keeps_modify fun _ => rfl) fun _ => quiet_pure _

theorem quiet_rtcRead (buf : UInt32) (nbytes : Int32) (input : Input) :
    Keeps Quiet (rtcRead buf nbytes input) := by
  refine quiet_bind quiet_get fun k => keeps_ite ?_ (keeps_throw _)
  exact quiet_bind (keeps_modify fun _ => rfl) fun _ => quiet_pure _

theorem rtcRead_result {buf : UInt32} {nbytes r : Int32} {input : Input} {k k' : Kernel}
    (h : rtcRead buf nbytes input k = .ok r k') : r = 0 := by
  unfold rtcRead at h
  rw [get_bind_run] at h
  split_ifs at h
  · exact (pure_eq_ok.1 h).1.symm
  · cases h
  · exact (pure_eq_ok.1 h).1.symm
  · cases h

/-- `write` leaves the tables alone. -/
theorem quiet_sysWrite (fd : Int32) (buf : UInt32) (nbytes : Int32) :
    Keeps Quiet (P.sysWrite fd buf nbytes) := by
  intro k r k' h
  by_cases hfd : Opened k.fileArray fd
  · rw [P.sysWrite_run hfd] at h
    dsimp only at h
    split_ifs at h with h1 h2 h3 h4
    · exact P.quiet_terminalWrite _ _ _ h
    · exact quiet_pure _ h
    · exact quiet_pure _ h
    · exact P.quiet_rtcWrite _ _ h
    · cases h
  · rw [P.sysWrite_rejected hfd] at h
    cases h
    exact Quiet.refl k

/-- `file_read` stores what `read_data` delivers and moves the position. -/
theorem fileRead_cases {fd : Int32} {buf : UInt32} {nbytes r : Int32} {k k' : Kernel}
    {f : FileDesc} (hf : k.fileArray (slot fd) = f) (h : P.fileRead fd buf nbytes k = .ok r k') :
    (r = -1 ∧ k' = k ∧ (fd = 1 ∨ fd = 0)) ∨
    ∃ k₁, P.storeBytes buf (readData P.fs f.inodeNum f.filePosition nbytes.toUInt32).2 k
        = .ok () k₁ ∧
      r = (readData P.fs f.inodeNum f.filePosition nbytes.toUInt32).1 ∧
      k' = { k₁ with toTables :=
              k.toTables.setFile (slot fd) (f.moveTo (f.filePosition + r.toUInt32)) } := by
  subst hf
  unfold fileRead at h
  rw [getFileArray_bind] at h
  by_cases hfd : fd = 1 ∨ fd = 0
  · rw [if_pos hfd] at h
    cases h
    exact Or.inl ⟨rfl, rfl, hfd⟩
  · rw [if_neg hfd] at h
    obtain ⟨⟨⟩, k₁, hstore, h⟩ := bind_eq_ok.1 h
    rw [setFile_bind] at h
    obtain ⟨rfl, rfl⟩ := pure_eq_ok.1 h
    have hquiet : k₁.toTables = k.toTables := P.quiet_storeBytes _ _ hstore
    refine Or.inr ⟨k₁, hstore, rfl, ?_⟩
    rw [hquiet]
    rfl

/-- `directory_read` moves the position by one and stores the entry's name, or finds
no entry. -/
theorem directoryRead_cases {fd : Int32} {buf : UInt32} {nbytes r : Int32} {k k' : Kernel}
    {f : FileDesc} (hf : k.fileArray (slot fd) = f)
    (h : P.directoryRead fd buf nbytes k = .ok r k') :
    (r = -1 ∧ k' = k ∧ readDentryByIndex P.fs f.filePosition = none) ∨
    ∃ d, readDentryByIndex P.fs f.filePosition = some d ∧
      r = Int32.ofNat (entryName d).length ∧
      P.storeBytes buf (entryName d ++ [0])
        { k with toTables := k.toTables.setFile (slot fd) (f.moveTo (f.filePosition + 1)) }
          = .ok () k' := by
  subst hf
  unfold directoryRead at h
  rw [getFileArray_bind] at h
  cases hd : readDentryByIndex P.fs (k.fileArray (slot fd)).filePosition with
  | none =>
    simp only [hd] at h
    cases h
    exact Or.inl ⟨rfl, rfl, rfl⟩
  | some newDirent =>
    simp only [hd] at h
    rw [setFile_bind] at h
    obtain ⟨⟨⟩, k₁, hstore, h⟩ := bind_eq_ok.1 h
    obtain ⟨rfl, rfl⟩ := pure_eq_ok.1 h
    exact Or.inr ⟨newDirent, rfl, rfl, hstore⟩

/-- `read` moves the position of the descriptor it reads and changes nothing else
in the tables. -/
theorem sysRead_tables {fd : Int32} {buf : UInt32} {nbytes r : Int32} {input : Input}
    {k k' : Kernel} (h : P.sysRead fd buf nbytes input k = .ok r k') :
    k'.toTables = k.toTables ∨
    Opened k.fileArray fd ∧ ∃ pos, k'.toTables
      = k.toTables.setFile (slot fd) ((k.fileArray (slot fd)).moveTo pos) := by
  by_cases hfd : Opened k.fileArray fd
  · rw [P.sysRead_run hfd] at h
    dsimp only at h
    split_ifs at h with h1 h2 h3 h4
    · exact Or.inl (P.quiet_terminalRead _ _ _ _ h)
    · rcases P.fileRead_cases rfl h with ⟨-, rfl, -⟩ | ⟨k₁, -, -, rfl⟩
      · exact Or.inl rfl
      · exact Or.inr ⟨hfd, _, rfl⟩
    · rcases P.directoryRead_cases rfl h with ⟨-, rfl, -⟩ | ⟨d, -, -, hstore⟩
      · exact Or.inl rfl
      · exact Or.inr ⟨hfd, _, P.quiet_storeBytes _ _ hstore⟩
    · exact Or.inl (quiet_rtcRead _ _ _ h)
    · cases h
  · rw [P.sysRead_rejected hfd] at h
    cases h
    exact Or.inl rfl

end Platform

end CheetOS
