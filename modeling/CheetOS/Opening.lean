import CheetOS.Names
import CheetOS.ReadData

/-!
# What open makes of a name

`open` on every string a program can pass, not only on the names the directory lists.

* `findDentry_missing` and `findDentry_ok` complete the look-up: it finds nothing where no
  entry has the name, and a string can always be compared;
* `Openable` is when a descriptor is due, `openResult_openable` and `openResult_not` say
  that `open` decides so;
* `open_resolves` — `open` returns a descriptor exactly then, for the first entry with
  the name, and otherwise changes no descriptor.
-/

namespace CheetOS

open Exec

/-! ## Looking up any string -/

/-- A string can always be compared with a name field. -/
theorem strncmpFrom_ok {s : ℕ → Option UInt8} (field : ℕ → UInt8) {n i : ℕ} {l : List UInt8}
    (h : Holds (fun j => s (i + j)) l) : ∃ r, strncmpFrom s field n i = some r := by
  induction n generalizing i l with
  | zero => exact ⟨0, rfl⟩
  | succ n ih =>
    rw [strncmpFrom]
    cases l with
    | nil =>
      have hstop : s i = some 0 := h.stop
      simp only [hstop, or_true, if_true]
      exact ⟨_, rfl⟩
    | cons c l =>
      obtain ⟨hc, -, hrest⟩ := holds_index_cons h
      simp only [hc]
      split_ifs
      · exact ⟨_, rfl⟩
      · exact ih hrest

theorem findDentry_ok (fs : Image) {s : ℕ → Option UInt8} {l : List UInt8} (h : Holds s l)
    (n : ℕ) (index : UInt32) : ∃ found, findDentry fs s n index = some found := by
  induction n generalizing index with
  | zero => exact ⟨none, rfl⟩
  | succ n ih =>
    have hstart : Holds (fun j => s (0 + j)) l := by
      simp only [Nat.zero_add]
      exact h
    obtain ⟨r, hr⟩ := strncmpFrom_ok (direntry fs index).filename (n := filenameLen) hstart
    have hcmp : strncmp s (direntry fs index).filename filenameLen = some r := hr
    rw [findDentry]
    simp only [hcmp]
    split_ifs
    · exact ⟨_, rfl⟩
    · exact ih (index + 1)

/-- The look-up finds nothing where no entry has the name. -/
theorem findDentry_missing {fs : Image} {s : ℕ → Option UInt8} {l : List UInt8} (h : Holds s l)
    (hlen : l.length ≤ filenameLen) {start n : ℕ}
    (hnone : ∀ j, start ≤ j → j < start + n →
      Platform.entryName (direntry fs (UInt32.ofNat j)) ≠ l) :
    findDentry fs s n (UInt32.ofNat start) = some none := by
  induction n generalizing start with
  | zero => rfl
  | succ n ih =>
    obtain ⟨r, hr, hiff⟩ := strncmp_holds (d := direntry fs (UInt32.ofNat start)) h hlen
    have hne : r ≠ 0 := fun h0 => hnone start (le_refl _) (by omega) (hiff.1 h0)
    have hnext : UInt32.ofNat start + 1 = UInt32.ofNat (start + 1) := by
      rw [UInt32.ofNat_add]
      rfl
    rw [findDentry]
    simp only [hr]
    rw [if_neg hne, hnext]
    exact ih fun j hj hj' => hnone j (by omega) (by omega)

/-- The first entry with a name. -/
def FirstNamed (fs : Image) (name : List UInt8) (d : Dentry) : Prop :=
  ∃ idx, Listed fs idx d ∧ Platform.entryName d = name

/-- Some entry has the name, or none. -/
theorem firstNamed_or (fs : Image) {name : List UInt8} (hne : name ≠ []) :
    (∃ d, FirstNamed fs name d) ∨
      ∀ j < numFiles, Platform.entryName (direntry fs (UInt32.ofNat j)) ≠ name := by
  by_cases h : ∃ j, j < numFiles ∧ Platform.entryName (direntry fs (UInt32.ofNat j)) = name
  · obtain ⟨idx, ⟨hidx, hname⟩, hfirst⟩ := exists_first h
    refine Or.inl ⟨_, idx, ⟨hidx, rfl, hname ▸ hne, fun j hj heq => ?_⟩, hname⟩
    exact hfirst j hj ⟨hj.trans hidx, heq.trans hname⟩
  · push Not at h
    exact Or.inr h

theorem FirstNamed.inj {fs : Image} {name : List UInt8} {d d' : Dentry}
    (h : FirstNamed fs name d) (h' : FirstNamed fs name d') : d = d' := by
  obtain ⟨idx, hd, rfl⟩ := h
  obtain ⟨idx', hd', heq⟩ := h'
  have hidx : idx = idx' := by
    rcases Nat.lt_trichotomy idx idx' with hlt | rfl | hlt
    · exact absurd (hd.entry ▸ heq.symm) (hd'.first idx hlt)
    · rfl
    · exact absurd (hd'.entry ▸ heq) (hd.first idx' hlt)
  rw [hd.entry, hd'.entry, hidx]

namespace Platform

variable (P : Platform)

/-- A descriptor is due for a name: the name is not empty and leaves room for a zero, the
first entry with it is `d` and has a type that can be opened, and a slot is free. -/
structure Openable (name : List UInt8) (files : FileArray) (d : Dentry) : Prop where
  length : 1 ≤ name.length ∧ name.length ≤ 31
  first : FirstNamed P.fs name d
  type : knownType d.filetype
  free : ∃ i : Fin numMaxOpenFiles, 2 ≤ i.val ∧ (files i).flags = fileAvail

variable {P}

theorem openResult_openable {name : List UInt8} {files : FileArray} {d : Dentry}
    (h : P.Openable name files d) {s : ℕ → Option UInt8} (hs : Holds s name) :
    ∃ i, firstAvail files = some i ∧ P.openResult files (some s) = some (some (i, d)) := by
  obtain ⟨idx, hd, rfl⟩ := h.first
  obtain ⟨i, hi⟩ := firstAvail_isSome h.free
  have hshort : ¬(entryName d).length ≥ filenameLen := not_le.2 (Nat.lt_succ_of_le h.length.2)
  refine ⟨i, hi, ?_⟩
  rw [openResult_listed hd h.type hs, if_neg hshort, hi]
  rfl

/-- A slot is free if one is found. -/
theorem firstAvail_free {files : FileArray} {i : Fin numMaxOpenFiles}
    (h : firstAvail files = some i) :
    ∃ i : Fin numMaxOpenFiles, 2 ≤ i.val ∧ (files i).flags = fileAvail :=
  ⟨i, (firstAvail_spec h).1, (firstAvail_spec h).2.1⟩

/-- A name that is too long is refused, whatever the look-up finds for it. -/
theorem openResult_long {name : List UInt8} {s : ℕ → Option UInt8} (hs : Holds s name)
    (haddr : name.length < addressSpace) (hlen : 31 < name.length) (files : FileArray) :
    P.openResult files (some s) = some none := by
  obtain ⟨c, l, rfl⟩ :=
    List.exists_cons_of_ne_nil (List.ne_nil_of_length_pos (Nat.zero_lt_of_lt hlen))
  obtain ⟨hc, hne, -⟩ := holds_cons.1 hs
  have hstrlen : strlen s = some (c :: l).length := by
    unfold strlen
    rw [cstr_eq_some.2 ⟨haddr, hs⟩]
    rfl
  obtain ⟨found, hfound⟩ := findDentry_ok P.fs hs numFiles 0
  have hlong : (c :: l).length ≥ filenameLen := hlen
  unfold openResult readDentryByName
  simp only [hc, if_neg hne, hfound]
  cases found with
  | none => rfl
  | some d =>
    dsimp only
    split_ifs
    · simp only [hstrlen, if_pos hlong]
    · rfl

/-- Where no descriptor is due the name is refused. -/
theorem openResult_not {name : List UInt8} {s : ℕ → Option UInt8} (hs : Holds s name)
    (haddr : name.length < addressSpace) {files : FileArray}
    (h : ∀ d, ¬P.Openable name files d) : P.openResult files (some s) = some none := by
  by_cases hlong : 31 < name.length
  · exact openResult_long hs haddr hlong files
  rw [not_lt] at hlong
  cases name with
  | nil =>
    have hstop : s 0 = some 0 := hs.stop
    unfold openResult readDentryByName
    simp only [hstop, if_true]
  | cons c l =>
    obtain ⟨hc, hne, -⟩ := holds_cons.1 hs
    rcases firstNamed_or P.fs (List.cons_ne_nil c l) with ⟨d, hfirst⟩ | hnone
    · obtain ⟨idx, hd, hname⟩ := hfirst
      have hread := hd.readDentryByName_eq (hname.symm ▸ hs)
      by_cases hty : knownType d.filetype
      · rw [openResult_listed hd hty (hname.symm ▸ hs)]
        split_ifs
        · rfl
        · -- only a free slot can be missing
          cases hi : firstAvail files with
          | none => rfl
          | some i =>
            exact absurd ⟨⟨Nat.succ_pos _, hlong⟩, ⟨idx, hd, hname⟩, hty, firstAvail_free hi⟩ (h d)
      · unfold openResult
        simp only [hread, if_neg hty]
    · have hmissing := findDentry_missing (n := numFiles) hs (Nat.le_succ_of_le hlong)
        fun j (_ : 0 ≤ j) hj => hnone j (by omega)
      have hzero : UInt32.ofNat 0 = 0 := rfl
      rw [hzero] at hmissing
      unfold openResult readDentryByName
      simp only [hc, if_neg hne, hmissing]

theorem toUInt32_neg_one_ne (i : Fin numMaxOpenFiles) :
    (-1 : Int32).toUInt32 ≠ UInt32.ofNat i.val := by
  revert i
  decide

theorem ofNat_slot_inj {i j : Fin numMaxOpenFiles} (h : UInt32.ofNat i.val = UInt32.ofNat j.val) :
    i = j := by
  revert i j
  decide

/-- **`open` resolves names exactly.**  For every string: it returns a descriptor if and
only if the name has 1 to 31 characters, the first of the 63 entries with exactly that name
is a clock, a directory or a regular file, and a slot is free.  The slot was free and then
carries the inode number and the operations of that entry; otherwise the result is `-1` and
the descriptors are as before. -/
theorem open_resolves (P : Platform) {m : Machine} {regs : Regs} {p : UInt32} {name : List UInt8}
    (hm : P.Reachable m) (hlive : m.frames ≠ []) (h0 : 0 < regs.depth)
    (hroom : regs.depth ≤ stackRoom) (hstring : cstr (P.bytesAt m.kernel p) = some name) :
    ∃ m', P.step m (.call (.plain (.open p)) regs) = some m' ∧
      ((∃ i : Fin numMaxOpenFiles, m'.eax = UInt32.ofNat i) ↔ ∃ d, P.Openable name m.files d) ∧
      (∀ i : Fin numMaxOpenFiles, m'.eax = UInt32.ofNat i →
        2 ≤ i.val ∧ (m.files i).flags = fileAvail ∧
          ∀ d, FirstNamed P.fs name d → P.BoundTo d (m'.files i)) ∧
      ((¬∃ d, P.Openable name m.files d) →
        m'.eax = (-1 : Int32).toUInt32 ∧ m'.files = m.files) := by
  have hrunning := running_reachable hm hlive
  have hfiles := hrunning.fileArray_enter h0 hroom
  obtain ⟨haddr, hholds⟩ := cstr_eq_some.1 hstring
  have hspace := space_enter hm regs
  have hholds' : Holds (P.bytesAt (m.enter regs) p) name := hholds
  have hptr : P.charPtr (m.enter regs) p = some (P.bytesAt (m.enter regs) p) := by
    rw [charPtr, if_neg (ne_zero_of_holds hspace hholds')]
  by_cases hdue : ∃ d, P.Openable name m.files d
  · obtain ⟨d, hd⟩ := hdue
    obtain ⟨i, hi, hresult⟩ := openResult_openable hd hholds'
    rw [← hfiles, ← hptr] at hresult
    obtain ⟨k', hcall, htables, -⟩ := P.sysOpen_found hresult
    have heax : (Int32.ofNat i.val).toUInt32 = UInt32.ofNat i.val := Int32.toUInt32_ofNat'
    refine ⟨_, P.step_of_plain hrunning.live h0 hroom hcall,
      ⟨fun _ => ⟨d, hd⟩, fun _ => ⟨i, heax⟩⟩, fun j hj => ?_, fun hnot => absurd ⟨d, hd⟩ hnot⟩
    obtain rfl := ofNat_slot_inj (heax.symm.trans hj)
    obtain ⟨htwo, havail, -⟩ := firstAvail_spec hi
    refine ⟨htwo, havail, fun d' hd' => ?_⟩
    obtain rfl := hd'.inj hd.first
    rw [hrunning.files_setFile h0 hroom htables, Function.update_self]
    exact boundTo_opened d' _
  · have hresult : P.openResult m.files (some (P.bytesAt (m.enter regs) p)) = some none :=
      openResult_not hholds' haddr (not_exists.1 hdue)
    rw [← hfiles, ← hptr] at hresult
    have hcall : P.plain (.open p) (m.enter regs) = .ok (-1) (m.enter regs) :=
      P.sysOpen_refused hresult
    refine ⟨_, P.step_of_plain hrunning.live h0 hroom hcall, ⟨?_, fun h => absurd h hdue⟩, ?_,
      fun _ => ⟨rfl, files_same rfl⟩⟩
    · rintro ⟨i, hi⟩
      exact absurd hi (toUInt32_neg_one_ne i)
    · exact fun i hi => absurd hi (toUInt32_neg_one_ne i)

/-- The shell opens its own file. -/
theorem open_resolves_sh :
    ∃ m m', Run.run samplePlatform.step sampleBoot
        [.call (.execute 0x500000) ⟨64, 0x7FFFF0⟩] = some m ∧
      samplePlatform.step m (.call (.plain (.open 0x500100)) ⟨64, 0⟩) = some m' ∧
      ∃ i : Fin numMaxOpenFiles, m'.eax = UInt32.ofNat i := by
  have hrun : (Run.run samplePlatform.step sampleBoot
      [.call (.execute 0x500000) ⟨64, 0x7FFFF0⟩]).any (fun m : Machine => decide (m.frames ≠ []) &&
        decide (cstr (samplePlatform.bytesAt m.kernel 0x500100) = some "sh".toUTF8.toList) &&
        decide ((m.files 2).flags = fileAvail)) = true := by
    decide +kernel
  simp only [Option.any_eq_true, Bool.and_eq_true, decide_eq_true_eq] at hrun
  obtain ⟨m, hm, ⟨hlive, hstring⟩, hfree⟩ := hrun
  have hlisted : Listed samplePlatform.fs 2 (direntry sampleImage 2) :=
    ⟨by decide, rfl, by decide +kernel, by decide +kernel⟩
  obtain ⟨m', hstep, hiff, -⟩ := open_resolves samplePlatform ⟨_, _, boot_bootMachine _ _, hm⟩
    hlive (show 0 < (⟨64, 0⟩ : Regs).depth by decide) (by decide) hstring
  exact ⟨m, m', hm, hstep, hiff.2 ⟨direntry sampleImage 2,
    ⟨by decide +kernel, ⟨2, hlisted, by decide +kernel⟩, by decide +kernel, 2, by decide, hfree⟩⟩⟩

end Platform

end CheetOS
