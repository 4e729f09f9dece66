import Mathlib

/-!
# The keyboard (`keyboard.c`)

`handle_charpress` runs in the keyboard interrupt and leaves the code of a key in
`pushed_key`; `getchar` polls `pushed_key`, and tests, reads and clears it in
separate steps.  An interrupt can come between any two of them.

* `charpress_lt` — a key code is below `0x80`, so `getchar` never drops one.
* `Patient` — every key comes when `pushed_key` is empty.
* `Delivered` — what holds in every state of a patient run: the characters
  returned, the one on its way and the one still in `pushed_key` are the keys
  produced, in order.
* `keys_delivered_iff` — `getchar` returns the keys as they were produced, now and
  from then on, exactly when the run is patient.
-/

namespace CheetOS

/-! ## `handle_charpress` -/

/-- The file-level variables of `keyboard.c`; the `_stat` flags are 0 or 1. -/
structure Keyboard where
  ctrlStat : Bool
  shiftStat : Bool
  altStat : Bool
  capsStat : Bool
  /-- `pushed_key`: 0 when no key waits. -/
  pushedKey : UInt16
  deriving DecidableEq, Repr

/-- `NUM_CHAR_HANDLE`. -/
abbrev numCharHandle : UInt8 := 58

/-- `CTRL`. -/
abbrev keyCtrl : UInt8 := 0x1D

/-- `SHIFT_LEFT`. -/
abbrev keyShiftLeft : UInt8 := 0x2A

/-- `SHIFT_RIGHT`. -/
abbrev keyShiftRight : UInt8 := 0x36

/-- `ALT`. -/
abbrev keyAlt : UInt8 := 0x38

/-- `CAPS`. -/
abbrev keyCaps : UInt8 := 0x3A

/-- `BACKSPACE`. -/
abbrev keyBackspace : UInt8 := 0x0E

/-- `KEY_L`. -/
abbrev keyL : UInt8 := 0x26

/-- `KEY_ENTER`. -/
abbrev keyEnter : UInt8 := 0x1C

/-- `PR_CONVER`. -/
abbrev prConver : UInt8 := 0x80

/-- `CAPS_CONVER`. -/
abbrev capsConver : UInt8 := 0x20

/-- `scan2ascii`: the plain and the shifted character of a scan code. -/
def scan2ascii : List (UInt8 × UInt8) :=
  [(0, 0), (27, 27), (0x31, 0x21), (0x32, 0x40), (0x33, 0x23), (0x34, 0x24), (0x35, 0x25),
    (0x36, 0x5E),
   (0x37, 0x26), (0x38, 0x2A), (0x39, 0x28), (0x30, 0x29), (0x2D, 0x5F), (0x3D, 0x2B), (8, 8),
    (9, 9),
   (0x71, 0x51), (0x77, 0x57), (0x65, 0x45), (0x72, 0x52), (0x74, 0x54), (0x79, 0x59),
    (0x75, 0x55), (0x69, 0x49),
   (0x6F, 0x4F), (0x70, 0x50), (0x5B, 0x7B), (0x5D, 0x7D), (13, 13), (0, 0), (0x61, 0x41),
    (0x73, 0x53),
   (0x64, 0x44), (0x66, 0x46), (0x67, 0x47), (0x68, 0x48), (0x6A, 0x4A), (0x6B, 0x4B),
    (0x6C, 0x4C), (0x3B, 0x3A),
   (39, 34), (0x60, 0x7E), (0, 0), (0x5C, 0x7C), (0x7A, 0x5A), (0x78, 0x58), (0x63, 0x43),
    (0x76, 0x56),
   (0x62, 0x42), (0x6E, 0x4E), (0x6D, 0x4D), (0x2C, 0x3C), (0x2E, 0x3E), (0x2F, 0x3F), (0, 0),
    (0, 0),
   (0, 0), (0x20, 0x20)]

/-- `scan2ascii[scancode][shift]`. -/
def scanAscii (scancode : UInt8) (shift : Bool) : UInt8 :=
  let chars := scan2ascii.getD scancode.toNat (0, 0)
  if shift then chars.2 else chars.1

namespace Keyboard

/-- The character of a key, with shift and caps lock. -/
def regularKey (kb : Keyboard) (scancode : UInt8) : UInt8 :=
  let keycode := scanAscii scancode kb.shiftStat
  if kb.capsStat then
    if 0x61 ≤ keycode ∧ keycode ≤ 0x7A then keycode - capsConver
    else if 0x41 ≤ keycode ∧ keycode ≤ 0x5A then keycode + capsConver
    else keycode
  else keycode

/-- The `default` case of the `switch`: the key code, 0 also where the function
returns at once. -/
def defaultKey (kb : Keyboard) (scancode : UInt8) : UInt8 :=
  if kb.altStat ∧ scancode ≠ keyBackspace then 0
  else
    let keycode : UInt8 := if kb.altStat then 0x08 else 0
    if scancode < numCharHandle then
      if kb.ctrlStat then
        if scancode = keyBackspace then kb.regularKey scancode
        else if scancode = keyEnter then kb.regularKey scancode
        else if scancode = keyL then
          let keycode := scanAscii scancode false
          if 0x61 ≤ keycode ∧ keycode ≤ 0x7A then keycode - 0x61 + 1
          else kb.regularKey scancode
        else 0
      else kb.regularKey scancode
    else keycode

/-- The `switch` of `handle_charpress`: the key code it ends with and the state of the
special keys. -/
def charpress (kb : Keyboard) (scancode : UInt8) : UInt8 × Keyboard :=
  if scancode = keyCtrl then (0, { kb with ctrlStat := true })
  else if scancode = keyCtrl + prConver then (0, { kb with ctrlStat := false })
  else if scancode = keyShiftLeft ∨ scancode = keyShiftRight then
    (0, { kb with shiftStat := true })
  else if scancode = keyShiftLeft + prConver ∨ scancode = keyShiftRight + prConver then
    (0, { kb with shiftStat := false })
  else if scancode = keyAlt then (0, { kb with altStat := true })
  else if scancode = keyAlt + prConver then (0, { kb with altStat := false })
  else if scancode = keyCaps then (0, { kb with capsStat := !kb.capsStat })
  else if scancode = keyCaps + prConver then (0, kb)
  else (kb.defaultKey scancode, kb)

/-- `handle_charpress`, on the scan code read from the data port. -/
def handleCharpress (kb : Keyboard) (scancode : UInt8) : Keyboard :=
  let (keycode, kb) := kb.charpress scancode
  if keycode ≠ 0 then { kb with pushedKey := keycode.toUInt16 } else kb

end Keyboard

theorem scanAscii_lt (scancode : UInt8) (shift : Bool) : scanAscii scancode shift < 0x80 := by
  have hall : ∀ chars ∈ scan2ascii, chars.1 < 0x80 ∧ chars.2 < 0x80 := by
    simp [scan2ascii]
  have hget : (scan2ascii.getD scancode.toNat (0, 0)).1 < 0x80
      ∧ (scan2ascii.getD scancode.toNat (0, 0)).2 < 0x80 := by
    rw [List.getD_eq_getElem?_getD]
    cases hchars : scan2ascii[scancode.toNat]? with
    | none => decide
    | some chars => exact hall chars (List.mem_of_getElem? hchars)
  rw [scanAscii]
  split
  · exact hget.2
  · exact hget.1

namespace Keyboard

theorem regularKey_lt (kb : Keyboard) (scancode : UInt8) : kb.regularKey scancode < 0x80 := by
  have hlt := scanAscii_lt scancode kb.shiftStat
  unfold regularKey
  grind

theorem defaultKey_lt (kb : Keyboard) (scancode : UInt8) : kb.defaultKey scancode < 0x80 := by
  have hlt := kb.regularKey_lt scancode
  unfold defaultKey
  grind

/-- A key code is an ASCII code. -/
theorem charpress_lt (kb : Keyboard) (scancode : UInt8) : (kb.charpress scancode).1 < 0x80 := by
  have hlt := kb.defaultKey_lt scancode
  unfold charpress
  grind

end Keyboard

/-! ## `getchar` between interrupts -/

/-- Where `getchar` is. -/
inductive Pc
  /-- No call is running. -/
  | idle
  /-- `while (!pushed_key) ;` -/
  | wait
  /-- `if (pushed_key < PR_CONVER)` -/
  | compare
  /-- `key = (char)pushed_key;` -/
  | fetch
  /-- `pushed_key = 0;`, with the local `key`. -/
  | clear (key : UInt8)
  /-- `return key;` -/
  | ret (key : UInt8)
  /-- `pushed_key = 0;` of a key that is not returned. -/
  | drop
  deriving DecidableEq, Repr

/-- The keyboard and its reader, with the history of the run. -/
structure Polling where
  kb : Keyboard
  pc : Pc
  /-- How often `getchar` was called. -/
  calls : ℕ
  /-- The characters it returned. -/
  returned : List UInt8
  /-- The non-zero key codes `handle_charpress` produced. -/
  produced : List UInt8
  deriving DecidableEq, Repr

/-- A keyboard interrupt, or one step of the reader: of the running `getchar`, or the
next call of it. -/
inductive PollEvent
  | interrupt (scancode : UInt8)
  | reader
  deriving DecidableEq, Repr

namespace Polling

/-- One step of the reader. -/
def reader (s : Polling) : Polling :=
  match s.pc with
  | .idle => { s with pc := .wait, calls := s.calls + 1 }
  | .wait => if s.kb.pushedKey = 0 then s else { s with pc := .compare }
  | .compare => { s with pc := if s.kb.pushedKey < 0x80 then .fetch else .drop }
  | .fetch => { s with pc := .clear s.kb.pushedKey.toUInt8 }
  | .clear key => { s with pc := .ret key, kb := { s.kb with pushedKey := 0 } }
  | .ret key => { s with pc := .idle, returned := s.returned ++ [key] }
  | .drop => { s with pc := .wait, kb := { s.kb with pushedKey := 0 } }

/-- The key code an interrupt produces, if any. -/
def keyOf (s : Polling) (scancode : UInt8) : List UInt8 :=
  let keycode := (s.kb.charpress scancode).1
  if keycode = 0 then [] else [keycode]

/-- A keyboard interrupt. -/
def interrupt (s : Polling) (scancode : UInt8) : Polling :=
  { s with
    kb := s.kb.handleCharpress scancode
    produced := s.produced ++ s.keyOf scancode }

def step (s : Polling) : PollEvent → Polling
  | .interrupt scancode => s.interrupt scancode
  | .reader => s.reader

/-- A run. -/
def after (s : Polling) (es : List PollEvent) : Polling := es.foldl step s

/-- The state the kernel starts in. -/
def start : Polling where
  kb := { ctrlStat := false, shiftStat := false, altStat := false, capsStat := false,
          pushedKey := 0 }
  pc := .idle
  calls := 0
  returned := []
  produced := []

/-- No character is on its way: `getchar` is not running, or waits for a key. -/
def AtRest (s : Polling) : Prop := s.pc = .idle ∨ (s.pc = .wait ∧ s.kb.pushedKey = 0)

/-- The characters returned are the first of the keys produced, and all of them once
`getchar` was called as often and is at rest. -/
def Faithful (s : Polling) : Prop :=
  s.returned <+: s.produced ∧
    (s.produced.length ≤ s.calls → s.AtRest → s.returned = s.produced)

/-- Each interrupt that produces a key comes when `pushed_key` is empty. -/
def Patient (s : Polling) : List PollEvent → Prop
  | [] => True
  | e :: es =>
    (match e with
      | .interrupt scancode => s.keyOf scancode ≠ [] → s.kb.pushedKey = 0
      | .reader => True) ∧ Patient (s.step e) es

/-! ## What every run keeps -/

/-- The key in `pushed_key`. -/
def pending (s : Polling) : List UInt8 :=
  if s.kb.pushedKey = 0 then [] else [s.kb.pushedKey.toUInt8]

/-- The key `getchar` is about to return. -/
def returning (s : Polling) : List UInt8 :=
  match s.pc with
  | .ret key => [key]
  | _ => []

/-- What the polling loop knows at each of its steps, whatever interrupts it. -/
structure Polls (s : Polling) : Prop where
  ascii : s.kb.pushedKey < 0x80
  full : s.pc = .compare ∨ s.pc = .fetch ∨ (∃ key, s.pc = .clear key) → s.kb.pushedKey ≠ 0
  not_drop : s.pc ≠ .drop
  calls_eq : s.calls = s.returned.length + if s.pc = .idle then 0 else 1

theorem charpress_pushedKey (kb : Keyboard) (scancode : UInt8) :
    (kb.charpress scancode).2.pushedKey = kb.pushedKey := by
  unfold Keyboard.charpress
  grind

theorem pushedKey_of_none {s : Polling} {scancode : UInt8} (h : s.keyOf scancode = []) :
    (s.interrupt scancode).kb.pushedKey = s.kb.pushedKey := by
  have hzero : (s.kb.charpress scancode).1 = 0 := by simpa [keyOf] using h
  simp [interrupt, Keyboard.handleCharpress, hzero, charpress_pushedKey]

/-- A key replaces what `pushed_key` held. -/
theorem pushedKey_of_key {s : Polling} {scancode : UInt8} (h : s.keyOf scancode ≠ []) :
    (s.interrupt scancode).kb.pushedKey < 0x80 ∧ (s.interrupt scancode).kb.pushedKey ≠ 0 ∧
      (s.interrupt scancode).pending = s.keyOf scancode := by
  have hkey : (s.kb.charpress scancode).1 ≠ 0 := by simpa [keyOf] using h
  have hlt := s.kb.charpress_lt scancode
  have hpushed : (s.interrupt scancode).kb.pushedKey = (s.kb.charpress scancode).1.toUInt16 := by
    simp [interrupt, Keyboard.handleCharpress, hkey]
  have hne : (s.kb.charpress scancode).1.toUInt16 ≠ 0 := by
    intro heq
    exact hkey (by simpa using congrArg UInt16.toUInt8 heq)
  refine ⟨?_, ?_, ?_⟩
  · rw [hpushed, UInt16.lt_iff_toNat_lt]
    exact UInt8.lt_iff_toNat_lt.1 hlt
  · rw [hpushed]
    exact hne
  · rw [pending, hpushed, if_neg hne, keyOf, if_neg hkey]
    simp

theorem Polls.interrupt {s : Polling} (h : s.Polls) (scancode : UInt8) :
    (s.interrupt scancode).Polls := by
  by_cases hkey : s.keyOf scancode = []
  · have hpushed := pushedKey_of_none hkey
    refine ⟨?_, ?_, h.not_drop, h.calls_eq⟩
    · rw [hpushed]
      exact h.ascii
    · intro hpc
      rw [hpushed]
      exact h.full hpc
  · obtain ⟨hlt, hne, -⟩ := pushedKey_of_key hkey
    exact ⟨hlt, fun _ => hne, h.not_drop, h.calls_eq⟩

theorem Polls.reader {s : Polling} (h : s.Polls) : s.reader.Polls := by
  obtain ⟨hascii, hfull, hdrop, hcalls⟩ := h
  unfold Polling.reader
  cases hpc : s.pc with
  | idle => exact ⟨hascii, by simp, by simp, by simpa [hpc] using hcalls⟩
  | wait =>
    simp only
    split
    · exact ⟨hascii, hfull, hdrop, hcalls⟩
    · rename_i hne
      exact ⟨hascii, fun _ => hne, by simp, by simpa [hpc] using hcalls⟩
  | compare =>
    have hne := hfull (.inl hpc)
    rw [if_pos hascii]
    exact ⟨hascii, fun _ => hne, by simp, by simpa [hpc] using hcalls⟩
  | fetch =>
    have hne := hfull (.inr (.inl hpc))
    exact ⟨hascii, fun _ => hne, by simp, by simpa [hpc] using hcalls⟩
  | clear key =>
    have hlt : (0 : UInt16) < 0x80 := by decide
    exact ⟨hlt, by simp, by simp, by simpa [hpc] using hcalls⟩
  | ret key => exact ⟨hascii, by simp, by simp, by simpa [hpc] using hcalls⟩
  | drop => exact absurd hpc hdrop

theorem Polls.step {s : Polling} (h : s.Polls) (e : PollEvent) : (s.step e).Polls := by
  cases e with
  | interrupt scancode => exact h.interrupt scancode
  | reader => exact h.reader

theorem polls_start : start.Polls where
  ascii := by decide
  full := by simp [start]
  not_drop := by decide
  calls_eq := rfl

theorem Polls.after {s : Polling} (h : s.Polls) (es : List PollEvent) : (s.after es).Polls := by
  induction es generalizing s with
  | nil => exact h
  | cons e es ih => exact ih (h.step e)

/-! ## Patient runs -/

/-- The keys produced are those returned, the one being returned and the one that
waits, in this order. -/
structure Delivered (s : Polling) : Prop extends Polls s where
  fetched : ∀ key, s.pc = .clear key → key = s.kb.pushedKey.toUInt8
  produced_eq : s.produced = s.returned ++ s.returning ++ s.pending

theorem Delivered.reader {s : Polling} (h : s.Delivered) : s.reader.Delivered := by
  refine ⟨h.toPolls.reader, ?_, ?_⟩
  · intro key
    unfold Polling.reader
    cases hpc : s.pc <;> grind
  · have heq := h.produced_eq
    unfold Polling.reader
    cases hpc : s.pc with
    | clear key =>
      -- the key that is cleared is the one that was fetched
      have hne := h.full (.inr (.inr ⟨key, hpc⟩))
      have hkey := h.fetched key hpc
      simpa [returning, pending, hpc, hne, hkey] using heq
    | drop => exact absurd hpc h.not_drop
    | wait =>
      simp only
      split
      · exact heq
      · simpa [returning, pending, hpc] using heq
    | compare =>
      simp only [if_pos h.ascii]
      simpa [returning, pending, hpc] using heq
    | idle => simpa [returning, pending, hpc] using heq
    | fetch => simpa [returning, pending, hpc] using heq
    | ret key => simpa [returning, pending, hpc] using heq

theorem Delivered.interrupt {s : Polling} (h : s.Delivered) {scancode : UInt8}
    (hpatient : s.keyOf scancode ≠ [] → s.kb.pushedKey = 0) :
    (s.interrupt scancode).Delivered := by
  refine ⟨h.toPolls.interrupt scancode, ?_, ?_⟩
  · intro key hpc
    by_cases hkey : s.keyOf scancode = []
    · rw [pushedKey_of_none hkey]
      exact h.fetched key hpc
    · exact absurd (hpatient hkey) (h.full (.inr (.inr ⟨key, hpc⟩)))
  · show s.produced ++ s.keyOf scancode = s.returned ++ s.returning ++ _
    by_cases hkey : s.keyOf scancode = []
    · rw [hkey, List.append_nil, pending, pushedKey_of_none hkey]
      exact h.produced_eq
    · rw [(pushedKey_of_key hkey).2.2, h.produced_eq, pending, if_pos (hpatient hkey),
        List.append_nil]

theorem delivered_start : start.Delivered where
  toPolls := polls_start
  fetched := by simp [start]
  produced_eq := rfl

/-- **A patient run delivers every key.** -/
theorem Delivered.after {s : Polling} (h : s.Delivered) {es : List PollEvent}
    (hpatient : s.Patient es) : (s.after es).Delivered := by
  induction es generalizing s with
  | nil => exact h
  | cons e es ih =>
    obtain ⟨hnow, hrest⟩ := hpatient
    cases e with
    | interrupt scancode => exact ih (h.interrupt hnow) hrest
    | reader => exact ih h.reader hrest

theorem Delivered.faithful {s : Polling} (h : s.Delivered) : s.Faithful := by
  have hpre : s.returned <+: s.produced := by
    rw [h.produced_eq, List.append_assoc]
    exact List.prefix_append _ _
  refine ⟨hpre, fun hcalls hrest => ?_⟩
  rcases hrest with hidle | ⟨hwait, hempty⟩
  · have hlen : s.calls = s.returned.length := by simpa [hidle] using h.calls_eq
    exact hpre.eq_of_length_le (by omega)
  · simpa [returning, pending, hwait, hempty] using h.produced_eq.symm

theorem patient_append {s : Polling} {es fs : List PollEvent} :
    s.Patient (es ++ fs) ↔ s.Patient es ∧ (s.after es).Patient fs := by
  induction es generalizing s with
  | nil => simp [Patient, after]
  | cons e es ih => simp only [List.cons_append, Patient, ih, and_assoc, after, List.foldl_cons]

/-! ## After a key came too early -/

/-- How many characters `getchar` has returned or can still return without a new key. -/
def owed (s : Polling) : ℕ := s.returned.length + s.returning.length + s.pending.length

theorem owed_reader {s : Polling} (h : s.Polls) : s.reader.owed ≤ s.owed := by
  have hfull := h.full
  unfold reader
  cases hpc : s.pc with
  | clear key =>
    have hne := hfull (.inr (.inr ⟨key, hpc⟩))
    simp [owed, returning, pending, hpc, hne]
  | wait =>
    simp only
    split <;> simp [owed, returning, pending, hpc]
  | compare =>
    simp only [if_pos h.ascii]
    simp [owed, returning, pending, hpc]
  | drop => exact absurd hpc h.not_drop
  | idle => simp [owed, returning, pending, hpc]
  | fetch => simp [owed, returning, pending, hpc]
  | ret key => simp [owed, returning, pending, hpc]

theorem owed_interrupt (s : Polling) (scancode : UInt8) :
    (s.interrupt scancode).owed ≤ s.owed + (s.keyOf scancode).length := by
  by_cases hkey : s.keyOf scancode = []
  · have hpushed := pushedKey_of_none hkey
    simp only [owed, pending, hpushed, hkey]
    exact le_rfl
  · have hpending := (pushedKey_of_key hkey).2.2
    simp only [owed, hpending]
    show s.returned.length + s.returning.length + _ ≤ _
    omega

/-- A key that comes while another one waits replaces it. -/
theorem owed_interrupt_early {s : Polling} {scancode : UInt8} (hkey : s.keyOf scancode ≠ [])
    (hfull : s.kb.pushedKey ≠ 0) : (s.interrupt scancode).owed = s.owed := by
  have hone : (s.keyOf scancode).length = 1 := by
    have hne : (s.kb.charpress scancode).1 ≠ 0 := by simpa [keyOf] using hkey
    simp [keyOf, hne]
  have hnew := (pushedKey_of_key hkey).2.2
  have hold : s.pending = [s.kb.pushedKey.toUInt8] := if_neg hfull
  simp only [owed, hnew, hone, hold]
  rfl

/-- What is owed never catches up with what was produced. -/
theorem owed_step {s : Polling} (h : s.Polls) (e : PollEvent) :
    (s.step e).owed + s.produced.length ≤ s.owed + (s.step e).produced.length := by
  cases e with
  | interrupt scancode =>
    have hle := s.owed_interrupt scancode
    have hlen : (s.interrupt scancode).produced.length
        = s.produced.length + (s.keyOf scancode).length := by simp [interrupt]
    simp only [step, hlen]
    omega
  | reader =>
    have hle := owed_reader h
    have hsame : s.reader.produced = s.produced := by
      unfold reader
      cases s.pc <;> grind
    simp only [step, hsame]
    omega

/-- Some key produced will never be returned. -/
def Lost (s : Polling) : Prop := s.owed < s.produced.length

theorem Lost.after {s : Polling} (h : s.Lost) (hpolls : s.Polls) (es : List PollEvent) :
    (s.after es).Lost := by
  induction es generalizing s with
  | nil => exact h
  | cons e es ih =>
    refine ih ?_ (hpolls.step e)
    have hle := owed_step hpolls e
    unfold Lost at h ⊢
    omega

/-- A run that is not patient loses a key. -/
theorem lost_of_not_patient {s : Polling} (hpolls : s.Polls) (howed : s.owed ≤ s.produced.length)
    {es : List PollEvent} (h : ¬s.Patient es) : (s.after es).Lost := by
  induction es generalizing s with
  | nil => exact absurd trivial h
  | cons e es ih =>
    have hle := owed_step hpolls e
    by_cases hrest : (s.step e).Patient es
    · -- this very key comes too early
      refine Lost.after ?_ (hpolls.step e) es
      cases e with
      | reader => exact absurd ⟨trivial, hrest⟩ h
      | interrupt scancode =>
        have hearly : s.keyOf scancode ≠ [] ∧ s.kb.pushedKey ≠ 0 := by
          by_contra hnot
          exact h ⟨fun hkey => by_contra fun hfull => hnot ⟨hkey, hfull⟩, hrest⟩
        have hsame := owed_interrupt_early hearly.1 hearly.2
        have hpos := List.length_pos_of_ne_nil hearly.1
        have hlen : (s.interrupt scancode).produced.length
            = s.produced.length + (s.keyOf scancode).length := by simp [interrupt]
        simp only [Lost, step, hsame, hlen]
        omega
    · exact ih (hpolls.step e) (by omega) hrest

/-- `getchar` waits for the next key. -/
def Blocked (s : Polling) : Prop := s.pc = .wait ∧ s.kb.pushedKey = 0

/-- Left alone, the reader gets to where it waits for the next key. -/
def Drains (s : Polling) : Prop :=
  ∃ n, (s.after (List.replicate n .reader)).Blocked

theorem Drains.of_reader {s : Polling} (h : s.reader.Drains) : s.Drains := by
  obtain ⟨n, hn⟩ := h
  exact ⟨n + 1, hn⟩

theorem Blocked.drains {s : Polling} (h : s.Blocked) : s.Drains := ⟨0, h⟩

theorem drains_idle_empty {s : Polling} (hpc : s.pc = .idle) (h : s.kb.pushedKey = 0) :
    s.Drains := by
  refine Drains.of_reader (Blocked.drains ?_)
  simp [Blocked, reader, hpc, h]

theorem drains_ret_empty {s : Polling} {key : UInt8} (hpc : s.pc = .ret key)
    (h : s.kb.pushedKey = 0) : s.Drains := by
  apply Drains.of_reader
  apply drains_idle_empty <;> simp [reader, hpc, h]

theorem drains_clear {s : Polling} {key : UInt8} (hpc : s.pc = .clear key) : s.Drains := by
  have hret : s.reader.pc = .ret key := by simp [reader, hpc]
  apply Drains.of_reader
  apply drains_ret_empty hret
  simp [reader, hpc]

theorem drains_fetch {s : Polling} (hpc : s.pc = .fetch) : s.Drains := by
  have hclear : s.reader.pc = .clear s.kb.pushedKey.toUInt8 := by simp [reader, hpc]
  exact Drains.of_reader (drains_clear hclear)

theorem drains_compare {s : Polling} (h : s.Polls) (hpc : s.pc = .compare) : s.Drains := by
  apply Drains.of_reader
  apply drains_fetch
  simp [reader, hpc, h.ascii]

theorem drains_wait {s : Polling} (h : s.Polls) (hpc : s.pc = .wait) : s.Drains := by
  by_cases hempty : s.kb.pushedKey = 0
  · exact Blocked.drains ⟨hpc, hempty⟩
  · apply Drains.of_reader
    apply drains_compare h.reader
    simp [reader, hpc, hempty]

theorem drains_idle {s : Polling} (h : s.Polls) (hpc : s.pc = .idle) : s.Drains := by
  apply Drains.of_reader
  apply drains_wait h.reader
  simp [reader, hpc]

theorem Polls.drains {s : Polling} (h : s.Polls) : s.Drains := by
  cases hpc : s.pc with
  | idle => exact drains_idle h hpc
  | wait => exact drains_wait h hpc
  | compare => exact drains_compare h hpc
  | fetch => exact drains_fetch hpc
  | clear key => exact drains_clear hpc
  | ret key =>
    apply Drains.of_reader
    apply drains_idle h.reader
    simp [Polling.reader, hpc]
  | drop => exact absurd hpc h.not_drop

theorem patient_readers (s : Polling) (n : ℕ) : s.Patient (List.replicate n .reader) := by
  induction n generalizing s with
  | zero => trivial
  | succ n ih => exact ⟨trivial, ih s.reader⟩

/-- An interrupt that produces no key. -/
theorem interrupt_of_zero {s : Polling} {scancode : UInt8} {kb : Keyboard}
    (h : s.kb.charpress scancode = (0, kb)) : s.interrupt scancode = { s with kb := kb } := by
  simp [interrupt, keyOf, Keyboard.handleCharpress, h]

/-- An interrupt that produces a key. -/
theorem interrupt_of_key {s : Polling} {scancode keycode : UInt8} {kb : Keyboard}
    (h : s.kb.charpress scancode = (keycode, kb)) (hne : keycode ≠ 0) :
    s.interrupt scancode =
      { s with
        kb := { kb with pushedKey := keycode.toUInt16 }
        produced := s.produced ++ [keycode] } := by
  simp [interrupt, keyOf, Keyboard.handleCharpress, h, hne]

/-- The releases of Ctrl, Alt and Shift. -/
def releases : List PollEvent :=
  [.interrupt (keyCtrl + prConver), .interrupt (keyAlt + prConver),
    .interrupt (keyShiftLeft + prConver)]

theorem after_releases (s : Polling) :
    s.after releases
      = { s with kb := { s.kb with ctrlStat := false, altStat := false, shiftStat := false } } := by
  have hctrl (t : Polling) : t.interrupt (keyCtrl + prConver)
      = { t with kb := { t.kb with ctrlStat := false } } := interrupt_of_zero rfl
  have halt (t : Polling) : t.interrupt (keyAlt + prConver)
      = { t with kb := { t.kb with altStat := false } } := interrupt_of_zero rfl
  have hshift (t : Polling) : t.interrupt (keyShiftLeft + prConver)
      = { t with kb := { t.kb with shiftStat := false } } := interrupt_of_zero rfl
  simp only [after, releases, List.foldl_cons, List.foldl_nil, step, hctrl, halt, hshift]

/-- A digit key, with its scan code. -/
def Digit (scancode key : UInt8) : Prop :=
  (scancode = 2 ∧ key = 0x31) ∨ (scancode = 3 ∧ key = 0x32)

theorem charpress_digit {kb : Keyboard} {scancode key : UInt8} (h : Digit scancode key)
    (hctrl : kb.ctrlStat = false) (halt : kb.altStat = false) (hshift : kb.shiftStat = false) :
    kb.charpress scancode = (key, kb) := by
  obtain ⟨ctrl, shift, alt, caps, pushed⟩ := kb
  simp only at hctrl halt hshift
  subst hctrl halt hshift
  -- caps lock changes letters only
  rcases h with ⟨rfl, rfl⟩ | ⟨rfl, rfl⟩ <;> cases caps <;> rfl

/-- The press of a digit, and the steps in which `getchar` returns it. -/
def pressed (scancode : UInt8) : List PollEvent :=
  releases ++ .interrupt scancode :: List.replicate 5 .reader

/-- A reader that waits returns the next key. -/
theorem after_pressed {s : Polling} (hblocked : s.Blocked) {scancode key : UInt8}
    (h : Digit scancode key) :
    (s.after (pressed scancode)).returned = s.returned ++ [key] ∧
      (s.after (pressed scancode)).produced = s.produced ++ [key] := by
  have hne : key ≠ 0 ∧ key.toUInt16 < 0x80 ∧ key.toUInt16 ≠ 0 := by
    rcases h with ⟨-, rfl⟩ | ⟨-, rfl⟩ <;> decide
  set s' : Polling :=
    { s with kb := { s.kb with ctrlStat := false, altStat := false, shiftStat := false } } with hs'
  have hpress : s'.interrupt scancode =
      { s' with
        kb := { s'.kb with pushedKey := key.toUInt16 }
        produced := s.produced ++ [key] } :=
    interrupt_of_key (charpress_digit h rfl rfl rfl) hne.1
  have hrun : s.after (pressed scancode)
      = (s'.interrupt scancode).reader.reader.reader.reader.reader := by
    rw [pressed, after, List.foldl_append]
    exact congrArg (fun t : Polling => (t.interrupt scancode).reader.reader.reader.reader.reader)
      (after_releases s)
  rw [hrun, hpress]
  simp [reader, hs', hblocked.1, hne]

theorem patient_pressed {s : Polling} (hblocked : s.Blocked) (scancode : UInt8) :
    s.Patient (pressed scancode) := by
  have hempty := hblocked.2
  refine patient_append.2 ⟨⟨fun _ => hempty, ?_, ?_, trivial⟩, ?_, patient_readers _ 5⟩
  · intro hkey
    exact absurd rfl hkey
  · intro hkey
    exact absurd rfl hkey
  · intro _
    rw [after_releases]
    exact hempty

/-- **A lost key is noticed.**  The reader gets to where it waits for a key, and the
digit it is given there is not the next character it owes. -/
theorem Lost.exists_not_faithful {s : Polling} (h : s.Lost) (hpolls : s.Polls) :
    ∃ fs, s.Patient fs ∧ ¬(s.after fs).Faithful := by
  obtain ⟨n, hblocked⟩ := hpolls.drains
  set t := s.after (List.replicate n .reader) with ht
  have hlost : t.returned.length < t.produced.length := by
    have hlost := h.after hpolls (List.replicate n .reader)
    simp only [← ht, Lost, owed, returning, pending, hblocked.1, hblocked.2] at hlost
    simpa using hlost
  obtain ⟨scancode, key, hdigit, hne⟩ :
      ∃ scancode key, Digit scancode key ∧ key ≠ t.produced[t.returned.length] := by
    by_cases hone : t.produced[t.returned.length] = 0x31
    · exact ⟨3, 0x32, .inr ⟨rfl, rfl⟩, by rw [hone]; decide⟩
    · exact ⟨2, 0x31, .inl ⟨rfl, rfl⟩, fun heq => hone heq.symm⟩
  refine ⟨List.replicate n .reader ++ pressed scancode, ?_, ?_⟩
  · exact patient_append.2 ⟨patient_readers s n, patient_pressed hblocked scancode⟩
  · rintro ⟨hpre, -⟩
    have hafter : s.after (List.replicate n .reader ++ pressed scancode)
        = t.after (pressed scancode) := by
      rw [ht, Polling.after, List.foldl_append]
      rfl
    obtain ⟨hret, hprod⟩ := after_pressed hblocked hdigit
    rw [hafter, hret, hprod] at hpre
    have hget := hpre.getElem (show t.returned.length < (t.returned ++ [key]).length by simp)
    rw [List.getElem_append_right le_rfl, List.getElem_append_left hlost] at hget
    exact hne (by simpa using hget)

/-- **The keys are delivered exactly in the patient runs.**  In a patient run, and as
long as it goes on patiently, every state is faithful; after any other run some
patient continuation shows a state that is not. -/
theorem keys_delivered_iff (es : List PollEvent) :
    (∀ fs, (start.after es).Patient fs → ∀ gs, gs <+: es ++ fs → (start.after gs).Faithful)
      ↔ start.Patient es := by
  constructor
  · intro h
    by_contra hnot
    have hlost := lost_of_not_patient polls_start (by decide) hnot
    obtain ⟨fs, hpatient, hwrong⟩ := hlost.exists_not_faithful (polls_start.after es)
    have hfaithful := h fs hpatient (es ++ fs) List.prefix_rfl
    rw [after, List.foldl_append] at hfaithful
    exact hwrong hfaithful
  · rintro hpatient fs hfs gs ⟨rest, hgs⟩
    have hall : start.Patient (gs ++ rest) := by
      rw [hgs]
      exact patient_append.2 ⟨hpatient, hfs⟩
    exact (delivered_start.after (patient_append.1 hall).1).faithful

/-- Two keys before `getchar` is called: the first one is overwritten. -/
theorem two_keys_lose_one :
    ¬∀ es : List PollEvent, ∀ gs, gs <+: es → (start.after gs).Faithful := by
  intro h
  have hpre := (h (.interrupt 2 :: .interrupt 3 :: List.replicate 6 .reader) _
    List.prefix_rfl).1
  have hreturned : ¬[(0x32 : UInt8)] <+: [0x31, 0x32] := by decide
  exact hreturned hpre

end Polling

end CheetOS
