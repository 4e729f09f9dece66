import CheetOS.Arguments
import CheetOS.Tokenizer

/-!
# When the arguments do not fit

`execute` joins the arguments in `buffer[128]` and never looks at how far it has come.  In
the compiled kernel (`bootimg`) `filename[32]` lies behind `buffer` and `program_image`
behind `filename`, so that long arguments choose the address the file is loaded to.

* `executeOver` and `stepOver` are `execute` and the step of the machine with these locals,
  as far as the arguments reach no others;
* `Overruns` is when a call writes behind `buffer`, `execute_iff` and `step_iff` say that
  `execute` and `step` are the calls that do not, and `run_iff` carries that to runs;
* `user_isolation` — without such a call programs reach their own page and the screen that
  was mapped for them, and `isolation_overrun` that after one a program may reach the kernel.
-/

namespace CheetOS

open Exec Words
open Platform (delim)

/-! ## The locals of execute -/

/-- `buffer`, `filename` and `program_image`.  The locals behind them are the ones the
loop over the arguments works with, and those that are assigned after it. -/
abbrev localsSize : ℕ := 164

/-- Where `program_image` is, from `buffer` on. -/
abbrev imageSlot : ℕ := 160

/-- The locals when `read_data` has put the header of the file into `buffer`; what
`filename` holds is not looked at any more. -/
def initLocals (header : List UInt8) : ℕ → UInt8 :=
  Bytes.writeAt (Bytes.writeAt (fun _ => 0) imageSlot (Bytes.wordBytes programImage)) 0 header

/-- `program_image`. -/
def imageOf (locals : ℕ → UInt8) : UInt32 := Bytes.word fun i => locals (imageSlot + i)

/-- The tables after a byte was stored `off` bytes into `page_directory`. -/
def Tables.pokeDirectory (t : Tables) (off : UInt32) (b : UInt8) : Tables :=
  let i := off >>> 2
  let bytes := fun j => (Bytes.wordBytes (t.pageDirectory i)).getD j 0
  let entry := Bytes.word (Function.update bytes (off &&& 3).toNat b)
  { t with pageDirectory := Function.update t.pageDirectory i entry }

/-- The control block after `strcpy` has put a string into `arg` that is longer than
it: `terminal_index` is the second byte behind, `num_char_in_arg` the first, and assigned
afterwards. -/
def Pcb.spill (pcb : Pcb) (arg : List UInt8) : Pcb :=
  if arg.length + 1 ≤ terminalBufferSize + 1 then pcb
  else { pcb with terminalIndex := (arg ++ [0]).getD (terminalBufferSize + 1) 0 }

/-- The tables after such a `strcpy`. -/
def Tables.spill (t : Tables) (pid : UInt32) (arg : List UInt8) : Tables :=
  { t with pcb := Function.update t.pcb (pcbAddr pid) ((t.pcb (pcbAddr pid)).spill arg) }

namespace Platform

variable (P : Platform)

/-- How far into `page_directory` an address is.  Only the entries from 34 on count: the
processor may still hold the ones before them. -/
def directoryOffset (t : Tables) (va : UInt32) : Option UInt32 :=
  match P.translate t .supervisor .write va with
  | none => none
  | some a =>
    let off := a - P.pageDirectory
    if 0x88 ≤ off ∧ off < 0x1000 then some off else none

/-- Kernel code writes a byte, to `page_directory` too. -/
def pokeByte (va : UInt32) (b : UInt8) : K Unit := do
  let k ← get
  match P.directoryOffset k.toTables va with
  | none => P.storeByte va b
  | some off => modify fun k => { k with toTables := k.toTables.pokeDirectory off b }

/-- Kernel code writes bytes one after the other. -/
def pokeBytes : UInt32 → List UInt8 → K Unit
  | _, [] => pure ()
  | va, b :: bs => do
    P.pokeByte va b
    pokeBytes (va + 1) bs

/-- Kernel code reads a byte, from `page_directory` too. -/
def peekByte (va : UInt32) : K UInt8 := do
  let k ← get
  match P.directoryOffset k.toTables va with
  | none => P.loadByte va
  | some off =>
    return (Bytes.wordBytes (k.pageDirectory (off >>> 2))).getD (off &&& 3).toNat 0

/-- Kernel code reads a 32-bit word. -/
def peekWord (va : UInt32) : K UInt32 := do
  let b0 ← P.peekByte va
  let b1 ← P.peekByte (va + 1)
  let b2 ← P.peekByte (va + 2)
  let b3 ← P.peekByte (va + 3)
  return Bytes.word fun
    | 0 => b0
    | 1 => b1
    | 2 => b2
    | _ => b3

/-- `execute`, lines 242-300, with `program_image` as the arguments have left it. -/
def launchOver (inode : UInt32) (locals : ℕ → UInt8) : K ExecResult := do
  let nextProcess ← getNextProcessNumber
  if nextProcess = 0xFFFFFFFF then
    puts tableFullMessage
    return .returned 256
  else
    updatePageDirectory c128MB (userPage nextProcess) userPde4MBBase
    let size := (flength P.fs inode).toUInt32
    let (read, bytes) := readData P.fs inode 0 size
    P.pokeBytes (imageOf locals) bytes
    if read.toUInt32 ≠ size then
      let k ← get
      updatePageDirectory c128MB (userPage k.currProcess) userPde4MBBase
      return .returned (-1)
    else
      match Bytes.stringAt localsSize locals with
      | none => throw .undefined
      | some arg =>
        P.enterProcess nextProcess arg
        modify fun k => { k with toTables := k.toTables.spill nextProcess arg }
        let entryPoint ← P.peekWord (imageOf locals + 24)
        return .started entryPoint

/-- `execute`, up to the context switch, with the locals behind `buffer`. -/
def executeOver (command : UInt32) : K ExecResult := do
  match ← P.findProgram command with
  | none => return .returned (-1)
  | some dentry =>
    if P.isExecutable dentry.inodeNum = false then return .returned (-1)
    else
      let header := (readData P.fs dentry.inodeNum 0 4).2
      let locals ← P.joinArgs localsSize (initLocals header)
      P.launchOver dentry.inodeNum locals

/-- The machine after a system call, with the locals of `execute` behind `buffer`. -/
def callOver (m : Machine) (c : Call) (regs : Regs) : Option Machine :=
  match c with
  | .execute command =>
    match P.executeOver command (m.enter regs) with
    | .ok (.returned ret) k => some { m with kernel := k, eax := ret.toUInt32 }
    | .ok (.started entryPoint) k =>
      some { m with
        kernel := k
        frames := ⟨(m.enter regs).esp, (m.enter regs).ebp, k.currProcess⟩ :: m.frames
        entry := entryPoint }
    | .error _ _ => none
  | .halt _ | .plain _ => P.call m c regs

/-- The machine after an event, with the locals of `execute` behind `buffer`. -/
def stepOver (m : Machine) : Event → Option Machine
  | .store va b => P.step m (.store va b)
  | .call c regs =>
    if 0 < regs.depth ∧ regs.depth ≤ stackRoom then P.callOver m c regs else none

variable {P : Platform}

/-! ## Outside the directory -/

/-- What a program is loaded to is not the page directory. -/
theorem directoryOffset_image {t : Tables} (hs : P.Space t) {j : ℕ} (hj : j ≤ 0x3B9000) :
    P.directoryOffset t (programImage + UInt32.ofNat j) = none := by
  have hva := toNat_programImage (show j < 0x744000 by omega)
  unfold directoryOffset
  cases htr : P.translate t .supervisor .write (programImage + UInt32.ofNat j) with
  | none => rfl
  | some a =>
    refine if_neg fun hoff => ?_
    obtain ⟨hlo, hhi⟩ := P.kernelData_range a (P.kernelData_pageDirectory a hoff.2)
    rw [UInt32.le_iff_toNat_le] at hlo
    rw [UInt32.lt_iff_toNat_lt] at hhi
    simp only [UInt32.reduceToNat] at hlo hhi
    rcases translate_supervisor_cases hs htr with h | h | h | h <;> omega

/-- Where a program is loaded, the directory makes no difference. -/
theorem pokeBytes_image {bs : List UInt8} {j : ℕ} {k : Kernel} (hs : P.Space k.toTables)
    (hj : j ≤ 0x3B9000) : P.pokeBytes (programImage + UInt32.ofNat j) bs k
      = P.storeBytes (programImage + UInt32.ofNat j) bs k := by
  induction bs generalizing j k with
  | nil => rfl
  | cons b bs ih =>
    have hpoke : P.pokeByte (programImage + UInt32.ofNat j) b k
        = P.storeByte (programImage + UInt32.ofNat j) b k := by
      unfold pokeByte
      rw [get_bind_run, directoryOffset_image hs hj]
    refine bind_run_congr hpoke fun _ k₁ hrun => ?_
    have htables : k₁.toTables = k.toTables := P.quiet_storeByte _ b hrun
    have hnext : programImage + UInt32.ofNat j + 1 = programImage + UInt32.ofNat (j + 1) :=
      Word32.add_ofNat_add_ofNat programImage j 1
    -- the stores do not come past the page of the screen
    have hlt : j < 0x3B9000 := by
      obtain ⟨a, htr, -⟩ := P.storeByte_cases hrun
      have hva := toNat_programImage (show j < 0x744000 by omega)
      rcases translate_supervisor_cases hs htr with h | h | h | h <;> omega
    rw [hnext]
    exact ih (htables ▸ hs) hlt

theorem peekByte_image {j : ℕ} {k : Kernel} (hs : P.Space k.toTables) (hj : j ≤ 0x3B9000) :
    P.peekByte (programImage + UInt32.ofNat j) k = P.loadByte (programImage + UInt32.ofNat j) k := by
  unfold peekByte
  rw [get_bind_run, directoryOffset_image hs hj]

/-- The entry point is read from memory. -/
theorem peekWord_image {k : Kernel} (hs : P.Space k.toTables) :
    P.peekWord (programImage + 24) k = P.loadWord (programImage + 24) k := by
  have hbyte : ∀ (j : ℕ) (k' : Kernel), j ≤ 27 → k' = k →
      P.peekByte (programImage + UInt32.ofNat j) k'
        = P.loadByte (programImage + UInt32.ofNat j) k' := by
    rintro j k' hj rfl
    exact peekByte_image hs (by omega)
  unfold peekWord loadWord
  refine bind_run_congr (hbyte 24 k (by omega) rfl) fun _ k₁ h₁ => ?_
  refine bind_run_congr (hbyte 25 k₁ (by omega) (P.loadByte_kernel h₁)) fun _ k₂ h₂ => ?_
  have hk₂ : k₂ = k := (P.loadByte_kernel h₂).trans (P.loadByte_kernel h₁)
  refine bind_run_congr (hbyte 26 k₂ (by omega) hk₂) fun _ k₃ h₃ => ?_
  exact bind_run_congr (hbyte 27 k₃ (by omega) ((P.loadByte_kernel h₃).trans hk₂)) fun _ _ _ => rfl

/-! ## The rest of execute -/

theorem imageOf_congr {locals locals' : ℕ → UInt8}
    (h : ∀ i, imageSlot ≤ i → i < localsSize → locals i = locals' i) :
    imageOf locals = imageOf locals' :=
  Bytes.word_congr fun i hi =>
    h (imageSlot + i) (Nat.le_add_right _ _) (Nat.add_lt_add_left hi imageSlot)

/-- Short arguments leave `program_image` alone. -/
theorem imageOf_fits {locals : ℕ → UInt8} {header : List UInt8} (hheader : header.length ≤ imageSlot)
    {n : ℕ} (hn : n < imageSlot) (h : ∀ i, n < i → locals i = initLocals header i) :
    imageOf locals = programImage := by
  have himage : imageOf (Bytes.writeAt (fun _ => 0) imageSlot (Bytes.wordBytes programImage))
      = programImage := by
    decide +kernel
  rw [← himage]
  refine imageOf_congr fun i hi _ => ?_
  rw [h i (by omega)]
  exact Bytes.writeAt_of_le (by omega)

theorem spill_fits {args : List UInt8} (h : args.length < bufferSize) (t : Tables) (pid : UInt32) :
    t.spill pid args = t := by
  have hspill : (t.pcb (pcbAddr pid)).spill args = t.pcb (pcbAddr pid) := by
    unfold Pcb.spill
    rw [if_pos (Nat.succ_le_succ h.le)]
  unfold Tables.spill
  rw [hspill, Function.update_eq_self]

/-- With a free process number, the file is loaded to where `program_image` points. -/
theorem launchOver_taken {inode : UInt32} {locals : ℕ → UInt8} {k : Kernel} {i : UInt32}
    (h : firstInactive k.pidArray = some i) :
    P.launchOver inode locals k = (do
      P.pokeBytes (imageOf locals) (P.loadedBytes inode)
      if P.LoadShort inode then
        let k ← get
        updatePageDirectory c128MB (userPage k.currProcess) userPde4MBBase
        return .returned (-1)
      else
        match Bytes.stringAt localsSize locals with
        | none => throw .undefined
        | some arg =>
          P.enterProcess i arg
          modify fun k => { k with toTables := k.toTables.spill i arg }
          let entryPoint ← P.peekWord (imageOf locals + 24)
          return .started entryPoint : K ExecResult)
      { k with toTables := k.toTables.take i } := by
  obtain ⟨hne, hnext⟩ := getNextProcessNumber_taken h
  unfold launchOver
  rw [bind_of_ok hnext, if_neg hne]
  unfold updatePageDirectory
  rw [modify_bind_run]
  rfl

/-- **With arguments that fit, the rest of `execute` is the same.** -/
theorem launchOver_eq {inode : UInt32} {locals buffer : ℕ → UInt8} {args : List UInt8}
    {k : Kernel} (hs : P.Space k.toTables) (himage : imageOf locals = programImage)
    (hlocals : Holds (fun i => some (locals i)) args)
    (hbuffer : Holds (fun i => some (buffer i)) args) (hfit : args.length < bufferSize) :
    P.launchOver inode locals k = P.launch inode buffer k := by
  cases hi : firstInactive k.pidArray with
  | none =>
    unfold launchOver
    rw [P.launch_full hi, bind_of_ok (getNextProcessNumber_full hi), if_pos rfl]
  | some i =>
    have htake : P.Space (k.toTables.take i) := hs.take (firstInactive_eq_some hi).1
    rw [launchOver_taken hi, P.launch_taken hi, himage]
    refine bind_run_congr (pokeBytes_image (j := 0) htake (Nat.zero_le _)) fun _ k₁ hstore => ?_
    have htables : k₁.toTables = k.toTables.take i := P.quiet_storeBytes _ _ hstore
    by_cases hshort : P.LoadShort inode
    · rw [if_pos hshort, if_pos hshort]
    rw [if_neg hshort, if_neg hshort, stringAt_of_holds hbuffer hfit,
      stringAt_of_holds hlocals (lt_trans hfit (by decide))]
    refine bind_run_congr rfl fun _ k₂ henter => ?_
    rw [modify_bind_run, spill_fits hfit]
    refine bind_run_congr (peekWord_image ?_) fun _ _ _ => rfl
    rw [← modify_eq_ok.1 henter, htables]
    exact hs.start (firstInactive_eq_some hi).1 args

/-! ## The arguments -/

/-- A round of the loop that comes to an end. -/
theorem joinLoop_succ_ok {room n : ℕ} {token : UInt32} (h0 : token ≠ 0) {buffer b : ℕ → UInt8}
    {ptr : ℕ} {k k' : Kernel} (h : P.joinLoop room (n + 1) token buffer ptr k = .ok b k') :
    ∃ w buffer' ptr' token' k₁, Holds (P.bytesAt k token) w ∧ P.strtok 0 k = .ok token' k₁ ∧
      P.joinLoop room n token' buffer' ptr' k₁ = .ok b k' := by
  rw [joinLoop_succ h0] at h
  obtain ⟨b₁, k₁, hsep, h⟩ := bind_eq_ok.1 h
  obtain ⟨w, k₂, hread, h⟩ := bind_eq_ok.1 h
  obtain ⟨b₂, k₃, hcopy, h⟩ := bind_eq_ok.1 h
  obtain ⟨token', k₄, hnext, hloop⟩ := bind_eq_ok.1 h
  obtain rfl : k₁ = k := by
    split_ifs at hsep
    · exact (memcpyBuffer_ok hsep).2
    · exact (pure_eq_ok.1 hsep).2.symm
  obtain ⟨hw, rfl⟩ := readString_ok hread
  obtain ⟨-, rfl⟩ := memcpyBuffer_ok hcopy
  exact ⟨w, b₂, _, token', k₄, hw, hnext, hloop⟩

/-- **The loop in two arrays.**  It comes to an end in every array that the joined words fit
into, and leaves alone what is behind them. -/
theorem joinLoop_rooms {room n : ℕ} {token : UInt32} {buffer b : ℕ → UInt8} {acc : List UInt8}
    {k k' : Kernel} (hs : P.Space k.toTables) (hbuffer : Holds (fun i => some (buffer i)) acc)
    (h : P.joinLoop room n token buffer acc.length k = .ok b k') :
    ∃ l, Holds (fun i => some (b i)) l ∧ acc.length ≤ l.length ∧
      (acc.length < room → l.length < room) ∧ (∀ i, l.length < i → b i = buffer i) ∧
      ∀ room' buffer', Holds (fun i => some (buffer' i)) acc → l.length < room' →
        ∃ b', P.joinLoop room' n token buffer' acc.length k = .ok b' k' ∧
          Holds (fun i => some (b' i)) l ∧ ∀ i, l.length < i → b' i = buffer' i := by
  induction n generalizing token buffer acc k with
  | zero => exact (throw_eq_ok.1 h).elim
  | succ n ih =>
    by_cases h0 : token = 0
    · unfold joinLoop at h ⊢
      rw [if_pos h0] at h
      obtain ⟨rfl, rfl⟩ := pure_eq_ok.1 h
      refine ⟨acc, hbuffer, le_refl _, id, fun _ _ => rfl, fun room' buffer' hbuffer' _ => ?_⟩
      rw [if_pos h0]
      exact ⟨buffer', rfl, hbuffer', fun _ _ => rfl⟩
    · obtain ⟨w, -, -, -, -, hw, -⟩ := joinLoop_succ_ok h0 h
      rcases joinLoop_round (n := n) hs hbuffer h0 hw with
        ⟨hfit, b₁, hb₁, hkept, hround⟩ | ⟨-, herror⟩
      · rw [hround] at h
        obtain ⟨token', k₁, hnext, hloop⟩ := bind_eq_ok.1 h
        have htables : k₁.toTables = k.toTables := P.quiet_strtok 0 hnext
        obtain ⟨l, hl, hle, hroom, hbehind, hothers⟩ := ih (htables ▸ hs) hb₁ hloop
        have hgrows := length_le_appendWord delim acc w
        refine ⟨l, hl, hgrows.trans hle, fun _ => hroom hfit, fun i hi => ?_, ?_⟩
        · rw [hbehind i hi, hkept i (lt_of_le_of_lt hle hi)]
        · intro room' buffer' hbuffer' hfit'
          rcases joinLoop_round (n := n) hs hbuffer' h0 hw with
            ⟨-, b₂, hb₂, hkept₂, hround'⟩ | ⟨hlong, -⟩
          · obtain ⟨b', hloop', hb', hbehind'⟩ := hothers room' b₂ hb₂ hfit'
            refine ⟨b', ?_, hb', fun i hi => ?_⟩
            · rw [hround', bind_of_ok hnext, hloop']
            · rw [hbehind' i hi, hkept₂ i (lt_of_le_of_lt hle hi)]
          · exact absurd hfit' (not_lt.2 (hlong.trans hle))
      · rw [herror] at h
        cases h

/-- The same of the arguments as a whole. -/
theorem joinArgs_rooms {room : ℕ} (hpos : 0 < room) {buffer b : ℕ → UInt8} {k k' : Kernel}
    (hs : P.Space k.toTables) (h : P.joinArgs room buffer k = .ok b k') :
    ∃ l, Holds (fun i => some (b i)) l ∧ l.length < room ∧ (∀ i, l.length < i → b i = buffer i) ∧
      ∀ room' buffer', l.length < room' → ∃ b', P.joinArgs room' buffer' k = .ok b' k' ∧
        Holds (fun i => some (b' i)) l ∧ ∀ i, l.length < i → b' i = buffer' i := by
  have hempty : ∀ buffer : ℕ → UInt8, Holds (fun i => some (Function.update buffer 0 0 i)) [] :=
    fun buffer => holds_nil.2 (congrArg some (Function.update_self ..))
  have hrest : ∀ (buffer : ℕ → UInt8) {n i : ℕ}, n < i → Function.update buffer 0 0 i = buffer i :=
    fun buffer n i hi => Function.update_of_ne (Nat.ne_of_gt (Nat.zero_lt_of_lt hi)) _ _
  unfold joinArgs at h
  obtain ⟨token, k₁, hnext, hloop⟩ := bind_eq_ok.1 h
  have htables : k₁.toTables = k.toTables := P.quiet_strtok 0 hnext
  obtain ⟨l, hl, -, hroom, hbehind, hothers⟩ := joinLoop_rooms (htables ▸ hs) (hempty buffer) hloop
  refine ⟨l, hl, hroom hpos, fun i hi => (hbehind i hi).trans (hrest buffer hi), ?_⟩
  intro room' buffer' hfit
  obtain ⟨b', hloop', hb', hbehind'⟩ := hothers room' _ (hempty buffer') hfit
  refine ⟨b', ?_, hb', fun i hi => (hbehind' i hi).trans (hrest buffer' hi)⟩
  unfold joinArgs
  exact (bind_of_ok hnext _).trans hloop'

/-! ## What a call has read when it comes back -/

/-- The bytes behind the token were there before `strtok` cut it off. -/
theorem TokenEnd.holds_before {k k' : Kernel} (hs : P.Space k.toTables) {s : UInt32} {m : ℕ}
    {l : List UInt8} (hend : P.TokenEnd k (s + UInt32.ofNat m) delim k')
    (hl : Holds (P.bytesAt k' k'.last) l) : Holds (fun i => P.bytesAt k s (m + 1 + i)) l := by
  rcases hend with ⟨h0, -⟩ | ⟨-, a, htr, -, rfl⟩
  · exact absurd h0 (by decide)
  · have hlast : s + UInt32.ofNat m + 1 = s + UInt32.ofNat (m + 1) :=
      Word32.add_ofNat_add_ofNat s m 1
    have hsize : l.length ≤ 0x744000 := by
      refine length_le_of_bytesAt (p := s + UInt32.ofNat m + 1)
        (k := { k with mem := Function.update k.mem a 0, last := s + UInt32.ofNat m + 1 }) hs
        fun i hi => ?_
      exact fun hnone => Option.some_ne_none _ ((hl.bytes i hi).symm.trans hnone)
    dsimp only at hl
    rw [hlast, bytesAt_add] at hl
    refine ⟨fun i hi => ?_, ?_, hl.clean⟩
    · rw [← hl.bytes i hi]
      symm
      exact bytesAt_update_of_ne hs htr rfl rfl (by omega) (by omega) (by omega)
    · rw [← hl.stop]
      symm
      exact bytesAt_update_of_ne hs htr rfl rfl (by omega) (by omega) (by omega)

/-- **What `strtok` has gone through is a string** if what it has left is one. -/
theorem pending_of_strtok {p s r : UInt32} {k k' : Kernel} (hspace : P.Space k.toTables)
    (hs : s = if p = 0 then k.last else p) (h : P.strtok p k = .ok r k')
    (hrest : r ≠ 0 → ∃ ws, P.Pending k' k'.last ws) : ∃ ws, P.Pending k s ws := by
  rcases strtok_ok hs h with ⟨h0, -, -⟩ | ⟨h0, -, -, m, hskip, hstop⟩ |
    ⟨h0, m, w, c, htoken, rfl, hend⟩
  · exact ⟨[], Or.inl ⟨h0, rfl⟩⟩
  · have hblank : Holds (P.bytesAt k s) (List.replicate m delim) := by
      refine ⟨fun i hi => ?_, ?_, zero_notMem_replicate m⟩
      · rw [List.length_replicate] at hi
        rw [List.getElem_replicate]
        exact hskip i hi
      · rw [List.length_replicate]
        exact hstop
    exact ⟨_, Or.inr ⟨h0, _, hblank, rfl⟩⟩
  · obtain ⟨ws, hws⟩ := hrest (ne_zero_of_firstToken hspace htoken)
    rcases htoken.ends with rfl | rfl
    · exact ⟨_, Or.inr ⟨h0, _, htoken.holds, rfl⟩⟩
    · rcases hws with ⟨hnull, -⟩ | ⟨-, l, hl, -⟩
      · exact absurd hnull (hend.last_ne_zero hspace)
      · exact ⟨_, Or.inr ⟨h0, _, htoken.holds_more (hend.holds_before hspace hl), rfl⟩⟩

/-- The loop over the arguments has read a string. -/
theorem pending_of_joinLoop {room n : ℕ} {token : UInt32} {buffer b : ℕ → UInt8} {ptr : ℕ}
    {k k' : Kernel} (hs : P.Space k.toTables) (h0 : token ≠ 0)
    (h : P.joinLoop room n token buffer ptr k = .ok b k') : ∃ ws, P.Pending k k.last ws := by
  induction n generalizing token buffer ptr k with
  | zero => exact (throw_eq_ok.1 h).elim
  | succ n ih =>
    obtain ⟨w, b₁, ptr', token', k₁, -, hnext, hloop⟩ := joinLoop_succ_ok h0 h
    have htables : k₁.toTables = k.toTables := P.quiet_strtok 0 hnext
    exact pending_of_strtok hs (if_pos rfl).symm hnext fun h0' => ih (htables ▸ hs) h0' hloop

theorem pending_of_joinArgs {room : ℕ} {buffer b : ℕ → UInt8} {k k' : Kernel}
    (hs : P.Space k.toTables) (h : P.joinArgs room buffer k = .ok b k') :
    ∃ ws, P.Pending k k.last ws := by
  unfold joinArgs at h
  obtain ⟨token, k₁, hnext, hloop⟩ := bind_eq_ok.1 h
  have htables : k₁.toTables = k.toTables := P.quiet_strtok 0 hnext
  exact pending_of_strtok hs (if_pos rfl).symm hnext fun h0 =>
    pending_of_joinLoop (htables ▸ hs) h0 hloop

/-! ## The calls that overrun buffer -/

theorem Pending.inj {k : Kernel} {s : UInt32} {ws ws' : List (List UInt8)}
    (h : P.Pending k s ws) (h' : P.Pending k s ws') : ws = ws' := by
  rcases h with ⟨h0, rfl⟩ | ⟨h0, l, hl, rfl⟩ <;> rcases h' with ⟨h0', rfl⟩ | ⟨h0', l', hl', rfl⟩
  · rfl
  · exact absurd h0 h0'
  · exact absurd h0' h0
  · rw [hl.inj hl']

theorem Pending.ne_nil {k : Kernel} {s : UInt32} {ws : List (List UInt8)}
    (h : P.Pending k s ws) : ∀ w ∈ ws, w ≠ [] := by
  rintro w hw
  rcases h with ⟨-, rfl⟩ | ⟨-, l, -, rfl⟩
  · cases hw
  · exact (mem_words hw).1

/-- The first word is the name of the file, and the others are left. -/
theorem findProgram_pending {command : UInt32} {k k' : Kernel} {found : Option Dentry}
    {ws : List (List UInt8)} (hs : P.Space k.toTables)
    (hws : P.Pending k (if command = 0 then k.last else command) ws)
    (h : P.findProgram command k = .ok found k') :
    found = P.programOf ws ∧ (found ≠ none → P.Pending k' k'.last ws.tail) := by
  obtain ⟨token, hnext, hfound⟩ := findProgram_ok h
  rcases strtok_pending hs rfl hws hnext with ⟨rfl, rfl⟩ | ⟨w, ws', rfl, h0, hw, hrest⟩
  · rcases hfound with ⟨-, rfl⟩ | ⟨hne, -⟩
    · exact ⟨rfl, fun hsome => absurd rfl hsome⟩
    · exact absurd rfl hne
  · rcases hfound with ⟨hnull, -⟩ | ⟨-, w', hw', rfl⟩
    · exact absurd hnull h0
    · obtain rfl := hw'.inj hw
      exact ⟨rfl, fun _ => hrest⟩

/-- A command whose arguments have been read is a string. -/
theorem exists_pending {command : UInt32} {k k₁ k₂ : Kernel} {found : Option Dentry} {room : ℕ}
    {buffer b : ℕ → UInt8} (hs : P.Space k.toTables) (hfind : P.findProgram command k = .ok found k₁)
    (hjoin : P.joinArgs room buffer k₁ = .ok b k₂) :
    ∃ ws, P.Pending k (if command = 0 then k.last else command) ws := by
  obtain ⟨token, hnext, -⟩ := findProgram_ok hfind
  have htables : k₁.toTables = k.toTables := P.quiet_strtok command hnext
  exact pending_of_strtok hs rfl hnext fun _ => pending_of_joinArgs (htables ▸ hs) hjoin

/-- What the loop makes of the words that are left, in an array of any size. -/
theorem joinArgs_words {room : ℕ} (hpos : 0 < room) {buffer b : ℕ → UInt8} {k k' : Kernel}
    {ws : List (List UInt8)} (hs : P.Space k.toTables) (hws : P.Pending k k.last ws)
    (h : P.joinArgs room buffer k = .ok b k') :
    let args := [delim].intercalate ws
    Holds (fun i => some (b i)) args ∧ args.length < room ∧
      (∀ i, args.length < i → b i = buffer i) ∧
      ∀ room' buffer', args.length < room' → ∃ b', P.joinArgs room' buffer' k = .ok b' k' ∧
        Holds (fun i => some (b' i)) args ∧ ∀ i, args.length < i → b' i = buffer' i := by
  obtain ⟨l, hl, hrest⟩ := joinArgs_rooms hpos hs h
  obtain rfl := hl.inj (joinArgs_ok hs hws hws.ne_nil h)
  exact ⟨hl, hrest⟩

variable (P) in
/-- The call of `execute` is for an executable file, and the arguments and the zero behind them
do not fit in `buffer`. -/
def Overruns (k : Kernel) (command : UInt32) : Prop :=
  ∃ ws d, P.Pending k (if command = 0 then k.last else command) ws ∧ P.programOf ws = some d ∧
    P.isExecutable d.inodeNum = true ∧ bufferSize ≤ ([delim].intercalate ws.tail).length

theorem header_of_isExecutable {inode : UInt32} (h : P.isExecutable inode = true) :
    (readData P.fs inode 0 4).2.length ≤ 4 := by
  have hheader := ((Bool.and_eq_true _ _).mp h).2
  rw [eq_of_beq hheader]
  exact le_refl _

/-- A call that comes to an end does so with the locals behind `buffer` as well. -/
theorem executeOver_of_execute {command : UInt32} {k k' : Kernel} {r : ExecResult}
    (hs : P.Space k.toTables) (h : P.execute command k = .ok r k') :
    P.executeOver command k = .ok r k' ∧ ¬P.Overruns k command := by
  unfold executeOver
  rcases P.execute_cases h with ⟨rfl, -, found, hfind, hnot⟩ |
    ⟨d, k₁, b, k₂, hfind, hexec, hjoin, htables₂, hlaunch⟩
  · rw [bind_of_ok hfind]
    constructor
    · cases found with
      | none => rfl
      | some d => exact congrFun (if_pos (hnot d rfl)) k'
    · rintro ⟨ws, d, hws, hd, hexec, -⟩
      have hfound := (findProgram_pending hs hws hfind).1
      exact absurd hexec (by simp [hnot d (hfound.trans hd)])
  · have htables : k₁.toTables = k.toTables := P.quiet_findProgram command hfind
    obtain ⟨ws, hws⟩ := exists_pending hs hfind hjoin
    obtain ⟨hd, htail⟩ := findProgram_pending hs hws hfind
    obtain ⟨hargs, hfit, -, hothers⟩ :=
      joinArgs_words (by decide) (htables ▸ hs) (htail (Option.some_ne_none d)) hjoin
    constructor
    · obtain ⟨b', hjoin', hargs', hbehind⟩ := hothers localsSize
        (initLocals (readData P.fs d.inodeNum 0 4).2) (lt_trans hfit (by decide))
      rw [bind_of_ok hfind]
      dsimp only
      rw [if_neg (by simp [hexec]), bind_of_ok hjoin', ← hlaunch]
      refine launchOver_eq (htables₂ ▸ hs) ?_ hargs' hargs hfit
      exact imageOf_fits ((header_of_isExecutable hexec).trans (by decide))
        (lt_trans hfit (by decide)) hbehind
    · rintro ⟨ws', d', hws', -, -, hlong⟩
      obtain rfl := hws'.inj hws
      exact absurd hfit (not_lt.2 hlong)

/-- A call with arguments that fit does not look at the locals behind `buffer`. -/
theorem execute_of_executeOver {command : UInt32} {k k' : Kernel} {r : ExecResult}
    (hs : P.Space k.toTables) (h : P.executeOver command k = .ok r k')
    (hfits : ¬P.Overruns k command) : P.execute command k = .ok r k' := by
  unfold executeOver at h
  unfold execute
  obtain ⟨found, k₁, hfind, h⟩ := bind_eq_ok.1 h
  rw [bind_of_ok hfind]
  cases found with
  | none => exact h
  | some d =>
    dsimp only at h ⊢
    by_cases hexec : P.isExecutable d.inodeNum = false
    · rw [if_pos hexec] at h ⊢
      exact h
    rw [if_neg hexec] at h ⊢
    rw [Bool.not_eq_false] at hexec
    obtain ⟨b, k₂, hjoin, hlaunch⟩ := bind_eq_ok.1 h
    have htables : k₁.toTables = k.toTables := P.quiet_findProgram command hfind
    have htables₂ : k₂.toTables = k₁.toTables := P.quiet_joinArgs _ _ hjoin
    obtain ⟨ws, hws⟩ := exists_pending hs hfind hjoin
    obtain ⟨hd, htail⟩ := findProgram_pending hs hws hfind
    obtain ⟨hargs, -, hbehind, hothers⟩ :=
      joinArgs_words (by decide) (htables ▸ hs) (htail (Option.some_ne_none d)) hjoin
    have hfit : ([delim].intercalate ws.tail).length < bufferSize := by
      by_contra hlong
      exact hfits ⟨ws, d, hws, hd.symm, hexec, not_lt.1 hlong⟩
    obtain ⟨b', hjoin', hargs', -⟩ := hothers bufferSize
      (Bytes.writeAt (fun _ => 0) 0 (readData P.fs d.inodeNum 0 4).2) hfit
    rw [bind_of_ok hjoin', ← hlaunch]
    refine (launchOver_eq ?_ ?_ hargs hargs' hfit).symm
    · exact htables₂ ▸ htables ▸ hs
    · exact imageOf_fits ((header_of_isExecutable hexec).trans (by decide))
        (lt_trans hfit (by decide)) hbehind

/-- **`execute` is the calls that do not overrun `buffer`.** -/
theorem execute_iff {command : UInt32} {k k' : Kernel} {r : ExecResult} (hs : P.Space k.toTables) :
    P.execute command k = .ok r k' ↔ P.executeOver command k = .ok r k' ∧ ¬P.Overruns k command :=
  ⟨executeOver_of_execute hs, fun h => execute_of_executeOver hs h.1 h.2⟩

/-! ## Over a run -/

variable (P) in
/-- The event is no call of `execute` that overruns `buffer`. -/
def Fits (m : Machine) (e : Event) : Prop :=
  ∀ command regs, e = .call (.execute command) regs → ¬P.Overruns (m.enter regs) command

theorem fits_execute {m : Machine} {command : UInt32} {regs : Regs} :
    P.Fits m (.call (.execute command) regs) ↔ ¬P.Overruns (m.enter regs) command := by
  refine ⟨fun h => h command regs rfl, fun h command' regs' heq => ?_⟩
  cases heq
  exact h

theorem callOver_eq {m : Machine} {c : Call} {regs : Regs} (h : ∀ command, c ≠ .execute command) :
    P.callOver m c regs = P.call m c regs := by
  cases c with
  | execute command => exact absurd rfl (h command)
  | halt status => rfl
  | plain c => rfl

/-- The call of `execute`, in the two machines. -/
theorem call_execute_iff {m m' : Machine} {command : UInt32} {regs : Regs}
    (hs : P.Space (m.enter regs).toTables) : P.call m (.execute command) regs = some m' ↔
      P.callOver m (.execute command) regs = some m' ∧ ¬P.Overruns (m.enter regs) command := by
  unfold call callOver
  dsimp only
  cases h : P.execute command (m.enter regs) with
  | ok r k =>
    obtain ⟨hover, hfits⟩ := (execute_iff hs).1 h
    rw [hover]
    exact ⟨fun hm => ⟨hm, hfits⟩, And.left⟩
  | error e k =>
    cases hover : P.executeOver command (m.enter regs) with
    | ok r k₁ =>
      refine ⟨fun hm => (Option.some_ne_none _ hm.symm).elim, fun hm => ?_⟩
      rw [(execute_iff hs).2 ⟨hover, hm.2⟩] at h
      cases h
    | error e' k₁ => exact ⟨fun hm => (Option.some_ne_none _ hm.symm).elim, And.left⟩

/-- **The steps of the machine are those that do not overrun `buffer`.** -/
theorem step_iff {m m' : Machine} {e : Event} (hm : P.Reachable m) :
    P.step m e = some m' ↔ P.stepOver m e = some m' ∧ P.Fits m e := by
  cases e with
  | store va b => exact ⟨fun h => ⟨h, by simp [Fits]⟩, And.left⟩
  | call c regs =>
    unfold step stepOver
    dsimp only
    by_cases hregs : 0 < regs.depth ∧ regs.depth ≤ stackRoom
    · rw [if_pos hregs, if_pos hregs]
      cases c with
      | execute command =>
        rw [call_execute_iff (space_enter hm regs), fits_execute]
      | halt status =>
        rw [callOver_eq (by simp)]
        exact ⟨fun h => ⟨h, by simp [Fits]⟩, And.left⟩
      | plain c =>
        rw [callOver_eq (by simp)]
        exact ⟨fun h => ⟨h, by simp [Fits]⟩, And.left⟩
    · rw [if_neg hregs, if_neg hregs]
      exact ⟨fun h => (Option.some_ne_none _ h.symm).elim, And.left⟩

/-- **The runs of the machine are those in which no call overruns `buffer`.** -/
theorem run_iff {m₀ m : Machine} {es : List Event} (hm : P.Reachable m₀) :
    Run.run P.step m₀ es = some m ↔
      Run.run P.stepOver m₀ es = some m ∧ Run.Steps P.stepOver (fun s e _ => P.Fits s e) m₀ es :=
  Run.run_iff_steps (I := P.Reachable) (fun _ _ _ h hs => h.step hs) (fun _ _ _ h => step_iff h) hm

/-! ## Isolation -/

/-- **Programs reach their own page and the screen that was mapped for them, and nothing
else**, after every sequence of events in which no call of `execute` overruns its buffer.
What the kernel reaches stays what it was. -/
theorem user_isolation (P : Platform) {m₀ m : Machine} {es : List Event} (hboot : P.Boot m₀)
    (hrun : Run.run P.stepOver m₀ es = some m)
    (hfits : Run.Steps P.stepOver (fun s e _ => P.Fits s e) m₀ es) :
    Run.run P.step m₀ es = some m ∧
    (m.frames ≠ [] → ∀ w va,
      (0x08000000 ≤ va → va < 0x08400000 → P.translate m.kernel.toTables .user w va
        = some (0x800000 + m.kernel.currProcess * 0x400000 + (va - 0x08000000))) ∧
      (P.Shown m₀ es → 0x08400000 ≤ va → va < 0x08401000 →
        P.translate m.kernel.toTables .user w va = some (0xB8000 + (va - 0x08400000))) ∧
      (¬(0x08000000 ≤ va ∧ va < 0x08400000) →
        ¬(P.Shown m₀ es ∧ 0x08400000 ≤ va ∧ va < 0x08401000) →
        P.translate m.kernel.toTables .user w va = none)) ∧
    (∀ w va, 0x400000 ≤ va → va < 0x800000 →
      P.translate m.kernel.toTables .supervisor w va = some va ∧
      P.translate m₀.kernel.toTables .supervisor w va = some va) ∧
    (∀ w va, 0xB8000 ≤ va → va < 0xBC000 →
      P.translate m.kernel.toTables .supervisor w va = some va ∧
      P.translate m₀.kernel.toTables .supervisor w va = some va) := by
  have hinside : Run.run P.step m₀ es = some m :=
    (run_iff ⟨m₀, [], hboot, rfl⟩).2 ⟨hrun, hfits⟩
  exact ⟨hinside, isolated_run P hboot hinside⟩

/-- A program maps the screen and writes to it. -/
theorem user_isolation_vidmap :
    ∃ m, Run.run samplePlatform.step sampleBoot
        [.call (.execute 0x500000) ⟨64, 0x7FFFF0⟩,
         .call (.plain (.vidmap 0x8050000)) ⟨64, 0x7FBFF0⟩] = some m ∧
      samplePlatform.translate m.kernel.toTables .user .write 0x08400010 = some 0xB8010 ∧
      samplePlatform.translate m.kernel.toTables .user .write 0x08401000 = none := by
  have hrun : (Run.run samplePlatform.step sampleBoot
      [.call (.execute 0x500000) ⟨64, 0x7FFFF0⟩]).any (fun m₁ => decide (m₁.frames ≠ []) &&
        (samplePlatform.step m₁ (.call (.plain (.vidmap 0x8050000)) ⟨64, 0x7FBFF0⟩)).any fun m =>
          decide (m.frames ≠ []) && decide (m.eax = 0)) = true := by
    decide +kernel
  simp only [Option.any_eq_true, Bool.and_eq_true, decide_eq_true_eq] at hrun
  obtain ⟨m₁, hm₁, hlive₁, m, hm, hlive, heax⟩ := hrun
  have hstart : samplePlatform.step sampleBoot (.call (.execute 0x500000) ⟨64, 0x7FFFF0⟩)
      = some m₁ := by
    obtain ⟨u, hu, hnil⟩ := Run.run_cons_eq_some.1 hm₁
    cases hnil
    exact hu
  have hall : Run.run samplePlatform.step sampleBoot
      [.call (.execute 0x500000) ⟨64, 0x7FFFF0⟩,
       .call (.plain (.vidmap 0x8050000)) ⟨64, 0x7FBFF0⟩] = some m :=
    Run.run_cons_eq_some.2 ⟨m₁, hstart, Run.run_cons_eq_some.2 ⟨m, hm, rfl⟩⟩
  have hshown : samplePlatform.Shown sampleBoot
      [.call (.execute 0x500000) ⟨64, 0x7FFFF0⟩,
       .call (.plain (.vidmap 0x8050000)) ⟨64, 0x7FBFF0⟩] :=
    ⟨m₁, hstart, Or.inr ⟨m, hm, Or.inl ⟨rfl, heax⟩⟩⟩
  have hboot : samplePlatform.Boot sampleBoot := boot_bootMachine _ _
  obtain ⟨hover, hfits⟩ := (run_iff ⟨_, [], hboot, rfl⟩).1 hall
  obtain ⟨-, hiso⟩ := user_isolation samplePlatform hboot hover hfits
  refine ⟨m, hall, ?_, ?_⟩
  · exact (hiso.1 hlive .write 0x08400010).2.1 hshown (by decide) (by decide)
  · refine (hiso.1 hlive .write 0x08401000).2.2 (by decide) ?_
    rintro ⟨-, -, h⟩
    exact absurd h (by decide)

/-- An executable file whose bytes 4 to 7 are an entry of a page directory: a page of 4 MB at
4 MB, for programs too. -/
def overPlatform : Platform :=
  { sampleLayout with
    fs := memoryOf
      [(0, Bytes.wordBytes 2 ++ Bytes.wordBytes 2 ++ Bytes.wordBytes 1),
       (64, dentryBytes ".".toUTF8.toList fileTypeDir 0),
       (128, dentryBytes "sh".toUTF8.toList fileTypeFile 1),
       (8192, Bytes.wordBytes 28 ++ Bytes.wordBytes 0),
       (12288, [0x7F, 0x45, 0x4C, 0x46] ++ Bytes.wordBytes 0x00400087
         ++ List.replicate 16 0 ++ Bytes.wordBytes 0x8048020)] }

/-- The command `sh`, and in the page of the first program the command with 160 letters and
the three low bytes of an address in `page_directory`. -/
def overBoot : Machine :=
  bootMachine overPlatform [(0x500000, "sh".toUTF8.toList),
    (0x850000, "sh ".toUTF8.toList ++ List.replicate 160 0x61 ++ [0x8C, 0xA0, 0x41])]

/-- The program runs the second command. -/
def overEvents : List Event :=
  [.call (.execute 0x500000) ⟨64, 0x7FFFF0⟩, .call (.execute 0x8050000) ⟨64, 0x7FBFF0⟩]

/-- The file is loaded over the page directory, and the program that is started reaches the
kernel. -/
theorem isolation_overrun : overPlatform.Boot overBoot ∧
    ∃ m, Run.run overPlatform.stepOver overBoot overEvents = some m ∧ m.frames ≠ [] ∧
      overPlatform.translate m.kernel.toTables .user .write 0x09000000 = some 0x400000 := by
  have hrun : (Run.run overPlatform.stepOver overBoot overEvents).any (fun m =>
      decide (m.frames ≠ []) && decide (overPlatform.translate m.kernel.toTables .user .write
        0x09000000 = some 0x400000)) = true := by
    decide +kernel
  obtain ⟨m, hm, hreach⟩ := (Option.any_eq_true ..).mp hrun
  rw [Bool.and_eq_true, decide_eq_true_eq, decide_eq_true_eq] at hreach
  exact ⟨boot_bootMachine _ _, m, hm, hreach⟩

end Platform

end CheetOS
