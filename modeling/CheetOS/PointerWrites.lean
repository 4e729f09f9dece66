import CheetOS.Lib.Trace
import CheetOS.LineEcho
import CheetOS.VideoMapping

/-!
# What the kernel writes through a user's pointer

`read`, `getargs` and `vidmap` store through a pointer that the program passes.

* `readRoutine`, `getargsRoutine` and `vidmapRoutine` write the three calls out as what they
  store and what else they do, `sysRead_eq_play` and the like say that they are the calls;
* `KernelReaches` is where the kernel can write, and `StaysInPage` says that a buffer is
  either in the user page or not there at all;
* `pointer_writes` — `vidmap` stays in the user page, and the other two do exactly for
  such buffers: they look at the pointer no further than whether it is `NULL`.
-/

namespace CheetOS

open Exec Trace

/-! ## The calls, written out -/

/-- `putc`. -/
def echo (c : UInt8) : Act Kernel := .other fun k => { k with toScreen := k.toScreen.putc c }

/-- `clear`. -/
def wipe : Act Kernel := .other fun k => { k with toScreen := k.toScreen.clear }

/-- A new value for a descriptor of the running process. -/
def assign (i : Fin numMaxOpenFiles) (f : FileDesc) : Act Kernel :=
  .other fun k => { k with toTables := k.toTables.setFile i f }

/-- A call that is refused. -/
def refused : Routine Stop Kernel Int32 := ⟨[], .ok (-1)⟩

/-- `getline`. -/
def lineRoutine (buf : UInt32) (limit : Int32) : List UInt8 → UInt32 → Routine Stop Kernel Int32
  | [], _ => ⟨[], .error .waiting⟩
  | key :: keys, lp =>
    if IsEnter key then ⟨[.write lp 0, echo 0x0A], .ok (lp - buf).toInt32⟩
    else if IsErase key then
      if lp > buf then (lineRoutine buf limit keys (lp - 1)).after [echo 0x08]
      else lineRoutine buf limit keys lp
    else if maskKey key = 0x0C then (lineRoutine buf limit keys buf).after [wipe]
    else if (lp - buf).toInt32 ≥ limit then lineRoutine buf limit keys lp
    else if IsPrintable key then
      (lineRoutine buf limit keys (lp + 1)).after [.write lp (maskKey key), echo (maskKey key)]
    else lineRoutine buf limit keys lp

theorem lineRoutine_cons (buf : UInt32) (limit : Int32) (key : UInt8) (keys : List UInt8)
    (lp : UInt32) :
    lineRoutine buf limit (key :: keys) lp =
      if IsEnter key then ⟨[.write lp 0, echo 0x0A], .ok (lp - buf).toInt32⟩
      else if IsErase key then
        if lp > buf then (lineRoutine buf limit keys (lp - 1)).after [echo 0x08]
        else lineRoutine buf limit keys lp
      else if maskKey key = 0x0C then (lineRoutine buf limit keys buf).after [wipe]
      else if (lp - buf).toInt32 ≥ limit then lineRoutine buf limit keys lp
      else if IsPrintable key then
        (lineRoutine buf limit keys (lp + 1)).after [.write lp (maskKey key), echo (maskKey key)]
      else lineRoutine buf limit keys lp := rfl

/-- `terminal_read`. -/
def terminalRoutine (fd : Int32) (buffer numChars : UInt32) (input : Input) :
    Routine Stop Kernel Int32 :=
  if fd ≠ 0 then refused
  else if buffer = 0 then refused
  else
    let numChars := if numChars > Platform.maxInputChars then Platform.maxInputChars else numChars
    lineRoutine buffer numChars.toInt32 input.keys buffer

/-- `rtc_read`. -/
def rtcRoutine (rtc : Rtc) (input : Input) : Routine Stop Kernel Int32 :=
  let rtc := if input.tick then rtcInterruptHandler rtc else rtc
  if rtc.intflag then ⟨[.other fun k => { k with rtc := { rtc with intflag := false } }], .ok 0⟩
  else ⟨[], .error .waiting⟩

namespace Platform

variable (P : Platform)

/-- `file_read`. -/
def fileRoutine (f : FileDesc) (fd : Int32) (buf : UInt32) (nbytes : Int32) :
    Routine Stop Kernel Int32 :=
  if fd = 1 ∨ fd = 0 then refused
  else
    let (read, bytes) := readData P.fs f.inodeNum f.filePosition nbytes.toUInt32
    ⟨storeAll buf bytes ++
      [assign (slot fd) { f with filePosition := f.filePosition + read.toUInt32 }], .ok read⟩

/-- `directory_read`. -/
def directoryRoutine (f : FileDesc) (fd : Int32) (buf : UInt32) : Routine Stop Kernel Int32 :=
  match readDentryByIndex P.fs f.filePosition with
  | none => refused
  | some newDirent =>
    ⟨assign (slot fd) { f with filePosition := f.filePosition + 1 }
      :: storeAll buf (entryName newDirent ++ [0]),
      .ok (Int32.ofNat (entryName newDirent).length)⟩

/-- `read`. -/
def readRoutine (k : Kernel) (fd : Int32) (buf : UInt32) (nbytes : Int32) (input : Input) :
    Routine Stop Kernel Int32 :=
  if 7 < fd ∨ fd < 0 then refused
  else
    let f := k.fileArray (slot fd)
    if f.flags = fileAvail then refused
    else if f.fileOpsTablePtr = P.terminalOps then terminalRoutine fd buf nbytes.toUInt32 input
    else if f.fileOpsTablePtr = P.fileOps then P.fileRoutine f fd buf nbytes
    else if f.fileOpsTablePtr = P.directoryOps then P.directoryRoutine f fd buf
    else if f.fileOpsTablePtr = P.rtcOps then rtcRoutine k.rtc input
    else ⟨[], .error .undefined⟩

/-- `vidmap`. -/
def vidmapRoutine (screenStart : UInt32) : Routine Stop Kernel Int32 :=
  if screenStart = 0 ∨ screenStart < pageTop ∨ screenStart > pageBottom then refused
  else
    ⟨storeAll screenStart (Bytes.wordBytes 0x10000000) ++
      (.other fun k => { k with toTables := P.mapVideo k.toTables }) ::
        storeAll screenStart (Bytes.wordBytes pageVidmem), .ok 0⟩

end Platform

/-- `getargs`. -/
def getargsRoutine (k : Kernel) (buf : UInt32) (nbytes : Int32) : Routine Stop Kernel Int32 :=
  if buf = 0 then refused
  else
    let pcb := k.pcb (currentPcbAddr k.toTables)
    if pcb.arg 0 = 0 then refused
    else if nbytes < pcb.numCharInArg.toUInt32.toInt32 then refused
    else
      match Bytes.stringAt terminalBufferSize pcb.arg with
      | none => ⟨[], .error .undefined⟩
      | some arg => ⟨storeAll buf (arg ++ [0]), .ok 0⟩

namespace Platform

variable (P : Platform)

theorem perform_storeAll (va : UInt32) (bs : List UInt8) :
    perform P.storeByte (storeAll va bs) = P.storeBytes va bs := by
  induction bs generalizing va with
  | nil => rfl
  | cons b bs ih =>
    show (P.storeByte va b >>= fun _ => perform P.storeByte (storeAll (va + 1) bs)) = _
    rw [ih]
    rfl

theorem play_storeAll (va : UInt32) (bs : List UInt8) (r : Int32) :
    play P.storeByte (⟨storeAll va bs, .ok r⟩ : Routine Stop Kernel Int32) = (do
      P.storeBytes va bs
      return r) := by
  rw [← perform_storeAll]
  rfl

theorem getline_eq_play (buf : UInt32) (limit : Int32) (keys : List UInt8) (lp : UInt32) :
    P.getline buf limit keys lp = play P.storeByte (lineRoutine buf limit keys lp) := by
  induction keys generalizing lp with
  | nil => rfl
  | cons key keys ih =>
    rw [getline_cons, lineRoutine_cons]
    split_ifs with henter herase hback hclear hfull hprint
    · exact (play_write P.storeByte lp 0 [echo 0x0A] (.ok (lp - buf).toInt32)).symm
    · rw [ih]
      rfl
    · exact ih lp
    · rw [ih]
      rfl
    · exact ih lp
    · rw [ih]
      exact (play_write P.storeByte lp (maskKey key)
        (echo (maskKey key) :: (lineRoutine buf limit keys (lp + 1)).acts)
        (lineRoutine buf limit keys (lp + 1)).result).symm
    · exact ih lp

theorem terminalRead_eq_play (fd : Int32) (buffer numChars : UInt32) (input : Input) :
    P.terminalRead fd buffer numChars input
      = play P.storeByte (terminalRoutine fd buffer numChars input) := by
  unfold terminalRead terminalRoutine
  by_cases hfd : fd ≠ 0
  · rw [if_pos hfd, if_pos hfd]
    rfl
  · rw [if_neg hfd, if_neg hfd]
    by_cases hnull : buffer = 0
    · rw [if_pos hnull, if_pos hnull]
      rfl
    · rw [if_neg hnull, if_neg hnull]
      exact P.getline_eq_play _ _ _ _

theorem directoryRead_eq_play (fd : Int32) (buf : UInt32) (nbytes : Int32) (k : Kernel) :
    P.directoryRead fd buf nbytes k
      = play P.storeByte (P.directoryRoutine (k.fileArray (slot fd)) fd buf) k := by
  unfold directoryRead directoryRoutine
  rw [getFileArray_bind]
  cases readDentryByIndex P.fs (k.fileArray (slot fd)).filePosition with
  | none => rfl
  | some d =>
    dsimp only
    unfold assign
    rw [play_other, play_storeAll]
    rfl

theorem sysRead_eq_play (fd : Int32) (buf : UInt32) (nbytes : Int32) (input : Input)
    (k : Kernel) :
    P.sysRead fd buf nbytes input k
      = play P.storeByte (P.readRoutine k fd buf nbytes input) k := by
  unfold sysRead readRoutine
  rw [getFileArray_bind]
  dsimp only
  split_ifs with hout hfree hterminal hfile hdirectory hrtc
  · rfl
  · rfl
  · rw [P.terminalRead_eq_play]
  · unfold fileRead fileRoutine
    rw [getFileArray_bind]
    split_ifs
    · rfl
    · dsimp only
      rw [play_append, perform_storeAll]
      rfl
  · exact P.directoryRead_eq_play fd buf nbytes k
  · unfold rtcRead rtcRoutine
    rw [get_bind_run]
    dsimp only
    split_ifs <;> rfl
  · rfl

theorem getargs_eq_play (buf : UInt32) (nbytes : Int32) (k : Kernel) :
    P.getargs buf nbytes k = play P.storeByte (getargsRoutine k buf nbytes) k := by
  unfold getargs getargsRoutine
  by_cases hnull : buf = 0
  · rw [if_pos hnull, if_pos hnull]
    rfl
  · rw [if_neg hnull, if_neg hnull, get_bind_run]
    dsimp only
    split_ifs
    · rfl
    · rfl
    · cases Bytes.stringAt terminalBufferSize (k.pcb (currentPcbAddr k.toTables)).arg with
      | none => rfl
      | some arg =>
        dsimp only
        rw [← perform_storeAll]
        rfl

theorem vidmap_eq_play (screenStart : UInt32) (k : Kernel) :
    P.vidmap screenStart k = play P.storeByte (P.vidmapRoutine screenStart) k := by
  unfold vidmap vidmapRoutine
  split_ifs
  · rfl
  · rw [play_append, perform_storeAll, play_other, play_storeAll]
    rfl

end Platform

/-! ## Where the kernel can write -/

/-- The addresses of the user page. -/
def InUserPage (va : UInt32) : Prop := 0x08000000 ≤ va ∧ va < 0x08400000

/-- The addresses that are mapped for the kernel while a program runs: the screen, the
kernel, the user page, and the page of the screen for programs once it is mapped. -/
def KernelReaches (t : Tables) (va : UInt32) : Prop :=
  (0xB8000 ≤ va.toNat ∧ va.toNat < 0xBC000) ∨ (0x400000 ≤ va.toNat ∧ va.toNat < 0x800000) ∨
    (0x8000000 ≤ va.toNat ∧ va.toNat < 0x8400000) ∨
    (ScreenPresent t ∧ 0x8400000 ≤ va.toNat ∧ va.toNat < 0x8401000)

/-- A buffer of `n` bytes of which only bytes in the user page can be written: it is empty,
or it begins where nothing is mapped, or it begins in the user page and ends there, or
nothing is mapped behind the user page. -/
def StaysInPage (t : Tables) (buf : UInt32) (n : ℕ) : Prop :=
  n = 0 ∨ ¬KernelReaches t buf ∨
    (0x8000000 ≤ buf.toNat ∧ buf.toNat < 0x8400000 ∧
      (buf.toNat + n ≤ 0x8400000 ∨ ¬ScreenPresent t))

namespace Platform

variable (P : Platform)

/-- A store that page-faults has written nothing. -/
def lost (e : Stop) : Bool := decide (e = .fault)

/-- The addresses the kernel writes through the pointer. -/
def written (k : Kernel) (r : Routine Stop Kernel Int32) : List UInt32 :=
  writes P.storeByte lost k r.acts

/-- The call returns -1 and has written nothing through the pointer, or what it writes is
in the user page. -/
def Guarded (k : Kernel) (r : Routine Stop Kernel Int32) : Prop :=
  (∃ k', play P.storeByte r k = .ok (-1) k' ∧ P.written k r = []) ∨
    ∀ va ∈ P.written k r, InUserPage va

theorem guarded_iff (k : Kernel) (r : Routine Stop Kernel Int32) :
    P.Guarded k r ↔ ∀ va ∈ P.written k r, InUserPage va := by
  refine or_iff_right_of_imp ?_
  rintro ⟨-, -, hnil⟩ va hva
  rw [hnil] at hva
  cases hva

/-- The page tables are those of `t`. -/
def SamePages (t : Tables) (k : Kernel) : Prop := P.translate k.toTables = P.translate t

variable {P}

theorem inUserPage_iff (va : UInt32) :
    InUserPage va ↔ 0x8000000 ≤ va.toNat ∧ va.toNat < 0x8400000 := by
  unfold InUserPage
  rw [UInt32.le_iff_toNat_le, UInt32.lt_iff_toNat_lt]
  rfl

/-- What is mapped is what `KernelReaches` lists. -/
theorem kernelReaches_iff {m : Machine} (hm : P.Reachable m) (hlive : m.frames ≠ [])
    (va : UInt32) : (P.translate m.kernel.toTables .supervisor .write va).isSome ↔
      KernelReaches m.kernel.toTables va := by
  have hn := nested_reachable hm
  have hs := space_reachable hm
  obtain ⟨v, hmapped⟩ := hs.mapped
  have hpage := hn.userPage hlive
  constructor
  · intro hsome
    obtain ⟨a, ha⟩ := Option.isSome_iff_exists.1 hsome
    rcases translate_supervisor_cases hs ha with h | h | h | h
    · exact Or.inl ⟨h.1, h.2.1⟩
    · exact Or.inr (Or.inl ⟨h.1, h.2.1⟩)
    · exact Or.inr (Or.inr (Or.inl ⟨h.1, h.2.1⟩))
    · refine Or.inr (Or.inr (Or.inr ⟨?_, h.1, h.2.1⟩))
      by_contra hhidden
      rw [hmapped.screenPresent_iff] at hhidden
      have hindex : va >>> 22 = 33 := dirIndex_eq (by simp only [UInt32.reduceToNat]; omega)
      rw [translate_video_none hmapped .supervisor .write hindex (fun h => hhidden h.1)] at ha
      cases ha
  · rintro (⟨hlo, hhi⟩ | ⟨hlo, hhi⟩ | ⟨hlo, hhi⟩ | ⟨hscreen, hlo, hhi⟩)
    · rw [translate_screen hmapped .write (UInt32.le_iff_toNat_le.2 hlo)
        (UInt32.lt_iff_toNat_lt.2 hhi)]
      rfl
    · rw [translate_kernel hmapped .write (UInt32.le_iff_toNat_le.2 hlo)
        (UInt32.lt_iff_toNat_lt.2 hhi)]
      rfl
    · rw [translate_user_page hn.running_bound hpage .supervisor .write
        (UInt32.le_iff_toNat_le.2 hlo) (UInt32.lt_iff_toNat_lt.2 hhi)]
      rfl
    · rw [translate_user_video hmapped (hmapped.screenPresent_iff.1 hscreen) .supervisor .write
        (UInt32.le_iff_toNat_le.2 hlo) (UInt32.lt_iff_toNat_lt.2 hhi)]
      rfl

variable (P) in
/-- The memory as the stores of a call find it, as long as the page tables stay. -/
theorem maps_storeByte (t : Tables) :
    Maps P.storeByte lost (P.SamePages t)
      (fun va => (P.translate t .supervisor .write va).isSome)
      (fun va => ∃ a, P.translate t .supervisor .write va = some a ∧ P.kernelData a = false) where
  unmapped := by
    intro k va b hk hnone
    have hpages : P.translate k.toTables = P.translate t := hk
    have hfault : P.target k.toTables va = .error .fault := by
      unfold target
      rw [hpages, Option.not_isSome_iff_eq_none.1 hnone]
    refine ⟨.fault, k, ?_, rfl⟩
    unfold storeByte
    rw [get_bind_run, hfault]
    rfl
  mapped := by
    intro k va b hk hsome
    have hpages : P.translate k.toTables = P.translate t := hk
    obtain ⟨a, ha⟩ := Option.isSome_iff_exists.1 hsome
    rw [← hpages] at ha
    by_cases hdata : P.kernelData a = true
    · have hundefined : P.target k.toTables va = .error .undefined := by
        unfold target
        simp only [ha, hdata, if_true]
      refine Or.inr ⟨.undefined, k, ?_, rfl⟩
      unfold storeByte
      rw [get_bind_run, hundefined]
      rfl
    · exact Or.inl ⟨_, P.storeByte_run ha (Bool.not_eq_true _ ▸ hdata) b, hk⟩
  safe := by
    rintro k va b hk ⟨a, ha, hdata⟩
    have hpages : P.translate k.toTables = P.translate t := hk
    rw [← hpages] at ha
    exact ⟨_, P.storeByte_run ha hdata b, hk⟩

section Buffer

variable {m : Machine} (hm : P.Reachable m) (hlive : m.frames ≠ []) {k : Kernel}
  (hk : P.SamePages m.kernel.toTables k) {l : List (Act Kernel)} {buf : UInt32} {n : ℕ}
  (hcalm : Calm (P.SamePages m.kernel.toTables) l) (hsweeps : Sweeps buf 0 l n)

include hm hlive

/-- A byte in the user page can be stored. -/
theorem safe_of_inUserPage {va : UInt32} (hva : InUserPage va) :
    ∃ a, P.translate m.kernel.toTables .supervisor .write va = some a ∧
      P.kernelData a = false := by
  have hnat := (inUserPage_iff va).1 hva
  have hone : P.LineBuffer m.kernel.toTables va 0 :=
    lineBuffer_running (running_reachable hm hlive) hva.1 hnat.2
  obtain ⟨a, ha, hdata, -⟩ := hone 0 (le_refl 0)
  rw [Word32.add_ofNat_zero] at ha
  exact ⟨a, ha, hdata⟩

include hk hcalm hsweeps

/-- The first byte of a buffer that is mapped is written. -/
theorem first_written (hpos : 0 < n) (hreach : KernelReaches m.kernel.toTables buf) :
    buf ∈ writes P.storeByte lost k l := by
  have hmapped : (P.translate m.kernel.toTables .supervisor .write (buf + UInt32.ofNat 0)).isSome := by
    rw [kernelReaches_iff hm hlive, Word32.add_ofNat_zero]
    exact hreach
  have hwritten := writes_of_mapped (P.maps_storeByte m.kernel.toTables) hcalm hk hsweeps
    (le_refl 0) hpos (fun j hj => absurd hj (Nat.not_lt_zero j)) hmapped
  rwa [Word32.add_ofNat_zero] at hwritten

/-- So is the first byte behind the user page, if the buffer begins in the page and goes on
there, and the screen is mapped. -/
theorem behind_written (hlo : 0x8000000 ≤ buf.toNat) (hhi : buf.toNat < 0x8400000)
    (hend : 0x8400000 < buf.toNat + n) (hscreen : ScreenPresent m.kernel.toTables) :
    buf + UInt32.ofNat (0x8400000 - buf.toNat) ∈ writes P.storeByte lost k l := by
  have hnat : ∀ j ≤ 0x8400000 - buf.toNat, (buf + UInt32.ofNat j).toNat = buf.toNat + j := by
    intro j hj
    exact Word32.toNat_add_ofNat (by omega)
  refine writes_of_mapped (P.maps_storeByte m.kernel.toTables) hcalm hk hsweeps (Nat.zero_le _)
    (by omega) ?_ ?_
  · intro j hj
    refine safe_of_inUserPage hm hlive ((inUserPage_iff _).2 ?_)
    rw [hnat j (by omega)]
    omega
  · rw [kernelReaches_iff hm hlive]
    refine Or.inr (Or.inr (Or.inr ⟨hscreen, ?_⟩))
    rw [hnat _ (le_refl _)]
    omega

/-- Nothing outside the user page is written if the buffer stays in it. -/
theorem written_inUserPage (hstays : StaysInPage m.kernel.toTables buf n) :
    ∀ va ∈ writes P.storeByte lost k l, InUserPage va := by
  intro va hva
  obtain ⟨i, hi, rfl, hmapped⟩ := mem_writes (P.maps_storeByte m.kernel.toTables) hcalm hk hsweeps
    (fun j hj => absurd hj (Nat.not_lt_zero j)) hva
  have hreaches : ∀ j ≤ i, KernelReaches m.kernel.toTables (buf + UInt32.ofNat j) :=
    fun j hj => (kernelReaches_iff hm hlive _).1 (hmapped j hj)
  rcases hstays with rfl | hout | ⟨hlo, hhi, hend⟩
  · exact absurd hi (Nat.not_lt_zero i)
  · have hzero := hreaches 0 (Nat.zero_le i)
    rw [Word32.add_ofNat_zero] at hzero
    exact absurd hzero hout
  · have hinside : buf.toNat + i < 0x8400000 := by
      by_contra hpast
      rcases hend with hend | hhidden
      · omega
      · -- the byte behind the page would be mapped
        have hnat : (buf + UInt32.ofNat (0x8400000 - buf.toNat)).toNat = 0x8400000 := by
          rw [Word32.toNat_add_ofNat (by omega)]
          omega
        have hat := hreaches (0x8400000 - buf.toNat) (by omega)
        unfold KernelReaches at hat
        rw [hnat] at hat
        rcases hat with hat | hat | hat | hat
        · omega
        · omega
        · omega
        · exact hhidden hat.1
    rw [inUserPage_iff, Word32.toNat_add_ofNat (by omega)]
    exact ⟨hlo.trans (Nat.le_add_right _ _), hinside⟩

/-- **Bytes stored one after the other into a buffer stay in the user page** if and only if
the buffer does. -/
theorem writes_inUserPage_iff :
    (∀ va ∈ writes P.storeByte lost k l, InUserPage va) ↔
      StaysInPage m.kernel.toTables buf n := by
  refine ⟨fun hall => ?_, written_inUserPage hm hlive hk hcalm hsweeps⟩
  by_cases hempty : n = 0
  · exact Or.inl hempty
  by_cases hreach : KernelReaches m.kernel.toTables buf
  · right; right
    have hpos : 0 < n := Nat.pos_of_ne_zero hempty
    have hfirst := hall buf (first_written hm hlive hk hcalm hsweeps hpos hreach)
    rw [inUserPage_iff] at hfirst
    refine ⟨hfirst.1, hfirst.2, ?_⟩
    by_contra hout
    rw [not_or, not_not, not_le] at hout
    have hbehind := hall _
      (behind_written hm hlive hk hcalm hsweeps hfirst.1 hfirst.2 hout.1 hout.2)
    rw [inUserPage_iff, Word32.toNat_add_ofNat (by omega)] at hbehind
    omega
  · exact Or.inr (Or.inl hreach)

end Buffer

end Platform

/-! ## How much the calls store -/

/-- The bytes of the buffer that `getline` uses: the longest the line gets, and the NUL
that Enter puts behind it. -/
def lineReach (cap : ℕ) : List UInt8 → List UInt8 → ℕ
  | [], line => line.length
  | key :: keys, line =>
    if IsEnter key then line.length + 1
    else max line.length (lineReach cap keys (editKey cap line key))

/-- The bytes `getargs` has for the buffer. -/
def getargsSpan (k : Kernel) (buf : UInt32) (nbytes : Int32) : ℕ :=
  let pcb := k.pcb (currentPcbAddr k.toTables)
  if buf = 0 ∨ pcb.arg 0 = 0 ∨ nbytes < pcb.numCharInArg.toUInt32.toInt32 then 0
  else
    match Bytes.stringAt terminalBufferSize pcb.arg with
    | none => 0
    | some arg => arg.length + 1

theorem length_le_lineReach (cap : ℕ) (keys line : List UInt8) :
    line.length ≤ lineReach cap keys line := by
  cases keys with
  | nil => exact le_refl _
  | cons key keys =>
    unfold lineReach
    split
    · exact Nat.le_succ _
    · exact Nat.le_max_left _ _

namespace Platform

variable (P : Platform)

/-- The bytes `read` has for the buffer: those of the file, the name of a directory entry, or
the line. -/
def readSpan (files : FileArray) (fd : Int32) (buf : UInt32) (nbytes : Int32) (input : Input) : ℕ :=
  let f := files (slot fd)
  if ¬Opened files fd then 0
  else if f.fileOpsTablePtr = P.terminalOps then
    if fd ≠ 0 ∨ buf = 0 then 0 else lineReach (min nbytes.toUInt32.toNat 128) input.keys []
  else if f.fileOpsTablePtr = P.fileOps then
    if fd = 1 ∨ fd = 0 then 0
    else (readData P.fs f.inodeNum f.filePosition nbytes.toUInt32).2.length
  else if f.fileOpsTablePtr = P.directoryOps then
    match readDentryByIndex P.fs f.filePosition with
    | none => 0
    | some d => (entryName d).length + 1
  else 0

variable {P}

/-- One round of `getline`: what it does, and where the line goes on. -/
theorem lineRoutine_round {buf : UInt32} (hfits : buf.toNat + 128 < 4294967296) {limit : Int32}
    (hlimit : limit.toNatClampNeg ≤ 128) {line : List UInt8}
    (hline : line.length ≤ limit.toNatClampNeg) {key : UInt8} (hkey : ¬IsEnter key)
    (keys : List UInt8) :
    ∃ l, (lineRoutine buf limit (key :: keys) (buf + UInt32.ofNat line.length)).acts
        = l ++ (lineRoutine buf limit keys
            (buf + UInt32.ofNat (editKey limit.toNatClampNeg line key).length)).acts ∧
      ∀ n, line.length ≤ n →
        Sweeps buf n l (max n (editKey limit.toNatClampNeg line key).length) := by
  have hle := hline.trans hlimit
  -- a round that stores nothing, and leaves a line that is not longer
  have hsilent : ∀ {l : List (Act Kernel)} {line' : List UInt8}, line'.length ≤ line.length →
      (∀ n, Sweeps buf n l n) → ∀ n, line.length ≤ n → Sweeps buf n l (max n line'.length) := by
    intro l line' hshort hl n hn
    rw [max_eq_left (hshort.trans hn)]
    exact hl n
  unfold editKey
  rw [lineRoutine_cons, if_neg hkey]
  by_cases herase : IsErase key
  · rw [if_pos herase, if_pos herase]
    have hshort : line.dropLast.length ≤ line.length := by
      rw [List.length_dropLast]
      exact Nat.sub_le _ _
    by_cases hempty : line = []
    · subst hempty
      rw [if_neg (by rw [buf_lt_lp hfits hle]; simp)]
      exact ⟨[], rfl, hsilent hshort fun n => rfl⟩
    · have hpos := List.length_pos_iff.2 hempty
      have hprev : buf + UInt32.ofNat line.length - 1
          = buf + UInt32.ofNat line.dropLast.length := by
        rw [List.length_dropLast, ← Nat.sub_add_cancel hpos, ← Word32.add_ofNat_add_ofNat]
        exact UInt32.add_sub_cancel _ _
      rw [if_pos (by rw [buf_lt_lp hfits hle]; omega), hprev]
      exact ⟨[echo 0x08], rfl, hsilent hshort fun n => rfl⟩
  rw [if_neg herase, if_neg herase]
  by_cases hclear : maskKey key = 0x0C
  · rw [if_pos hclear, if_pos hclear, List.length_nil, Word32.add_ofNat_zero]
    exact ⟨[wipe], rfl, fun n _ => (max_eq_left (Nat.zero_le n)).symm⟩
  have hfull := length_ge_max limit hle
  rw [if_neg hclear, if_neg hclear, lp_sub_buf]
  by_cases hroom : line.length < limit.toNatClampNeg
  · rw [if_neg (fun h => hfull.1 h hroom)]
    by_cases hprint : IsPrintable key
    · have hlen : (line ++ [maskKey key]).length = line.length + 1 := List.length_append
      have hnext : buf + UInt32.ofNat line.length + 1
          = buf + UInt32.ofNat (line ++ [maskKey key]).length := by
        rw [hlen]
        exact Word32.add_ofNat_add_ofNat buf line.length 1
      rw [if_pos hprint, if_pos ⟨hroom, hprint⟩, hnext]
      refine ⟨[.write (buf + UInt32.ofNat line.length) (maskKey key), echo (maskKey key)], rfl, ?_⟩
      intro n hn
      rw [hlen]
      exact ⟨line.length, hn, rfl, rfl⟩
    · rw [if_neg hprint, if_neg (fun h => hprint h.2)]
      exact ⟨[], rfl, hsilent (le_refl _) fun n => rfl⟩
  · rw [if_pos (hfull.2 hroom), if_neg (fun h => hroom h.1)]
    exact ⟨[], rfl, hsilent (le_refl _) fun n => rfl⟩

/-- The line stays in the bytes it uses. -/
theorem sweeps_lineRoutine {buf : UInt32} (hfits : buf.toNat + 128 < 4294967296) {limit : Int32}
    (hlimit : limit.toNatClampNeg ≤ 128) (keys : List UInt8) {line : List UInt8}
    (hline : line.length ≤ limit.toNatClampNeg) {n : ℕ} (hn : line.length ≤ n) :
    Sweeps buf n (lineRoutine buf limit keys (buf + UInt32.ofNat line.length)).acts
      (max n (lineReach limit.toNatClampNeg keys line)) := by
  induction keys generalizing line n with
  | nil =>
    unfold lineReach
    exact (max_eq_left hn).symm
  | cons key keys ih =>
    unfold lineReach
    by_cases henter : IsEnter key
    · rw [lineRoutine_cons, if_pos henter, if_pos henter]
      exact ⟨line.length, hn, rfl, rfl⟩
    · obtain ⟨l, hacts, hround⟩ := lineRoutine_round hfits hlimit hline henter keys
      have hreach := length_le_lineReach limit.toNatClampNeg keys
        (editKey limit.toNatClampNeg line key)
      have hrest := ih (length_editKey_le hline key)
        (Nat.le_max_right n (editKey limit.toNatClampNeg line key).length)
      rw [max_assoc, max_eq_right hreach] at hrest
      rw [if_neg henter, hacts, ← max_assoc, max_eq_left hn]
      exact (hround n hn).append hrest

/-! ## The calls -/

section Calls

variable {t : Tables} {k : Kernel}

theorem calm_echo {l : List (Act Kernel)} (h : Calm (P.SamePages t) l) (c : UInt8) :
    Calm (P.SamePages t) (echo c :: l) := calm_other h fun _ hk => hk

theorem calm_wipe {l : List (Act Kernel)} (h : Calm (P.SamePages t) l) :
    Calm (P.SamePages t) (wipe :: l) := calm_other h fun _ hk => hk

theorem calm_assign {l : List (Act Kernel)} (h : Calm (P.SamePages t) l)
    (i : Fin numMaxOpenFiles) (f : FileDesc) : Calm (P.SamePages t) (assign i f :: l) :=
  calm_other h fun _ hk => hk

/-- What `getline` does besides storing leaves the page tables alone. -/
theorem calm_lineRoutine (t : Tables) (buf : UInt32) (limit : Int32) (keys : List UInt8)
    (lp : UInt32) : Calm (P.SamePages t) (lineRoutine buf limit keys lp).acts := by
  induction keys generalizing lp with
  | nil => exact calm_nil _
  | cons key keys ih =>
    rw [lineRoutine_cons]
    split_ifs
    · exact calm_write (calm_echo (calm_nil _) 0x0A) lp 0
    · exact calm_echo (ih (lp - 1)) 0x08
    · exact ih lp
    · exact calm_wipe (ih buf)
    · exact ih lp
    · exact calm_write (calm_echo (ih (lp + 1)) (maskKey key)) lp (maskKey key)
    · exact ih lp

/-- A line at an address that is not there: the first store page-faults. -/
theorem writes_lineRoutine_unmapped {buf : UInt32}
    (hout : ¬(P.translate t .supervisor .write buf).isSome) (limit : Int32) (keys : List UInt8)
    (hk : P.SamePages t k) :
    writes P.storeByte lost k (lineRoutine buf limit keys buf).acts = [] := by
  have hfault : ∀ (k : Kernel), P.SamePages t k → ∀ (b : UInt8) (l : List (Act Kernel)),
      writes P.storeByte lost k (.write buf b :: l) = [] := by
    intro k hk b l
    obtain ⟨e, k', hrun, he⟩ := (P.maps_storeByte t).unmapped b hk hout
    simp only [writes, hrun, he, if_true]
  induction keys generalizing k with
  | nil => rfl
  | cons key keys ih =>
    rw [lineRoutine_cons]
    split_ifs with henter herase hback
    · exact hfault k hk 0 _
    · exact absurd hback (UInt32.lt_irrefl buf)
    · exact ih hk
    · have hwiped : P.SamePages t { k with toScreen := k.toScreen.clear } := hk
      exact ih hwiped
    · exact ih hk
    · exact hfault k hk (maskKey key) _
    · exact ih hk

/-- A routine that stores nothing. -/
theorem guarded_of_no_write {r : Routine Stop Kernel Int32}
    (h : ∀ va b, Act.write va b ∉ r.acts) (buf : UInt32) :
    P.Guarded k r ↔ StaysInPage t buf 0 := by
  refine iff_of_true ((P.guarded_iff k r).2 ?_) (Or.inl rfl)
  intro va hva
  obtain ⟨b, hb⟩ := write_mem_of_mem_writes hva
  exact absurd hb (h va b)

theorem guarded_refused (buf : UInt32) : P.Guarded k refused ↔ StaysInPage t buf 0 :=
  guarded_of_no_write (fun _ _ => List.not_mem_nil) buf

theorem guarded_stopped (e : Stop) (buf : UInt32) :
    P.Guarded k ⟨[], .error e⟩ ↔ StaysInPage t buf 0 :=
  guarded_of_no_write (fun _ _ => List.not_mem_nil) buf

section Running

variable {m : Machine} (hm : P.Reachable m) (hlive : m.frames ≠ [])
  (hk : P.SamePages m.kernel.toTables k)

include hm hlive hk

/-- A routine that fills the buffer and leaves the page tables alone. -/
theorem guarded_of_sweeps {r : Routine Stop Kernel Int32} {buf : UInt32} {n : ℕ}
    (hcalm : Calm (P.SamePages m.kernel.toTables) r.acts) (hsweeps : Sweeps buf 0 r.acts n) :
    P.Guarded k r ↔ StaysInPage m.kernel.toTables buf n :=
  (P.guarded_iff k r).trans (writes_inUserPage_iff hm hlive hk hcalm hsweeps)

/-- `getline`. -/
theorem guarded_lineRoutine {limit : Int32} (hlimit : limit.toNatClampNeg ≤ 128)
    (keys : List UInt8) (buf : UInt32) :
    P.Guarded k (lineRoutine buf limit keys buf) ↔
      StaysInPage m.kernel.toTables buf (lineReach limit.toNatClampNeg keys []) := by
  by_cases hreach : KernelReaches m.kernel.toTables buf
  · have hfits : buf.toNat + 128 < 4294967296 := by
      rcases hreach with h | h | h | h <;> omega
    have hnil : ([] : List UInt8).length ≤ limit.toNatClampNeg := Nat.zero_le _
    have hsweeps := sweeps_lineRoutine hfits hlimit keys hnil (Nat.zero_le 0)
    rw [List.length_nil, Word32.add_ofNat_zero, Nat.zero_max] at hsweeps
    exact guarded_of_sweeps hm hlive hk (calm_lineRoutine _ _ _ _ _) hsweeps
  · -- nothing is written, and nothing could be
    refine iff_of_true ((P.guarded_iff _ _).2 ?_) (Or.inr (Or.inl hreach))
    rw [← kernelReaches_iff hm hlive] at hreach
    rw [written, writes_lineRoutine_unmapped hreach limit keys hk]
    intro va hva
    cases hva

theorem guarded_terminalRoutine (fd : Int32) (buf numChars : UInt32) (input : Input) :
    P.Guarded k (terminalRoutine fd buf numChars input) ↔
      StaysInPage m.kernel.toTables buf (if fd ≠ 0 ∨ buf = 0 then 0
        else lineReach (min numChars.toNat 128) input.keys []) := by
  unfold terminalRoutine
  by_cases hfd : fd ≠ 0
  · rw [if_pos hfd, if_pos (Or.inl hfd)]
    exact guarded_refused buf
  by_cases hnull : buf = 0
  · rw [if_neg hfd, if_pos hnull, if_pos (Or.inr hnull)]
    exact guarded_refused buf
  have hargs : ¬(fd ≠ 0 ∨ buf = 0) := not_or.2 ⟨hfd, hnull⟩
  have hclamp : (if numChars > maxInputChars then maxInputChars else numChars).toInt32.toNatClampNeg
      = min numChars.toNat 128 := by
    rw [← Int32.toNat_toInt, toInt_numChars]
    omega
  rw [if_neg hfd, if_neg hnull, if_neg hargs, ← hclamp]
  exact guarded_lineRoutine hm hlive hk (hclamp.trans_le (Nat.min_le_right _ _)) input.keys buf

theorem guarded_fileRoutine (f : FileDesc) (fd : Int32) (buf : UInt32) (nbytes : Int32) :
    P.Guarded k (P.fileRoutine f fd buf nbytes) ↔
      StaysInPage m.kernel.toTables buf (if fd = 1 ∨ fd = 0 then 0
        else (readData P.fs f.inodeNum f.filePosition nbytes.toUInt32).2.length) := by
  unfold fileRoutine
  by_cases hfd : fd = 1 ∨ fd = 0
  · rw [if_pos hfd, if_pos hfd]
    exact guarded_refused buf
  · rw [if_neg hfd, if_neg hfd]
    exact guarded_of_sweeps hm hlive hk
      ((calm_storeAll _ _ _).append (calm_assign (calm_nil _) _ _))
      ((sweeps_buffer _ _).append rfl)

theorem guarded_directoryRoutine (f : FileDesc) (fd : Int32) (buf : UInt32) :
    P.Guarded k (P.directoryRoutine f fd buf) ↔
      StaysInPage m.kernel.toTables buf (match readDentryByIndex P.fs f.filePosition with
        | none => 0
        | some d => (entryName d).length + 1) := by
  unfold directoryRoutine
  cases readDentryByIndex P.fs f.filePosition with
  | none => exact guarded_refused buf
  | some d =>
    dsimp only
    have hlen : (entryName d ++ [0]).length = (entryName d).length + 1 := List.length_append
    rw [← hlen]
    exact guarded_of_sweeps hm hlive hk (calm_assign (calm_storeAll _ _ _) _ _)
      (sweeps_buffer buf (entryName d ++ [0]))

omit hm hlive hk in
theorem guarded_rtcRoutine (rtc : Rtc) (input : Input) (buf : UInt32) :
    P.Guarded k (rtcRoutine rtc input) ↔ StaysInPage t buf 0 := by
  refine guarded_of_no_write (fun va b => ?_) buf
  unfold rtcRoutine
  dsimp only
  generalize (if input.tick = true then rtcInterruptHandler rtc else rtc) = rtc'
  split
  · intro h
    cases List.mem_singleton.1 h
  · exact List.not_mem_nil

/-- **`read`.** -/
theorem guarded_readRoutine (fd : Int32) (buf : UInt32) (nbytes : Int32) (input : Input) :
    P.Guarded k (P.readRoutine k fd buf nbytes input) ↔
      StaysInPage m.kernel.toTables buf (P.readSpan k.fileArray fd buf nbytes input) := by
  unfold readRoutine readSpan
  by_cases hopened : Opened k.fileArray fd
  · rw [if_neg hopened.not_out, if_neg (not_not.2 hopened)]
    dsimp only
    rw [if_neg hopened.2.2]
    by_cases hterminal : (k.fileArray (slot fd)).fileOpsTablePtr = P.terminalOps
    · rw [if_pos hterminal, if_pos hterminal]
      exact guarded_terminalRoutine hm hlive hk fd buf nbytes.toUInt32 input
    rw [if_neg hterminal, if_neg hterminal]
    by_cases hfile : (k.fileArray (slot fd)).fileOpsTablePtr = P.fileOps
    · rw [if_pos hfile, if_pos hfile]
      exact guarded_fileRoutine hm hlive hk _ fd buf nbytes
    rw [if_neg hfile, if_neg hfile]
    by_cases hdirectory : (k.fileArray (slot fd)).fileOpsTablePtr = P.directoryOps
    · rw [if_pos hdirectory, if_pos hdirectory]
      exact guarded_directoryRoutine hm hlive hk _ fd buf
    rw [if_neg hdirectory, if_neg hdirectory]
    by_cases hrtc : (k.fileArray (slot fd)).fileOpsTablePtr = P.rtcOps
    · rw [if_pos hrtc]
      exact guarded_rtcRoutine k.rtc input buf
    · rw [if_neg hrtc]
      exact guarded_stopped _ buf
  · rw [if_pos hopened]
    rcases not_opened hopened with hout | ⟨hout, hfree⟩
    · rw [if_pos hout]
      exact guarded_refused buf
    · rw [if_neg hout]
      dsimp only
      rw [if_pos hfree]
      exact guarded_refused buf

/-- **`getargs`.** -/
theorem guarded_getargsRoutine (buf : UInt32) (nbytes : Int32) :
    P.Guarded k (getargsRoutine k buf nbytes) ↔
      StaysInPage m.kernel.toTables buf (getargsSpan k buf nbytes) := by
  unfold getargsRoutine getargsSpan
  by_cases hnull : buf = 0
  · rw [if_pos hnull, if_pos (Or.inl hnull)]
    exact guarded_refused buf
  rw [if_neg hnull]
  dsimp only
  by_cases hempty : (k.pcb (currentPcbAddr k.toTables)).arg 0 = 0
  · rw [if_pos hempty, if_pos (Or.inr (Or.inl hempty))]
    exact guarded_refused buf
  rw [if_neg hempty]
  by_cases hsmall : nbytes < (k.pcb (currentPcbAddr k.toTables)).numCharInArg.toUInt32.toInt32
  · rw [if_pos hsmall, if_pos (Or.inr (Or.inr hsmall))]
    exact guarded_refused buf
  rw [if_neg hsmall, if_neg (by simp only [hnull, hempty, hsmall, or_self, not_false_iff])]
  cases Bytes.stringAt terminalBufferSize (k.pcb (currentPcbAddr k.toTables)).arg with
  | none => exact guarded_stopped _ buf
  | some arg =>
    dsimp only
    have hlen : (arg ++ [0]).length = arg.length + 1 := List.length_append
    rw [← hlen]
    exact guarded_of_sweeps hm hlive hk (calm_storeAll _ _ _) (sweeps_buffer buf (arg ++ [0]))

end Running

variable (P) in
/-- **`vidmap`** checks the pointer: all four bytes are in the user page. -/
theorem guarded_vidmapRoutine (k : Kernel) (screenStart : UInt32) :
    P.Guarded k (P.vidmapRoutine screenStart) := by
  rw [guarded_iff]
  intro va hva
  obtain ⟨b, hb⟩ := write_mem_of_mem_writes hva
  unfold vidmapRoutine at hb
  split_ifs at hb with hrange
  · cases hb
  · rw [not_or, not_or] at hrange
    have hlo : 134512640 ≤ screenStart.toNat := UInt32.le_iff_toNat_le.1 (UInt32.not_lt.1 hrange.2.1)
    have hhi : screenStart.toNat ≤ 138412028 := UInt32.le_iff_toNat_le.1 (UInt32.not_lt.1 hrange.2.2)
    have hfour : ∀ w : UInt32, Act.write va b ∈ (storeAll screenStart (Bytes.wordBytes w) :
        List (Act Kernel)) → InUserPage va := by
      intro w hw
      obtain ⟨i, hi, rfl⟩ := mem_storeAll hw
      have hi4 : i < 4 := hi
      rw [inUserPage_iff, Word32.toNat_add_ofNat (by omega)]
      omega
    rcases List.mem_append.1 hb with hb | hb
    · exact hfour _ hb
    · rcases List.mem_cons.1 hb with heq | hb
      · cases heq
      · exact hfour _ hb

end Calls

/-! ## The law -/

/-- **What the kernel writes through a user's pointer.**  Whatever program runs, and for all
arguments: `vidmap` writes in the user page only, and `read` and `getargs` do exactly if
the bytes they have for the buffer are none, or the buffer begins where nothing is mapped
for the kernel, or it begins in the user page and ends there or `page_directory[33]` is not
present behind it. -/
theorem pointer_writes (P : Platform) {m : Machine} (hm : P.Reachable m) (hlive : m.frames ≠ [])
    (regs : Regs) :
    (∀ fd buf nbytes input,
      P.sysRead fd buf nbytes input (m.enter regs)
        = play P.storeByte (P.readRoutine (m.enter regs) fd buf nbytes input) (m.enter regs) ∧
      (P.Guarded (m.enter regs) (P.readRoutine (m.enter regs) fd buf nbytes input) ↔
        StaysInPage m.kernel.toTables buf
          (P.readSpan (m.enter regs).fileArray fd buf nbytes input))) ∧
    (∀ buf nbytes,
      P.getargs buf nbytes (m.enter regs)
        = play P.storeByte (getargsRoutine (m.enter regs) buf nbytes) (m.enter regs) ∧
      (P.Guarded (m.enter regs) (getargsRoutine (m.enter regs) buf nbytes) ↔
        StaysInPage m.kernel.toTables buf (getargsSpan (m.enter regs) buf nbytes))) ∧
    ∀ screenStart,
      P.vidmap screenStart (m.enter regs)
        = play P.storeByte (P.vidmapRoutine screenStart) (m.enter regs) ∧
      P.Guarded (m.enter regs) (P.vidmapRoutine screenStart) := by
  have hk : P.SamePages m.kernel.toTables (m.enter regs) := rfl
  refine ⟨fun fd buf nbytes input => ⟨P.sysRead_eq_play _ _ _ _ _, ?_⟩,
    fun buf nbytes => ⟨P.getargs_eq_play _ _ _, ?_⟩,
    fun screenStart => ⟨P.vidmap_eq_play _ _, P.guarded_vidmapRoutine _ _⟩⟩
  · exact guarded_readRoutine hm hlive hk fd buf nbytes input
  · exact guarded_getargsRoutine hm hlive hk buf nbytes

/-- A file is read into the user page. -/
theorem pointer_writes_sample :
    ∃ m, Run.run samplePlatform.step sampleBoot
        [.call (.execute 0x500000) ⟨64, 0x7FFFF0⟩,
         .call (.plain (.open 0x500000)) ⟨64, 0⟩] = some m ∧
      samplePlatform.Guarded (m.enter ⟨64, 0⟩)
        (samplePlatform.readRoutine (m.enter ⟨64, 0⟩) 2 0x8050000 4 ⟨[], false⟩) := by
  have hrun : (Run.run samplePlatform.step sampleBoot
      [.call (.execute 0x500000) ⟨64, 0x7FFFF0⟩,
       .call (.plain (.open 0x500000)) ⟨64, 0⟩]).any (fun m => decide (m.frames ≠ []) &&
        decide (samplePlatform.readSpan (m.enter ⟨64, 0⟩).fileArray 2 0x8050000 4 ⟨[], false⟩
          = 4)) = true := by
    decide +kernel
  simp only [Option.any_eq_true, Bool.and_eq_true, decide_eq_true_eq] at hrun
  obtain ⟨m, hm, hlive, hspan⟩ := hrun
  have hreach : samplePlatform.Reachable m := ⟨_, _, boot_bootMachine _ _, hm⟩
  have hlaw := (pointer_writes samplePlatform hreach hlive ⟨64, 0⟩).1 2 0x8050000 4 ⟨[], false⟩
  refine ⟨m, hm, hlaw.2.2 ?_⟩
  rw [hspan]
  exact Or.inr (Or.inr ⟨by decide, by decide, Or.inl (by decide)⟩)

/-- A file is read into the kernel's page, and `read` returns its four bytes. -/
theorem pointer_writes_kernel :
    ∃ m m', Run.run samplePlatform.step sampleBoot
        [.call (.execute 0x500000) ⟨64, 0x7FFFF0⟩,
         .call (.plain (.open 0x500000)) ⟨64, 0⟩] = some m ∧ m.frames ≠ [] ∧
      samplePlatform.step m (.call (.plain (.read 2 0x600000 4 ⟨[], false⟩)) ⟨64, 0⟩) = some m' ∧
      m'.eax = 4 ∧
      ¬samplePlatform.Guarded (m.enter ⟨64, 0⟩)
        (samplePlatform.readRoutine (m.enter ⟨64, 0⟩) 2 0x600000 4 ⟨[], false⟩) := by
  have hrun : (Run.run samplePlatform.step sampleBoot
      [.call (.execute 0x500000) ⟨64, 0x7FFFF0⟩,
       .call (.plain (.open 0x500000)) ⟨64, 0⟩]).any (fun m => decide (m.frames ≠ []) &&
        decide ((0x600000 : UInt32) ∈ samplePlatform.written (m.enter ⟨64, 0⟩)
          (samplePlatform.readRoutine (m.enter ⟨64, 0⟩) 2 0x600000 4 ⟨[], false⟩)) &&
        (samplePlatform.step m (.call (.plain (.read 2 0x600000 4 ⟨[], false⟩)) ⟨64, 0⟩)).any
          fun m' => decide (m'.eax = 4)) = true := by
    decide +kernel
  simp only [Option.any_eq_true, Bool.and_eq_true, decide_eq_true_eq] at hrun
  obtain ⟨m, hm, ⟨hlive, hwritten⟩, m', hm', heax⟩ := hrun
  refine ⟨m, m', hm, hlive, hm', heax, ?_⟩
  rw [guarded_iff]
  intro hall
  exact absurd (hall _ hwritten) (by unfold InUserPage; decide)

end Platform

end CheetOS
