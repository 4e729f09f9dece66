import CheetOS.Arguments
import CheetOS.Names
import CheetOS.PointerWrites

/-!
# What fits into a caller's buffer

Three calls are told how large the buffer is: `terminal_read`, `getargs` and
`directory_read`.

* `WithinBuffer` says that a routine writes no byte but the first `n` of the buffer,
  `within_iff` when it does, for a buffer in which the kernel keeps nothing of its own: it
  needs no more, or the memory ends before;
* `lineReach_le_iff` says which lines need no more than they may use, and
  `terminal_read_within` that a line which fills its buffer is one too long;
* `getargs_respects` — `getargs` gets every size right but one, that of the string
  without its NUL;
* `mem_inspected` is which bytes of a name `directory_read` looks at, and
  `directory_read_respects` when it keeps to its size and to the name field.
-/

namespace CheetOS

open Exec Trace

namespace Platform

variable (P : Platform)

/-! ## The first bytes of a buffer -/

/-- No byte is written through the pointer but the first `n` of the buffer. -/
def WithinBuffer (k : Kernel) (r : Routine Stop Kernel Int32) (buf : UInt32) (n : ℕ) : Prop :=
  ∀ va ∈ P.written k r, ∃ i < n, va = buf + UInt32.ofNat i

/-- The first `n` bytes of the buffer and the byte behind them are mapped. -/
def Reached (t : Tables) (buf : UInt32) (n : ℕ) : Prop :=
  ∀ j ≤ n, (P.translate t .supervisor .write (buf + UInt32.ofNat j)).isSome

/-- The kernel keeps none of its own variables, stacks and control blocks in the first `n`
bytes of the buffer. -/
def OutsideData (t : Tables) (buf : UInt32) (n : ℕ) : Prop :=
  ∀ j < n, ∀ a, P.translate t .supervisor .write (buf + UInt32.ofNat j) = some a →
    P.kernelData a = false

variable {P}

theorem OutsideData.mono {t : Tables} {buf : UInt32} {n n' : ℕ} (h : P.OutsideData t buf n)
    (hle : n' ≤ n) : P.OutsideData t buf n' :=
  fun j hj => h j (lt_of_lt_of_le hj hle)

/-- The kernel can store what is mapped there. -/
theorem OutsideData.target {t : Tables} {buf : UInt32} {n j : ℕ} (h : P.OutsideData t buf n)
    (hj : j < n) (hmapped : (P.translate t .supervisor .write (buf + UInt32.ofNat j)).isSome) :
    (P.target t (buf + UInt32.ofNat j)).isOk := by
  obtain ⟨a, ha⟩ := Option.isSome_iff_exists.1 hmapped
  exact target_isOk_iff.2 ⟨a, ha, h j hj a ha⟩

theorem isSome_of_target {t : Tables} {va : UInt32} (h : (P.target t va).isOk) :
    (P.translate t .supervisor .write va).isSome := by
  obtain ⟨a, ha, -⟩ := translate_of_target h
  rw [ha]
  rfl

/-- There is nothing of the kernel in the page of a program. -/
theorem outsideData_own {t : Tables} {pid : UInt32} (hpid : pid < numMaxProcesses)
    (hpage : t.pageDirectory 32 = userEntry pid) {buf : UInt32} {n : ℕ}
    (h : ∀ j < n, 0x08000000 ≤ buf + UInt32.ofNat j ∧ buf + UInt32.ofNat j < 0x08400000) :
    P.OutsideData t buf n := by
  intro j hj a ha
  obtain ⟨hlo, hhi⟩ := h j hj
  rw [translate_user_page hpid hpage .supervisor .write hlo hhi] at ha
  obtain rfl := Option.some.inj ha
  exact kernelData_user_page hpid hlo hhi

/-- A store to an address that is not the caller's ends the routine. -/
theorem storeByte_ends {t : Tables} {k : Kernel} (hk : P.SamePages t k) {va : UInt32} (b : UInt8)
    (h : ¬∃ a, P.translate t .supervisor .write va = some a ∧ P.kernelData a = false) :
    ∃ e k', P.storeByte va b k = .error e k' := by
  have hpages : P.translate k.toTables = P.translate t := hk
  rw [← hpages] at h
  cases hrun : P.storeByte va b k with
  | error e k' => exact ⟨e, k', rfl⟩
  | ok u k' =>
    obtain ⟨a, ha, hdata, -⟩ := P.storeByte_cases hrun
    exact absurd ⟨a, ha, hdata⟩ h

theorem storeByte_goes {t : Tables} {k : Kernel} (hk : P.SamePages t k) {va : UInt32} (b : UInt8)
    (h : (P.target t va).isOk) : ∃ k', P.storeByte va b k = .ok () k' ∧ P.SamePages t k' :=
  (P.maps_storeByte t).safe b hk (target_isOk_iff.1 h)

/-- **A routine that fills a buffer keeps to its first bytes** if and only if it needs no
more, or cannot get so far. -/
theorem within_iff {t : Tables} {k : Kernel} (hk : P.SamePages t k)
    {r : Routine Stop Kernel Int32} {buf : UInt32} {N n : ℕ} (hcalm : Calm (P.SamePages t) r.acts)
    (hsweeps : Sweeps buf 0 r.acts N) (hN : N ≤ 4294967296)
    (hdata : P.OutsideData t buf (min n N)) :
    P.WithinBuffer k r buf n ↔ N ≤ n ∨ ¬P.Reached t buf n := by
  have hwithin := writes_within_iff (P.maps_storeByte t) (fun b hk => storeByte_ends hk b) hcalm hk
    hsweeps hN n
  simp only [← target_isOk_iff] at hwithin
  refine Iff.trans hwithin ?_
  by_cases hle : N ≤ n
  · exact iff_of_true (Or.inl hle) (Or.inl hle)
  rw [min_eq_left (by omega)] at hdata
  rw [or_iff_right hle, or_iff_right hle, not_iff_not]
  constructor
  · rintro ⟨hstored, hnext⟩ j hj
    rcases Nat.lt_or_eq_of_le hj with hlt | rfl
    · exact isSome_of_target (hstored j hlt)
    · exact hnext
  · intro h
    exact ⟨fun j hj => hdata.target hj (h j hj.le), h n (le_refl n)⟩

theorem within_of_no_write {k : Kernel} {r : Routine Stop Kernel Int32} (h : r.acts = [])
    (buf : UInt32) (n : ℕ) : P.WithinBuffer k r buf n := by
  intro va hva
  unfold written at hva
  rw [h] at hva
  cases hva

/-! ## terminal_read -/

/-- A line needs no more than `n` bytes if and only if it has fewer characters than that
when Enter comes. -/
theorem lineReach_le_iff {cap n : ℕ} (hn : cap ≤ n) {keys line : List UInt8}
    (hline : line.length ≤ cap) : lineReach cap keys line ≤ n ↔
      ∀ typed key rest, keys = typed ++ key :: rest → (∀ c ∈ typed, ¬IsEnter c) → IsEnter key →
        (typed.foldl (editKey cap) line).length < n := by
  induction keys generalizing line with
  | nil =>
    refine iff_of_true (hline.trans hn) fun typed key rest heq => ?_
    exact absurd heq (by simp)
  | cons key keys ih =>
    unfold lineReach
    by_cases henter : IsEnter key
    · rw [if_pos henter]
      constructor
      · intro hle typed key' rest heq htyped hkey'
        cases typed with
        | nil => exact hle
        | cons c typed =>
          obtain ⟨rfl, -⟩ := List.cons.inj heq
          exact absurd henter (htyped key List.mem_cons_self)
      · intro h
        exact h [] key keys rfl (fun c hc => absurd hc List.not_mem_nil) henter
    · rw [if_neg henter, max_le_iff, ih (length_editKey_le hline key)]
      constructor
      · rintro ⟨-, h⟩ typed key' rest heq htyped hkey'
        cases typed with
        | nil =>
          obtain ⟨rfl, -⟩ := List.cons.inj heq
          exact absurd hkey' henter
        | cons c typed =>
          obtain ⟨rfl, rfl⟩ := List.cons.inj heq
          exact h typed key' rest rfl (fun d hd => htyped d (List.mem_cons_of_mem key hd)) hkey'
      · intro h
        refine ⟨hline.trans hn, fun typed key' rest heq htyped hkey' => ?_⟩
        refine h (key :: typed) key' rest (by rw [heq]; rfl) (fun c hc => ?_) hkey'
        rcases List.mem_cons.1 hc with rfl | hc
        · exact henter
        · exact htyped c hc

theorem lineReach_le {cap : ℕ} (keys : List UInt8) {line : List UInt8}
    (hline : line.length ≤ cap) : lineReach cap keys line ≤ cap + 1 := by
  induction keys generalizing line with
  | nil => exact Nat.le_succ_of_le hline
  | cons key keys ih =>
    unfold lineReach
    split
    · exact Nat.succ_le_succ hline
    · exact max_le (Nat.le_succ_of_le hline) (ih (length_editKey_le hline key))

/-- Nothing is written to a buffer that is not there. -/
theorem within_lineRoutine_unmapped {t : Tables} {k : Kernel} (hk : P.SamePages t k)
    {buf : UInt32} (hout : ¬(P.translate t .supervisor .write buf).isSome) (limit : Int32)
    (keys : List UInt8) (n : ℕ) :
    P.WithinBuffer k (lineRoutine buf limit keys buf) buf n ∧ ¬P.Reached t buf n := by
  constructor
  · intro va hva
    unfold written at hva
    rw [writes_lineRoutine_unmapped hout limit keys hk] at hva
    cases hva
  · intro h
    have hfirst := h 0 (Nat.zero_le n)
    rw [Word32.add_ofNat_zero] at hfirst
    exact hout hfirst

/-- **A line that fills its buffer is one byte too long.**  Outside the kernel's own data,
`terminal_read` keeps to the `numChars` bytes it may use exactly if the buffer is `NULL`, or
fewer characters than that are in the line when Enter comes, or the memory ends before: the
NUL goes behind a full line. -/
theorem terminal_read_within (P : Platform) {m : Machine} {regs : Regs} {buf numChars : UInt32}
    {input : Input} (hm : P.Reachable m) (hlive : m.frames ≠ [])
    (hdata : P.OutsideData m.kernel.toTables buf (min numChars.toNat 129)) :
    P.terminalRead 0 buf numChars input
      = play P.storeByte (terminalRoutine 0 buf numChars input) ∧
    (P.WithinBuffer (m.enter regs) (terminalRoutine 0 buf numChars input) buf numChars.toNat ↔
      buf = 0 ∨
      (∀ typed key rest, input.keys = typed ++ key :: rest → (∀ c ∈ typed, ¬IsEnter c) →
        IsEnter key → (edited (min numChars.toNat 128) typed).length < numChars.toNat) ∨
      ¬P.Reached m.kernel.toTables buf numChars.toNat) := by
  refine ⟨P.terminalRead_eq_play 0 buf numChars input, ?_⟩
  have hk : P.SamePages m.kernel.toTables (m.enter regs) := rfl
  unfold terminalRoutine
  rw [if_neg (by decide)]
  by_cases hnull : buf = 0
  · rw [if_pos hnull]
    exact iff_of_true (within_of_no_write rfl buf _) (Or.inl hnull)
  rw [if_neg hnull, or_iff_right hnull]
  dsimp only
  set limit : Int32 :=
    (if numChars > maxInputChars then maxInputChars else numChars).toInt32 with hlimit
  have hcap : limit.toNatClampNeg = min numChars.toNat 128 := by
    rw [← Int32.toNat_toInt, hlimit, toInt_numChars]
    omega
  by_cases hreach : KernelReaches m.kernel.toTables buf
  · have hfits : buf.toNat + 128 < 4294967296 := by
      rcases hreach with h | h | h | h <;> omega
    have hnil : ([] : List UInt8).length ≤ limit.toNatClampNeg := Nat.zero_le _
    have hsweeps := sweeps_lineRoutine hfits (hcap.trans_le (Nat.min_le_right _ _)) input.keys hnil
      (Nat.zero_le 0)
    rw [List.length_nil, Word32.add_ofNat_zero, Nat.zero_max, hcap] at hsweeps
    have hnil' : ([] : List UInt8).length ≤ min numChars.toNat 128 := Nat.zero_le _
    have hlong : lineReach (min numChars.toNat 128) input.keys [] ≤ 129 :=
      (lineReach_le input.keys hnil').trans (by omega)
    rw [within_iff hk (calm_lineRoutine _ _ _ _ _) hsweeps (by omega)
      (hdata.mono (min_le_min_left _ hlong)), lineReach_le_iff (Nat.min_le_left _ _) hnil']
    exact Iff.rfl
  · rw [← kernelReaches_iff hm hlive] at hreach
    obtain ⟨hwithin, hnot⟩ := within_lineRoutine_unmapped hk hreach limit input.keys numChars.toNat
    exact iff_of_true hwithin (Or.inr hnot)

/-- `ab` and Enter, into a buffer of two bytes in the page of the shell: the third byte is
written. -/
theorem terminal_read_overruns :
    ∃ m, Run.run samplePlatform.step sampleBoot [.call (.execute 0x500000) ⟨64, 0x7FFFF0⟩] = some m ∧
      0x8050002 ∈ samplePlatform.written (m.enter ⟨64, 0⟩)
        (terminalRoutine 0 0x8050000 2 ⟨[0x61, 0x62, 0x0A], false⟩) ∧
      ¬samplePlatform.WithinBuffer (m.enter ⟨64, 0⟩)
        (terminalRoutine 0 0x8050000 2 ⟨[0x61, 0x62, 0x0A], false⟩) 0x8050000 2 := by
  have hrun : (Run.run samplePlatform.step sampleBoot
      [.call (.execute 0x500000) ⟨64, 0x7FFFF0⟩]).any (fun m : Machine =>
        decide (0x8050002 ∈ samplePlatform.written (m.enter ⟨64, 0⟩)
          (terminalRoutine 0 0x8050000 2 ⟨[0x61, 0x62, 0x0A], false⟩))) = true := by
    decide +kernel
  simp only [Option.any_eq_true, decide_eq_true_eq] at hrun
  obtain ⟨m, hm, hwritten⟩ := hrun
  refine ⟨m, hm, hwritten, fun hwithin => ?_⟩
  obtain ⟨i, hi, heq⟩ := hwithin _ hwritten
  have hnone : ∀ i < 2, (0x8050002 : UInt32) ≠ 0x8050000 + UInt32.ofNat i := by decide
  exact hnone i hi heq

/-- A line of one character in the same buffer. -/
theorem terminal_read_within_short :
    ∃ m, Run.run samplePlatform.step sampleBoot [.call (.execute 0x500000) ⟨64, 0x7FFFF0⟩] = some m ∧
      samplePlatform.WithinBuffer (m.enter ⟨64, 0⟩)
        (terminalRoutine 0 0x8050000 2 ⟨[0x61, 0x62, 0x08, 0x0A], false⟩) 0x8050000 2 := by
  have hrun : (Run.run samplePlatform.step sampleBoot
      [.call (.execute 0x500000) ⟨64, 0x7FFFF0⟩]).any (fun m : Machine =>
        decide (m.frames ≠ [])) = true := by
    decide +kernel
  simp only [Option.any_eq_true, decide_eq_true_eq] at hrun
  obtain ⟨m, hm, hlive⟩ := hrun
  have hshort : lineReach 2 [0x61, 0x62, 0x08, 0x0A] [] ≤ 2 := by decide
  have hnil : ([] : List UInt8).length ≤ 2 := Nat.zero_le 2
  have hreach : samplePlatform.Reachable m := ⟨_, _, boot_bootMachine _ _, hm⟩
  have hn := nested_reachable hreach
  have hdata : samplePlatform.OutsideData m.kernel.toTables 0x8050000 2 :=
    outsideData_own hn.running_bound (hn.userPage hlive) (by decide)
  exact ⟨m, hm, (terminal_read_within samplePlatform hreach hlive hdata).2.2
    (Or.inr (Or.inl ((lineReach_le_iff (le_refl 2) hnil).1 hshort)))⟩

/-! ## getargs -/

theorem getargsRoutine_refused {k : Kernel} {args : List UInt8}
    (hargs : Stores (k.pcb (currentPcbAddr k.toTables)) args) {buf : UInt32} {nbytes : Int32}
    (h : buf = 0 ∨ args = [] ∨ nbytes.toInt < args.length) :
    getargsRoutine k buf nbytes = refused := by
  unfold getargsRoutine
  by_cases hnull : buf = 0
  · rw [if_pos hnull]
  rw [if_neg hnull]
  dsimp only
  by_cases hempty : args = []
  · subst hempty
    exact if_pos (Option.some.inj (holds_nil.1 hargs.arg))
  have hshort := (h.resolve_left hnull).resolve_left hempty
  rw [if_neg (arg_ne_zero hargs.arg hempty), hargs.count, if_pos]
  rw [Int32.lt_iff_toInt_lt, toInt_count hargs.length]
  exact hshort

theorem getargsRoutine_copies {k : Kernel} {args : List UInt8}
    (hargs : Stores (k.pcb (currentPcbAddr k.toTables)) args) {buf : UInt32} {nbytes : Int32}
    (hnull : buf ≠ 0) (hne : args ≠ []) (hn : args.length ≤ nbytes.toInt) :
    getargsRoutine k buf nbytes = ⟨storeAll buf (args ++ [0]), .ok 0⟩ := by
  have hroom : ¬nbytes < (UInt8.ofNat args.length).toUInt32.toInt32 := by
    rw [Int32.lt_iff_toInt_lt, toInt_count hargs.length, not_lt]
    exact hn
  unfold getargsRoutine
  rw [if_neg hnull]
  dsimp only
  rw [if_neg (arg_ne_zero hargs.arg hne), hargs.count, if_neg hroom,
    stringAt_of_holds hargs.arg hargs.length]

variable (P) in
/-- `getargs` keeps to its buffer, and refuses one that the string and its NUL do not fit
into. -/
structure GetargsRespects (k : Kernel) (buf : UInt32) (nbytes : Int32) (args : List UInt8) :
    Prop where
  writes : P.WithinBuffer k (getargsRoutine k buf nbytes) buf nbytes.toNatClampNeg
  refuses : nbytes.toInt < args.length + 1 →
    P.getargs buf nbytes k = .ok (-1) k ∧ P.written k (getargsRoutine k buf nbytes) = []

/-- **`getargs` gets every size right but one.**  The running program has an argument string,
and `getargs` keeps to the size of a buffer outside the kernel's own data exactly unless that
is the length of the string without its NUL. -/
theorem getargs_respects (P : Platform) {m : Machine} {regs : Regs} (hm : P.Reachable m)
    (hlive : m.frames ≠ []) (h0 : 0 < regs.depth) (hroom : regs.depth ≤ stackRoom) :
    ∃ args, Stores ((m.enter regs).pcb (currentPcbAddr (m.enter regs).toTables)) args ∧
      ∀ buf nbytes, P.getargs buf nbytes (m.enter regs)
          = play P.storeByte (getargsRoutine (m.enter regs) buf nbytes) (m.enter regs) ∧
        (P.OutsideData m.kernel.toTables buf (min nbytes.toNatClampNeg (args.length + 1)) →
          (P.GetargsRespects (m.enter regs) buf nbytes args ↔
            buf = 0 ∨ args = [] ∨ nbytes.toInt ≠ args.length)) := by
  obtain ⟨args, hargs⟩ := stores_running hm hlive h0 hroom
  refine ⟨args, hargs, fun buf nbytes => ⟨P.getargs_eq_play _ _ _, fun hdata => ?_⟩⟩
  have hk : P.SamePages m.kernel.toTables (m.enter regs) := rfl
  by_cases hrefused : buf = 0 ∨ args = [] ∨ nbytes.toInt < args.length
  · have hroutine := getargsRoutine_refused hargs hrefused
    refine iff_of_true ⟨?_, fun _ => ⟨?_, ?_⟩⟩ ?_
    · exact within_of_no_write (congrArg Routine.acts hroutine) buf _
    · rw [P.getargs_eq_play, hroutine]
      rfl
    · rw [hroutine]
      rfl
    · exact hrefused.imp_right (Or.imp_right (Int.ne_of_lt ·))
  · rw [not_or, not_or, not_lt] at hrefused
    obtain ⟨hnull, hne, hn⟩ := hrefused
    have hroutine := getargsRoutine_copies hargs hnull hne hn
    rw [or_iff_right hnull, or_iff_right hne]
    constructor
    · rintro h heq
      obtain ⟨hfail, -⟩ := h.refuses (by omega)
      rw [P.getargs_eq_play, hroutine, play_storeAll] at hfail
      obtain ⟨⟨⟩, k₁, -, hret⟩ := bind_eq_ok.1 hfail
      exact absurd (pure_eq_ok.1 hret).1 (by decide)
    · intro hlen
      refine ⟨?_, fun hshort => absurd hshort (by omega)⟩
      rw [hroutine]
      have hlength : (args ++ [0]).length = args.length + 1 := List.length_append
      have hsmall : args.length < 128 := hargs.length
      refine (within_iff hk (calm_storeAll _ _ _) (sweeps_buffer buf (args ++ [0])) (by omega) ?_).2
        (Or.inl ?_)
      · rw [hlength]
        exact hdata
      · rw [hlength, ← Int32.toNat_toInt]
        omega

/-- `getargs` copies `a b` and its NUL to a buffer of three bytes. -/
theorem getargs_overruns :
    ∃ m m', Run.run samplePlatform.step sampleBoot [.call (.execute 0x500000) ⟨64, 0x7FFFF0⟩]
        = some m ∧
      samplePlatform.step m (.call (.plain (.getargs 0x8050000 3)) ⟨64, 0⟩) = some m' ∧
      m'.eax = 0 ∧
      Stores ((m.enter ⟨64, 0⟩).pcb (currentPcbAddr (m.enter ⟨64, 0⟩).toTables)) [0x61, 0x20, 0x62] ∧
      0x8050003 ∈ samplePlatform.written (m.enter ⟨64, 0⟩)
        (getargsRoutine (m.enter ⟨64, 0⟩) 0x8050000 3) ∧
      ¬samplePlatform.GetargsRespects (m.enter ⟨64, 0⟩) 0x8050000 3 [0x61, 0x20, 0x62] := by
  have hrun : (Run.run samplePlatform.step sampleBoot
      [.call (.execute 0x500000) ⟨64, 0x7FFFF0⟩]).any (fun m : Machine =>
        decide (Bytes.stringAt terminalBufferSize
          ((m.enter ⟨64, 0⟩).pcb (currentPcbAddr (m.enter ⟨64, 0⟩).toTables)).arg
            = some [0x61, 0x20, 0x62]) &&
        decide (((m.enter ⟨64, 0⟩).pcb
          (currentPcbAddr (m.enter ⟨64, 0⟩).toTables)).numCharInArg = 3) &&
        decide (0x8050003 ∈ samplePlatform.written (m.enter ⟨64, 0⟩)
          (getargsRoutine (m.enter ⟨64, 0⟩) 0x8050000 3)) &&
        (samplePlatform.step m (.call (.plain (.getargs 0x8050000 3)) ⟨64, 0⟩)).any fun m' =>
          decide (m'.eax = 0)) = true := by
    decide +kernel
  simp only [Option.any_eq_true, Bool.and_eq_true, decide_eq_true_eq] at hrun
  obtain ⟨m, hm, ⟨⟨harg, hcount⟩, hwritten⟩, m', hm', heax⟩ := hrun
  refine ⟨m, m', hm, hm', heax, ⟨holds_of_stringAt harg, hcount, by decide⟩, hwritten,
    fun hrespects => ?_⟩
  obtain ⟨i, hi, heq⟩ := hrespects.writes _ hwritten
  have hnone : ∀ i < (3 : Int32).toNatClampNeg,
      (0x8050003 : UInt32) ≠ 0x8050000 + UInt32.ofNat i := by
    decide
  exact hnone i hi heq

/-- The shell asks for its arguments with a buffer of four bytes. -/
theorem getargs_respects_four :
    ∃ m, Run.run samplePlatform.step sampleBoot [.call (.execute 0x500000) ⟨64, 0x7FFFF0⟩] = some m ∧
      samplePlatform.GetargsRespects (m.enter ⟨64, 0⟩) 0x8050000 4 [0x61, 0x20, 0x62] := by
  have hrun : (Run.run samplePlatform.step sampleBoot
      [.call (.execute 0x500000) ⟨64, 0x7FFFF0⟩]).any (fun m : Machine =>
        decide (m.frames ≠ []) && decide (Bytes.stringAt terminalBufferSize
          ((m.enter ⟨64, 0⟩).pcb (currentPcbAddr (m.enter ⟨64, 0⟩).toTables)).arg
            = some [0x61, 0x20, 0x62])) = true := by
    decide +kernel
  simp only [Option.any_eq_true, Bool.and_eq_true, decide_eq_true_eq] at hrun
  obtain ⟨m, hm, hlive, harg⟩ := hrun
  obtain ⟨args, hargs, hlaw⟩ := getargs_respects samplePlatform ⟨_, _, boot_bootMachine _ _, hm⟩
    hlive (show 0 < (⟨64, 0⟩ : Regs).depth by decide) (by decide)
  obtain rfl := (holds_of_stringAt harg).inj hargs.arg
  have hn := nested_reachable (P := samplePlatform) ⟨_, _, boot_bootMachine _ _, hm⟩
  refine ⟨m, hm, ((hlaw 0x8050000 4).2 ?_).2 (Or.inr (Or.inr (by decide)))⟩
  exact outsideData_own hn.running_bound (hn.userPage hlive) (by decide)

/-! ## directory_read -/

variable (P) in
/-- The indices of `filename` that the loop of `directory_read` looks at, from `i` on, `n`
before the end of the field: the character is tested before the index, and stored
before the next one is tested. -/
def inspected (buf : UInt32) (d : Dentry) : ℕ → ℕ → Kernel → List ℕ
  | 0, i, _ => [i]
  | n + 1, i, k =>
    if d.filename i = 0 then [i]
    else
      i :: match P.storeByte (buf + UInt32.ofNat i) (d.filename i) k with
        | .ok _ k' => inspected buf d n (i + 1) k'
        | .error _ _ => []

/-- The loop looks behind the name field if and only if the name fills it, and all of it could
be stored. -/
theorem mem_inspected {t : Tables} {buf : UInt32} {d : Dentry} {n i : ℕ} {k : Kernel}
    (hk : P.SamePages t k) : (∀ j ∈ P.inspected buf d n i k, j < i + n) ↔
      ¬((nameFrom d n i).length = n ∧
        ∀ j, i ≤ j → j < i + n → (P.target t (buf + UInt32.ofNat j)).isOk) := by
  induction n generalizing i k with
  | zero =>
    refine iff_of_false (fun h => absurd (h i List.mem_cons_self) (lt_irrefl _)) ?_
    exact not_not.2 ⟨rfl, fun j hj hj' => absurd hj (by omega)⟩
  | succ n ih =>
    unfold inspected
    rw [nameFrom]
    by_cases hzero : d.filename i = 0
    · rw [if_pos hzero, if_pos hzero]
      refine iff_of_true (fun j hj => ?_) fun h => absurd h.1 (by simp)
      rw [List.mem_singleton.1 hj]
      omega
    rw [if_neg hzero, if_neg hzero, List.length_cons]
    by_cases hok : (P.target t (buf + UInt32.ofNat i)).isOk
    · obtain ⟨k', hrun, hk'⟩ := storeByte_goes hk (d.filename i) hok
      have hrest := ih (i := i + 1) hk'
      simp only [hrun, List.forall_mem_cons]
      have hnext : i + 1 + n = i + (n + 1) := by omega
      rw [hnext] at hrest
      rw [and_iff_right (by omega), hrest, not_iff_not]
      constructor
      · rintro ⟨hlen, hall⟩
        refine ⟨congrArg Nat.succ hlen, fun j hj hj' => ?_⟩
        rcases Nat.eq_or_lt_of_le hj with rfl | hlt
        · exact hok
        · exact hall j hlt hj'
      · rintro ⟨hlen, hall⟩
        exact ⟨Nat.succ.inj hlen, fun j hj hj' => hall j (by omega) hj'⟩
    · obtain ⟨e, k', hrun⟩ := storeByte_ends hk (d.filename i) (mt target_isOk_iff.2 hok)
      simp only [hrun]
      refine iff_of_true (fun j hj => ?_) fun h => hok (h.2 i (le_refl i) (by omega))
      rw [List.mem_singleton.1 hj]
      omega

variable (P) in
/-- `directory_read` keeps to its buffer and to the name field. -/
structure DirectoryRespects (k : Kernel) (fd : Int32) (buf : UInt32) (nbytes : Int32) : Prop where
  writes : P.WithinBuffer k (P.directoryRoutine (k.fileArray (slot fd)) fd buf) buf
    nbytes.toNatClampNeg
  result : ∀ r k', P.directoryRead fd buf nbytes k = .ok r k' → r.toInt ≤ nbytes.toInt
  inspects : ∀ d, readDentryByIndex P.fs (k.fileArray (slot fd)).filePosition = some d →
    let f := k.fileArray (slot fd)
    ∀ i ∈ P.inspected buf d filenameLen 0
      { k with toTables := k.toTables.setFile (slot fd) (f.moveTo (f.filePosition + 1)) },
      i < filenameLen

/-- The bytes `directory_read` has for the buffer are a name and its NUL. -/
theorem within_directoryRoutine {k : Kernel} {f : FileDesc} {d : Dentry}
    (hindex : readDentryByIndex P.fs f.filePosition = some d) (fd : Int32) {buf : UInt32} {n : ℕ}
    (hdata : P.OutsideData k.toTables buf (min n 33)) :
    P.WithinBuffer k (P.directoryRoutine f fd buf) buf n ↔
      (entryName d).length < n ∨ ¬P.Reached k.toTables buf n := by
  have hk : P.SamePages k.toTables k := rfl
  have hlen : (entryName d ++ [0]).length = (entryName d).length + 1 := List.length_append
  have hshort := length_entryName_le d
  have hroutine : P.directoryRoutine f fd buf =
      ⟨assign (slot fd) { f with filePosition := f.filePosition + 1 }
        :: storeAll buf (entryName d ++ [0]), .ok (Int32.ofNat (entryName d).length)⟩ := by
    unfold directoryRoutine
    rw [hindex]
  have hsweeps : Sweeps buf 0 (P.directoryRoutine f fd buf).acts ((entryName d).length + 1) := by
    rw [hroutine, ← hlen]
    exact sweeps_buffer buf (entryName d ++ [0])
  have hcalm : Calm (P.SamePages k.toTables) (P.directoryRoutine f fd buf).acts := by
    rw [hroutine]
    exact calm_assign (calm_storeAll _ _ _) _ _
  have hsmall : (entryName d).length ≤ 32 := hshort
  rw [within_iff hk hcalm hsweeps (by omega) (hdata.mono (by omega)), Nat.succ_le_iff]

/-- The loop of `directory_read`, which sees the tables with the position moved, keeps to the
name field unless the name fills it and can be stored. -/
theorem inspects_iff (k : Kernel) (fd : Int32) (buf : UInt32) (d : Dentry) (f : FileDesc) :
    (∀ i ∈ P.inspected buf d filenameLen 0
      { k with toTables := k.toTables.setFile (slot fd) f }, i < filenameLen) ↔
      ((entryName d).length < filenameLen ∨
        ¬∀ j < filenameLen, (P.target k.toTables (buf + UInt32.ofNat j)).isOk) := by
  have hk : P.SamePages k.toTables { k with toTables := k.toTables.setFile (slot fd) f } := rfl
  have hloop : (∀ i ∈ P.inspected buf d filenameLen 0 _, i < 0 + filenameLen) ↔ _ :=
    mem_inspected hk
  have hfull : (entryName d).length < filenameLen ↔
      ¬(nameFrom d filenameLen 0).length = filenameLen :=
    ⟨Nat.ne_of_lt, Nat.lt_of_le_of_ne (length_entryName_le d)⟩
  simp only [Nat.zero_add, Nat.zero_le, forall_const] at hloop
  rw [hloop, not_and_or, hfull]

/-- A name that was stored with its NUL is no longer than the buffer. -/
theorem length_le_of_stored {k k' : Kernel} {buf : UInt32} {d : Dentry} {n : ℕ}
    (hstore : P.storeBytes buf (entryName d ++ [0]) k = .ok () k')
    (h : (entryName d).length < n ∨ ¬P.Reached k.toTables buf n) : (entryName d).length ≤ n := by
  rcases h with hfits | hends
  · exact hfits.le
  · by_contra hlong
    have hstored : ∀ j ≤ (entryName d).length,
        (P.target k.toTables (buf + UInt32.ofNat j)).isOk := by
      intro j hj
      refine target_isOk_iff.2 (storeBytes_mapped hstore j ?_)
      rw [List.length_append, List.length_singleton]
      omega
    exact hends fun j hj => isSome_of_target (hstored j (by omega))

/-- A full name that can be stored in memory and in the buffer can be stored by the kernel. -/
theorem stored_of_mapped {t : Tables} {buf : UInt32} {n : ℕ}
    (hdata : P.OutsideData t buf (min n 33)) (hfits : filenameLen < n ∨ ¬P.Reached t buf n)
    (hmapped : ∀ j < filenameLen, (P.translate t .supervisor .write (buf + UInt32.ofNat j)).isSome) :
    ∀ j < filenameLen, (P.target t (buf + UInt32.ofNat j)).isOk := by
  have hsize : filenameLen = 32 := rfl
  have hroom : filenameLen ≤ n := by
    rcases hfits with hlt | hends
    · exact hlt.le
    · by_contra hshort
      exact hends fun j hj => hmapped j (by omega)
  exact fun j hj => hdata.target (by omega) (hmapped j hj)

/-- **`directory_read` keeps to its buffer and to the name field**, for a buffer outside the
kernel's own data, exactly at the end of the directory, or if the name does not fill its
field and fits into the buffer with its NUL, or the memory ends before: it never looks at
the size. -/
theorem directory_read_respects (P : Platform) (k : Kernel) {fd nbytes : Int32} (buf : UInt32)
    (hneg : 0 ≤ nbytes) (hdata : P.OutsideData k.toTables buf (min nbytes.toNatClampNeg 33)) :
    P.DirectoryRespects k fd buf nbytes ↔
      ∀ d, readDentryByIndex P.fs (k.fileArray (slot fd)).filePosition = some d →
        ((entryName d).length < nbytes.toNatClampNeg ∨
          ¬P.Reached k.toTables buf nbytes.toNatClampNeg) ∧
        ((entryName d).length < filenameLen ∨ ¬∀ j < filenameLen,
          (P.translate k.toTables .supervisor .write (buf + UInt32.ofNat j)).isSome) := by
  have hnat : 0 ≤ nbytes.toInt := Int32.le_iff_toInt_le.1 hneg
  have hclamp : (nbytes.toNatClampNeg : ℤ) = nbytes.toInt := by
    rw [← Int32.toNat_toInt]
    omega
  constructor
  · intro h d hindex
    have hfits := (within_directoryRoutine hindex fd hdata).1 h.writes
    refine ⟨hfits, ?_⟩
    rcases (inspects_iff k fd buf d _).1 (h.inspects d hindex) with hshort | hstops
    · exact Or.inl hshort
    · by_cases hshort : (entryName d).length < filenameLen
      · exact Or.inl hshort
      · have hfull : (entryName d).length = filenameLen :=
          le_antisymm (length_entryName_le d) (not_lt.1 hshort)
        exact Or.inr fun hmapped => hstops (stored_of_mapped hdata (hfull ▸ hfits) hmapped)
  · intro h
    refine ⟨?_, fun r k' hrun => ?_, fun d hindex => (inspects_iff k fd buf d _).2 ?_⟩
    · cases hindex : readDentryByIndex P.fs (k.fileArray (slot fd)).filePosition with
      | none =>
        refine within_of_no_write ?_ buf _
        unfold directoryRoutine
        rw [hindex]
        rfl
      | some d => exact (within_directoryRoutine hindex fd hdata).2 (h d hindex).1
    · rcases P.directoryRead_cases rfl hrun with ⟨rfl, -, -⟩ | ⟨d, hindex, rfl, hstore⟩
      · have hone : (-1 : Int32).toInt = -1 := rfl
        omega
      · have hshort : (entryName d).length ≤ 32 := length_entryName_le d
        rw [Int32.toInt_ofNat_of_lt (by omega)]
        have hle := length_le_of_stored hstore (h d hindex).1
        omega
    · exact (h d hindex).2.imp_right fun hends hstored =>
        hends fun j hj => isSome_of_target (hstored j hj)

/-- The shell with the descriptor 2 open on the directory. -/
def openDirectory : List Event :=
  [.call (.execute 0x500000) ⟨64, 0x7FFFF0⟩, .store 0x8050100 0x2E,
   .call (.plain (.open 0x8050100)) ⟨64, 0⟩]

/-- The first entry is `.`, and a buffer of two bytes holds it. -/
theorem directory_read_respects_two :
    ∃ m, Run.run samplePlatform.step sampleBoot openDirectory = some m ∧
      samplePlatform.DirectoryRespects (m.enter ⟨64, 0⟩) 2 0x8050000 2 := by
  have hrun : (Run.run samplePlatform.step sampleBoot openDirectory).any (fun m : Machine =>
      decide (m.frames ≠ []) &&
      decide (((m.enter ⟨64, 0⟩).fileArray (slot 2)).filePosition = 0)) = true := by
    decide +kernel
  simp only [Option.any_eq_true, Bool.and_eq_true, decide_eq_true_eq] at hrun
  obtain ⟨m, hm, hlive, hposition⟩ := hrun
  have hn := nested_reachable (P := samplePlatform) ⟨_, _, boot_bootMachine _ _, hm⟩
  have hdata : samplePlatform.OutsideData (m.enter ⟨64, 0⟩).toTables 0x8050000 2 :=
    outsideData_own hn.running_bound (hn.userPage hlive) (by decide)
  refine ⟨m, hm, (directory_read_respects samplePlatform (m.enter ⟨64, 0⟩) 0x8050000
    (show (0 : Int32) ≤ 2 by decide) hdata).2 fun d hindex => ?_⟩
  rw [hposition] at hindex
  obtain rfl : direntry samplePlatform.fs 0 = d := Option.some.inj hindex
  exact ⟨Or.inl (by decide +kernel), Or.inl (by decide +kernel)⟩

/-- With a buffer of one byte the NUL is written behind it. -/
theorem directory_read_overruns :
    ∃ m, Run.run samplePlatform.step sampleBoot openDirectory = some m ∧
      ((m.enter ⟨64, 0⟩).fileArray (slot 2)).fileOpsTablePtr = samplePlatform.directoryOps ∧
      0x8050001 ∈ samplePlatform.written (m.enter ⟨64, 0⟩)
        (samplePlatform.directoryRoutine ((m.enter ⟨64, 0⟩).fileArray (slot 2)) 2 0x8050000) ∧
      ¬samplePlatform.DirectoryRespects (m.enter ⟨64, 0⟩) 2 0x8050000 1 := by
  have hrun : (Run.run samplePlatform.step sampleBoot openDirectory).any (fun m : Machine =>
      decide (((m.enter ⟨64, 0⟩).fileArray (slot 2)).fileOpsTablePtr
        = samplePlatform.directoryOps) &&
      decide (0x8050001 ∈ samplePlatform.written (m.enter ⟨64, 0⟩)
        (samplePlatform.directoryRoutine ((m.enter ⟨64, 0⟩).fileArray (slot 2)) 2
          0x8050000))) = true := by
    decide +kernel
  simp only [Option.any_eq_true, Bool.and_eq_true, decide_eq_true_eq] at hrun
  obtain ⟨m, hm, hops, hwritten⟩ := hrun
  refine ⟨m, hm, hops, hwritten, fun hrespects => ?_⟩
  obtain ⟨i, hi, heq⟩ := hrespects.writes _ hwritten
  have hnone : ∀ i < (1 : Int32).toNatClampNeg,
      (0x8050001 : UInt32) ≠ 0x8050000 + UInt32.ofNat i := by
    decide
  exact hnone i hi heq

end Platform

end CheetOS
