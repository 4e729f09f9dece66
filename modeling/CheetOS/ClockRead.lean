import CheetOS.Drivers
import CheetOS.Lib.Run

/-!
# Waiting for the clock (`rtc.c`)

`rtc_open`, `rtc_write` and `rtc_read` statement by statement, with
`rtc_interrupt_handler` between any two of them.

* `clockStep` is one step of the driver, or one interrupt; which interrupts the processor
  takes is a parameter, so that what is proved holds with `cli` and without it;
* `ReadRun` is one call of `rtc_read` from its beginning to its return, and `ReadsWait`
  says of a run that every such call had an interrupt in it;
* `reads_wait_iff` — the calls that wait are those that begin with `intflag` clear: the
  flag is not reset at the beginning, so a tick from before the call ends it at once;
* `rtcOpen_body` and `readRun_of_rtcRead` — without interrupts the statements are the
  drivers as one step each.
-/

namespace CheetOS

/-! ## The statements -/

/-- `REG_A`. -/
abbrev regAIndex : UInt8 := 0x8A

/-- `REG_B`. -/
abbrev regBIndex : UInt8 := 0x8B

/-- `REG_C`. -/
abbrev regCIndex : UInt8 := 0x8C

/-- The statements of `rtc_init`, `rtc_open` and `rtc_write`. -/
inductive RtcOp
  /-- `cli_and_save(flags)`. -/
  | cliAndSave
  /-- `restore_flags(flags)`. -/
  | restoreFlags
  /-- `outb(index, REG_RTC_SEL)`. -/
  | select (index : UInt8)
  /-- `temp = inb(REG_RTC_VAL)`. -/
  | readVal
  /-- `outb((temp & mask) | bits, REG_RTC_VAL)`. -/
  | writeVal (mask bits : UInt8)
  /-- `enable_irq(8)`. -/
  | enableIrq8
  /-- `intflag = 0`. -/
  | clearFlag
  /-- `rtc_call_count = 0`. -/
  | clearCount
  deriving DecidableEq, Repr

/-- `rtc_init`. -/
def rtcInitOps : List RtcOp :=
  [.select regAIndex, .readVal, .select regAIndex, .writeVal maskRate (maskRate >>> 4),
   .select regBIndex, .readVal, .select regBIndex, .writeVal 0xFF 0x40,
   .enableIrq8, .clearFlag, .clearCount]

/-- `rtc_write`, once the frequency is fetched. -/
def rtcWriteOps (frequency : Int32) : List RtcOp :=
  [.cliAndSave, .select regAIndex, .readVal, .select regAIndex,
   .writeVal 0xF0 (rtcRate frequency).toUInt32.toUInt8, .restoreFlags]

/-- `rtc_open`. -/
def rtcOpenOps : List RtcOp :=
  .cliAndSave :: (rtcInitOps ++ rtcWriteOps 2 ++ [.restoreFlags])

/-- Where the kernel is in the driver. -/
inductive Point
  /-- No function of the driver is running. -/
  | idle
  /-- `rtc_read` at `if (intflag == 1)`. -/
  | test
  /-- `rtc_read` at `intflag = 0`. -/
  | reset
  /-- `rtc_read` at `return 0`. -/
  | done
  /-- `rtc_open` or `rtc_write`, with the statements to come and the result. -/
  | body (rest : List RtcOp) (result : Int32)
  deriving DecidableEq, Repr

/-- The clock, the kernel in its driver, and the processor's interrupt flag. -/
structure Clock where
  rtc : Rtc
  pic : Pic
  /-- What was last written to `REG_RTC_SEL`. -/
  index : UInt8
  /-- `tempA`, `tempB`. -/
  temp : UInt8
  /-- IF. -/
  enabled : Bool
  /-- The flags that `cli_and_save` saved, the last ones first. -/
  saved : List Bool
  point : Point
  /-- The result of the last call. -/
  eax : Int32
  deriving DecidableEq, Repr

namespace Clock

/-- The register the index selects.  Of the others the driver only reads register C, and
does nothing with it. -/
def val (s : Clock) : UInt8 :=
  if s.index = regAIndex then s.rtc.regA
  else if s.index = regBIndex then s.rtc.regB
  else 0

/-- Write the register the index selects. -/
def setVal (s : Clock) (b : UInt8) : Clock :=
  if s.index = regAIndex then { s with rtc := { s.rtc with regA := b } }
  else if s.index = regBIndex then { s with rtc := { s.rtc with regB := b } }
  else s

/-- One statement. -/
def exec (s : Clock) : RtcOp → Clock
  | .cliAndSave => { s with saved := s.enabled :: s.saved, enabled := false }
  | .restoreFlags => { s with enabled := s.saved.headD s.enabled, saved := s.saved.tail }
  | .select index => { s with index := index }
  | .readVal => { s with temp := s.val }
  | .writeVal mask bits => s.setVal ((s.temp &&& mask) ||| bits)
  | .enableIrq8 => { s with pic := enableIrq 8 s.pic }
  | .clearFlag => { s with rtc := { s.rtc with intflag := false } }
  | .clearCount => { s with rtc := { s.rtc with callCount := 0 } }

/-- `rtc_interrupt_handler`: it leaves register C selected. -/
def interrupt (s : Clock) : Clock :=
  { s with rtc := rtcInterruptHandler s.rtc, index := regCIndex }

/-- The next statement of the function that is running. -/
def advance (s : Clock) : Option Clock :=
  match s.point with
  | .idle => none
  | .test => some (if s.rtc.intflag then { s with point := .reset } else s)
  | .reset => some { s with rtc := { s.rtc with intflag := false }, point := .done }
  | .done => some { s with eax := 0, point := .idle }
  | .body [] result => some { s with eax := result, point := .idle }
  | .body (op :: rest) result => some { s.exec op with point := .body rest result }

end Clock

/-- What can happen next. -/
inductive ClockEvent
  /-- `rtc_interrupt_handler` runs. -/
  | interrupt
  /-- `rtc_open` is called. -/
  | open
  /-- `rtc_write` is called with this frequency. -/
  | write (frequency : UInt32)
  /-- `rtc_read` is called. -/
  | read
  /-- The function that is running executes its next statement. -/
  | step
  deriving DecidableEq, Repr

/-- A function of the driver is called. -/
def Clock.call (s : Clock) (point : Point) : Option Clock :=
  if s.point = .idle then some { s with point := point } else none

/-- One event.  `accepts` says when the processor takes an interrupt. -/
def clockStep (accepts : Clock → Bool) (s : Clock) : ClockEvent → Option Clock
  | .interrupt => if accepts s then some s.interrupt else none
  | .open => s.call (.body rtcOpenOps 0)
  | .write frequency =>
    s.call (.body (rtcWriteOps frequency.toInt32) (rtcRate frequency.toInt32))
  | .read => s.call .test
  | .step => s.advance

/-! ## Calls of `rtc_read` -/

variable (accepts : Clock → Bool)

/-- A call of `rtc_read` that begins in `s` and has returned in `t`: `mid` is what happens
after the call and before the statement that returns. -/
structure ReadRun (s : Clock) (mid : List ClockEvent) (t : Clock) : Prop where
  run : Run.run (clockStep accepts) s (.read :: (mid ++ [.step])) = some t
  returned : t.point = .idle
  mid_mem : ∀ e ∈ mid, e = .step ∨ e = .interrupt

/-- **Every `rtc_read` of the run waits**: an interrupt was handled between its beginning
and its return. -/
def ReadsWait (s₀ : Clock) (es : List ClockEvent) : Prop :=
  ∀ pre mid post s t, es = pre ++ .read :: (mid ++ .step :: post) →
    Run.run (clockStep accepts) s₀ pre = some s → ReadRun accepts s mid t →
    .interrupt ∈ mid

/-- Every `rtc_read` of the run begins with `intflag` clear: since the flag was last reset
no interrupt has been handled. -/
def ReadsBeginClear (s₀ : Clock) (es : List ClockEvent) : Prop :=
  Run.Steps (clockStep accepts) (fun s e _ => e = .read → s.rtc.intflag = false) s₀ es

variable {accepts}

/-- The reader spins and nothing has set the flag. -/
def Clock.Spinning (s : Clock) : Prop := s.point = .test ∧ s.rtc.intflag = false

/-- A spinning reader goes on spinning until an interrupt is handled. -/
theorem Clock.Spinning.step {s t : Clock} (h : s.Spinning)
    (hstep : clockStep accepts s .step = some t) : t.Spinning := by
  obtain ⟨hpoint, hflag⟩ := h
  have hadvance : s.advance = some s := by
    unfold advance
    rw [hpoint, hflag]
    rfl
  obtain rfl : s = t := Option.some.inj (hadvance.symm.trans hstep)
  exact ⟨hpoint, hflag⟩

theorem Clock.Spinning.run {s t : Clock} {es : List ClockEvent} (h : s.Spinning)
    (hes : ∀ e ∈ es, e = .step) (hrun : Run.run (clockStep accepts) s es = some t) :
    t.Spinning := by
  induction es generalizing s with
  | nil =>
    cases hrun
    exact h
  | cons e es ih =>
    obtain ⟨u, hu, hrest⟩ := Run.run_cons_eq_some.1 hrun
    obtain rfl : e = .step := hes e List.mem_cons_self
    exact ih (h.step hu) (fun e he => hes e (List.mem_cons_of_mem _ he)) hrest

/-- The call of `rtc_read`. -/
theorem read_call {s t : Clock} (h : clockStep accepts s .read = some t) :
    s.point = .idle ∧ t = { s with point := .test } := by
  simp only [clockStep, Clock.call] at h
  split at h
  · exact ⟨‹_›, (Option.some.inj h).symm⟩
  · cases h

/-- A call that begins with the flag clear does not return before a tick. -/
theorem interrupt_mem_of_clear {s t : Clock} {mid : List ClockEvent}
    (hclear : s.rtc.intflag = false) (h : ReadRun accepts s mid t) : .interrupt ∈ mid := by
  by_contra hnone
  have hsteps : ∀ e ∈ mid ++ [ClockEvent.step], e = .step := by
    intro e he
    rcases List.mem_append.1 he with hmid | hlast
    · exact (h.mid_mem e hmid).resolve_right fun heq => hnone (heq ▸ hmid)
    · exact List.mem_singleton.1 hlast
  obtain ⟨u, hu, hrest⟩ := Run.run_cons_eq_some.1 h.run
  obtain ⟨-, rfl⟩ := read_call hu
  have hbegin : Clock.Spinning { s with point := .test } := ⟨rfl, hclear⟩
  have hspin : t.Spinning := hbegin.run hsteps hrest
  exact absurd (hspin.1.symm.trans h.returned) (by decide)

/-- What `rtc_read` leaves when it returns. -/
def Clock.returned (s : Clock) : Clock :=
  { s with rtc := { s.rtc with intflag := false }, eax := 0, point := .idle }

variable (accepts) in
/-- A reader that finds the flag set returns. -/
theorem run_test_of_set {s : Clock} (hpoint : s.point = .test) (hset : s.rtc.intflag = true) :
    Run.run (clockStep accepts) s [.step, .step, .step] = some s.returned := by
  have htest : clockStep accepts s .step = some { s with point := .reset } := by
    simp only [clockStep, Clock.advance, hpoint, hset, if_true]
  exact Run.run_cons_eq_some.2 ⟨_, htest, rfl⟩

theorem read_call_of_idle {s : Clock} (hidle : s.point = .idle) :
    clockStep accepts s .read = some { s with point := .test } := by
  simp only [clockStep, Clock.call, if_pos hidle]

/-- A call that begins with the flag set returns without one. -/
theorem readRun_of_set {s : Clock} (hidle : s.point = .idle) (hset : s.rtc.intflag = true) :
    ReadRun accepts s [.step, .step] s.returned where
  run := by
    have htest := run_test_of_set accepts (s := { s with point := .test }) rfl hset
    exact Run.run_cons_eq_some.2 ⟨_, read_call_of_idle hidle, htest⟩
  returned := rfl
  mid_mem := by simp

/-- A call with a tick in it returns. -/
theorem readRun_of_tick {s : Clock} (hidle : s.point = .idle)
    (haccepts : accepts { s with point := .test } = true) :
    ReadRun accepts s [.interrupt, .step, .step] s.interrupt.returned where
  run := by
    have htick : clockStep accepts { s with point := .test } .interrupt
        = some { s with point := .test }.interrupt := by
      simp only [clockStep, haccepts, if_true]
    have htest := run_test_of_set accepts (s := { s with point := .test }.interrupt) rfl rfl
    exact Run.run_cons_eq_some.2 ⟨_, read_call_of_idle hidle,
      Run.run_cons_eq_some.2 ⟨_, htick, htest⟩⟩
  returned := rfl
  mid_mem := by simp

/-- **The calls that wait for the next tick** are those that begin with `intflag` clear. -/
theorem reads_wait_iff {s : Clock} (hidle : s.point = .idle) :
    (∀ mid t, ReadRun accepts s mid t → .interrupt ∈ mid) ↔ s.rtc.intflag = false := by
  constructor
  · intro h
    by_contra hset
    have hmem := h _ _ (readRun_of_set hidle (Bool.eq_true_of_not_eq_false hset))
    simp at hmem
  · intro hclear mid t h
    exact interrupt_mem_of_clear hclear h

/-- **Runs whose calls of `rtc_read` wait.**  If every call begins with `intflag` clear,
every call waits; and from a state reached with the flag set there is one that does not. -/
theorem reads_wait_of_begin_clear (accepts : Clock → Bool) (s₀ : Clock)
    (es : List ClockEvent) :
    (ReadsBeginClear accepts s₀ es → ReadsWait accepts s₀ es) ∧
      ∀ s, Run.run (clockStep accepts) s₀ es = some s → s.point = .idle →
        ((∀ mid t, ReadRun accepts s mid t → .interrupt ∈ mid) ↔ s.rtc.intflag = false) := by
  refine ⟨?_, fun s _ hidle => reads_wait_iff hidle⟩
  rintro hclear pre mid post s t rfl hpre hread
  obtain ⟨u, hu, -⟩ := Run.run_cons_eq_some.1 hread.run
  have hbegin := ((Run.steps_append hpre).1 hclear).2 u hu
  exact interrupt_mem_of_clear (hbegin.1 rfl) hread

/-- The clock as `rtc_init` leaves it, at rate 15. -/
def initClock : Clock where
  rtc := rtcInit { regA := 0x26, regB := 0x02, intflag := false, callCount := 0 }
  pic := enableIrq 8 { masterMask := 0xFF, slaveMask := 0xFF }
  index := regBIndex
  temp := 0x02
  enabled := true
  saved := []
  point := .idle
  eax := 0

/-- A program reads the clock, and a tick arrives while it waits. -/
theorem reads_wait_of_begin_clear_sample :
    ReadsWait Clock.enabled initClock [.read, .step, .interrupt, .step, .step, .step] ∧
      (Run.run (clockStep Clock.enabled) initClock
        [.read, .step, .interrupt, .step, .step, .step]).map Clock.point = some .idle := by
  refine ⟨(reads_wait_of_begin_clear _ _ _).1 ?_, by decide⟩
  unfold ReadsBeginClear
  decide

/-- A tick arrives, then a program reads the clock: the call returns at once. -/
theorem read_takes_old_tick :
    ¬ReadsWait Clock.enabled initClock [.interrupt, .read, .step, .step, .step] := by
  intro h
  have htick := h [.interrupt] [.step, .step] [] _ _ rfl rfl (readRun_of_set rfl rfl)
  simp at htick

/-! ## The statements and the drivers -/

/-- The statements do not look at where the kernel is. -/
theorem Clock.exec_at (s : Clock) (op : RtcOp) (point : Point) :
    { s with point := point }.exec op = { s.exec op with point := point } := by
  cases op with
  | writeVal mask bits =>
    simp only [exec, setVal]
    split_ifs
    all_goals rfl
  | _ => rfl

theorem Clock.foldl_exec_at (s : Clock) (ops : List RtcOp) (point : Point) :
    ops.foldl exec { s with point := point } = { ops.foldl exec s with point := point } := by
  induction ops generalizing s with
  | nil => rfl
  | cons op ops ih => rw [List.foldl_cons, exec_at, ih, List.foldl_cons]

/-- The statements of a function that nothing interrupts. -/
theorem run_body {s : Clock} {ops : List RtcOp} {result : Int32}
    (hpoint : s.point = .body ops result) :
    Run.run (clockStep accepts) s (List.replicate (ops.length + 1) .step)
      = some { ops.foldl Clock.exec s with eax := result, point := .idle } := by
  induction ops generalizing s with
  | nil =>
    have hreturn : clockStep accepts s .step = some { s with eax := result, point := .idle } := by
      simp only [clockStep, Clock.advance, hpoint]
    exact Run.run_one.2 hreturn
  | cons op ops ih =>
    have hop : clockStep accepts s .step
        = some { s.exec op with point := .body ops result } := by
      simp only [clockStep, Clock.advance, hpoint]
    rw [List.length_cons, List.replicate_succ, Run.run_cons, hop, Option.bind_some, ih rfl,
      Clock.foldl_exec_at, List.foldl_cons]

/-- `rtc_write` is `rtcSetRate`, and leaves the interrupt flag as it was. -/
theorem foldl_rtcWriteOps (s : Clock) (frequency : Int32) :
    (rtcWriteOps frequency).foldl Clock.exec s
      = { s with rtc := (rtcSetRate frequency s.rtc).2, index := regAIndex,
                 temp := s.rtc.regA } := rfl

/-- `rtc_init` is `rtcInit`. -/
theorem foldl_rtcInitOps (s : Clock) :
    rtcInitOps.foldl Clock.exec s
      = { s with rtc := rtcInit s.rtc, pic := enableIrq 8 s.pic, index := regBIndex,
                 temp := s.rtc.regB } := by
  have hmask : s.rtc.regB &&& 0xFF = s.rtc.regB := UInt8.and_neg_one
  show { s with rtc := { regA := _, regB := (s.rtc.regB &&& 0xFF) ||| 0x40, intflag := _,
                         callCount := _ }, pic := _, index := _, temp := _ } = _
  rw [hmask]
  rfl

/-- A call of `rtc_open` that nothing interrupts does what `rtcOpen` does. -/
theorem rtcOpen_body {s : Clock} (hidle : s.point = .idle) :
    ∃ t, Run.run (clockStep accepts) s (.open :: List.replicate (rtcOpenOps.length + 1) .step)
        = some t ∧
      t.rtc = (rtcSetRate 2 (rtcInit s.rtc)).2 ∧ t.pic = enableIrq 8 s.pic ∧
      t.enabled = s.enabled ∧ t.eax = 0 := by
  have hcall : clockStep accepts s .open = some { s with point := .body rtcOpenOps 0 } := by
    simp only [clockStep, Clock.call, if_pos hidle]
  refine ⟨_, Run.run_cons_eq_some.2 ⟨_, hcall, run_body rfl⟩, ?_⟩
  rw [Clock.foldl_exec_at, rtcOpenOps, List.foldl_cons, List.foldl_append, List.foldl_append,
    foldl_rtcInitOps, foldl_rtcWriteOps]
  exact ⟨rfl, rfl, rfl, rfl⟩

/-- A call of `rtc_write` that nothing interrupts does what `rtcWrite` does. -/
theorem rtcWrite_body {s : Clock} (hidle : s.point = .idle) (frequency : UInt32) :
    ∃ t, Run.run (clockStep accepts) s (.write frequency ::
          List.replicate ((rtcWriteOps frequency.toInt32).length + 1) .step) = some t ∧
      t.rtc = (rtcSetRate frequency.toInt32 s.rtc).2 ∧ t.enabled = s.enabled ∧
      t.eax = (rtcSetRate frequency.toInt32 s.rtc).1 := by
  have hcall : clockStep accepts s (.write frequency)
      = some { s with point := .body (rtcWriteOps frequency.toInt32)
                                  (rtcRate frequency.toInt32) } := by
    simp only [clockStep, Clock.call, if_pos hidle]
  refine ⟨_, Run.run_cons_eq_some.2 ⟨_, hcall, run_body rfl⟩, ?_⟩
  rw [Clock.foldl_exec_at, foldl_rtcWriteOps]
  exact ⟨rfl, rfl, rfl⟩

/-- What `rtcRead` does as one step is a call of `rtc_read`, with an interrupt in it if a
tick arrives. -/
theorem readRun_of_rtcRead {k k' : Kernel} {buf : UInt32} {nbytes r : Int32} {input : Input}
    (h : Platform.rtcRead buf nbytes input k = .ok r k') {s : Clock} (hidle : s.point = .idle)
    (hrtc : s.rtc = k.rtc) (haccepts : accepts { s with point := .test } = true) :
    ∃ mid t, ReadRun accepts s mid t ∧ (.interrupt ∈ mid ↔ input.tick = true) ∧
      t.rtc = k'.rtc ∧ t.eax = r := by
  unfold Platform.rtcRead at h
  rw [Exec.get_bind_run] at h
  cases htick : input.tick with
  | true =>
    rw [htick] at h
    cases h
    refine ⟨_, _, readRun_of_tick hidle haccepts, by simp, ?_, rfl⟩
    rw [← hrtc]
    rfl
  | false =>
    rw [htick] at h
    cases hset : k.rtc.intflag with
    | false =>
      simp only [hset, Bool.false_eq_true, if_false] at h
      cases h
    | true =>
      simp only [hset, Bool.false_eq_true, if_false, if_true] at h
      cases h
      refine ⟨_, _, readRun_of_set hidle (hrtc ▸ hset), by simp, ?_, rfl⟩
      show { s.rtc with intflag := false } = _
      rw [hrtc]

end CheetOS
