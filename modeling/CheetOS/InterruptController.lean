import CheetOS.InterruptMask
import CheetOS.DescriptorTables
import CheetOS.Lib.Pic8259
import CheetOS.Lib.Run

/-!
# Interrupts as a protocol (`i8259.c`, `rtc.c`, `interr.S`)

The two controllers, the clock, the processor's interrupt flag and the handlers that run,
with requests coming at any time.

* `masks_written` says when the controllers hold the mask bytes of `i8259.c`: the
  initialisation clears the registers behind the kernel's back, and only a later call of
  `enable_irq` or `disable_irq` writes them;
* `handlers_one_at_a_time` is the protocol's safety: at most one handler runs, it is that of
  the keyboard or the clock, and lines are in service for it alone;
* `requests_served` says that a request waits for one other handler at most;
* `clock_never_stops` says that the clock is never left waiting for a read of its register C.
-/

namespace CheetOS

open Pic8259

/-- For the numbers of the lines. -/
local instance lines_ne_zero : NeZero 8 := ⟨by decide⟩

/-! ## The code -/

/-- `i8259_init`: the bytes and their ports. -/
def i8259Init : List (UInt8 × UInt16) :=
  [(0xFF, 0x21), (0xFF, 0xA1), (0x11, 0x20), (0x20, 0x21), (0x04, 0x21), (0x01, 0x21),
   (0x11, 0xA0), (0x28, 0xA1), (0x02, 0xA1), (0x01, 0xA1)]

/-- What `enable_irq` and `disable_irq` write, with the masks they have computed. -/
def maskWrites (irqNum : UInt32) (pic : Pic) : List (UInt8 × UInt16) :=
  if irqNum > numIrq then []
  else if irqNum > 7 then [(pic.slaveMask, 0xA1), (pic.masterMask, 0x21)]
  else [(pic.masterMask, 0x21)]

/-- `send_eoi`. -/
def sendEoi (irqNum : UInt32) : List (UInt8 × UInt16) :=
  if irqNum > numIrq then []
  else if irqNum > 7 then [((0x60 ||| (irqNum - 8)).toUInt8, 0xA0), (0x60 ||| 2, 0x20)]
  else [((0x60 ||| irqNum).toUInt8, 0x20)]

/-! ## Mask registers -/

/-- The controllers after `i8259_init`. -/
def initialised : Pair where
  master :=
    { irr := noLines
      isr := noLines
      imr := 0
      base := 0x20
      icw3 := 4
      stage := .ready
      single := false
      needs4 := true
      autoEoi := false }
  slave :=
    { irr := noLines
      isr := noLines
      imr := 0
      base := 0x28
      icw3 := 2
      stage := .ready
      single := false
      needs4 := true
      autoEoi := false }

theorem outbs_i8259Init (p : Pair) : p.outbs i8259Init = initialised := by
  have hpair : p.outbs i8259Init =
      { master := (((((p.master.data 0xFF).command 0x11).data 0x20).data 0x04).data 0x01)
        slave := (((((p.slave.data 0xFF).command 0x11).data 0x28).data 0x02).data 0x01) } := rfl
  rw [hpair, initialise, initialise]
  rfl

/-- The kernel's masks and the controllers. -/
abbrev Masks := Pic × Pair

/-- A call of `enable_irq` or `disable_irq`. -/
def callMasks (m : Masks) (c : IrqCall) : Masks :=
  let pic := c.run m.1
  (pic, m.2.outbs (maskWrites c.irqNum pic))

/-- The call names a line. -/
def IrqCall.valid (c : IrqCall) : Bool := decide (c.irqNum ≤ numIrq)

/-- The call names a line of the slave. -/
def IrqCall.forSlave (c : IrqCall) : Bool := decide (7 < c.irqNum) && c.valid

theorem run_of_invalid {c : IrqCall} (h : c.valid = false) (pic : Pic) : c.run pic = pic := by
  have hnum : c.irqNum > numIrq := by simpa [IrqCall.valid] using h
  cases c with
  | enableIrq n => exact if_pos hnum
  | disableIrq n => exact if_pos hnum

theorem slaveMask_run {c : IrqCall} (h : c.forSlave = false) (pic : Pic) :
    (c.run pic).slaveMask = pic.slaveMask := by
  by_cases hvalid : c.valid = true
  · have hseven : c.irqNum ≤ 7 := by simpa [IrqCall.forSlave, hvalid] using h
    rw [run_master pic c (Nat.lt_succ_of_le (UInt32.le_iff_toNat_le.1 hseven))]
  · rw [run_of_invalid (by simpa using hvalid)]

/-- What one call writes, when the controllers are initialised. -/
theorem outbs_maskWrites {p : Pair} (hmaster : p.master.stage = .ready)
    (hslave : p.slave.stage = .ready) (c : IrqCall) (pic : Pic) :
    p.outbs (maskWrites c.irqNum pic) =
      p.withMasks (if c.valid then pic.masterMask else p.master.imr)
        (if c.forSlave then pic.slaveMask else p.slave.imr) := by
  have hslaveWrite (v : UInt8) : p.outb (v, 0xA1) = p.withMasks p.master.imr v := by
    have hdata := data_ready hslave v
    rw [Pair.withMasks, ← hdata]
    rfl
  have hmasterWrite (q : Pair) (hq : q.master.stage = .ready) (v : UInt8) :
      q.outb (v, 0x21) = q.withMasks v q.slave.imr := by
    have hdata := data_ready hq v
    rw [Pair.withMasks, ← hdata]
    rfl
  rw [maskWrites]
  by_cases hnum : c.irqNum > numIrq
  · have hvalid : c.valid = false := by simpa [IrqCall.valid] using hnum
    rw [if_pos hnum, IrqCall.forSlave, hvalid]
    simp [Pair.outbs]
  · have hvalid : c.valid = true := by simpa [IrqCall.valid] using hnum
    rw [if_neg hnum, IrqCall.forSlave, hvalid]
    by_cases hseven : c.irqNum > 7
    · rw [if_pos hseven, Pair.outbs, List.foldl_cons, List.foldl_cons, List.foldl_nil, hslaveWrite,
        hmasterWrite (p.withMasks p.master.imr pic.slaveMask) hmaster]
      simp [hseven, Pair.withMasks]
    · rw [if_neg hseven, Pair.outbs, List.foldl_cons, List.foldl_nil, hmasterWrite p hmaster]
      simp [hseven]

/-- The registers after a sequence of calls. -/
theorem foldl_callMasks {m : Masks} (calls : List IrqCall) (hmaster : m.2.master.stage = .ready)
    (hslave : m.2.slave.stage = .ready) :
    calls.foldl callMasks m = (runCalls m.1 calls, m.2.withMasks
      (if calls.any IrqCall.valid then (runCalls m.1 calls).masterMask else m.2.master.imr)
      (if calls.any IrqCall.forSlave then (runCalls m.1 calls).slaveMask else m.2.slave.imr)) := by
  induction calls using List.reverseRecOn with
  | nil => simp [runCalls]
  | append_singleton calls c ih =>
    have hrun : runCalls m.1 (calls ++ [c]) = c.run (runCalls m.1 calls) := by
      rw [runCalls, List.foldl_append]
      rfl
    rw [List.foldl_append, List.foldl_cons, List.foldl_nil, ih, callMasks, hrun, List.any_append,
      List.any_append]
    generalize runCalls m.1 calls = pic
    dsimp only
    rw [outbs_maskWrites (by exact hmaster) (by exact hslave), Pair.withMasks_withMasks]
    congr 2
    · by_cases hvalid : c.valid = true
      · simp [hvalid]
      · have hsame := run_of_invalid (Bool.eq_false_of_not_eq_true hvalid) pic
        simp [hvalid, hsame, Pair.withMasks]
    · by_cases hc : c.forSlave = true
      · simp [hc]
      · have hsame := slaveMask_run (Bool.eq_false_of_not_eq_true hc) pic
        simp [hc, hsame, Pair.withMasks]

/-- The masks that no call has written. -/
theorem runCalls_unwritten (pic : Pic) (calls : List IrqCall) :
    (calls.any IrqCall.valid = false → runCalls pic calls = pic) ∧
    (calls.any IrqCall.forSlave = false → (runCalls pic calls).slaveMask = pic.slaveMask) := by
  induction calls generalizing pic with
  | nil => exact ⟨fun _ => rfl, fun _ => rfl⟩
  | cons c calls ih =>
    have hrun : runCalls pic (c :: calls) = runCalls (c.run pic) calls := rfl
    rw [hrun, List.any_cons, List.any_cons]
    constructor
    · intro h
      obtain ⟨hc, hcalls⟩ := Bool.or_eq_false_iff.1 h
      rw [(ih (c.run pic)).1 hcalls, run_of_invalid hc]
    · intro h
      obtain ⟨hc, hcalls⟩ := Bool.or_eq_false_iff.1 h
      rw [(ih (c.run pic)).2 hcalls, slaveMask_run hc]

/-- A register that is cleared unless its mask is written, which was `0xFF`. -/
theorem register_eq_iff {written : Bool} {mask : UInt8} (h : written = false → mask = 0xFF) :
    (if written then mask else 0) = mask ↔ written = true := by
  cases written with
  | true => exact iff_of_true rfl rfl
  | false =>
    refine iff_of_false ?_ Bool.false_ne_true
    rw [h rfl]
    decide

/-- **The mask registers after `i8259_init`.**  Whatever state the controllers were in, the
initialisation leaves every line open, while both mask bytes say that all are masked.  A
controller holds its byte from the first call of `enable_irq` or `disable_irq` on that writes
it, which for the slave is the first that names one of its lines, and not before. -/
theorem masks_written (p : Pair) (calls : List IrqCall) :
    let m := calls.foldl callMasks (allMasked, p.outbs i8259Init)
    m.1 = runCalls allMasked calls ∧
    m.2.master.imr = (if calls.any IrqCall.valid then m.1.masterMask else 0) ∧
    m.2.slave.imr = (if calls.any IrqCall.forSlave then m.1.slaveMask else 0) ∧
    (m.2.master.imr = m.1.masterMask ↔ calls.any IrqCall.valid = true) ∧
    (m.2.slave.imr = m.1.slaveMask ↔ calls.any IrqCall.forSlave = true) ∧
    m.2.master.base = 0x20 ∧ m.2.slave.base = 0x28 := by
  obtain ⟨hmaster, hslave⟩ := runCalls_unwritten allMasked calls
  rw [outbs_i8259Init, foldl_callMasks (m := (allMasked, initialised)) calls rfl rfl]
  exact ⟨rfl, rfl, rfl, register_eq_iff fun h => by rw [hmaster h]; rfl,
    register_eq_iff fun h => by rw [hslave h]; rfl, rfl, rfl⟩

/-! ## Handlers -/

/-- The steps of a handler, as far as the controllers and the clock see them. -/
inductive HandlerOp
  /-- `handle_charpress`. -/
  | handleCharpress
  /-- `intflag = 1; rtc_call_count++`. -/
  | tick
  /-- `outb(REG_C, REG_RTC_SEL); inb(REG_RTC_VAL)`. -/
  | readC
  | sendEoi (irqNum : UInt32)
  | iret
  /-- `stop`. -/
  | stop
  deriving DecidableEq, Repr

/-- `key_handler`. -/
def keyHandlerOps : List HandlerOp := [.handleCharpress, .sendEoi 1, .iret]

/-- `rtc_handler`: `rtc_interrupt_handler` has sent an end of interrupt already. -/
def rtcHandlerOps : List HandlerOp := [.tick, .readC, .sendEoi 8, .sendEoi 8, .iret]

/-- What the handler of a vector does. -/
def handlerOps (vector : UInt8) : List HandlerOp :=
  if vector = 0x21 then keyHandlerOps
  else if vector = 0x28 then rtcHandlerOps
  else [.stop]

/-- The hardware around the processor, and what it is doing. -/
structure Board where
  pair : Pair
  pic : Pic
  rtc : Rtc
  /-- The flag of the periodic interrupt in register C. -/
  flagC : Bool
  /-- IF. -/
  iflag : Bool
  /-- The handlers that run, the last one first, with what is left of them. -/
  handlers : List (List HandlerOp)

inductive BoardEvent
  /-- The keyboard has a scan code. -/
  | key
  /-- A period of the clock is over. -/
  | period
  /-- A request of another device. -/
  | request (n : Fin 16)
  /-- `cli` outside of handlers. -/
  | cli
  /-- `sti` outside of handlers. -/
  | sti
  /-- `rtc_init` outside of handlers, as part of `rtc_open`. -/
  | rtcInit
  /-- The processor takes an interrupt. -/
  | accept
  /-- The next step of the handler that runs. -/
  | next
  deriving DecidableEq, Repr

namespace Board

/-- The line of the clock: the flag is set and the periodic interrupt is on. -/
def clockLine (b : Board) : Bool := b.flagC && b.rtc.regB &&& 0x40 != 0

/-- The clock changes; an edge of its line is a request. -/
def withClock (b : Board) (rtc : Rtc) (flagC : Bool) : Board :=
  let b' := { b with rtc := rtc, flagC := flagC }
  if b'.clockLine && !b.clockLine then { b' with pair := b.pair.raise 8 } else b'

/-- `rtc_init`. -/
def rtcInit (b : Board) : Board :=
  let b := b.withClock (CheetOS.rtcInit b.rtc) b.flagC
  let pic := enableIrq 8 b.pic
  { b with pic := pic, pair := b.pair.outbs (maskWrites 8 pic) }

/-- `enable_irq`. -/
def enable (irqNum : UInt32) (b : Board) : Board :=
  let pic := enableIrq irqNum b.pic
  { b with pic := pic, pair := b.pair.outbs (maskWrites irqNum pic) }

/-- The board when `entry` has initialised it, from any state of the devices. -/
def booted (pair : Pair) (rtc : Rtc) (flagC : Bool) : Board :=
  let b : Board :=
    { pair := pair.outbs i8259Init
      pic := allMasked
      rtc := rtc
      flagC := flagC
      iflag := false
      handlers := [] }
  enable 8 (enable 1 b.rtcInit)

/-- A step of a handler, up to `iret`. -/
def runOp (b : Board) : HandlerOp → Board
  | .tick => { b with rtc := rtcInterruptHandler b.rtc }
  | .readC => b.withClock b.rtc false
  | .sendEoi n => { b with pair := b.pair.outbs (CheetOS.sendEoi n) }
  | .handleCharpress | .iret | .stop => b

def step (b : Board) : BoardEvent → Option Board
  | .key => some { b with pair := b.pair.raise 1 }
  | .period => some (b.withClock b.rtc true)
  | .request n =>
    if n = 1 ∨ n = 2 ∨ n = 8 then none else some { b with pair := b.pair.raise n }
  | .cli => if b.handlers = [] then some { b with iflag := false } else none
  | .sti => if b.handlers = [] then some { b with iflag := true } else none
  | .rtcInit => if b.handlers = [] ∧ b.iflag = false then some b.rtcInit else none
  | .accept =>
    if b.iflag then
      b.pair.acknowledge.map fun (vector, pair) =>
        { b with
          pair := pair
          iflag := false
          handlers := handlerOps vector :: b.handlers }
    else none
  | .next =>
    match b.handlers with
    | [.iret] :: outer => some { b with handlers := outer, iflag := true }
    | [.stop] :: _ => some b
    | (op :: ops) :: outer => some { b.runOp op with handlers := ops :: outer }
    | _ => none

end Board

/-! ## What is in service -/

/-- The handlers that run, with the lines in service on the master and on the slave. -/
inductive Serving : List (List HandlerOp) → Lines → Lines → Prop
  | idle : Serving [] noLines noLines
  | key : Serving [keyHandlerOps] (oneLine 1) noLines
  | keyEoi : Serving [[.sendEoi 1, .iret]] (oneLine 1) noLines
  | clock : Serving [rtcHandlerOps] (oneLine 2) (oneLine 0)
  | clockRead : Serving [[.readC, .sendEoi 8, .sendEoi 8, .iret]] (oneLine 2) (oneLine 0)
  | clockEoi : Serving [[.sendEoi 8, .sendEoi 8, .iret]] (oneLine 2) (oneLine 0)
  /-- The second end of interrupt finds nothing in service. -/
  | clockAgain : Serving [[.sendEoi 8, .iret]] noLines noLines
  | leave : Serving [[.iret]] noLines noLines

/-- The handler has yet to read register C. -/
def WillRead (handlers : List (List HandlerOp)) : Prop := ∃ ops ∈ handlers, .readC ∈ ops

/-- The controllers are set up: vectors from `0x20` and `0x28`, the slave on line 2, and only
the keyboard, the slave and the clock let through. -/
structure Wired (p : Pair) : Prop where
  masks : p.master.imr = 0xF9 ∧ p.slave.imr = 0xFE
  vectors : p.master.base = 0x20 ∧ p.slave.base = 0x28
  cascade : p.master.icw3 = 4 ∧ p.slave.icw3 = 2
  ready : p.master.stage = .ready ∧ p.slave.stage = .ready
  manual : p.master.autoEoi = false ∧ p.slave.autoEoi = false

/-- **The invariant of the protocol.** -/
structure Orderly (b : Board) : Prop where
  wired : Wired b.pair
  pic : b.pic = ⟨0xF9, 0xFE⟩
  serving : Serving b.handlers b.pair.master.isr b.pair.slave.isr
  off : b.handlers ≠ [] → b.iflag = false
  periodic : (b.rtc.regB &&& 0x40 != 0) = true

/-- The request of the clock is in. -/
def Board.requested (b : Board) : Bool := b.pair.slave.irr 0

/-- What a step can do to the clock. -/
inductive ClockStep (b b' : Board) : Prop
  | same (flag : b'.flagC = b.flagC) (request : b'.requested = b.requested)
      (read : WillRead b'.handlers ↔ WillRead b.handlers)
  /-- Its line goes up, if it was down. -/
  | period (flag : b'.flagC = true) (request : b'.requested = (b.requested || !b.flagC))
      (read : WillRead b'.handlers ↔ WillRead b.handlers)
  /-- Its handler is entered. -/
  | accept (flag : b'.flagC = b.flagC) (request : b.requested = true)
      (read : WillRead b'.handlers)
  /-- Its register C is read. -/
  | readC (flag : b'.flagC = false) (reader : WillRead b.handlers)

/-! ### The controllers -/

section Controllers

variable {p : Pair}

theorem Wired.raise (h : Wired p) (n : Fin 16) : Wired (p.raise n) := by
  rw [Pair.raise]
  split
  · exact ⟨h.masks, h.vectors, h.cascade, h.ready, h.manual⟩
  · exact ⟨h.masks, h.vectors, h.cascade, h.ready, h.manual⟩

theorem isr_raise (p : Pair) (n : Fin 16) :
    (p.raise n).master.isr = p.master.isr ∧ (p.raise n).slave.isr = p.slave.isr := by
  rw [Pair.raise]
  split
  · exact ⟨rfl, rfl⟩
  · exact ⟨rfl, rfl⟩

/-- The line of the clock is its own. -/
theorem irr_raise {n : Fin 16} (hn : n ≠ 8) (p : Pair) :
    (p.raise n).slave.irr 0 = p.slave.irr 0 := by
  rw [Pair.raise]
  split
  · rfl
  next hslave =>
    have hline : (0 : Fin 8) ≠ Fin.ofNat 8 n.val := by
      revert n
      decide
    exact Function.update_of_ne hline _ _

theorem sendEoi_key (p : Pair) : p.outbs (sendEoi 1) =
    { p with master := { p.master with isr := Function.update p.master.isr 1 false } } := by
  have heoi : p.outbs (sendEoi 1) = { p with master := p.master.command (0x60 ||| UInt8.ofNat 1) } :=
    rfl
  rw [heoi, show UInt8.ofNat 1 = UInt8.ofNat (1 : Fin 8).val from rfl, command_eoi]

theorem sendEoi_clock (p : Pair) : p.outbs (sendEoi 8) =
    { master := { p.master with isr := Function.update p.master.isr 2 false }
      slave := { p.slave with isr := Function.update p.slave.isr 0 false } } := by
  have heoi : p.outbs (sendEoi 8) =
      { master := p.master.command (0x60 ||| UInt8.ofNat (2 : Fin 8).val)
        slave := p.slave.command (0x60 ||| UInt8.ofNat (0 : Fin 8).val) } := rfl
  rw [heoi, command_eoi, command_eoi]

/-- An end of interrupt leaves the requests. -/
theorem irr_sendEoi_key (p : Pair) : (p.outbs (sendEoi 1)).master.irr = p.master.irr ∧
    (p.outbs (sendEoi 1)).slave.irr = p.slave.irr := by
  rw [sendEoi_key]
  exact ⟨rfl, rfl⟩

theorem irr_sendEoi_clock (p : Pair) : (p.outbs (sendEoi 8)).master.irr = p.master.irr ∧
    (p.outbs (sendEoi 8)).slave.irr = p.slave.irr := by
  rw [sendEoi_clock]
  exact ⟨rfl, rfl⟩

theorem Wired.masked_master (h : Wired p) (i : Fin 8) :
    p.master.masked i = decide (i ≠ 1 ∧ i ≠ 2) := by
  rw [Chip.masked, h.masks.1]
  revert i
  decide

theorem Wired.masked_slave (h : Wired p) (i : Fin 8) : p.slave.masked i = decide (i ≠ 0) := by
  rw [Chip.masked, h.masks.2]
  revert i
  decide

theorem Wired.cascaded (h : Wired p) (i : Fin 8) : p.master.cascaded i = decide (i = 2) := by
  rw [Chip.cascaded, h.cascade.1]
  revert i
  decide

/-- The clock is the only line of the slave. -/
theorem Wired.request_slave (h : Wired p) (hslave : p.slave.isr = noLines) :
    p.slave.request p.slave.irr = if p.slave.irr 0 then some 0 else none := by
  have hrange : List.finRange 8 = [0, 1, 2, 3, 4, 5, 6, 7] := by decide
  rw [request_of_noLines hslave, hrange]
  simp only [h.masked_slave]
  cases hclock : p.slave.irr 0 with
  | true => simp [hclock]
  | false => simp [hclock]

/-- The keyboard comes before the slave. -/
theorem Wired.request_pair (h : Wired p) (hmaster : p.master.isr = noLines)
    (hslave : p.slave.isr = noLines) :
    p.request = if p.master.irr 1 then some 1 else if p.slave.irr 0 then some 2 else none := by
  have hrange : List.finRange 8 = [0, 1, 2, 3, 4, 5, 6, 7] := by decide
  rw [Pair.request, request_of_noLines hmaster, hrange]
  simp only [h.masked_master, Pair.requests, h.cascaded, h.request_slave hslave]
  cases hkey : p.master.irr 1 with
  | true => simp [hkey]
  | false =>
    cases hclock : p.slave.irr 0 with
    | true => simp [hkey]
    | false => simp [hkey]

/-- **What the processor gets** when nothing is in service. -/
theorem Wired.acknowledge (h : Wired p) (hmaster : p.master.isr = noLines)
    (hslave : p.slave.isr = noLines) :
    p.acknowledge =
      if p.master.irr 1 then some (0x21, { p with master := p.master.serve 1 })
      else if p.slave.irr 0 then
        some (0x28, { master := p.master.serve 2, slave := p.slave.serve 0 })
      else none := by
  rw [Pair.acknowledge, h.request_pair hmaster hslave]
  cases hkey : p.master.irr 1 with
  | true => simp [h.cascaded, h.vectors.1]
  | false =>
    cases hclock : p.slave.irr 0 with
    | true =>
      simp [h.cascaded, h.cascade.2, h.request_slave hslave, hclock, h.vectors.2]
    | false => simp

end Controllers

/-! ### The clock -/

section Clock

variable {b : Board} {rtc : Rtc} {flagC : Bool}

theorem isr_withClock (b : Board) (rtc : Rtc) (flagC : Bool) :
    (b.withClock rtc flagC).pair.master.isr = b.pair.master.isr ∧
      (b.withClock rtc flagC).pair.slave.isr = b.pair.slave.isr := by
  rw [Board.withClock]
  split
  · exact isr_raise b.pair 8
  · exact ⟨rfl, rfl⟩

/-- A change of the clock. -/
theorem Orderly.withClock (h : Orderly b) (hperiodic : (rtc.regB &&& 0x40 != 0) = true) :
    Orderly (b.withClock rtc flagC) := by
  have hisr := isr_withClock b rtc flagC
  rw [Board.withClock] at hisr ⊢
  split at hisr
  next hedge =>
    rw [if_pos hedge]
    refine ⟨h.wired.raise 8, h.pic, ?_, h.off, hperiodic⟩
    rw [hisr.1, hisr.2]
    exact h.serving
  next hedge =>
    rw [if_neg hedge]
    exact ⟨h.wired, h.pic, h.serving, h.off, hperiodic⟩

/-- The line goes up with the flag. -/
theorem requested_withClock (hnew : (rtc.regB &&& 0x40 != 0) = true)
    (hold : (b.rtc.regB &&& 0x40 != 0) = true) :
    (b.withClock rtc flagC).requested = (b.requested || (flagC && !b.flagC)) := by
  have hline : ({ b with rtc := rtc, flagC := flagC } : Board).clockLine = flagC := by
    rw [Board.clockLine, hnew, Bool.and_true]
  have hline' : b.clockLine = b.flagC := by
    rw [Board.clockLine, hold, Bool.and_true]
  rw [Board.withClock, hline, hline']
  cases hedge : flagC && !b.flagC with
  | true =>
    rw [Bool.or_true]
    rfl
  | false =>
    rw [Bool.or_false]
    rfl

theorem withClock_flagC (b : Board) (rtc : Rtc) (flagC : Bool) :
    (b.withClock rtc flagC).flagC = flagC ∧ (b.withClock rtc flagC).handlers = b.handlers ∧
      (b.withClock rtc flagC).pic = b.pic := by
  rw [Board.withClock]
  split
  · exact ⟨rfl, rfl, rfl⟩
  · exact ⟨rfl, rfl, rfl⟩

theorem rtcInit_periodic (rtc : Rtc) : ((CheetOS.rtcInit rtc).regB &&& 0x40 != 0) = true := by
  have hbit : (rtc.regB ||| 0x40) &&& 0x40 = 0x40 :=
    UInt8.toBitVec_inj.1 (BitField.or_and_self rtc.regB.toBitVec 0x40)
  rw [CheetOS.rtcInit, hbit]
  decide

end Clock

/-! ## One step -/

section Step

variable {b b' : Board}

theorem orderly_raise (h : Orderly b) {n : Fin 16} (hn : n ≠ 8) :
    Orderly { b with pair := b.pair.raise n } ∧ ClockStep b { b with pair := b.pair.raise n } := by
  constructor
  · refine ⟨h.wired.raise n, h.pic, ?_, h.off, h.periodic⟩
    obtain ⟨hmaster, hslave⟩ := isr_raise b.pair n
    dsimp only
    rw [hmaster, hslave]
    exact h.serving
  · exact ClockStep.same rfl (irr_raise hn b.pair) Iff.rfl

/-- `rtc_init`: the masks are what they are already. -/
theorem orderly_rtcInit (h : Orderly b) : Orderly b.rtcInit ∧ ClockStep b b.rtcInit := by
  have hclock : Orderly (b.withClock (CheetOS.rtcInit b.rtc) b.flagC) :=
    h.withClock (rtcInit_periodic b.rtc)
  have hrequest : (b.withClock (CheetOS.rtcInit b.rtc) b.flagC).requested
      = (b.requested || (b.flagC && !b.flagC)) :=
    requested_withClock (rtcInit_periodic b.rtc) h.periodic
  obtain ⟨hflag, hhandlers, -⟩ := withClock_flagC b (CheetOS.rtcInit b.rtc) b.flagC
  generalize hc : b.withClock (CheetOS.rtcInit b.rtc) b.flagC = c at hclock hrequest hflag hhandlers
  have hpic : enableIrq 8 c.pic = c.pic := by
    rw [hclock.pic]
    decide
  have hpair : c.pair.outbs (maskWrites 8 c.pic) = c.pair := by
    have hwrites := outbs_maskWrites hclock.wired.ready.1 hclock.wired.ready.2 (.enableIrq 8) c.pic
    rw [IrqCall.irqNum] at hwrites
    rw [hwrites, hclock.pic, if_pos (by decide), if_pos (by decide)]
    have hmasks := hclock.wired.masks
    rw [← hmasks.1, ← hmasks.2, Pair.withMasks_self]
  rw [Board.rtcInit, hc, hpic, hpair]
  refine ⟨hclock, ClockStep.same hflag ?_ (by rw [hhandlers])⟩
  rw [Bool.and_not_self, Bool.or_false] at hrequest
  exact hrequest

/-- Nothing is in service where nothing runs. -/
theorem Serving.noLines_of_nil {master slave : Lines} (h : Serving [] master slave) :
    master = noLines ∧ slave = noLines := by
  cases h with
  | idle => exact ⟨rfl, rfl⟩

theorem update_noLines (i : Fin 8) : Function.update noLines i true = oneLine i := by
  funext j
  rw [Function.update_apply, noLines, oneLine]
  by_cases h : j = i
  · simp [h]
  · simp [h]

theorem update_oneLine (i : Fin 8) : Function.update (oneLine i) i false = noLines := by
  funext j
  rw [Function.update_apply, noLines, oneLine]
  by_cases h : j = i
  · simp [h]
  · simp [h]

theorem update_noLines_false (i : Fin 8) : Function.update noLines i false = noLines :=
  Function.update_eq_self i noLines

theorem Wired.serve {p : Pair} (h : Wired p) (i : Fin 8) :
    Wired { p with master := p.master.serve i } ∧
      Wired { master := p.master.serve i, slave := p.slave.serve 0 } :=
  ⟨⟨h.masks, h.vectors, h.cascade, h.ready, h.manual⟩,
    ⟨h.masks, h.vectors, h.cascade, h.ready, h.manual⟩⟩

/-- A line that was free is the only one in service. -/
theorem isr_serve {c : Chip} (hmanual : c.autoEoi = false) (hidle : c.isr = noLines) (i : Fin 8) :
    (c.serve i).isr = oneLine i := by
  rw [Chip.serve, hmanual, hidle]
  exact update_noLines i

theorem willRead_cons {ops : List HandlerOp} : WillRead [ops] ↔ .readC ∈ ops := by
  simp [WillRead]

theorem not_willRead_nil : ¬WillRead [] := by
  simp [WillRead]

theorem Orderly.idle (h : Orderly b) (hon : b.iflag = true) : b.handlers = [] := by
  by_contra hne
  rw [h.off hne] at hon
  cases hon

/-- What can be accepted where nothing runs. -/
theorem Orderly.acknowledge (h : Orderly b) (hidle : b.handlers = []) :
    b.pair.master.isr = noLines ∧ b.pair.slave.isr = noLines ∧ b.pair.acknowledge =
      if b.pair.master.irr 1 then some (0x21, { b.pair with master := b.pair.master.serve 1 })
      else if b.requested then
        some (0x28, { master := b.pair.master.serve 2, slave := b.pair.slave.serve 0 })
      else none := by
  have hserving := h.serving
  rw [hidle] at hserving
  obtain ⟨hmaster, hslave⟩ := hserving.noLines_of_nil
  exact ⟨hmaster, hslave, h.wired.acknowledge hmaster hslave⟩

/-- The board in the handler of the keyboard. -/
def enterKey (b : Board) : Board :=
  { b with
    pair := { b.pair with master := b.pair.master.serve 1 }
    iflag := false
    handlers := [keyHandlerOps] }

/-- The board in the handler of the clock. -/
def enterClock (b : Board) : Board :=
  { b with
    pair := { master := b.pair.master.serve 2, slave := b.pair.slave.serve 0 }
    iflag := false
    handlers := [rtcHandlerOps] }

/-- **Accepting**: the keyboard comes first, and there is only the clock beside it. -/
theorem Orderly.step_accept (h : Orderly b) (hidle : b.handlers = []) :
    b.step .accept =
      if b.iflag then
        if b.pair.master.irr 1 then some (enterKey b)
        else if b.requested then some (enterClock b)
        else none
      else none := by
  rw [Board.step, (h.acknowledge hidle).2.2, hidle]
  split
  · split
    · rfl
    · split
      · rfl
      · rfl
  · rfl

theorem orderly_accept (h : Orderly b) (hs : b.step .accept = some b') :
    Orderly b' ∧ ClockStep b b' := by
  have hon : b.iflag = true := by
    by_contra hoff
    rw [Board.step, if_neg hoff] at hs
    cases hs
  have hidle := h.idle hon
  obtain ⟨hmaster, hslave, -⟩ := h.acknowledge hidle
  rw [h.step_accept hidle, if_pos hon] at hs
  split at hs
  · cases hs
    refine ⟨⟨(h.wired.serve 1).1, h.pic, ?_, fun _ => rfl, h.periodic⟩, .same rfl rfl ?_⟩
    · rw [enterKey, isr_serve h.wired.manual.1 hmaster]
      dsimp only
      rw [hslave]
      exact Serving.key
    · rw [hidle]
      exact iff_of_false (fun hread => absurd (willRead_cons.1 hread) (by decide)) not_willRead_nil
  · split at hs
    next hrequest =>
      cases hs
      refine ⟨⟨(h.wired.serve 2).2, h.pic, ?_, fun _ => rfl, h.periodic⟩,
        .accept rfl hrequest (willRead_cons.2 (by decide))⟩
      rw [enterClock, isr_serve h.wired.manual.1 hmaster, isr_serve h.wired.manual.2 hslave]
      exact Serving.clock
    · cases hs

theorem Wired.outbs_key {p : Pair} (h : Wired p) : Wired (p.outbs (sendEoi 1)) := by
  rw [sendEoi_key]
  exact ⟨h.masks, h.vectors, h.cascade, h.ready, h.manual⟩

theorem Wired.outbs_clock {p : Pair} (h : Wired p) : Wired (p.outbs (sendEoi 8)) := by
  rw [sendEoi_clock]
  exact ⟨h.masks, h.vectors, h.cascade, h.ready, h.manual⟩

/-- A handler goes on, with other lines in service. -/
theorem Orderly.goOn (h : Orderly b) {ops : List HandlerOp} (hhandlers : b.handlers = [ops])
    (p : Pair) (rest : List HandlerOp) (hwired : Wired p) (hirr : p.slave.irr = b.pair.slave.irr)
    (hserving : Serving [rest] p.master.isr p.slave.isr)
    (hread : .readC ∈ rest ↔ .readC ∈ ops) :
    Orderly { b with pair := p, handlers := [rest] } ∧
      ClockStep b { b with pair := p, handlers := [rest] } := by
  have hne : b.handlers ≠ [] := by
    rw [hhandlers]
    exact List.cons_ne_nil ops []
  refine ⟨⟨hwired, h.pic, hserving, fun _ => h.off hne, h.periodic⟩, .same rfl ?_ ?_⟩
  · exact congrFun hirr 0
  · rw [hhandlers]
    exact willRead_cons.trans (hread.trans willRead_cons.symm)

/-- An end of interrupt of the clock. -/
theorem Orderly.endClock (h : Orderly b) {ops : List HandlerOp} (hhandlers : b.handlers = [ops])
    (rest : List HandlerOp) (hmaster : Function.update b.pair.master.isr 2 false = noLines)
    (hslave : Function.update b.pair.slave.isr 0 false = noLines)
    (hserving : Serving [rest] noLines noLines) (hread : .readC ∈ rest ↔ .readC ∈ ops) :
    Orderly { b with pair := b.pair.outbs (sendEoi 8), handlers := [rest] } ∧
      ClockStep b { b with pair := b.pair.outbs (sendEoi 8), handlers := [rest] } := by
  refine h.goOn hhandlers _ rest h.wired.outbs_clock ?_ ?_ hread
  · rw [sendEoi_clock]
  · rw [sendEoi_clock, hmaster, hslave]
    exact hserving

/-- A read of register C takes the line of the clock down. -/
theorem withClock_false (b : Board) (rtc : Rtc) :
    b.withClock rtc false = { b with rtc := rtc, flagC := false } := by
  rw [Board.withClock]
  exact if_neg (by simp [Board.clockLine])

theorem orderly_next (h : Orderly b) (hs : b.step .next = some b') :
    Orderly b' ∧ ClockStep b b' := by
  have hserving := h.serving
  generalize hhandlers : b.handlers = handlers at hserving
  generalize hmaster : b.pair.master.isr = master at hserving
  generalize hslave : b.pair.slave.isr = slave at hserving
  rw [Board.step, hhandlers] at hs
  cases hserving with
  | idle => cases hs
  | key =>
    cases hs
    refine h.goOn hhandlers b.pair _ h.wired rfl ?_ (by decide)
    rw [hmaster, hslave]
    exact Serving.keyEoi
  | keyEoi =>
    cases hs
    refine h.goOn hhandlers (b.pair.outbs (sendEoi 1)) _ h.wired.outbs_key ?_ ?_ (by decide)
    · rw [sendEoi_key]
    · rw [sendEoi_key, hmaster, update_oneLine]
      dsimp only
      rw [hslave]
      exact Serving.leave
  | clock =>
    cases hs
    refine ⟨⟨h.wired, h.pic, ?_, fun _ => h.off ?_, h.periodic⟩, .same rfl rfl ?_⟩
    · dsimp only
      rw [Board.runOp, hmaster, hslave]
      exact Serving.clockRead
    · rw [hhandlers]
      exact List.cons_ne_nil _ []
    · rw [hhandlers]
      exact willRead_cons.trans (Iff.trans (by decide) willRead_cons.symm)
  | clockRead =>
    cases hs
    rw [Board.runOp, withClock_false]
    refine ⟨⟨h.wired, h.pic, ?_, fun _ => h.off ?_, h.periodic⟩, .readC rfl ?_⟩
    · dsimp only
      rw [hmaster, hslave]
      exact Serving.clockEoi
    · rw [hhandlers]
      exact List.cons_ne_nil _ []
    · rw [hhandlers]
      exact willRead_cons.2 (by decide)
  | clockEoi =>
    cases hs
    refine h.endClock hhandlers _ ?_ ?_ Serving.clockAgain (by decide)
    · rw [hmaster, update_oneLine]
    · rw [hslave, update_oneLine]
  | clockAgain =>
    cases hs
    refine h.endClock hhandlers _ ?_ ?_ Serving.leave (by decide)
    · rw [hmaster, update_noLines_false]
    · rw [hslave, update_noLines_false]
  | leave =>
    cases hs
    refine ⟨⟨h.wired, h.pic, ?_, fun hne => absurd rfl hne, h.periodic⟩, .same rfl rfl ?_⟩
    · dsimp only
      rw [hmaster, hslave]
      exact Serving.idle
    · rw [hhandlers]
      exact iff_of_false not_willRead_nil fun hread => absurd (willRead_cons.1 hread) (by decide)

/-- **One step** keeps the invariant. -/
theorem orderly_step {e : BoardEvent} (h : Orderly b) (hs : b.step e = some b') :
    Orderly b' ∧ ClockStep b b' := by
  cases e with
  | key =>
    cases hs
    exact orderly_raise h (by decide)
  | period =>
    cases hs
    obtain ⟨hflag, hhandlers, -⟩ := withClock_flagC b b.rtc true
    refine ⟨h.withClock h.periodic, .period hflag ?_ (by rw [hhandlers])⟩
    rw [requested_withClock h.periodic h.periodic, Bool.true_and]
  | request n =>
    rw [Board.step] at hs
    split at hs
    · cases hs
    next hn =>
      cases hs
      exact orderly_raise h fun heq => hn (Or.inr (Or.inr heq))
  | cli =>
    rw [Board.step] at hs
    split at hs
    next hidle =>
      cases hs
      exact ⟨⟨h.wired, h.pic, h.serving, fun hne => absurd hidle hne, h.periodic⟩,
        .same rfl rfl Iff.rfl⟩
    · cases hs
  | sti =>
    rw [Board.step] at hs
    split at hs
    next hidle =>
      cases hs
      exact ⟨⟨h.wired, h.pic, h.serving, fun hne => absurd hidle hne, h.periodic⟩,
        .same rfl rfl Iff.rfl⟩
    · cases hs
  | rtcInit =>
    rw [Board.step] at hs
    split at hs
    · cases hs
      exact orderly_rtcInit h
    · cases hs
  | accept => exact orderly_accept h hs
  | next => exact orderly_next h hs

end Step

/-! ## Runs -/

section Runs

variable {pair : Pair} {rtc : Rtc} {flagC : Bool} {b : Board} {es : List BoardEvent}

theorem enable_eq {b : Board} (hmaster : b.pair.master.stage = .ready)
    (hslave : b.pair.slave.stage = .ready) (n : UInt32) :
    b.enable n = { b with
      pic := enableIrq n b.pic
      pair := b.pair.withMasks
        (if (IrqCall.enableIrq n).valid then (enableIrq n b.pic).masterMask else b.pair.master.imr)
        (if (IrqCall.enableIrq n).forSlave then (enableIrq n b.pic).slaveMask
          else b.pair.slave.imr) } := by
  rw [Board.enable, ← outbs_maskWrites hmaster hslave]
  rfl

/-- The board when the clock is initialised, before lines are enabled. -/
def withClockOn (rtc : Rtc) (flagC : Bool) : Board :=
  ({ pair := initialised, pic := allMasked, rtc := rtc, flagC := flagC, iflag := false,
     handlers := [] } : Board).withClock (CheetOS.rtcInit rtc) flagC

/-- The lines that `entry` enables. -/
theorem booted_eq (pair : Pair) (rtc : Rtc) (flagC : Bool) :
    Board.booted pair rtc flagC = { withClockOn rtc flagC with
      pic := ⟨0xF9, 0xFE⟩
      pair := (withClockOn rtc flagC).pair.withMasks 0xF9 0xFE } := by
  have hbooted : Board.booted pair rtc flagC
      = (((withClockOn rtc flagC).enable 8).enable 1).enable 8 := by
    rw [Board.booted, outbs_i8259Init]
    rfl
  have hready : (withClockOn rtc flagC).pair.master.stage = .ready ∧
      (withClockOn rtc flagC).pair.slave.stage = .ready := by
    rw [withClockOn, Board.withClock]
    split
    · exact ⟨rfl, rfl⟩
    · exact ⟨rfl, rfl⟩
  have hpic : (withClockOn rtc flagC).pic = allMasked := (withClock_flagC _ _ _).2.2
  have hfirst := enable_eq hready.1 hready.2 8
  have hsecond := enable_eq (b := (withClockOn rtc flagC).enable 8) (by rw [hfirst]; exact hready.1)
    (by rw [hfirst]; exact hready.2) 1
  have hthird := enable_eq (b := ((withClockOn rtc flagC).enable 8).enable 1)
    (by rw [hsecond, hfirst]; exact hready.1) (by rw [hsecond, hfirst]; exact hready.2) 8
  rw [hbooted, hthird, hsecond, hfirst]
  dsimp only
  rw [hpic]
  rfl

/-- **The invariant holds after `entry`**, whatever state the devices were in. -/
theorem orderly_booted (pair : Pair) (rtc : Rtc) (flagC : Bool) :
    Orderly (Board.booted pair rtc flagC) := by
  rw [booted_eq, withClockOn, Board.withClock]
  split
  · exact ⟨⟨⟨rfl, rfl⟩, ⟨rfl, rfl⟩, ⟨rfl, rfl⟩, ⟨rfl, rfl⟩, ⟨rfl, rfl⟩⟩, rfl, Serving.idle,
      fun _ => rfl, rtcInit_periodic rtc⟩
  · exact ⟨⟨⟨rfl, rfl⟩, ⟨rfl, rfl⟩, ⟨rfl, rfl⟩, ⟨rfl, rfl⟩, ⟨rfl, rfl⟩⟩, rfl, Serving.idle,
      fun _ => rfl, rtcInit_periodic rtc⟩

theorem orderly_run (h : Run.run Board.step (Board.booted pair rtc flagC) es = some b) :
    Orderly b :=
  Run.invariant_run (fun _ _ _ hb hs => (orderly_step hb hs).1) (orderly_booted pair rtc flagC) h

/-- **Handlers run one at a time.**  In every state that `entry` and then requests, handlers
and the kernel's own `cli`, `sti` and `rtc_init` can lead to, at most one handler runs, with
interrupts off; lines are in service for no other; and the processor can only be given the
vector of the keyboard or that of the clock. -/
theorem handlers_one_at_a_time
    (h : Run.run Board.step (Board.booted pair rtc flagC) es = some b) :
    b.handlers.length ≤ 1 ∧ (b.handlers ≠ [] → b.iflag = false) ∧
    (b.handlers = [] → b.pair.master.isr = noLines ∧ b.pair.slave.isr = noLines) ∧
    (∀ b', b.step .accept = some b' →
      b'.handlers = [keyHandlerOps] ∨ b'.handlers = [rtcHandlerOps]) := by
  have horderly := orderly_run h
  refine ⟨?_, horderly.off, fun hidle => ?_, fun b' hs => ?_⟩
  · have hserving := horderly.serving
    generalize b.handlers = handlers, b.pair.master.isr = master, b.pair.slave.isr = slave
      at hserving
    cases hserving with
    | idle => exact Nat.zero_le 1
    | key | keyEoi | clock | clockRead | clockEoi | clockAgain | leave => exact le_refl 1
  · obtain ⟨hmaster, hslave, -⟩ := horderly.acknowledge hidle
    exact ⟨hmaster, hslave⟩
  · have hon : b.iflag = true := by
      by_contra hoff
      rw [Board.step, if_neg hoff] at hs
      cases hs
    rw [horderly.step_accept (horderly.idle hon), if_pos hon] at hs
    split at hs
    · cases hs
      exact Or.inl rfl
    · split at hs
      · cases hs
        exact Or.inr rfl
      · cases hs

/-- A clock with its periodic interrupt off. -/
def sampleRtc : Rtc := ⟨0x26, 0x02, false, 0⟩

/-- A key and a tick of the clock, and the first of the two handlers. -/
theorem handlers_one_at_a_time_both :
    ∃ b, Run.run Board.step (Board.booted initialised sampleRtc false)
      [.sti, .period, .key, .accept] = some b ∧ b.handlers.length ≤ 1 := by
  obtain ⟨b, hb⟩ := Option.isSome_iff_exists.1 (show (Run.run Board.step
    (Board.booted initialised sampleRtc false) [.sti, .period, .key, .accept]).isSome = true by rfl)
  exact ⟨b, hb, (handlers_one_at_a_time hb).1⟩

/-- The events that serve the keyboard. -/
def serveKey : List BoardEvent := [.accept, .next, .next, .next]

/-- The events that serve the clock. -/
def serveClock : List BoardEvent := [.accept, .next, .next, .next, .next, .next]

/-- The handler of the keyboard, from its acceptance to its end. -/
theorem run_serveKey (horderly : Orderly b) (hon : b.iflag = true)
    (hkey : b.pair.master.irr 1 = true) : ∃ b', Run.run Board.step b serveKey = some b' ∧
      b'.handlers = [] ∧ b'.iflag = true ∧ b'.pair.master.irr 1 = false ∧
      b'.requested = b.requested ∧ b'.rtc = b.rtc := by
  have haccept : b.step .accept = some (enterKey b) := by
    rw [horderly.step_accept (horderly.idle hon), if_pos hon, if_pos hkey]
  have hrest : Run.run Board.step (enterKey b) [.next, .next, .next]
      = some { enterKey b with
        pair := (enterKey b).pair.outbs (sendEoi 1)
        handlers := []
        iflag := true } := rfl
  obtain ⟨hmaster, hslave⟩ := irr_sendEoi_key (enterKey b).pair
  refine ⟨_, Run.run_cons_eq_some.2 ⟨_, haccept, hrest⟩, rfl, rfl, ?_, ?_, rfl⟩
  · show ((enterKey b).pair.outbs (sendEoi 1)).master.irr 1 = false
    rw [hmaster]
    exact Function.update_self (1 : Fin 8) false b.pair.master.irr
  · show ((enterKey b).pair.outbs (sendEoi 1)).slave.irr 0 = b.requested
    rw [hslave]
    rfl

/-- The handler of the clock, from its acceptance to its end. -/
theorem run_serveClock (horderly : Orderly b) (hon : b.iflag = true)
    (hkey : b.pair.master.irr 1 = false) (hclock : b.requested = true) :
    ∃ b', Run.run Board.step b serveClock = some b' ∧
      b'.handlers = [] ∧ b'.iflag = true ∧ b'.pair.master.irr 1 = false ∧
      b'.requested = false ∧ b'.rtc = rtcInterruptHandler b.rtc ∧ b'.flagC = false := by
  have haccept : b.step .accept = some (enterClock b) := by
    rw [horderly.step_accept (horderly.idle hon), if_pos hon, hkey, hclock]
    rfl
  have hrest : Run.run Board.step (enterClock b) [.next, .next, .next, .next, .next]
      = some { enterClock b with
        pair := ((enterClock b).pair.outbs (sendEoi 8)).outbs (sendEoi 8)
        rtc := rtcInterruptHandler b.rtc
        flagC := false
        handlers := []
        iflag := true } := rfl
  obtain ⟨hmaster, hslave⟩ := irr_sendEoi_clock (enterClock b).pair
  obtain ⟨hmaster', hslave'⟩ := irr_sendEoi_clock ((enterClock b).pair.outbs (sendEoi 8))
  refine ⟨_, Run.run_cons_eq_some.2 ⟨_, haccept, hrest⟩, rfl, rfl, ?_, ?_, rfl, rfl⟩
  · show (((enterClock b).pair.outbs (sendEoi 8)).outbs (sendEoi 8)).master.irr 1 = false
    rw [hmaster', hmaster]
    exact (Function.update_of_ne (show (1 : Fin 8) ≠ 2 by decide) false b.pair.master.irr).trans hkey
  · show (((enterClock b).pair.outbs (sendEoi 8)).outbs (sendEoi 8)).slave.irr 0 = false
    rw [hslave', hslave]
    exact Function.update_self (0 : Fin 8) false b.pair.slave.irr

/-- **Requests are served**, the keyboard first, and the clock after one handler of the keyboard
at most.  Then nothing is left to be asked for. -/
theorem requests_served (h : Run.run Board.step (Board.booted pair rtc flagC) es = some b)
    (hon : b.iflag = true) :
    ∃ b', Run.run Board.step b ((if b.pair.master.irr 1 then serveKey else []) ++
        if b.requested then serveClock else []) = some b' ∧
      b'.handlers = [] ∧ b'.iflag = true ∧ b'.step .accept = none ∧
      b'.rtc = if b.requested then rtcInterruptHandler b.rtc else b.rtc := by
  have horderly := orderly_run h
  -- first the keyboard
  have hkeyServed : ∃ c, Run.run Board.step b (if b.pair.master.irr 1 then serveKey else []) = some c ∧
      c.iflag = true ∧ c.pair.master.irr 1 = false ∧ c.requested = b.requested ∧ c.rtc = b.rtc := by
    cases hkey : b.pair.master.irr 1 with
    | true =>
      obtain ⟨c, hrun, -, hc⟩ := run_serveKey horderly hon hkey
      exact ⟨c, hrun, hc⟩
    | false => exact ⟨b, rfl, hon, hkey, rfl, rfl⟩
  obtain ⟨c, hrun, hcon, hkey, hsame, hrtc⟩ := hkeyServed
  have hc : Orderly c :=
    Run.invariant_run (fun _ _ _ hb hs => (orderly_step hb hs).1) horderly hrun
  -- then the clock
  have hclockServed : ∃ d, Run.run Board.step c (if b.requested then serveClock else []) = some d ∧
      d.handlers = [] ∧ d.iflag = true ∧ d.pair.master.irr 1 = false ∧ d.requested = false ∧
      d.rtc = if b.requested then rtcInterruptHandler b.rtc else b.rtc := by
    cases hclock : b.requested with
    | true =>
      obtain ⟨d, hrun', hidle, hd, hkey', hdone, hrtc', -⟩ :=
        run_serveClock hc hcon hkey (hsame.trans hclock)
      exact ⟨d, hrun', hidle, hd, hkey', hdone, hrtc'.trans (congrArg rtcInterruptHandler hrtc)⟩
    | false => exact ⟨c, rfl, hc.idle hcon, hcon, hkey, hsame.trans hclock, hrtc⟩
  obtain ⟨d, hrun', hidle, hd, hkey', hdone, hrtc'⟩ := hclockServed
  have hall : Run.run Board.step b ((if b.pair.master.irr 1 then serveKey else []) ++
      if b.requested then serveClock else []) = some d := by
    rw [Run.run_append, hrun]
    exact hrun'
  have hd' : Orderly d :=
    Run.invariant_run (fun _ _ _ hb hs => (orderly_step hb hs).1) horderly hall
  refine ⟨d, hall, hidle, hd, ?_, hrtc'⟩
  rw [hd'.step_accept hidle, if_pos hd, hkey', hdone]
  rfl

/-- A key and a tick of the clock, and what serves them. -/
theorem requests_served_both :
    ∃ b b', Run.run Board.step (Board.booted initialised sampleRtc false)
      [.sti, .period, .key] = some b ∧
      Run.run Board.step b (serveKey ++ serveClock) = some b' ∧ b'.rtc.intflag = true := by
  have hrun : ∃ b, Run.run Board.step (Board.booted initialised sampleRtc false)
      [.sti, .period, .key] = some b ∧ b.iflag = true ∧ b.pair.master.irr 1 = true ∧
      b.requested = true := ⟨_, rfl, rfl, rfl, rfl⟩
  obtain ⟨b, hb, hon, hkey, hclock⟩ := hrun
  obtain ⟨b', hserved, -, -, -, hrtc⟩ := requests_served hb hon
  rw [hkey, hclock] at hserved
  rw [hclock] at hrtc
  exact ⟨b, b', hb, hserved, by rw [hrtc]; rfl⟩

/-- The clock is heard: its flag is set for no longer than until its handler runs. -/
def Alive (b : Board) : Prop := b.flagC = true → b.requested = true ∨ WillRead b.handlers

/-- Every handler that runs is what is left of `key_handler`. -/
def OnlyKey (handlers : List (List HandlerOp)) : Prop := ∀ ops ∈ handlers, ops <:+ keyHandlerOps

/-- The clock is not heard, and its handler does not run. -/
def Dead (b : Board) : Prop := b.flagC = true ∧ b.requested = false ∧ OnlyKey b.handlers

theorem alive_step {b' : Board} (h : Alive b) (hs : ClockStep b b') : Alive b' := by
  intro hflag
  cases hs with
  | same flag request read =>
    rw [request, read]
    exact h (flag ▸ hflag)
  | period _ request read =>
    rw [request, read]
    cases hold : b.flagC with
    | true =>
      rw [Bool.not_true, Bool.or_false]
      exact h hold
    | false => exact Or.inl (Bool.or_true _)
  | accept _ _ read => exact Or.inr read
  | readC flag _ =>
    rw [flag] at hflag
    cases hflag

theorem OnlyKey.not_willRead {handlers : List (List HandlerOp)} (h : OnlyKey handlers) :
    ¬WillRead handlers := by
  rintro ⟨ops, hops, hread⟩
  exact absurd ((h ops hops).subset hread) (by decide)

theorem onlyKey_next {b' : Board} (h : OnlyKey b.handlers) (hs : b.step .next = some b') :
    OnlyKey b'.handlers := by
  rw [Board.step] at hs
  split at hs
  next outer hhandlers =>
    cases hs
    rw [hhandlers] at h
    exact (List.forall_mem_cons.1 h).2
  · cases hs
    exact h
  next op ops outer _ _ hhandlers =>
    cases hs
    rw [hhandlers] at h
    obtain ⟨hops, houter⟩ := List.forall_mem_cons.1 h
    exact List.forall_mem_cons.2 ⟨(List.suffix_cons op ops).trans hops, houter⟩
  · cases hs

/-- Without a request of the clock only the keyboard's handler is entered. -/
theorem onlyKey_step {e : BoardEvent} {b' : Board} (horderly : Orderly b)
    (hrequest : b.requested = false) (h : OnlyKey b.handlers) (hs : b.step e = some b') :
    OnlyKey b'.handlers := by
  cases e with
  | key =>
    cases hs
    exact h
  | period =>
    cases hs
    rw [(withClock_flagC b b.rtc true).2.1]
    exact h
  | request n =>
    rw [Board.step] at hs
    split at hs
    · cases hs
    · cases hs
      exact h
  | cli | sti =>
    rw [Board.step] at hs
    split at hs
    · cases hs
      exact h
    · cases hs
  | rtcInit =>
    rw [Board.step] at hs
    split at hs
    · cases hs
      rw [Board.rtcInit, (withClock_flagC b (CheetOS.rtcInit b.rtc) b.flagC).2.1]
      exact h
    · cases hs
  | accept =>
    by_cases hon : b.iflag = true
    · rw [horderly.step_accept (horderly.idle hon), if_pos hon, hrequest] at hs
      split at hs
      · cases hs
        exact List.forall_mem_singleton.2 List.suffix_rfl
      · cases hs
    · rw [Board.step, if_neg hon] at hs
      cases hs
  | next => exact onlyKey_next h hs

theorem dead_step {e : BoardEvent} {b' : Board} (horderly : Orderly b) (h : Dead b)
    (hs : b.step e = some b') : Dead b' := by
  obtain ⟨hflag, hrequest, honly⟩ := h
  have hkept := onlyKey_step horderly hrequest honly hs
  cases (orderly_step horderly hs).2 with
  | same flag request _ => exact ⟨flag.trans hflag, request.trans hrequest, hkept⟩
  | period flag request _ =>
    refine ⟨flag, ?_, hkept⟩
    rw [request, hrequest, hflag]
    rfl
  | accept _ request _ =>
    rw [hrequest] at request
    cases request
  | readC _ reader => exact absurd reader honly.not_willRead

/-- The clock after `entry`: only an edge of its line is a request. -/
theorem clock_booted (pair : Pair) (rtc : Rtc) (flagC : Bool) :
    (Board.booted pair rtc flagC).flagC = flagC ∧
    (Board.booted pair rtc flagC).handlers = [] ∧
    (Board.booted pair rtc flagC).requested
      = (flagC && !(flagC && rtc.regB &&& 0x40 != 0)) := by
  rw [booted_eq]
  obtain ⟨hflag, hhandlers, -⟩ := withClock_flagC
    { pair := initialised, pic := allMasked, rtc := rtc, flagC := flagC, iflag := false,
      handlers := [] } (CheetOS.rtcInit rtc) flagC
  refine ⟨hflag, hhandlers, ?_⟩
  show (withClockOn rtc flagC).requested = _
  rw [withClockOn, Board.withClock, Board.clockLine, Board.clockLine]
  dsimp only
  rw [rtcInit_periodic, Bool.and_true]
  cases flagC && !(flagC && rtc.regB &&& 0x40 != 0) with
  | true => rfl
  | false => rfl

/-- **The clock never stops**, unless its line was up already when `entry` initialised the
controllers: then its interrupt never comes.  `rtc_init` does not read register C. -/
theorem clock_never_stops (pair : Pair) (rtc : Rtc) (flagC : Bool) :
    (flagC && rtc.regB &&& 0x40 != 0) = false ∧
        (∀ es b, Run.run Board.step (Board.booted pair rtc flagC) es = some b → Alive b) ∨
    (flagC && rtc.regB &&& 0x40 != 0) = true ∧
        (∀ es b, Run.run Board.step (Board.booted pair rtc flagC) es = some b → Dead b) := by
  obtain ⟨hflag, hhandlers, hrequest⟩ := clock_booted pair rtc flagC
  cases hline : flagC && rtc.regB &&& 0x40 != 0 with
  | false =>
    refine Or.inl ⟨rfl, fun es b hrun => ?_⟩
    rw [hline, Bool.not_false, Bool.and_true] at hrequest
    have halive : Alive (Board.booted pair rtc flagC) := by
      intro hset
      exact Or.inl (hrequest.trans (hflag ▸ hset))
    exact (Run.invariant_run (I := fun b => Orderly b ∧ Alive b) (fun b e b' hb hs => by
      obtain ⟨horderly, hclock⟩ := orderly_step hb.1 hs
      exact ⟨horderly, alive_step hb.2 hclock⟩) ⟨orderly_booted pair rtc flagC, halive⟩ hrun).2
  | true =>
    refine Or.inr ⟨rfl, fun es b hrun => ?_⟩
    rw [hline, Bool.not_true, Bool.and_false] at hrequest
    have hdead : Dead (Board.booted pair rtc flagC) := by
      refine ⟨?_, hrequest, ?_⟩
      · rw [hflag]
        exact (Bool.and_eq_true_iff.1 hline).1
      · rw [hhandlers]
        exact List.forall_mem_nil _
    exact (Run.invariant_run (I := fun b => Orderly b ∧ Dead b)
      (fun b e b' hb hs => ⟨(orderly_step hb.1 hs).1, dead_step hb.1 hb.2 hs⟩)
      ⟨orderly_booted pair rtc flagC, hdead⟩ hrun).2

end Runs

end CheetOS
