import Mathlib

/-!
# The devices

The hardware the drivers talk to, and the driver code that has no state but
theirs: the interrupt controller (`i8259.c`), the real-time clock (`rtc.c`) and
the text screen (`putc` and `clear` of `lib.c`).

Port writes are updates of the register they reach.  The cursor position that
`set_cursor` sends to the VGA ports is not read back by anything and is left out.
-/

namespace CheetOS

/-! ## Interrupt controller -/

/-- The two mask bytes of `i8259.c`.  Every change of one is written to its data
port at once, so the port holds the same value. -/
structure Pic where
  /-- `master_mask`: IRQs 0-7. -/
  masterMask : UInt8
  /-- `slave_mask`: IRQs 8-15. -/
  slaveMask : UInt8
  deriving DecidableEq, Repr

/-- `NUM_IRQ`. -/
abbrev numIrq : UInt32 := 0x0F

/-- `ICW3_SLAVE`: the line of the master the slave is cascaded on. -/
abbrev icw3Slave : UInt8 := 2

/-- `enable_irq`: unmask a line, and the cascade line when it is on the slave. -/
def enableIrq (irqNum : UInt32) (pic : Pic) : Pic :=
  if irqNum > numIrq then pic
  else if irqNum > 7 then
    { slaveMask := pic.slaveMask &&& ~~~((1 : UInt8) <<< (irqNum - 8).toUInt8)
      masterMask := pic.masterMask &&& ~~~((1 : UInt8) <<< icw3Slave) }
  else { pic with masterMask := pic.masterMask &&& ~~~((1 : UInt8) <<< irqNum.toUInt8) }

/-- `disable_irq`: mask a line.  For one on the slave the cascade line is masked too. -/
def disableIrq (irqNum : UInt32) (pic : Pic) : Pic :=
  if irqNum > numIrq then pic
  else if irqNum > 7 then
    { slaveMask := pic.slaveMask ||| ((1 : UInt8) <<< (irqNum - 8).toUInt8)
      masterMask := pic.masterMask ||| ((1 : UInt8) <<< icw3Slave) }
  else { pic with masterMask := pic.masterMask ||| ((1 : UInt8) <<< irqNum.toUInt8) }

/-! ## Real-time clock -/

/-- The registers of the clock and the variables of `rtc.c`. -/
structure Rtc where
  /-- Register A: the rate is its low nibble. -/
  regA : UInt8
  /-- Register B: bit 6 turns the periodic interrupt on. -/
  regB : UInt8
  /-- `intflag`: a tick came and no `rtc_read` has taken it yet. -/
  intflag : Bool
  /-- `rtc_call_count`. -/
  callCount : UInt32
  deriving DecidableEq, Repr

/-- `MASK_RATE`. -/
abbrev maskRate : UInt8 := 0xF0

/-- `rtc_init`, without its `enable_irq(8)`: rate 15, periodic interrupt on. -/
def rtcInit (rtc : Rtc) : Rtc :=
  { regA := (rtc.regA &&& maskRate) ||| (maskRate >>> 4)
    regB := rtc.regB ||| 0x40
    intflag := false
    callCount := 0 }

/-- The rate `rtc_write` selects for a frequency.  The arm for 256 assigns instead
of comparing, so it takes every value the arms before it left over. -/
def rtcRate (frequency : Int32) : Int32 :=
  if frequency = 2 then 0x0F
  else if frequency = 4 then 0x0E
  else if frequency = 8 then 0x0D
  else if frequency = 16 then 0x0C
  else if frequency = 32 then 0x0B
  else if frequency = 64 then 0x0A
  else if frequency = 128 then 0x02
  else
    let frequency := 256
    if frequency ≠ 0 then 0x01
    else if frequency = 512 then 0x07
    else if frequency = 1024 then 0x06
    else -1

/-- `rtc_write` once the frequency is fetched: the new register A and the result. -/
def rtcSetRate (frequency : Int32) (rtc : Rtc) : Int32 × Rtc :=
  let rate := rtcRate frequency
  (rate, { rtc with regA := (rtc.regA &&& 0xF0) ||| rate.toUInt32.toUInt8 })

/-- `rtc_interrupt_handler`. -/
def rtcInterruptHandler (rtc : Rtc) : Rtc :=
  { rtc with intflag := true, callCount := rtc.callCount + 1 }

/-! ## Screen -/

/-- The cursor of `lib.c` and the memory the screen is part of. -/
structure Screen where
  /-- `screen_x`. -/
  screenX : Int32
  /-- `screen_y`. -/
  screenY : Int32
  /-- Physical memory; the text screen begins at `VIDEO`. -/
  mem : UInt32 → UInt8

/-- `VIDEO`, `video_mem`. -/
abbrev video : UInt32 := 0xB8000

/-- `NUM_COLS`. -/
abbrev numCols : Int32 := 80

/-- `NUM_ROWS`. -/
abbrev numRows : Int32 := 25

/-- `ATTRIB`. -/
abbrev attrib : UInt8 := 0x7

/-- `memset_word`: `n` words of value `c` from `s` on. -/
def memsetWord (s : UInt32) (c : UInt32) (n : UInt32) (mem : UInt32 → UInt8) :
    UInt32 → UInt8 := fun a =>
  if a - s < 2 * n then
    if (a - s) % 2 = 0 then c.toUInt8 else (c >>> 8).toUInt8
  else mem a

/-- `memmove`, as the copy of `n` bytes it performs. -/
def memmove (dest src n : UInt32) (mem : UInt32 → UInt8) : UInt32 → UInt8 := fun a =>
  if a - dest < n then mem (src + (a - dest)) else mem a

namespace Screen

/-- The address of the cell under the cursor. -/
def cell (s : Screen) : UInt32 :=
  video + ((numCols * s.screenY + s.screenX) <<< 1).toUInt32

/-- Put a character and the attribute in the cell under the cursor. -/
def poke (s : Screen) (c : UInt8) : Screen :=
  { s with mem := Function.update (Function.update s.mem s.cell c) (s.cell + 1) attrib }

/-- The end of `putc`: scroll up by one line when the cursor left the last row. -/
def scroll (s : Screen) : Screen :=
  if s.screenY ≥ numRows then
    { screenX := s.screenX
      screenY := numRows - 1
      mem := memsetWord (video + 24 * 80 * 2) 0x0720 80
        (memmove video (video + 80 * 2) (24 * 80 * 2) s.mem) }
  else s

/-- `putc`. -/
def putc (s : Screen) (c : UInt8) : Screen :=
  if c = 0x0A ∨ c = 0x0D then
    scroll { s with screenY := s.screenY + 1, screenX := 0 }
  else if c = 0x08 then
    -- at the top left corner the source returns at once
    if s.screenY = 0 ∧ s.screenX = 0 then s
    else
      let x := s.screenX - 1
      let s :=
        if x < 0 then
          { s with screenX := numCols - 1,
                   screenY := if s.screenY ≠ 0 then s.screenY - 1 else 0 }
        else { s with screenX := x }
      scroll (s.poke 0x20)
  else
    let s := s.poke c
    let x := s.screenX + 1
    scroll { s with screenY := if x ≥ numCols then s.screenY + 1 else s.screenY,
                    screenX := x % numCols }

/-- `clear`. -/
def clear (s : Screen) : Screen :=
  { screenX := 0
    screenY := 0
    mem := memsetWord video 0x0720 (25 * 80) s.mem }

/-- `puts`. -/
def puts (s : Screen) (l : List UInt8) : Screen := l.foldl putc s

end Screen

end CheetOS
