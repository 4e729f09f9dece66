import CheetOS.Syscalls
import CheetOS.Lib.Run

/-!
# The machine

The kernel together with the programs that run on it.  A program is seen through
what it does to the machine: it writes to memory it may write to, and it makes
system calls.  Between its calls the kernel's `entry` runs, which only ever calls
`execute`.

Calls of `execute` that wait for their program to halt are kept as `frames`,
innermost first.  `halt` does not return to its caller but jumps into the frame
whose stack registers the process control block holds; `resume` looks for it.

A run of `step` ends where the model does: a call in which `execute` writes behind its
`buffer` is no step, nor is one that reads or writes the kernel's own data by address.
What follows from an overrun of `buffer` is in `Overrun`.

`set_handler` and `sigreturn` print a line and fail; they are left out.
-/

namespace CheetOS

/-! ## Calls and events -/

/-- The system calls that return to the program that makes them. -/
inductive PlainCall
  | read (fd : Int32) (buf : UInt32) (nbytes : Int32) (input : Input)
  | write (fd : Int32) (buf : UInt32) (nbytes : Int32)
  | «open» (filename : UInt32)
  | close (fd : Int32)
  | getargs (buf : UInt32) (nbytes : Int32)
  | vidmap (screenStart : UInt32)
  deriving DecidableEq, Repr

/-- The system calls. -/
inductive Call
  | halt (status : UInt8)
  | execute (command : UInt32)
  | plain (c : PlainCall)
  deriving DecidableEq, Repr

/-- The stack of a system call where `execute` saves its registers: how far `esp`
is below the top of the kernel stack, and `ebp`. -/
structure Regs where
  depth : UInt32
  ebp : UInt32
  deriving DecidableEq, Repr

/-- The room on a kernel stack: 8 KB less the word at the top and `sizeof(pcb_t)`. -/
abbrev stackRoom : UInt32 := 0x1ED8

/-- What a program does. -/
inductive Event
  /-- It writes a byte to its memory. -/
  | store (va : UInt32) (b : UInt8)
  /-- It makes a system call. -/
  | call (c : Call) (regs : Regs)
  deriving DecidableEq, Repr

/-- A call of `execute` that has started a program. -/
structure Frame where
  esp : UInt32
  ebp : UInt32
  /-- The process number of the program it started. -/
  pid : UInt32
  deriving DecidableEq, Repr

/-- The machine between two events. -/
structure Machine where
  kernel : Kernel
  /-- The calls of `execute` whose programs run, innermost first. -/
  frames : List Frame
  /-- The result of the last system call that returned. -/
  eax : UInt32
  /-- Where the last program was entered. -/
  entry : UInt32

namespace Machine

/-- The stack `entry` runs on (`boot.S`). -/
abbrev bootStack : UInt32 := 0x800000

/-- The top of the stack the kernel runs on when the next call comes: that of
`entry` itself, or the one the processor loads from the TSS. -/
def stackTop (m : Machine) : UInt32 :=
  if m.frames = [] then bootStack else m.kernel.esp0

/-- The kernel inside a system call. -/
def enter (m : Machine) (regs : Regs) : Kernel :=
  { m.kernel with esp := m.stackTop - regs.depth, ebp := regs.ebp }

/-- The process numbers of the programs started and not yet halted, innermost
first. -/
def live (m : Machine) : List UInt32 := m.frames.map Frame.pid

/-- The frame `return_to_execute` jumps into; those above it are gone. -/
def resume : List Frame → UInt32 → UInt32 → Option (List Frame)
  | [], _, _ => none
  | f :: fs, esp, ebp => if f.esp = esp ∧ f.ebp = ebp then some fs else resume fs esp ebp

end Machine

namespace Platform

variable (P : Platform)

/-- The routine behind a system call that returns. -/
def plain : PlainCall → K Int32
  | .read fd buf nbytes input => P.sysRead fd buf nbytes input
  | .write fd buf nbytes => P.sysWrite fd buf nbytes
  | .open filename => P.sysOpen filename
  | .close fd => P.sysClose fd
  | .getargs buf nbytes => P.getargs buf nbytes
  | .vidmap screenStart => P.vidmap screenStart

/-- `return_to_execute`, and the return from `execute` it leads to. -/
def returnToExecute (m : Machine) (r : Return) (k : Kernel) : Option Machine :=
  if r.execRetAddr = P.endOfExecute then
    match Machine.resume m.frames r.parentEsp r.parentEbp with
    | none => none
    | some frames =>
      some { m with
        kernel := { k with esp := r.parentEsp, ebp := r.parentEbp }
        frames := frames
        eax := r.status.toUInt32 }
  else none

/-- The machine after a system call, `none` if it stops in it. -/
def call (m : Machine) (c : Call) (regs : Regs) : Option Machine :=
  match c with
  | .execute command =>
    match P.execute command (m.enter regs) with
    | .ok (.returned ret) k => some { m with kernel := k, eax := ret.toUInt32 }
    | .ok (.started entryPoint) k =>
      some { m with
        kernel := k
        frames := ⟨(m.enter regs).esp, (m.enter regs).ebp, k.currProcess⟩ :: m.frames
        entry := entryPoint }
    | .error _ _ => none
  | .halt status =>
    if m.frames = [] then none
    else
      match CheetOS.halt status (m.enter regs) with
      | .ok r k => P.returnToExecute m r k
      | .error _ _ => none
  | .plain c =>
    if m.frames = [] then none
    else
      match P.plain c (m.enter regs) with
      | .ok ret k => some { m with kernel := k, eax := ret.toUInt32 }
      | .error _ _ => none

/-- The machine after an event, `none` if it stops. -/
def step (m : Machine) : Event → Option Machine
  | .store va b =>
    if m.frames = [] then none
    else
      match P.translate m.kernel.toTables .user .write va with
      | none => none
      | some a =>
        some { m with kernel := { m.kernel with mem := Function.update m.kernel.mem a b } }
  | .call c regs =>
    if 0 < regs.depth ∧ regs.depth ≤ stackRoom then P.call m c regs else none

/-- The machine when `entry` has set everything up.  `video_pages` is a static array
and begins zeroed; memory, devices and the process control blocks hold what they
happen to hold. -/
structure Boot (m : Machine) : Prop where
  frames : m.frames = []
  pidArray : ∀ i < numMaxProcesses, m.kernel.pidArray i = progNotActive
  currProcess : m.kernel.currProcess = 0
  pageDirectory : m.kernel.pageDirectory = P.initDirectory
  pageTable : m.kernel.pageTable = initPageTable
  videoPages : ∀ i < 1024, m.kernel.videoPages i = 0

/-- The states of the machine. -/
def Reachable (m : Machine) : Prop :=
  ∃ m₀ es, P.Boot m₀ ∧ Run.run P.step m₀ es = some m

theorem Reachable.run {P : Platform} {m m' : Machine} {es : List Event} (h : P.Reachable m)
    (hrun : Run.run P.step m es = some m') : P.Reachable m' := by
  obtain ⟨m₀, es₀, hboot, hrun₀⟩ := h
  refine ⟨m₀, es₀ ++ es, hboot, ?_⟩
  rw [Run.run_append, hrun₀]
  exact hrun

theorem Reachable.step {P : Platform} {m m' : Machine} {e : Event} (h : P.Reachable m)
    (hs : P.step m e = some m') : P.Reachable m' :=
  h.run (Run.run_one.2 hs)

end Platform

/-! ## A small machine -/

/-- Addresses in the kernel's page. -/
def sampleLayout : Layout where
  pageDirectory := 0x41A000
  pageTable := 0x410000
  videoPages := 0x411000
  terminalOps := 0x420000
  fileOps := 0x420010
  directoryOps := 0x420020
  rtcOps := 0x420030
  endOfExecute := 0x430000
  kernelData := fun a => decide (0x410000 ≤ a ∧ a < 0x440000 ∨ 0x7F2000 ≤ a ∧ a < 0x800000)
  pageDirectory_aligned := by decide
  pageTable_aligned := by decide
  videoPages_aligned := by decide
  tables_ne := by decide
  ops_nodup := by decide
  ops_ne_null := by decide
  kernelData_range := by
    intro a h
    rcases of_decide_eq_true h with ⟨h1, h2⟩ | ⟨h1, h2⟩
    · exact ⟨UInt32.le_trans (by decide) h1, UInt32.lt_of_lt_of_le h2 (by decide)⟩
    · exact ⟨UInt32.le_trans (by decide) h1, h2⟩
  kernelData_pageDirectory := by
    intro a h
    exact decide_eq_true (Or.inl (by grind))
  kernelData_pageTable := by
    intro a h
    exact decide_eq_true (Or.inl (by grind))
  kernelData_videoPages := by
    intro a h
    exact decide_eq_true (Or.inl (by grind))
  kernelData_stacks := by
    intro a h h'
    exact decide_eq_true (Or.inr ⟨h, h'⟩)

def samplePlatform : Platform := { sampleLayout with fs := sampleImage }

/-- A process control block nothing was stored in. -/
def blankPcb : Pcb where
  fileArray := fun _ => Platform.blank
  parentNum := 0
  parentEsp := 0
  parentEbp := 0
  execRetAddr := 0
  arg := fun _ => 0
  numCharInArg := 0
  terminalIndex := 0

/-- The machine `entry` starts with, and some strings in the kernel's page. -/
def bootMachine (P : Platform) (strings : List (UInt32 × List UInt8)) : Machine where
  kernel :=
    { pidArray := fun _ => progNotActive
      currProcess := 0
      pcb := fun _ => blankPcb
      esp0 := 0
      esp := 0
      ebp := 0
      pageDirectory := P.initDirectory
      pageTable := initPageTable
      videoPages := fun _ => 0
      screenX := 0
      screenY := 0
      mem := memoryOf strings
      last := 0
      pic := { masterMask := 0xFF, slaveMask := 0xFF }
      rtc := { regA := 0, regB := 0, intflag := false, callCount := 0 } }
  frames := []
  eax := 0
  entry := 0

theorem boot_bootMachine (P : Platform) (strings : List (UInt32 × List UInt8)) :
    P.Boot (bootMachine P strings) where
  frames := rfl
  pidArray := fun _ _ => rfl
  currProcess := rfl
  pageDirectory := rfl
  pageTable := rfl
  videoPages := fun _ _ => rfl

/-- A command and two file names in the memory of `entry`. -/
def sampleBoot : Machine :=
  bootMachine samplePlatform [(0x500000, "sh a  b".toUTF8.toList),
    (0x500100, "sh".toUTF8.toList), (0x500200, "rtc".toUTF8.toList)]

/-- `entry` starts a program, and the program starts another one. -/
def twoPrograms : List Event :=
  [.call (.execute 0x500000) ⟨64, 0x7FFFF0⟩, .call (.execute 0x500000) ⟨64, 0x7FBFF0⟩]

example : (Run.run samplePlatform.step sampleBoot twoPrograms).map
    (fun m => (m.live, m.entry)) = some ([1, 0], 0x8048020) := by
  decide +kernel

end CheetOS
