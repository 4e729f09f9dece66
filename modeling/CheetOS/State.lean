import CheetOS.Devices
import CheetOS.Lib.Bytes
import CheetOS.Lib.Exec
import CheetOS.Lib.Paging

/-!
# The kernel's state

The variables of the kernel as one record, the monad of its routines and its
memory accesses.

Process control blocks are kept by the address the source computes for them,
page tables by their entries, and everything else in physical memory is the
byte array `mem`.  `Layout` holds the addresses the linker chooses.  A routine
that does not come back ends in a `Stop`: a page fault (the handler paints the
screen blue and spins), undefined behaviour of C, or an endless wait.  An access
by address to what is not kept in `mem` ends it too: neither the bytes such a read
would give nor what such a write would do is said here.
-/

namespace CheetOS

/-! ## Process control blocks (`pcb.h`) -/

/-- `NUM_MAX_OPEN_FILES`. -/
abbrev numMaxOpenFiles : ℕ := 8

instance neZero_numMaxOpenFiles : NeZero numMaxOpenFiles := ⟨by decide⟩

/-- `FILE_AVAIL`. -/
abbrev fileAvail : UInt32 := 1

/-- `FILE_OCCUP`. -/
abbrev fileOccup : UInt32 := 0

/-- `file_t`.  The `int32_t` fields are kept as 32-bit words. -/
structure FileDesc where
  fileOpsTablePtr : UInt32
  inodeNum : UInt32
  filePosition : UInt32
  flags : UInt32
  deriving DecidableEq, Repr

/-- `file_array`. -/
abbrev FileArray := Fin numMaxOpenFiles → FileDesc

/-- `pcb_t`, the fields something reads. -/
structure Pcb where
  fileArray : FileArray
  parentNum : UInt32
  parentEsp : UInt32
  parentEbp : UInt32
  execRetAddr : UInt32
  arg : ℕ → UInt8
  numCharInArg : UInt8
  terminalIndex : UInt8

/-- `TERMINAL_BUFFER_SIZE`, the size of `arg`. -/
abbrev terminalBufferSize : ℕ := 128

/-- `PROG_NOT_ACTIVE`. -/
abbrev progNotActive : UInt8 := 0

/-- `PROG_ACTIVE`. -/
abbrev progActive : UInt8 := 1

/-- `NUM_MAX_PROCESSES`. -/
abbrev numMaxProcesses : UInt32 := 6

/-- `BASE_PROCESS_POSITION`. -/
abbrev baseProcessPosition : UInt32 := 0x800000

/-- `PROCESS_OFFSET`. -/
abbrev processOffset : UInt32 := 0x2000

/-! ## The linker's choices -/

/-- The addresses the linker gives to what the kernel stores pointers to. -/
structure Layout where
  /-- `page_directory`. -/
  pageDirectory : UInt32
  /-- `page_table`. -/
  pageTable : UInt32
  /-- `video_pages`. -/
  videoPages : UInt32
  /-- `terminal_ops`. -/
  terminalOps : UInt32
  /-- `file_ops`. -/
  fileOps : UInt32
  /-- `directory_ops`. -/
  directoryOps : UInt32
  /-- `rtc_ops`. -/
  rtcOps : UInt32
  /-- The label `end_of_execute`. -/
  endOfExecute : UInt32
  /-- The addresses of the kernel variables that have a field of their own in
  `Kernel`, and of the file system image.  A read or a write by address that reaches
  one of them is not followed any further. -/
  kernelData : UInt32 → Bool
  /-- `__attribute__((aligned(4096)))`. -/
  pageDirectory_aligned : Paging.Aligned pageDirectory
  pageTable_aligned : Paging.Aligned pageTable
  videoPages_aligned : Paging.Aligned videoPages
  tables_ne : pageTable ≠ videoPages
  ops_nodup : [terminalOps, fileOps, directoryOps, rtcOps].Nodup
  ops_ne_null : 0 ∉ [terminalOps, fileOps, directoryOps, rtcOps]
  /-- The variables are in the kernel's own page. -/
  kernelData_range : ∀ a, kernelData a = true → 0x400000 ≤ a ∧ a < 0x800000
  /-- The page tables are among them. -/
  kernelData_pageDirectory : ∀ a, a - pageDirectory < 0x1000 → kernelData a = true
  kernelData_pageTable : ∀ a, a - pageTable < 0x1000 → kernelData a = true
  kernelData_videoPages : ∀ a, a - videoPages < 0x1000 → kernelData a = true
  /-- So are the kernel stacks with the process control blocks at their ends. -/
  kernelData_stacks : ∀ a, 0x7F2000 ≤ a → a < 0x800000 → kernelData a = true

/-- The file system image: `fs a` is the byte at `fs_ptr + a`. -/
abbrev Image := UInt32 → UInt8

/-- What the kernel is booted on: its layout and the file system image. -/
structure Platform extends Layout where
  fs : Image

/-! ## The state -/

/-- The process and page tables, and the stack registers while kernel code runs. -/
structure Tables where
  /-- `pid_array`, entries `0` to `5`. -/
  pidArray : UInt32 → UInt8
  /-- `curr_process`. -/
  currProcess : UInt32
  /-- The process control blocks, by address. -/
  pcb : UInt32 → Pcb
  /-- `tss.esp0`. -/
  esp0 : UInt32
  esp : UInt32
  ebp : UInt32
  /-- `page_directory`, entries `0` to `1023`. -/
  pageDirectory : UInt32 → UInt32
  /-- `page_table`. -/
  pageTable : UInt32 → UInt32
  /-- `video_pages`. -/
  videoPages : UInt32 → UInt32

/-- Memory and devices. -/
structure Store extends Screen where
  /-- The static `last` of `strtok`; `0` is `NULL`. -/
  last : UInt32
  pic : Pic
  rtc : Rtc

/-- The state of the kernel. -/
structure Kernel extends Tables, Store

/-- Why a routine does not come back. -/
inductive Stop
  /-- A page fault: `page_fault` calls `stop`. -/
  | fault
  /-- A read of what `mem` does not hold: a page fault, or the kernel's own data. -/
  | unread
  /-- The C code leaves defined behaviour, for example past the end of an array. -/
  | undefined
  /-- A loop that waits for something that does not come. -/
  | waiting
  deriving DecidableEq, Repr

/-- A routine of the kernel. -/
abbrev K := EStateM Stop Kernel

/-- A value that is computed from bytes read by address; `none` if one is not there. -/
def orUnread {α : Type} : Option α → K α
  | some a => pure a
  | none => throw .unread

/-! ## Memory -/

namespace Platform

variable (P : Platform)

/-- The tables a directory entry can name. -/
def tablesOf (t : Tables) (a : UInt32) : UInt32 → UInt32 :=
  if a = P.pageTable then t.pageTable
  else if a = P.videoPages then t.videoPages
  else fun _ => 0

/-- The address translation a set of tables describes. -/
def translate (t : Tables) (m : Paging.Mode) (w : Paging.Access) (va : UInt32) :
    Option UInt32 :=
  Paging.translate t.pageDirectory (P.tablesOf t) m w va

/-- The byte kernel code reads at a virtual address, if there is a page and the byte is
in `mem`. -/
def load (k : Kernel) (va : UInt32) : Option UInt8 :=
  match P.translate k.toTables .supervisor .read va with
  | none => none
  | some a => if P.kernelData a then none else some (k.mem a)

/-- Where a write of kernel code to a virtual address goes. -/
def target (t : Tables) (va : UInt32) : Except Stop UInt32 :=
  match P.translate t .supervisor .write va with
  | none => .error .fault
  | some a => if P.kernelData a then .error .undefined else .ok a

/-- Kernel code reads a byte. -/
def loadByte (va : UInt32) : K UInt8 := do
  let k ← get
  orUnread (P.load k va)

/-- Kernel code writes a byte. -/
def storeByte (va : UInt32) (b : UInt8) : K Unit := do
  let k ← get
  match P.target k.toTables va with
  | .error e => throw e
  | .ok a => modify fun k => { k with mem := Function.update k.mem a b }

/-- Kernel code writes bytes one after the other. -/
def storeBytes : UInt32 → List UInt8 → K Unit
  | _, [] => pure ()
  | va, b :: bs => do
    P.storeByte va b
    storeBytes (va + 1) bs

/-- Kernel code reads a 32-bit word. -/
def loadWord (va : UInt32) : K UInt32 := do
  let b0 ← P.loadByte va
  let b1 ← P.loadByte (va + 1)
  let b2 ← P.loadByte (va + 2)
  let b3 ← P.loadByte (va + 3)
  return Bytes.word fun
    | 0 => b0
    | 1 => b1
    | 2 => b2
    | _ => b3

/-- Kernel code writes a 32-bit word. -/
def storeWord (va : UInt32) (w : UInt32) : K Unit := P.storeBytes va (Bytes.wordBytes w)

end Platform

/-- Kernel code prints. -/
def putc (c : UInt8) : K Unit := modify fun k => { k with toScreen := k.toScreen.putc c }

/-- `clear`. -/
def clear : K Unit := modify fun k => { k with toScreen := k.toScreen.clear }

/-- `getCurrentProcessPCB`: the block at the bottom of the running kernel stack,
`esp & ~PCB_MASK`. -/
def currentPcbAddr (t : Tables) : UInt32 := t.esp &&& ~~~0x1FFF

/-- The `file_array` of the block at the bottom of the running kernel stack. -/
def Tables.fileArray (t : Tables) : FileArray := (t.pcb (currentPcbAddr t)).fileArray

/-- `getCurrentProcessPCB()->file_array`. -/
def getFileArray : K FileArray := do
  let k ← get
  return k.fileArray

/-- The tables after `file_array[i] = f` in the current process control block. -/
def Tables.setFile (t : Tables) (i : Fin numMaxOpenFiles) (f : FileDesc) : Tables :=
  let pcb := t.pcb (currentPcbAddr t)
  let pcb' := { pcb with fileArray := Function.update pcb.fileArray i f }
  { t with pcb := Function.update t.pcb (currentPcbAddr t) pcb' }

/-- Assign `file_array[i]` in the current process control block. -/
def setFile (i : Fin numMaxOpenFiles) (f : FileDesc) : K Unit :=
  modify fun k => { k with toTables := k.toTables.setFile i f }

/-! ## What leaves the tables alone -/

/-- The process and page tables are the same. -/
def Quiet (k k' : Kernel) : Prop := k'.toTables = k.toTables

theorem Quiet.refl (k : Kernel) : Quiet k k := rfl

theorem Quiet.trans (a b c : Kernel) (hab : Quiet a b) (hbc : Quiet b c) : Quiet a c :=
  Eq.trans hbc hab

open Exec

theorem quiet_pure {α : Type} (a : α) : Keeps Quiet (pure a : K α) := keeps_pure Quiet.refl a

theorem quiet_bind {α β : Type} {x : K α} {f : α → K β} (hx : Keeps Quiet x)
    (hf : ∀ a, Keeps Quiet (f a)) : Keeps Quiet (x >>= f) := keeps_bind Quiet.trans hx hf

theorem quiet_get : Keeps Quiet (get : K Kernel) := keeps_get Quiet.refl

theorem keeps_orUnread {R : Kernel → Kernel → Prop} (hr : ∀ k, R k k) {α : Type} (o : Option α) :
    Keeps R (orUnread o) := by
  cases o with
  | none => exact keeps_throw _
  | some a => exact keeps_pure hr a

theorem quiet_orUnread {α : Type} (o : Option α) : Keeps Quiet (orUnread o) :=
  keeps_orUnread Quiet.refl o

theorem quiet_putc (c : UInt8) : Keeps Quiet (putc c) := keeps_modify fun _ => rfl

theorem quiet_clear : Keeps Quiet clear := keeps_modify fun _ => rfl

namespace Platform

variable (P : Platform)

theorem quiet_loadByte (va : UInt32) : Keeps Quiet (P.loadByte va) :=
  quiet_bind quiet_get fun _ => quiet_orUnread _

theorem quiet_storeByte (va : UInt32) (b : UInt8) : Keeps Quiet (P.storeByte va b) := by
  refine quiet_bind quiet_get fun k => ?_
  split
  · exact keeps_throw _
  · exact keeps_modify fun _ => rfl

theorem quiet_storeBytes (va : UInt32) (bs : List UInt8) : Keeps Quiet (P.storeBytes va bs) := by
  induction bs generalizing va with
  | nil => exact quiet_pure ()
  | cons b bs ih => exact quiet_bind (P.quiet_storeByte va b) fun _ => ih (va + 1)

theorem quiet_loadWord (va : UInt32) : Keeps Quiet (P.loadWord va) :=
  quiet_bind (P.quiet_loadByte _) fun _ => quiet_bind (P.quiet_loadByte _) fun _ =>
    quiet_bind (P.quiet_loadByte _) fun _ => quiet_bind (P.quiet_loadByte _) fun _ =>
      quiet_pure _

end Platform

end CheetOS
