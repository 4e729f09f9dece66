import CheetOS.Drivers

/-!
# The system calls (`syscalls.c`, `paging.c`)

`sysOpen`, `sysClose`, `sysRead` and `sysWrite` are `open`, `close`, `read` and
`write`; the latter three call through the operation table of the descriptor.

`execute` is cut at its blank lines: `findProgram` takes the file name off the
command and looks it up, `isExecutable` checks the file's first four bytes,
`joinArgs` collects the arguments, `launch` loads the file and switches to it.
-/

namespace CheetOS

namespace Platform

variable (P : Platform)

/-! ## Descriptors -/

/-- `open`. -/
def sysOpen (filename : UInt32) : K Int32 := do
  let k ← get
  let name := P.charPtr k filename
  match ← orUnread (readDentryByName P.fs name) with
  | none => return -1
  | some dentry =>
    if dentry.filetype = fileTypeDir then P.directoryOpen name
    else if dentry.filetype = fileTypeRtc then do
      let ret ← P.fileOpen name
      if ret = -1 then return -1
      -- no `break` in the source: the next case opens the file again
      else P.fileOpen name
    else if dentry.filetype = fileTypeFile then P.fileOpen name
    else return -1

/-- `close`. -/
def sysClose (fd : Int32) : K Int32 := do
  let fileArray ← getFileArray
  if 7 < fd ∨ fd < 2 then return -1
  else
    let f := fileArray (slot fd)
    if f.flags = fileAvail then return -1
    else if f.fileOpsTablePtr = P.terminalOps then terminalClose
    else if f.fileOpsTablePtr = P.fileOps then fileClose fd
    else if f.fileOpsTablePtr = P.directoryOps then directoryClose fd
    else if f.fileOpsTablePtr = P.rtcOps then rtcClose
    else throw .undefined

/-- `read`.  Every function of a table is called with `(fd, buf, nbytes)`, whatever
its own parameters are. -/
def sysRead (fd : Int32) (buf : UInt32) (nbytes : Int32) (input : Input) : K Int32 := do
  let fileArray ← getFileArray
  if 7 < fd ∨ fd < 0 then return -1
  else
    let f := fileArray (slot fd)
    if f.flags = fileAvail then return -1
    else if f.fileOpsTablePtr = P.terminalOps then P.terminalRead fd buf nbytes.toUInt32 input
    else if f.fileOpsTablePtr = P.fileOps then P.fileRead fd buf nbytes
    else if f.fileOpsTablePtr = P.directoryOps then P.directoryRead fd buf nbytes
    else if f.fileOpsTablePtr = P.rtcOps then rtcRead fd.toUInt32 buf.toInt32 input
    else throw .undefined

/-- `write`. -/
def sysWrite (fd : Int32) (buf : UInt32) (nbytes : Int32) : K Int32 := do
  let fileArray ← getFileArray
  if 7 < fd ∨ fd < 0 then return -1
  else
    let f := fileArray (slot fd)
    if f.flags = fileAvail then return -1
    else if f.fileOpsTablePtr = P.terminalOps then P.terminalWrite fd buf nbytes.toUInt32
    else if f.fileOpsTablePtr = P.fileOps then fileWrite
    else if f.fileOpsTablePtr = P.directoryOps then directoryWrite
    else if f.fileOpsTablePtr = P.rtcOps then P.rtcWrite fd.toUInt32 buf.toInt32
    else throw .undefined

end Platform

/-! ## Paging -/

/-- `C_128MB`. -/
abbrev c128MB : UInt32 := 0x8000000

/-- `C_8MB`. -/
abbrev c8MB : UInt32 := 0x800000

/-- `C_4MB`. -/
abbrev c4MB : UInt32 := 0x400000

/-- `C_4B`. -/
abbrev c4B : UInt32 := 4

/-- `USER_PDE_4MB_BASE`. -/
abbrev userPde4MBBase : UInt16 := 0x87

/-- `PAGE_VIDMAP`. -/
abbrev pageVidmap : UInt32 := 33

/-- `PAGE_TOP`. -/
abbrev pageTop : UInt32 := 0x08048000

/-- `PAGE_BOTTOM`. -/
abbrev pageBottom : UInt32 := 0x083FFFFC

/-- `PAGE_VIDMEM`. -/
abbrev pageVidmem : UInt32 := 0x08400000

/-- The directory `paging_init` sets up. -/
def Layout.initDirectory (L : Layout) : UInt32 → UInt32 := fun i =>
  if i = 0 then L.pageTable ||| 3
  else if i = 1 then 0x00400083
  else 0x00000002

/-- `VM_START`. -/
abbrev vmStart : UInt32 := 0x0B8

/-- The table for the first 4 MB that `paging_init` sets up. -/
def initPageTable : UInt32 → UInt32 := fun i =>
  if i ≥ vmStart ∧ i ≤ vmStart + 3 then (i * 0x1000) ||| 3 else (i * 0x1000) ||| 2

/-- `page_directory` after `update_page_directory`. -/
def Tables.updatePageDirectory (t : Tables) (virtAddress physAddress : UInt32)
    (flags : UInt16) : Tables :=
  { t with pageDirectory :=
      Function.update t.pageDirectory (virtAddress >>> 22) (physAddress ||| flags.toUInt32) }

/-- `update_page_directory`.  Every translation looks at the tables, so there is
nothing to flush. -/
def updatePageDirectory (virtAddress physAddress : UInt32) (flags : UInt16) : K Unit :=
  modify fun k =>
    { k with toTables := k.toTables.updatePageDirectory virtAddress physAddress flags }

/-- The tables after `vidmap` mapped the video page. -/
def Layout.mapVideo (L : Layout) (t : Tables) : Tables :=
  { t with
    pageDirectory := Function.update t.pageDirectory pageVidmap (L.videoPages ||| 7)
    videoPages := Function.update t.videoPages 0 (video ||| 7) }

/-- `vidmap`. -/
def Platform.vidmap (P : Platform) (screenStart : UInt32) : K Int32 :=
  if screenStart = 0 ∨ screenStart < pageTop ∨ screenStart > pageBottom then return -1
  else do
    P.storeWord screenStart 0x10000000
    modify fun k => { k with toTables := P.mapVideo k.toTables }
    P.storeWord screenStart pageVidmem
    return 0

/-! ## Processes -/

/-- Where `execute` and `halt` put the process control block of a process. -/
def pcbAddr (pid : UInt32) : UInt32 := baseProcessPosition - (pid + 2) * processOffset

/-- The `tss.esp0` of a process. -/
def kernelStack (pid : UInt32) : UInt32 :=
  baseProcessPosition - (pid + 1) * processOffset - c4B

/-- The physical page of a process. -/
def userPage (pid : UInt32) : UInt32 := c8MB + pid * c4MB

/-- What `halt` passes to `return_to_execute`. -/
structure Return where
  execRetAddr : UInt32
  parentEbp : UInt32
  parentEsp : UInt32
  status : UInt8
  deriving DecidableEq, Repr

/-- The tables after `halt`. -/
def Tables.halt (t : Tables) : Tables :=
  let parent := (t.pcb (pcbAddr t.currProcess)).parentNum
  { t.updatePageDirectory c128MB (userPage parent) userPde4MBBase with
    esp0 := kernelStack parent
    pidArray := Function.update t.pidArray t.currProcess progNotActive
    currProcess := parent }

/-- `halt`, up to its call of `return_to_execute`. -/
def halt (status : UInt8) : K Return := do
  let k ← get
  let pcb := k.pcb (pcbAddr k.currProcess)
  modify fun k => { k with toTables := k.toTables.halt }
  return { execRetAddr := pcb.execRetAddr, parentEbp := pcb.parentEbp,
           parentEsp := pcb.parentEsp, status := status }

/-- The first inactive process number. -/
def firstInactive (pidArray : UInt32 → UInt8) : Option UInt32 :=
  ([0, 1, 2, 3, 4, 5] : List UInt32).find? fun i => decide (pidArray i = progNotActive)

/-- `get_next_process_number`; the `-1` for a full table as `execute` stores it. -/
def getNextProcessNumber : K UInt32 := do
  let k ← get
  match firstInactive k.pidArray with
  | none => return 0xFFFFFFFF
  | some i =>
    modify fun k => { k with pidArray := Function.update k.pidArray i progActive }
    return i

/-- How a call of `execute` leaves `execute`. -/
inductive ExecResult
  /-- It returns to its caller. -/
  | returned (ret : Int32)
  /-- `context_switch` to the new program. -/
  | started (entryPoint : UInt32)
  deriving DecidableEq, Repr

/-- `program_image`. -/
abbrev programImage : UInt32 := 0x8048000

/-- The text printed when the process table is full. -/
def tableFullMessage : List UInt8 :=
  "You have reached the maximum number of processes! \n".toUTF8.toList

/-- Print a string of the kernel. -/
def puts (l : List UInt8) : K Unit := modify fun k => { k with toScreen := k.toScreen.puts l }

namespace Platform

variable (P : Platform)

/-- `strcpy` into the local `filename` of `execute`; past its end are other locals. -/
def strcpyFilename (filename : List UInt8) : K Unit :=
  if filename.length + 1 ≤ filenameLen then return () else throw .undefined

/-- `execute`, lines 206-218: the directory entry of the program that a command
names, `none` for the result `-1`. -/
def findProgram (command : UInt32) : K (Option Dentry) := do
  let token ← P.strtok command
  if token = 0 then return none
  else
    -- `strlen` and `strcpy` read the same bytes
    let filename ← P.readString token
    if filename.length ≥ filenameLen - 1 then return none
    else
      strcpyFilename filename
      match ← orUnread (readDentryByName P.fs (some (ofList filename))) with
      | none => return none
      | some dentry => if dentry.filetype ≠ fileTypeFile then return none else return some dentry

/-- `execute`, lines 220-226: the file begins with `7F 45 4C 46`. -/
def isExecutable (inode : UInt32) : Bool :=
  (readData P.fs inode 0 4).1 == 4 && (readData P.fs inode 0 4).2 == [0x7F, 0x45, 0x4C, 0x46]

/-- The size of `buffer` in `execute`. -/
abbrev bufferSize : ℕ := 128

/-- `memcpy` into the locals of `execute` from `buffer` on, `room` bytes.  What lies
behind them is not followed. -/
def memcpyBuffer (room : ℕ) (buffer : ℕ → UInt8) (ptr : ℕ) (bytes : List UInt8) :
    K (ℕ → UInt8) :=
  if ptr + bytes.length ≤ room then return Bytes.writeAt buffer ptr bytes
  else throw .undefined

/-- `execute`, lines 232-240: the loop that appends the tokens left to `buffer`. -/
def joinLoop (room : ℕ) : ℕ → UInt32 → (ℕ → UInt8) → ℕ → K (ℕ → UInt8)
  | 0, _, _, _ => throw .waiting
  | n + 1, token, buffer, ptr =>
    if token = 0 then return buffer
    else do
      let buffer ← if ptr ≠ 0 then memcpyBuffer room buffer ptr [0x20, 0] else pure buffer
      let ptr := if ptr ≠ 0 then ptr + 1 else ptr
      let string ← P.readString token
      let buffer ← memcpyBuffer room buffer ptr (string ++ [0])
      let token ← P.strtok 0
      joinLoop room n token buffer (ptr + string.length)

/-- `execute`, lines 228-240: the arguments, joined in `buffer`. -/
def joinArgs (room : ℕ) (buffer : ℕ → UInt8) : K (ℕ → UInt8) := do
  let buffer := Function.update buffer 0 0
  let token ← P.strtok 0
  P.joinLoop room addressSpace token buffer 0

/-- The process control block `execute` fills in, over what was at its address. -/
def newPcb (t : Tables) (old : Pcb) (arg : List UInt8) : Pcb :=
  { old with
    fileArray := P.initFileArray
    parentNum := t.currProcess
    parentEsp := t.esp
    parentEbp := t.ebp
    execRetAddr := P.endOfExecute
    terminalIndex := (t.pcb (currentPcbAddr t)).terminalIndex
    arg := Bytes.writeAt old.arg 0 (arg ++ [0])
    numCharInArg := UInt8.ofNat arg.length }

/-- The tables after lines 260-288 of `execute`. -/
def enterTables (t : Tables) (nextProcess : UInt32) (arg : List UInt8) : Tables :=
  let a := pcbAddr nextProcess
  { t with
    esp0 := kernelStack nextProcess
    pcb := Function.update t.pcb a (P.newPcb t (t.pcb a) arg)
    currProcess := nextProcess
    pidArray := Function.update t.pidArray nextProcess progActive }

/-- `execute`, lines 260-288: make the new process the current one. -/
def enterProcess (nextProcess : UInt32) (arg : List UInt8) : K Unit :=
  modify fun k => { k with toTables := P.enterTables k.toTables nextProcess arg }

/-- `execute`, lines 242-300: take a process number, load the file and switch to it. -/
def launch (inode : UInt32) (buffer : ℕ → UInt8) : K ExecResult := do
  let nextProcess ← getNextProcessNumber
  if nextProcess = 0xFFFFFFFF then
    puts tableFullMessage
    return .returned 256
  else
    updatePageDirectory c128MB (userPage nextProcess) userPde4MBBase
    let size := (flength P.fs inode).toUInt32
    let (read, bytes) := readData P.fs inode 0 size
    P.storeBytes programImage bytes
    if read.toUInt32 ≠ size then
      let k ← get
      updatePageDirectory c128MB (userPage k.currProcess) userPde4MBBase
      return .returned (-1)
    else
      match Bytes.stringAt bufferSize buffer with
      | none => throw .undefined
      | some arg =>
        P.enterProcess nextProcess arg
        let entryPoint ← P.loadWord (programImage + 24)
        return .started entryPoint

/-- `execute`, up to the context switch.  A call that copies more to `buffer` than it
holds is not followed. -/
def execute (command : UInt32) : K ExecResult := do
  match ← P.findProgram command with
  | none => return .returned (-1)
  | some dentry =>
    if P.isExecutable dentry.inodeNum = false then return .returned (-1)
    else
      let header := (readData P.fs dentry.inodeNum 0 4).2
      let buffer ← P.joinArgs bufferSize (Bytes.writeAt (fun _ => 0) 0 header)
      P.launch dentry.inodeNum buffer

/-- `getargs`.  `strcpy` reads and writes by turns; where the two could meet, in the
process control block, the write is not followed. -/
def getargs (buf : UInt32) (nbytes : Int32) : K Int32 :=
  if buf = 0 then return -1
  else do
    let k ← get
    let pcb := k.pcb (currentPcbAddr k.toTables)
    if pcb.arg 0 = 0 then return -1
    else if nbytes < pcb.numCharInArg.toUInt32.toInt32 then return -1
    else
      match Bytes.stringAt terminalBufferSize pcb.arg with
      | none => throw .undefined
      | some arg =>
        P.storeBytes buf (arg ++ [0])
        return 0

end Platform

end CheetOS
