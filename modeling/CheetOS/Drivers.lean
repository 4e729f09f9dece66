import CheetOS.Image

/-!
# The drivers behind a descriptor

The functions of the four operation tables: terminal (`terminal.c` with
`getline` of `keyboard.c`), regular file and directory (`filesys.c`) and clock
(`rtc.c`).

What a waiting driver is given from outside is an `Input`: the characters
`getchar` delivers and whether a clock tick arrives.  A line that is never ended
and a tick that never comes are endless waits.
-/

namespace CheetOS

/-- What arrives from the keyboard and the clock while a call waits. -/
structure Input where
  /-- The characters `getchar` returns, in order. -/
  keys : List UInt8
  /-- An `rtc_interrupt_handler` runs while the call waits. -/
  tick : Bool
  deriving DecidableEq, Repr

/-- `file_array[fd]` as an index, for `fd` in `0..7`. -/
def slot (fd : Int32) : Fin numMaxOpenFiles := Fin.ofNat numMaxOpenFiles fd.toNatClampNeg

namespace Platform

variable (P : Platform)

/-! ## Terminal -/

/-- The loop of `getline(buf, max)`; `lp` is where the next character goes. -/
def getline (buf : UInt32) (max : Int32) : List UInt8 → UInt32 → K Int32
  | [], _ => throw .waiting
  | key :: keys, lp =>
    let c := key &&& 0x7F
    if c = 0x0A ∨ c = 0x0D then do
      P.storeByte lp 0
      putc 0x0A
      return (lp - buf).toInt32
    else if c = 0x08 ∨ c = 0x7F then
      if lp > buf then do
        putc 0x08
        getline buf max keys (lp - 1)
      else getline buf max keys lp
    else if c = 0x0C then do
      clear
      getline buf max keys buf
    else if (lp - buf).toInt32 ≥ max then getline buf max keys lp
    else if 0x20 ≤ c ∧ c ≤ 0x7E then do
      P.storeByte lp c
      putc c
      getline buf max keys (lp + 1)
    else getline buf max keys lp

/-- `MAX_INPUT_CHARS`. -/
abbrev maxInputChars : UInt32 := 128

/-- `terminal_read`. -/
def terminalRead (fd : Int32) (buffer numChars : UInt32) (input : Input) : K Int32 :=
  if fd ≠ 0 then return -1
  else if buffer = 0 then return -1
  else
    let numChars := if numChars > maxInputChars then maxInputChars else numChars
    P.getline buffer numChars.toInt32 input.keys buffer

/-- The loop of `terminal_write`, at most `n` characters from `idx` on. -/
def writeLoop (buffer : UInt32) : ℕ → UInt32 → K UInt32
  | 0, idx => return idx
  | n + 1, idx => do
    let c ← P.loadByte (buffer + idx)
    if c = 0 then return idx
    else
      putc c
      writeLoop buffer n (idx + 1)

/-- `terminal_write`. -/
def terminalWrite (fd : Int32) (buffer numChars : UInt32) : K Int32 :=
  if fd ≠ 1 then return -1
  else if buffer = 0 then return -1
  else if numChars = 0 then return 0
  else do
    let idx ← P.writeLoop buffer numChars.toNat 0
    return idx.toInt32

/-- `terminal_close`. -/
def terminalClose : K Int32 := return 0

/-! ## Clock -/

/-- `rtc_open`: initialise the clock and set it to 2 Hz. -/
def rtcOpen : K Int32 := do
  modify fun k =>
    { k with
      pic := enableIrq 8 k.pic
      rtc := (rtcSetRate 2 (rtcInit k.rtc)).2 }
  return 0

/-- `rtc_write(buf, nbytes)`. -/
def rtcWrite (buf : UInt32) (_nbytes : Int32) : K Int32 := do
  let frequency ← P.loadWord buf
  let k ← get
  let (rate, rtc) := rtcSetRate frequency.toInt32 k.rtc
  modify fun k => { k with rtc := rtc }
  return rate

/-- `rtc_read(buf, nbytes)`: spin until `intflag` is set, and reset it. -/
def rtcRead (_buf : UInt32) (_nbytes : Int32) (input : Input) : K Int32 := do
  let k ← get
  let rtc := if input.tick then rtcInterruptHandler k.rtc else k.rtc
  if rtc.intflag then
    modify fun k => { k with rtc := { rtc with intflag := false } }
    return 0
  else throw .waiting

/-- `rtc_close`. -/
def rtcClose : K Int32 := return 0

/-! ## Regular files and directories -/

/-- The first free slot `file_open` finds, looking from slot 2 on. -/
def firstAvail (fileArray : FileArray) : Option (Fin numMaxOpenFiles) :=
  (List.finRange numMaxOpenFiles).find? fun i =>
    decide (2 ≤ i.val) && decide ((fileArray i).flags = fileAvail)

/-- `file_open`. -/
def fileOpen (filename : CharPtr) : K Int32 := do
  let fileArray ← getFileArray
  match filename with
  | none => return -1
  | some s =>
    let len ← orUnread (strlen s)
    if len ≥ filenameLen then return -1
    else
      match ← orUnread (readDentryByName P.fs filename) with
      | none => return -1
      | some newDirent =>
        match firstAvail fileArray with
        | none => return -1
        | some idx =>
          let f := { fileArray idx with inodeNum := newDirent.inodeNum }
          if newDirent.filetype = fileTypeFile then
            setFile idx { f with
              fileOpsTablePtr := P.fileOps, filePosition := 0, flags := fileOccup }
            return Int32.ofNat idx
          else if newDirent.filetype = fileTypeDir then
            setFile idx { f with
              fileOpsTablePtr := P.directoryOps, filePosition := 0, flags := fileOccup }
            return Int32.ofNat idx
          else if newDirent.filetype = fileTypeRtc then
            -- returns before the position and the flags are set
            setFile idx { f with fileOpsTablePtr := P.rtcOps }
            let _ ← rtcOpen
            return Int32.ofNat idx
          else return -1

/-- `blank`, as `filesys_init` leaves it. -/
def blank : FileDesc :=
  { fileOpsTablePtr := 0, inodeNum := 0, filePosition := 0, flags := fileAvail }

/-- `init_file_array`. -/
def initFileArray : FileArray := fun i =>
  if i.val < 2 then
    { fileOpsTablePtr := P.terminalOps, inodeNum := 0, filePosition := 0, flags := fileOccup }
  else blank

/-- `file_close`. -/
def fileClose (fd : Int32) : K Int32 := do
  let fileArray ← getFileArray
  if fd ≥ 8 ∨ fd < 0 then return -1
  else if (fileArray (slot fd)).flags = fileAvail then return -1
  else
    setFile (slot fd) blank
    return 0

/-- `file_read`. -/
def fileRead (fd : Int32) (buf : UInt32) (nbytes : Int32) : K Int32 := do
  let fileArray ← getFileArray
  if fd = 1 ∨ fd = 0 then return -1
  else
    let f := fileArray (slot fd)
    let (read, bytes) := readData P.fs f.inodeNum f.filePosition nbytes.toUInt32
    P.storeBytes buf bytes
    setFile (slot fd) { f with filePosition := f.filePosition + read.toUInt32 }
    return read

/-- `file_write`. -/
def fileWrite : K Int32 := return -1

/-- `directory_open`. -/
def directoryOpen (filename : CharPtr) : K Int32 := do
  match ← orUnread (readDentryByName P.fs filename) with
  | none => return -1
  | some newDirent =>
    if newDirent.filetype ≠ fileTypeDir then return -1
    else P.fileOpen filename

/-- `directory_close`. -/
def directoryClose (fd : Int32) : K Int32 := fileClose fd

/-- The loop of `directory_read`: the name's bytes from index `i` on, `n` before
the end of the field. -/
def nameFrom (d : Dentry) : ℕ → ℕ → List UInt8
  | 0, _ => []
  | n + 1, i => if d.filename i = 0 then [] else d.filename i :: nameFrom d n (i + 1)

/-- The bytes `directory_read` copies for an entry. -/
def entryName (d : Dentry) : List UInt8 := nameFrom d filenameLen 0

/-- `directory_read`.  `nbytes` is not looked at. -/
def directoryRead (fd : Int32) (buf : UInt32) (_nbytes : Int32) : K Int32 := do
  let fileArray ← getFileArray
  let f := fileArray (slot fd)
  match readDentryByIndex P.fs f.filePosition with
  | none => return -1
  | some newDirent =>
    setFile (slot fd) { f with filePosition := f.filePosition + 1 }
    P.storeBytes buf (entryName newDirent ++ [0])
    return Int32.ofNat (entryName newDirent).length

/-- `directory_write`. -/
def directoryWrite : K Int32 := return -1

end Platform

end CheetOS
