import CheetOS.LibC
import CheetOS.Lib.Word32

/-!
# The file system image (`filesys.c`)

A file system image is read where the boot loader put it, through `fs_ptr`: a
boot block with the directory, the inode blocks, the data blocks, 4096 bytes
each.  The fields of `boot_block_t`, `inode_block_t` and `dentry_t` are read at
their offsets, so an index past the end of an array reads what lies behind it,
as the C code does.

`readDentryByName`, `readDentryByIndex` and `readData` are the three routines of
the assignment; the bytes `readData` stores are returned in the order it stores
them, from `buf[0]` on.
-/

namespace CheetOS

/-- `NUM_FILES`. -/
abbrev numFiles : ℕ := 63

/-- `FILENAME_LEN`. -/
abbrev filenameLen : ℕ := 32

/-- `NUM_B_IN_FOUR_KB`. -/
abbrev numBInFourKb : UInt32 := 4096

/-- `FILE_TYPE_RTC`. -/
abbrev fileTypeRtc : UInt32 := 0

/-- `FILE_TYPE_DIR`. -/
abbrev fileTypeDir : UInt32 := 1

/-- `FILE_TYPE_FILE`. -/
abbrev fileTypeFile : UInt32 := 2

/-! ## The blocks -/

/-- `dentry_t`, as its bytes: 32 of `filename`, 4 of `filetype`, 4 of `inode_num`
and 24 reserved ones. -/
structure Dentry where
  byte : ℕ → UInt8

namespace Dentry

/-- `filename[i]`. -/
def filename (d : Dentry) (i : ℕ) : UInt8 := d.byte i

def filetype (d : Dentry) : UInt32 := Bytes.word fun i => d.byte (32 + i)

def inodeNum (d : Dentry) : UInt32 := Bytes.word fun i => d.byte (36 + i)

end Dentry

/-- The word at an offset of the image. -/
def imageWord (fs : Image) (a : UInt32) : UInt32 :=
  Bytes.word fun i => fs (a + UInt32.ofNat i)

/-- `boot_block_t.inode_count`. -/
def inodeCount (fs : Image) : UInt32 := imageWord fs 4

/-- `boot_block_t.data_count`. -/
def dataCount (fs : Image) : Int32 := (imageWord fs 8).toInt32

/-- `boot_block_t.direntries[index]`. -/
def direntry (fs : Image) (index : UInt32) : Dentry :=
  ⟨fun i => fs (64 + 64 * index + UInt32.ofNat i)⟩

/-- The offset of an inode block. -/
def inodeBlock (inode : UInt32) : UInt32 := numBInFourKb * (inode + 1)

/-- `inode_block_t.length`, as the code compares it: unsigned. -/
def inodeLength (fs : Image) (inode : UInt32) : UInt32 := imageWord fs (inodeBlock inode)

/-- `inode_block_t.data_block_num[i]`. -/
def dataBlockNum (fs : Image) (inode i : UInt32) : Int32 :=
  (imageWord fs (inodeBlock inode + 4 + 4 * i)).toInt32

/-- The offset of a data block. -/
def dataBlock (fs : Image) (n : Int32) : UInt32 :=
  numBInFourKb * (inodeCount fs + n.toUInt32 + 1)

/-- `flength`. -/
def flength (fs : Image) (inode : UInt32) : Int32 := (inodeLength fs inode).toInt32

/-! ## Directory entries -/

/-- `read_dentry_by_index`. -/
def readDentryByIndex (fs : Image) (index : UInt32) : Option Dentry :=
  if index ≥ UInt32.ofNat numFiles then none else some (direntry fs index)

/-- The loop of `read_dentry_by_name` over `n` entries from `index` on. -/
def findDentry (fs : Image) (s : ℕ → Option UInt8) : ℕ → UInt32 → Option (Option Dentry)
  | 0, _ => some none
  | n + 1, index =>
    match strncmp s (direntry fs index).filename filenameLen with
    | none => none
    | some r => if r = 0 then some (readDentryByIndex fs index) else findDentry fs s n (index + 1)

/-- `read_dentry_by_name`: `some none` for the result `-1`, `none` if reading the
name page-faults. -/
def readDentryByName (fs : Image) : CharPtr → Option (Option Dentry)
  | none => some none
  | some s =>
    match s 0 with
    | none => none
    | some c => if c = 0 then some none else findDentry fs s numFiles 0

/-! ## File data -/

/-- The local variables of `read_data` and the bytes stored in `buf` so far.  The
`int32_t` ones are kept as words; they are only compared with unsigned values. -/
structure ReadCursor where
  count : UInt32
  offset : UInt32
  indexInInode : UInt32
  indexInDataBlock : UInt32
  buf : List UInt8
  deriving DecidableEq, Repr

/-- The inner loop of `read_data`: copy from the data block at `block` until the
request, the block or the file ends. -/
def copyBlock (fs : Image) (block fileLength length : UInt32) (c : ReadCursor) : ReadCursor :=
  if c.count < length ∧ c.indexInDataBlock < numBInFourKb ∧ c.offset < fileLength then
    copyBlock fs block fileLength length
      { c with
        buf := c.buf ++ [fs (block + c.indexInDataBlock)]
        indexInDataBlock := c.indexInDataBlock + 1
        offset := c.offset + 1
        count := c.count + 1 }
  else c
termination_by 4096 - c.indexInDataBlock.toNat
decreasing_by
  rename_i h
  have hlt : c.indexInDataBlock.toNat < 4096 := UInt32.lt_iff_toNat_lt.1 h.2.1
  simp only [Word32.toNat_succ h.2.1]
  omega

/-- How many bytes the inner loop copies. -/
def copySize (fileLength length : UInt32) (c : ReadCursor) : ℕ :=
  min (length.toNat - c.count.toNat)
    (min (4096 - c.indexInDataBlock.toNat) (fileLength.toNat - c.offset.toNat))

/-- The inner loop copies as many bytes as the request, the block and the file allow. -/
theorem copyBlock_eq (fs : Image) (block fileLength length : UInt32) (c : ReadCursor) :
    copyBlock fs block fileLength length c =
      { count := c.count + UInt32.ofNat (copySize fileLength length c)
        offset := c.offset + UInt32.ofNat (copySize fileLength length c)
        indexInInode := c.indexInInode
        indexInDataBlock := c.indexInDataBlock + UInt32.ofNat (copySize fileLength length c)
        buf := c.buf ++ (List.range (copySize fileLength length c)).map fun j =>
          fs (block + c.indexInDataBlock + UInt32.ofNat j) } := by
  fun_induction copyBlock fs block fileLength length c with
  | case1 c h ih =>
    set c' : ReadCursor :=
      { c with
        buf := c.buf ++ [fs (block + c.indexInDataBlock)]
        indexInDataBlock := c.indexInDataBlock + 1
        offset := c.offset + 1
        count := c.count + 1 } with hc'
    have hcount : (c.count + 1).toNat = c.count.toNat + 1 := Word32.toNat_succ h.1
    have hindex : (c.indexInDataBlock + 1).toNat = c.indexInDataBlock.toNat + 1 :=
      Word32.toNat_succ h.2.1
    have hoffset : (c.offset + 1).toNat = c.offset.toNat + 1 := Word32.toNat_succ h.2.2
    have hsize : copySize fileLength length c = copySize fileLength length c' + 1 := by
      have h1 := UInt32.lt_iff_toNat_lt.1 h.1
      have h2 : c.indexInDataBlock.toNat < 4096 := UInt32.lt_iff_toNat_lt.1 h.2.1
      have h3 := UInt32.lt_iff_toNat_lt.1 h.2.2
      simp only [copySize, hc', hcount, hindex, hoffset]
      omega
    rw [ih, hsize, List.range_succ_eq_map]
    simp only [hc', Word32.add_one_add_ofNat, List.map_cons, List.map_map, List.append_assoc,
      List.cons_append, List.nil_append, Word32.add_ofNat_zero]
    congr 3
    refine List.map_congr_left fun j _ => ?_
    rw [← UInt32.add_assoc, Word32.add_one_add_ofNat]
    rfl
  | case2 c h =>
    have hzero : copySize fileLength length c = 0 := by
      simp only [UInt32.lt_iff_toNat_lt, not_and, not_lt] at h
      simp only [copySize]
      by_cases h1 : c.count.toNat < length.toNat
      · by_cases h2 : c.indexInDataBlock.toNat < 4096
        · have := h h1 h2
          omega
        · omega
      · omega
    simp [hzero]

theorem toNat_add_copySize {x : UInt32} {n limit : ℕ} (hn : n ≤ limit - x.toNat)
    (hlimit : limit < 4294967296) : (x + UInt32.ofNat n).toNat = x.toNat + n := by
  have hx := x.toNat_lt
  exact Word32.toNat_add_ofNat (by omega)

/-- The measure of the outer loop: it reads on in the file, or leaves a block
whose end it had already reached. -/
def ReadCursor.measure (fileLength : UInt32) (c : ReadCursor) : ℕ :=
  2 * (fileLength.toNat - c.offset.toNat) + if c.indexInDataBlock < numBInFourKb then 0 else 1

theorem measure_next_lt {fs : Image} {block fileLength length : UInt32} {c c' : ReadCursor}
    (hc' : copyBlock fs block fileLength length c = c')
    (h : ¬(c'.count ≥ length ∨ c'.offset ≥ fileLength)) (i : UInt32) :
    ReadCursor.measure fileLength { c' with indexInDataBlock := 0, indexInInode := i }
      < ReadCursor.measure fileLength c := by
  have hl := length.toNat_lt
  have hf := fileLength.toNat_lt
  rw [copyBlock_eq] at hc'
  subst hc'
  have hcount : (c.count + UInt32.ofNat (copySize fileLength length c)).toNat
      = c.count.toNat + copySize fileLength length c :=
    toNat_add_copySize (min_le_left _ _) (by omega)
  have hoffset : (c.offset + UInt32.ofNat (copySize fileLength length c)).toNat
      = c.offset.toNat + copySize fileLength length c :=
    toNat_add_copySize ((min_le_right _ _).trans (min_le_right _ _)) (by omega)
  simp only [ge_iff_le, UInt32.le_iff_toNat_le, hcount, hoffset] at h
  simp only [ReadCursor.measure, hoffset]
  by_cases hin : c.indexInDataBlock < numBInFourKb
  · have hin' : c.indexInDataBlock.toNat < 4096 := UInt32.lt_iff_toNat_lt.1 hin
    have hpos : 0 < copySize fileLength length c := by
      simp only [copySize]
      omega
    rw [if_pos hin, if_pos (by decide)]
    omega
  · rw [if_neg hin, if_pos (by decide)]
    omega

/-- The outer loop of `read_data`, one block of the block list each time round. -/
def readBlocks (fs : Image) (inode length : UInt32) (c : ReadCursor) : Int32 × List UInt8 :=
  if dataBlockNum fs inode c.indexInInode ≥ dataCount fs then (-1, c.buf)
  else
    let c' := copyBlock fs (dataBlock fs (dataBlockNum fs inode c.indexInInode))
      (inodeLength fs inode) length c
    if c'.count ≥ length ∨ c'.offset ≥ inodeLength fs inode then (c'.count.toInt32, c'.buf)
    else
      readBlocks fs inode length
        { c' with indexInDataBlock := 0, indexInInode := c'.indexInInode + 1 }
termination_by c.measure (inodeLength fs inode)
decreasing_by
  rename_i h
  exact measure_next_lt rfl h _

/-- `read_data`: the result and the bytes stored in `buf`. -/
def readData (fs : Image) (inode offset length : UInt32) : Int32 × List UInt8 :=
  if inode ≥ inodeCount fs then (-1, [])
  else if offset ≥ inodeLength fs inode then (0, [])
  else
    readBlocks fs inode length
      { count := 0
        offset := offset
        indexInInode := offset / numBInFourKb
        indexInDataBlock := offset % numBInFourKb
        buf := [] }

/-! ## A small image -/

/-- The bytes of a memory that holds some strings at given addresses and zeros elsewhere. -/
def memoryOf (segments : List (UInt32 × List UInt8)) (a : UInt32) : UInt8 :=
  match segments.find? fun s => decide (a - s.1 < UInt32.ofNat s.2.length) with
  | none => 0
  | some s => s.2.getD (a - s.1).toNat 0

/-- Between the strings there are zeros. -/
theorem memoryOf_gap {segments : List (UInt32 × List UInt8)} (lo hi : ℕ) {a : UInt32}
    (hlo : lo ≤ a.toNat) (hhi : a.toNat < hi) (h : ∀ s ∈ segments, s.1.toNat + s.2.length ≤ lo ∨
      hi ≤ s.1.toNat ∧ s.1.toNat + s.2.length ≤ 4294967296) : memoryOf segments a = 0 := by
  have hnone : (segments.find? fun s => decide (a - s.1 < UInt32.ofNat s.2.length)) = none := by
    refine List.find?_eq_none.2 fun s hs hin => ?_
    have hlt := UInt32.lt_iff_toNat_lt.1 (of_decide_eq_true hin)
    have ha := a.toNat_lt
    have hsize : (UInt32.ofNat s.2.length).toNat ≤ s.2.length := by
      rw [UInt32.toNat_ofNat']
      exact Nat.mod_le _ _
    rw [UInt32.toNat_sub] at hlt
    rcases h s hs with hbelow | ⟨habove, hend⟩
    · omega
    · omega
  unfold memoryOf
  rw [hnone]

/-- An entry of the directory. -/
def dentryBytes (name : List UInt8) (filetype inodeNum : UInt32) : List UInt8 :=
  name ++ List.replicate (32 - name.length) 0 ++ Bytes.wordBytes filetype
    ++ Bytes.wordBytes inodeNum

/-- A directory, a clock and a program. -/
def sampleImage : Image := memoryOf
  [(0, Bytes.wordBytes 3 ++ Bytes.wordBytes 2 ++ Bytes.wordBytes 2),
   (64, dentryBytes ".".toUTF8.toList fileTypeDir 0),
   (128, dentryBytes "rtc".toUTF8.toList fileTypeRtc 0),
   (192, dentryBytes "sh".toUTF8.toList fileTypeFile 1),
   (8192, Bytes.wordBytes 28),
   (12288, [0x7F, 0x45, 0x4C, 0x46] ++ List.replicate 20 0 ++ Bytes.wordBytes 0x8048020)]

example : (readData sampleImage 1 0 4).2 = [0x7F, 0x45, 0x4C, 0x46] := by decide +kernel

end CheetOS
