import CheetOS.Image
import CheetOS.Lib.Blocks

/-!
# What read_data delivers

The loops of `read_data` advance four cursors at once; all of them are functions
of the number of bytes copied so far.

* `cursorAt` is the cursor after `n` bytes, `copyBlock_cursorAt` one round of the
  inner loop on it;
* `readBlocks_cursorAt` is the outer loop while the blocks are good,
  `readBlocks_bad` the loop that meets a bad one;
* `readData_correct` says what `read_data` delivers on a well-formed image.
-/

namespace CheetOS

/-! ## Files -/

/-- Byte `i` of block `b` of a file, in block-list order. -/
def blockByte (fs : Image) (inode : UInt32) (b i : ℕ) : UInt8 :=
  fs (dataBlock fs (dataBlockNum fs inode (UInt32.ofNat b)) + UInt32.ofNat i)

/-- The bytes `start` to `start + k - 1` of a file. -/
def fileBytes (fs : Image) (inode : UInt32) (start k : ℕ) : List UInt8 :=
  Blocks.slice 4096 (blockByte fs inode) start k

/-- A block number that `read_data` accepts. -/
def GoodBlock (fs : Image) (inode : UInt32) (b : ℕ) : Prop :=
  ¬dataBlockNum fs inode (UInt32.ofNat b) ≥ dataCount fs

instance (fs : Image) (inode : UInt32) (b : ℕ) : Decidable (GoodBlock fs inode b) :=
  inferInstanceAs (Decidable (¬_))

/-! ## The cursor after `n` bytes -/

/-- The cursor of `read_data` when `n` bytes were copied and a block was not
finished or was just left. -/
def cursorAt (fs : Image) (inode offset : UInt32) (n : ℕ) : ReadCursor where
  count := UInt32.ofNat n
  offset := offset + UInt32.ofNat n
  indexInInode := UInt32.ofNat ((offset.toNat + n) / 4096)
  indexInDataBlock := UInt32.ofNat ((offset.toNat + n) % 4096)
  buf := fileBytes fs inode offset.toNat n

section Loop

variable {fs : Image} {inode offset length : UInt32} {n : ℕ}

theorem cursorAt_zero :
    cursorAt fs inode offset 0 =
      { count := 0
        offset := offset
        indexInInode := offset / numBInFourKb
        indexInDataBlock := offset % numBInFourKb
        buf := [] } := by
  have hdiv : UInt32.ofNat (offset.toNat / 4096) = offset / numBInFourKb := by
    rw [← UInt32.toNat_inj, Word32.toNat_ofNat (by have := offset.toNat_lt; omega),
      UInt32.toNat_div]
    rfl
  have hmod : UInt32.ofNat (offset.toNat % 4096) = offset % numBInFourKb := by
    rw [← UInt32.toNat_inj, Word32.toNat_ofNat (by omega), UInt32.toNat_mod]
    rfl
  simp only [cursorAt, Nat.add_zero, Word32.add_ofNat_zero, hdiv, hmod]
  rfl

/-- How many bytes the next round of the inner loop copies. -/
def roundSize (fileLength length offset n : ℕ) : ℕ :=
  min (length - n) (min (4096 - (offset + n) % 4096) (fileLength - (offset + n)))

theorem copySize_cursorAt (hn : offset.toNat + n < (inodeLength fs inode).toNat) :
    copySize (inodeLength fs inode) length (cursorAt fs inode offset n)
      = roundSize (inodeLength fs inode).toNat length.toNat offset.toNat n := by
  have hlen := (inodeLength fs inode).toNat_lt
  have hcount : (cursorAt fs inode offset n).count.toNat = n := Word32.toNat_ofNat (by omega)
  have hoffset : (cursorAt fs inode offset n).offset.toNat = offset.toNat + n :=
    Word32.toNat_add_ofNat (by omega)
  have hindex : (cursorAt fs inode offset n).indexInDataBlock.toNat
      = (offset.toNat + n) % 4096 := Word32.toNat_ofNat (by omega)
  unfold copySize roundSize
  rw [hcount, hoffset, hindex]

/-- One round of the inner loop. -/
theorem copyBlock_cursorAt (hn : offset.toNat + n < (inodeLength fs inode).toNat) {k : ℕ}
    (hk : roundSize (inodeLength fs inode).toNat length.toNat offset.toNat n = k) :
    copyBlock fs (dataBlock fs (dataBlockNum fs inode (cursorAt fs inode offset n).indexInInode))
        (inodeLength fs inode) length (cursorAt fs inode offset n) =
      { cursorAt fs inode offset (n + k) with
        indexInInode := UInt32.ofNat ((offset.toNat + n) / 4096)
        indexInDataBlock := UInt32.ofNat ((offset.toNat + n) % 4096 + k) } := by
  have hblock : (offset.toNat + n) % 4096 + k ≤ 4096 := by
    unfold roundSize at hk
    have := Nat.mod_lt (offset.toNat + n) (show 0 < 4096 by decide)
    omega
  rw [copyBlock_eq, copySize_cursorAt hn, hk]
  simp only [cursorAt, UInt32.ofNat_add, UInt32.add_assoc]
  congr 1
  unfold fileBytes
  rw [← Blocks.slice_append, Blocks.slice_eq_of_le _ hblock]
  congr 1
  refine List.map_congr_left fun j _ => ?_
  simp only [blockByte, UInt32.ofNat_add]

/-- What is left to copy. -/
def total (fileLength length offset : ℕ) : ℕ := min length (fileLength - offset)

theorem roundSize_le {fileLength length offset n : ℕ} (hn : n ≤ total fileLength length offset) :
    n + roundSize fileLength length offset n ≤ total fileLength length offset := by
  unfold roundSize total at *
  omega

/-- A round that does not finish the request ends at the end of its block. -/
theorem roundSize_of_lt {fileLength length offset n : ℕ} {k : ℕ}
    (hk : roundSize fileLength length offset n = k)
    (hlt : n + k < total fileLength length offset) :
    0 < k ∧ (offset + n) % 4096 + k = 4096 := by
  unfold roundSize at hk
  unfold total at hlt
  have := Nat.mod_lt (offset + n) (show 0 < 4096 by decide)
  omega

/-- The block list is read at `b`: at the block the request begins in, even if it is empty,
and at those it goes on to. -/
def Needed (fileLength length offset b : ℕ) : Prop :=
  b = offset / 4096 ∨ offset < b * 4096 ∧ b * 4096 < offset + total fileLength length offset

instance (fileLength length offset b : ℕ) : Decidable (Needed fileLength length offset b) :=
  inferInstanceAs (Decidable (_ ∨ _ ∧ _))

/-- One round of the outer loop on a good block: it leaves the loop at the end of the
request, and is in front of the next block otherwise. -/
theorem round_cursorAt (hn : offset.toNat + n < (inodeLength fs inode).toNat)
    (hle : n ≤ total (inodeLength fs inode).toNat length.toNat offset.toNat) {k : ℕ}
    (hk : roundSize (inodeLength fs inode).toNat length.toNat offset.toNat n = k)
    {c : ReadCursor}
    (hc : copyBlock fs
      (dataBlock fs (dataBlockNum fs inode (cursorAt fs inode offset n).indexInInode))
      (inodeLength fs inode) length (cursorAt fs inode offset n) = c) :
    c.count = UInt32.ofNat (n + k) ∧ c.buf = fileBytes fs inode offset.toNat (n + k) ∧
    (c.count ≥ length ∨ c.offset ≥ inodeLength fs inode ↔
      ¬n + k < total (inodeLength fs inode).toNat length.toNat offset.toNat) ∧
    (n + k < total (inodeLength fs inode).toNat length.toNat offset.toNat →
      { c with indexInDataBlock := 0, indexInInode := c.indexInInode + 1 }
        = cursorAt fs inode offset (n + k)) := by
  have hlen := (inodeLength fs inode).toNat_lt
  have hsum := roundSize_le hle
  rw [hk] at hsum
  have htotal : total (inodeLength fs inode).toNat length.toNat offset.toNat
      ≤ (inodeLength fs inode).toNat - offset.toNat := min_le_right _ _
  have htotal' : total (inodeLength fs inode).toNat length.toNat offset.toNat
      ≤ length.toNat := min_le_left _ _
  have hcount : (UInt32.ofNat (n + k)).toNat = n + k := Word32.toNat_ofNat (by omega)
  have hoffset : (offset + UInt32.ofNat (n + k)).toNat = offset.toNat + (n + k) :=
    Word32.toNat_add_ofNat (by omega)
  rw [copyBlock_cursorAt hn hk] at hc
  subst hc
  refine ⟨rfl, rfl, ?_, fun hlt => ?_⟩
  · simp only [cursorAt, ge_iff_le, UInt32.le_iff_toNat_le, hcount, hoffset]
    unfold total at hsum ⊢
    omega
  · obtain ⟨-, hend⟩ := roundSize_of_lt hk hlt
    have hdiv : (offset.toNat + (n + k)) / 4096 = (offset.toNat + n) / 4096 + 1 := by omega
    have hmod : (offset.toNat + (n + k)) % 4096 = 0 := by omega
    simp only [cursorAt, hdiv, hmod, UInt32.ofNat_add]
    rfl

/-- The outer loop on a good block: it is done, or goes on with the next one. -/
theorem readBlocks_good (hn : offset.toNat + n < (inodeLength fs inode).toNat)
    (hle : n ≤ total (inodeLength fs inode).toNat length.toNat offset.toNat)
    (hgood : GoodBlock fs inode ((offset.toNat + n) / 4096)) {k : ℕ}
    (hk : roundSize (inodeLength fs inode).toNat length.toNat offset.toNat n = k) :
    readBlocks fs inode length (cursorAt fs inode offset n) =
      if n + k < total (inodeLength fs inode).toNat length.toNat offset.toNat then
        readBlocks fs inode length (cursorAt fs inode offset (n + k))
      else (Int32.ofNat (n + k), fileBytes fs inode offset.toNat (n + k)) := by
  obtain ⟨hcount, hbuf, hdone, hnext⟩ := round_cursorAt hn hle hk rfl
  rw [readBlocks, if_neg (show ¬dataBlockNum fs inode (cursorAt fs inode offset n).indexInInode
    ≥ dataCount fs from hgood)]
  dsimp only
  by_cases hlt : n + k < total (inodeLength fs inode).toNat length.toNat offset.toNat
  · rw [if_neg (mt hdone.1 (not_not.2 hlt)), if_pos hlt, hnext hlt]
  · rw [if_pos (hdone.2 hlt), if_neg hlt, hcount, hbuf]
    rfl

theorem Needed.of_le {fileLength length offset b b' : ℕ} (h : Needed fileLength length offset b)
    (hfrom : offset / 4096 ≤ b') (hle : b' ≤ b) : Needed fileLength length offset b' := by
  unfold Needed at h ⊢
  omega

/-- The outer loop when every block up to the end of the request is good. -/
theorem readBlocks_cursorAt (hoff : offset.toNat < (inodeLength fs inode).toNat)
    (hgood : ∀ b, Needed (inodeLength fs inode).toNat length.toNat offset.toNat b →
      GoodBlock fs inode b)
    (hn : n = 0 ∨ n < total (inodeLength fs inode).toNat length.toNat offset.toNat) :
    readBlocks fs inode length (cursorAt fs inode offset n) =
      (Int32.ofNat (total (inodeLength fs inode).toNat length.toNat offset.toNat),
        fileBytes fs inode offset.toNat
          (total (inodeLength fs inode).toNat length.toNat offset.toNat)) := by
  set t := total (inodeLength fs inode).toNat length.toNat offset.toNat with ht
  have htotal : t ≤ (inodeLength fs inode).toNat - offset.toNat := min_le_right _ _
  induction hleft : t - n using Nat.strong_induction_on generalizing n with
  | _ left ih =>
    have hblock : GoodBlock fs inode ((offset.toNat + n) / 4096) := by
      refine hgood _ ?_
      have hfloor := Nat.div_mul_le_self (offset.toNat + n) 4096
      by_cases hfirst : (offset.toNat + n) / 4096 = offset.toNat / 4096
      · exact Or.inl hfirst
      · right
        omega
    have hle : n ≤ t := by omega
    have hround := readBlocks_good (k := roundSize (inodeLength fs inode).toNat length.toNat
      offset.toNat n) (by omega) hle hblock rfl
    rw [hround, ← ht]
    have hsum := roundSize_le hle
    by_cases hlt : n + roundSize (inodeLength fs inode).toNat length.toNat offset.toNat n < t
    · obtain ⟨hpos, -⟩ := roundSize_of_lt rfl hlt
      rw [if_pos hlt]
      exact ih _ (by omega) (Or.inr hlt) rfl
    · have heq : n + roundSize (inodeLength fs inode).toNat length.toNat offset.toNat n = t := by
        omega
      rw [if_neg hlt, heq]

/-- The outer loop when it comes to a bad block: what the good blocks before it
hold is in the buffer. -/
theorem readBlocks_bad (hoff : offset.toNat < (inodeLength fs inode).toNat) {bad : ℕ}
    (hbad : ¬GoodBlock fs inode bad)
    (hbefore : ∀ b, offset.toNat / 4096 ≤ b → b < bad → GoodBlock fs inode b)
    (hn : (offset.toNat + n) / 4096 = bad ∧ n = bad * 4096 - offset.toNat ∨
      (n = 0 ∨ n < total (inodeLength fs inode).toNat length.toNat offset.toNat) ∧
      offset.toNat + n < bad * 4096 ∧
      bad * 4096 < offset.toNat
        + total (inodeLength fs inode).toNat length.toNat offset.toNat) :
    readBlocks fs inode length (cursorAt fs inode offset n) =
      (-1, fileBytes fs inode offset.toNat (bad * 4096 - offset.toNat)) := by
  set t := total (inodeLength fs inode).toNat length.toNat offset.toNat with ht
  have htotal : t ≤ (inodeLength fs inode).toNat - offset.toNat := min_le_right _ _
  induction hleft : t - n using Nat.strong_induction_on generalizing n with
  | _ left ih =>
    rcases hn with ⟨hindex, hn⟩ | ⟨hn, hlt, hend⟩
    · have hnot : ¬¬dataBlockNum fs inode (cursorAt fs inode offset n).indexInInode
          ≥ dataCount fs := by
        unfold GoodBlock at hbad
        simp only [cursorAt, hindex]
        exact hbad
      rw [readBlocks, if_pos (not_not.1 hnot), ← hn]
      rfl
    · have hblock : GoodBlock fs inode ((offset.toNat + n) / 4096) :=
        hbefore _ (by omega) (by omega)
      have hle : n ≤ t := by omega
      have hround := readBlocks_good (k := roundSize (inodeLength fs inode).toNat length.toNat
        offset.toNat n) (by omega) hle hblock rfl
      have hmore : n + roundSize (inodeLength fs inode).toNat length.toNat offset.toNat n < t := by
        unfold roundSize
        have hlen : t = min length.toNat ((inodeLength fs inode).toNat - offset.toNat) := ht
        omega
      obtain ⟨hpos, hnext⟩ := roundSize_of_lt rfl hmore
      rw [hround, if_pos hmore]
      refine ih _ ?_ ?_ rfl
      · omega
      · omega

end Loop

/-! ## read_data -/

section ReadData

variable {fs : Image} {inode offset length : UInt32}

/-- `read_data` when every block up to the end of the request is good. -/
theorem readData_good (hinode : inode < inodeCount fs)
    (hoff : offset.toNat < (inodeLength fs inode).toNat)
    (hgood : ∀ b, Needed (inodeLength fs inode).toNat length.toNat offset.toNat b →
      GoodBlock fs inode b) :
    readData fs inode offset length =
      (Int32.ofNat (total (inodeLength fs inode).toNat length.toNat offset.toNat),
        fileBytes fs inode offset.toNat
          (total (inodeLength fs inode).toNat length.toNat offset.toNat)) := by
  unfold readData
  rw [if_neg (UInt32.not_le.2 hinode), if_neg (by rw [ge_iff_le, UInt32.le_iff_toNat_le]; omega),
    ← cursorAt_zero]
  exact readBlocks_cursorAt hoff hgood (Or.inl rfl)

/-- `read_data` when it comes to a bad block. -/
theorem readData_bad (hinode : inode < inodeCount fs)
    (hoff : offset.toNat < (inodeLength fs inode).toNat) {bad : ℕ}
    (hbad : ¬GoodBlock fs inode bad)
    (hbefore : ∀ b, offset.toNat / 4096 ≤ b → b < bad → GoodBlock fs inode b)
    (hneeded : Needed (inodeLength fs inode).toNat length.toNat offset.toNat bad) :
    readData fs inode offset length =
      (-1, fileBytes fs inode offset.toNat (bad * 4096 - offset.toNat)) := by
  unfold readData
  rw [if_neg (UInt32.not_le.2 hinode), if_neg (by rw [ge_iff_le, UInt32.le_iff_toNat_le]; omega),
    ← cursorAt_zero]
  refine readBlocks_bad hoff hbad hbefore ?_
  rcases hneeded with h | ⟨h, h'⟩
  · exact Or.inl ⟨h.symm, by omega⟩
  · exact Or.inr ⟨Or.inl rfl, h, h'⟩

theorem readData_past (hinode : inode < inodeCount fs)
    (hoff : (inodeLength fs inode).toNat ≤ offset.toNat) :
    readData fs inode offset length = (0, []) := by
  unfold readData
  rw [if_neg (UInt32.not_le.2 hinode), if_pos (UInt32.le_iff_toNat_le.2 hoff)]

theorem exists_first {p : ℕ → Prop} (h : ∃ b, p b) : ∃ b, p b ∧ ∀ b' < b, ¬p b' := by
  classical
  exact ⟨Nat.find h, Nat.find_spec h, fun _ hb' => Nat.find_min h hb'⟩

/-- A request that `read_data` refuses: the inode is not one of the image's, or the
request comes to a block number that is not. -/
def BadRequest (fs : Image) (inode offset length : UInt32) : Prop :=
  inodeCount fs ≤ inode ∨ offset < inodeLength fs inode ∧
    ∃ b, Needed (inodeLength fs inode).toNat length.toNat offset.toNat b ∧ ¬GoodBlock fs inode b

/-- The first bad block of a bad request. -/
theorem BadRequest.first (h : BadRequest fs inode offset length)
    (hinode : inode < inodeCount fs) :
    offset < inodeLength fs inode ∧ ∃ bad,
      Needed (inodeLength fs inode).toNat length.toNat offset.toNat bad ∧
      ¬GoodBlock fs inode bad ∧
      ∀ b, offset.toNat / 4096 ≤ b → b < bad → GoodBlock fs inode b := by
  obtain ⟨hoff, hex⟩ := h.resolve_left (UInt32.not_le.2 hinode)
  obtain ⟨bad, ⟨hneeded, hbad⟩, hmin⟩ := exists_first hex
  refine ⟨hoff, bad, hneeded, hbad, fun b hfrom hlt => ?_⟩
  by_contra hbad'
  exact hmin b hlt ⟨hneeded.of_le hfrom hlt.le, hbad'⟩

/-- **`read_data` refuses exactly the bad requests.** -/
theorem readData_refused (h : BadRequest fs inode offset length) :
    (readData fs inode offset length).1 = -1 := by
  by_cases hinode : inode ≥ inodeCount fs
  · unfold readData
    rw [if_pos hinode]
  · have hinode' := UInt32.not_le.1 hinode
    obtain ⟨hoff, bad, hneeded, hbad, hbefore⟩ := h.first hinode'
    rw [readData_bad hinode' (UInt32.lt_iff_toNat_lt.1 hoff) hbad hbefore hneeded]

theorem readData_accepted (h : ¬BadRequest fs inode offset length) :
    readData fs inode offset length =
      (Int32.ofNat (total (inodeLength fs inode).toNat length.toNat offset.toNat),
        fileBytes fs inode offset.toNat
          (total (inodeLength fs inode).toNat length.toNat offset.toNat)) := by
  unfold BadRequest at h
  push Not at h
  obtain ⟨hle, hgood⟩ := h
  have hinode := UInt32.not_le.1 hle
  by_cases hoff : offset < inodeLength fs inode
  · exact readData_good hinode (UInt32.lt_iff_toNat_lt.1 hoff) (hgood hoff)
  · have hpast := UInt32.le_iff_toNat_le.1 (UInt32.not_lt.1 hoff)
    have hzero : total (inodeLength fs inode).toNat length.toNat offset.toNat = 0 := by
      unfold total
      omega
    rw [readData_past hinode hpast, hzero]
    rfl

/-- A file of a well-formed image: the inode exists, the length fits into the block
list, and every block the file uses is one of the image's. -/
structure WellFormed (fs : Image) (inode : UInt32) : Prop where
  inode_lt : inode < inodeCount fs
  length_le : (inodeLength fs inode).toNat ≤ 1023 * 4096
  blocks : ∀ b, b * 4096 < (inodeLength fs inode).toNat →
    0 ≤ dataBlockNum fs inode (UInt32.ofNat b) ∧
    dataBlockNum fs inode (UInt32.ofNat b) < dataCount fs

/-- The data blocks of a file, in block-list order. -/
def dataBlocks (fs : Image) (inode : UInt32) : List (List UInt8) :=
  (List.range (((inodeLength fs inode).toNat + 4095) / 4096)).map fun b =>
    (List.range 4096).map fun i =>
      fs (dataBlock fs (dataBlockNum fs inode (UInt32.ofNat b)) + UInt32.ofNat i)

theorem dataBlocks_flatten :
    (dataBlocks fs inode).flatten
      = Blocks.concat 4096 (blockByte fs inode) (((inodeLength fs inode).toNat + 4095) / 4096) := by
  unfold dataBlocks Blocks.concat
  rw [List.flatMap_def]
  rfl

/-- The bytes of a file are those of its blocks. -/
theorem drop_take_dataBlocks {start k : ℕ} (h : start + k ≤ (inodeLength fs inode).toNat) :
    ((dataBlocks fs inode).flatten.drop start).take k = fileBytes fs inode start k := by
  rw [dataBlocks_flatten]
  exact Blocks.drop_take_concat _ (by omega)

/-- How many bytes `read_data` delivers. -/
def delivered (fileLength offset length : ℕ) : ℕ :=
  if fileLength ≤ offset then 0 else min length (fileLength - offset)

theorem delivered_le (fileLength offset length : ℕ) :
    delivered fileLength offset length ≤ fileLength - offset := by
  unfold delivered
  split
  · exact Nat.zero_le _
  · exact min_le_right _ _

/-- What a read and a later one of `more` bytes deliver adds up. -/
theorem delivered_add (fileLength offset length more : ℕ) :
    delivered fileLength offset length +
        min more (fileLength - (offset + delivered fileLength offset length))
      = min (length + more) (fileLength - offset) := by
  unfold delivered
  split
  · omega
  · omega

/-- `read_data` on a file of a well-formed image. -/
theorem WellFormed.readData_eq (h : WellFormed fs inode) (offset length : UInt32) :
    readData fs inode offset length =
      (Int32.ofNat (delivered (inodeLength fs inode).toNat offset.toNat length.toNat),
        fileBytes fs inode offset.toNat
          (delivered (inodeLength fs inode).toNat offset.toNat length.toNat)) := by
  unfold delivered
  by_cases hoff : (inodeLength fs inode).toNat ≤ offset.toNat
  · rw [if_pos hoff, readData_past h.inode_lt hoff]
    rfl
  · rw [if_neg hoff]
    refine readData_good h.inode_lt (not_le.1 hoff) fun b hb => ?_
    refine Int32.not_le.2 (h.blocks b ?_).2
    rcases hb with rfl | ⟨-, hb⟩
    · have := Nat.div_mul_le_self offset.toNat 4096
      omega
    · unfold total at hb
      omega

/-- **`read_data` is right on every well-formed image.**  For every offset and
length it delivers the bytes of the concatenation of the data blocks that are asked
for and inside the file, as many as it says, and leaves the buffer behind them
alone. -/
theorem readData_correct (h : WellFormed fs inode) (offset length : UInt32) :
    let result := delivered (inodeLength fs inode).toNat offset.toNat length.toNat
    (readData fs inode offset length).1.toInt = result ∧
    (readData fs inode offset length).2
      = ((dataBlocks fs inode).flatten.drop offset.toNat).take result ∧
    (readData fs inode offset length).2.length = result ∧
    ∀ (buf : ℕ → UInt8) (i : ℕ), Bytes.writeAt buf 0 (readData fs inode offset length).2 i
      = if i < result then (dataBlocks fs inode).flatten.getD (offset.toNat + i) 0
        else buf i := by
  have hle := delivered_le (inodeLength fs inode).toNat offset.toNat length.toNat
  have hlen := h.length_le
  intro result
  have hresult : result = delivered (inodeLength fs inode).toNat offset.toNat length.toNat := rfl
  have hsize : (fileBytes fs inode offset.toNat result).length = result :=
    Blocks.length_slice ..
  have hbytes : ((dataBlocks fs inode).flatten.drop offset.toNat).take result
      = fileBytes fs inode offset.toNat result := by
    by_cases hoff : (inodeLength fs inode).toNat ≤ offset.toNat
    · have hzero : result = 0 := if_pos hoff
      rw [hzero, List.take_zero]
      rfl
    · exact drop_take_dataBlocks (by omega)
  rw [h.readData_eq, ← hresult]
  refine ⟨Int32.toInt_ofNat_of_lt (by omega), hbytes.symm, hsize, ?_⟩
  intro buf i
  by_cases hi : i < result
  · have hwrite := Bytes.writeAt_add (b := buf) (p := 0) (hsize.symm ▸ hi)
    rw [Nat.zero_add] at hwrite
    rw [if_pos hi, hwrite, ← List.getD_eq_getElem _ 0, ← hbytes]
    simp [List.getD_eq_getElem?_getD, hi]
  · rw [if_neg hi]
    exact Bytes.writeAt_of_le (by rw [hsize, Nat.zero_add]; exact not_lt.1 hi)

end ReadData

theorem wellFormed_sample : WellFormed sampleImage 1 where
  inode_lt := by decide +kernel
  length_le := by decide +kernel
  blocks := by
    intro b hb
    have hlen : (inodeLength sampleImage 1).toNat = 28 := by decide +kernel
    have hzero : b = 0 := by omega
    subst hzero
    decide +kernel

/-- A read that runs into the end of the file. -/
theorem readData_correct_end : (readData sampleImage 1 24 100).1.toInt = 4 := by
  have hlen : delivered (inodeLength sampleImage 1).toNat (24 : UInt32).toNat
      (100 : UInt32).toNat = 4 := by decide +kernel
  have hread := (readData_correct wellFormed_sample 24 100).1
  rw [hlen] at hread
  exact hread

end CheetOS
