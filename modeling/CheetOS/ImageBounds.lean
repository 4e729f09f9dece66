import CheetOS.ReadData

/-!
# Where read_data reads

The accesses of `read_data` to the image, and when they stay inside it.

* `Access` is one access, as the code writes it; `dataReads` are the accesses of
  `read_data`, one after the other, from the same loops;
* `Reached` is a place in the block list that the loop comes to, `mem_blockReads` and
  `blockNum_mem` say that the accesses are those of the places reached;
* `read_data_inside` — `read_data` stays inside the image and stops where it would leave
  it, exactly when no place it reaches is behind the block list or negative.
-/

namespace CheetOS

/-! ## Accesses -/

/-- An access of `read_data` to the image. -/
inductive Access
  /-- A field of the boot block, at its offset. -/
  | boot (field : UInt32)
  /-- `inode_block->length`. -/
  | length
  /-- `inode_block->data_block_num[i]`. -/
  | blockNum (i : UInt32)
  /-- `data_block[i]`, in data block `b`. -/
  | data (b : Int32) (i : UInt32)
  deriving DecidableEq, Repr

namespace Access

/-- Where it begins in the image. -/
def addr (fs : Image) (inode : UInt32) : Access → UInt32
  | boot field => field
  | length => inodeBlock inode
  | blockNum i => inodeBlock inode + 4 + 4 * i
  | data b i => dataBlock fs b + i

/-- How many bytes it reads. -/
def size : Access → ℕ
  | data _ _ => 1
  | _ => 4

/-- The block of the image it is meant for: the boot block, the inode's, or a data block. -/
def block (fs : Image) (inode : UInt32) : Access → ℕ
  | boot _ => 0
  | length => 1 + inode.toNat
  | blockNum _ => 1 + inode.toNat
  | data b _ => 1 + (inodeCount fs).toNat + b.toNatClampNeg

/-- The index is inside the block list, the block number inside the data blocks. -/
def InRange (fs : Image) : Access → Prop
  | blockNum i => i.toNat ≤ 1022
  | data b _ => 0 ≤ b ∧ b < dataCount fs
  | _ => True

/-- It reads only bytes of the block it is meant for, and that is a block of the image. -/
structure Inside (fs : Image) (inode : UInt32) (a : Access) : Prop where
  inRange : a.InRange fs
  block_lt : a.block fs inode < 1 + (inodeCount fs).toNat + (dataCount fs).toNatClampNeg
  from_le : a.block fs inode * 4096 ≤ (a.addr fs inode).toNat
  to_le : (a.addr fs inode).toNat + a.size ≤ (a.block fs inode + 1) * 4096

end Access

/-- What the inner loop of `read_data` reads, with the data block `b`. -/
def copyReads (fs : Image) (b : Int32) (fileLength length : UInt32) (c : ReadCursor) :
    List Access :=
  if c.count < length ∧ c.indexInDataBlock < numBInFourKb then
    .length ::
      if c.offset < fileLength then
        .data b c.indexInDataBlock ::
          copyReads fs b fileLength length
            { c with
              buf := c.buf ++ [fs (dataBlock fs b + c.indexInDataBlock)]
              indexInDataBlock := c.indexInDataBlock + 1
              offset := c.offset + 1
              count := c.count + 1 }
      else []
  else []
termination_by 4096 - c.indexInDataBlock.toNat
decreasing_by
  rename_i h _
  have hlt : c.indexInDataBlock.toNat < 4096 := UInt32.lt_iff_toNat_lt.1 h.2
  simp only [Word32.toNat_succ h.2]
  omega

/-- What the outer loop of `read_data` reads: the next number of the block list and
`data_count`, then `inode_count` for the address of the block, and the block. -/
def blockReads (fs : Image) (inode length : UInt32) (c : ReadCursor) : List Access :=
  .blockNum c.indexInInode :: .boot 8 ::
    if dataBlockNum fs inode c.indexInInode ≥ dataCount fs then []
    else
      let c' := copyBlock fs (dataBlock fs (dataBlockNum fs inode c.indexInInode))
        (inodeLength fs inode) length c
      .boot 4 ::
        (copyReads fs (dataBlockNum fs inode c.indexInInode) (inodeLength fs inode) length c ++
          if c'.count ≥ length then []
          else .length ::
            if c'.offset ≥ inodeLength fs inode then []
            else
              blockReads fs inode length
                { c' with indexInDataBlock := 0, indexInInode := c'.indexInInode + 1 })
termination_by c.measure (inodeLength fs inode)
decreasing_by
  rename_i hcount hoffset
  exact measure_next_lt rfl (not_or.2 ⟨hcount, hoffset⟩) _

/-- What `read_data` reads of the image. -/
def dataReads (fs : Image) (inode offset length : UInt32) : List Access :=
  .boot 4 ::
    if inode ≥ inodeCount fs then []
    else .length ::
      if offset ≥ inodeLength fs inode then []
      else
        blockReads fs inode length
          { count := 0
            offset := offset
            indexInInode := offset / numBInFourKb
            indexInDataBlock := offset % numBInFourKb
            buf := [] }

example : (dataReads sampleImage 1 0 2).filter (fun a => a.size = 1) = [.data 0 0, .data 0 1] := by
  decide +kernel

/-! ## The accesses of the loops -/

/-- The inner loop reads bytes of its block, from the index on. -/
theorem mem_copyReads {fs : Image} {b : Int32} {fileLength length : UInt32} {c : ReadCursor}
    {a : Access} (h : a ∈ copyReads fs b fileLength length c) :
    a = .length ∨ ∃ i < numBInFourKb, a = .data b i := by
  fun_induction copyReads fs b fileLength length c with
  | case1 c hroom ih =>
    rcases List.mem_cons.1 h with rfl | h
    · exact Or.inl rfl
    · split_ifs at h with hmore
      · rcases List.mem_cons.1 h with rfl | h
        · exact Or.inr ⟨_, hroom.2, rfl⟩
        · exact ih h
      · cases h
  | case2 c hend => cases h

section Loop

variable {fs : Image} {inode offset length : UInt32} {n : ℕ}

/-- The loop comes to place `b` of the block list: the request needs it, and the numbers
before it are accepted. -/
def Reached (fs : Image) (inode offset length : UInt32) (b : ℕ) : Prop :=
  Needed (inodeLength fs inode).toNat length.toNat offset.toNat b ∧
    ∀ b', offset.toNat / 4096 ≤ b' → b' < b → GoodBlock fs inode b'

/-- The place of the block list the loop is at after `n` bytes is reached, if the numbers
before it are accepted. -/
theorem reached_cursorAt
    (hn : n = 0 ∨ n < total (inodeLength fs inode).toNat length.toNat offset.toNat)
    (hbefore : ∀ b, offset.toNat / 4096 ≤ b → b < (offset.toNat + n) / 4096 →
      GoodBlock fs inode b) :
    Reached fs inode offset length ((offset.toNat + n) / 4096) := by
  refine ⟨?_, hbefore⟩
  have hfloor := Nat.div_mul_le_self (offset.toNat + n) 4096
  unfold Needed
  omega

/-- **The accesses of the outer loop are those of the places it reaches.** -/
theorem mem_blockReads (hoff : offset.toNat < (inodeLength fs inode).toNat)
    (hn : n = 0 ∨ n < total (inodeLength fs inode).toNat length.toNat offset.toNat)
    (hbefore : ∀ b, offset.toNat / 4096 ≤ b → b < (offset.toNat + n) / 4096 →
      GoodBlock fs inode b) {a : Access}
    (h : a ∈ blockReads fs inode length (cursorAt fs inode offset n)) :
    a = .boot 4 ∨ a = .boot 8 ∨ a = .length ∨ ∃ b, Reached fs inode offset length b ∧
      (a = .blockNum (UInt32.ofNat b) ∨ GoodBlock fs inode b ∧
        ∃ i < numBInFourKb, a = .data (dataBlockNum fs inode (UInt32.ofNat b)) i) := by
  set t := total (inodeLength fs inode).toNat length.toNat offset.toNat with ht
  have htotal : t ≤ (inodeLength fs inode).toNat - offset.toNat := min_le_right _ _
  induction hleft : t - n using Nat.strong_induction_on generalizing n with
  | _ left ih =>
    have hreached := reached_cursorAt hn hbefore
    have hindex : (cursorAt fs inode offset n).indexInInode
        = UInt32.ofNat ((offset.toNat + n) / 4096) := rfl
    have hin : offset.toNat + n < (inodeLength fs inode).toNat := by omega
    have hle : n ≤ total (inodeLength fs inode).toNat length.toNat offset.toNat := by omega
    obtain ⟨-, -, hdone, hnext⟩ := round_cursorAt hin hle rfl rfl
    rw [blockReads, hindex] at h
    rw [hindex] at hdone hnext
    rcases List.mem_cons.1 h with rfl | h
    · exact Or.inr (Or.inr (Or.inr ⟨_, hreached, Or.inl rfl⟩))
    rcases List.mem_cons.1 h with rfl | h
    · exact Or.inr (Or.inl rfl)
    by_cases hbad : dataBlockNum fs inode (UInt32.ofNat ((offset.toNat + n) / 4096))
      ≥ dataCount fs
    · rw [if_pos hbad] at h
      cases h
    rw [if_neg hbad] at h
    rcases List.mem_cons.1 h with rfl | h
    · exact Or.inl rfl
    rcases List.mem_append.1 h with h | h
    · rcases mem_copyReads h with rfl | ⟨i, hi, rfl⟩
      · exact Or.inr (Or.inr (Or.inl rfl))
      · exact Or.inr (Or.inr (Or.inr ⟨_, hreached, Or.inr ⟨hbad, i, hi, rfl⟩⟩))
    split_ifs at h with hcount hoffset
    · cases h
    · exact Or.inr (Or.inr (Or.inl (List.mem_singleton.1 h)))
    · rcases List.mem_cons.1 h with rfl | h
      · exact Or.inr (Or.inr (Or.inl rfl))
      -- the loop goes on with the next block
      have hlt := not_not.1 (mt hdone.2 (not_or.2 ⟨hcount, hoffset⟩))
      obtain ⟨hpos, hend⟩ := roundSize_of_lt rfl hlt
      rw [hnext hlt] at h
      refine ih _ ?_ (fun b hfrom hto => ?_) h (Or.inr hlt) rfl
      · omega
      · by_cases hb : b < (offset.toNat + n) / 4096
        · exact hbefore b hfrom hb
        · obtain rfl : b = (offset.toNat + n) / 4096 := by omega
          exact hbad

/-- **Every place the loop reaches is read.** -/
theorem blockNum_mem (hoff : offset.toNat < (inodeLength fs inode).toNat)
    (hn : n = 0 ∨ n < total (inodeLength fs inode).toNat length.toNat offset.toNat) {b : ℕ}
    (hb : Reached fs inode offset length b) (hfrom : (offset.toNat + n) / 4096 ≤ b) :
    .blockNum (UInt32.ofNat b) ∈ blockReads fs inode length (cursorAt fs inode offset n) := by
  set t := total (inodeLength fs inode).toNat length.toNat offset.toNat with ht
  have htotal : t ≤ (inodeLength fs inode).toNat - offset.toNat := min_le_right _ _
  induction hleft : t - n using Nat.strong_induction_on generalizing n with
  | _ left ih =>
    have hindex : (cursorAt fs inode offset n).indexInInode
        = UInt32.ofNat ((offset.toNat + n) / 4096) := rfl
    have hin : offset.toNat + n < (inodeLength fs inode).toNat := by omega
    have hle : n ≤ total (inodeLength fs inode).toNat length.toNat offset.toNat := by omega
    obtain ⟨-, -, hdone, hnext⟩ := round_cursorAt hin hle rfl rfl
    rw [blockReads, hindex]
    rw [hindex] at hdone hnext
    by_cases hhere : b = (offset.toNat + n) / 4096
    · rw [hhere]
      exact List.mem_cons_self
    · -- the number here is accepted, and the request goes on behind this block
      have hgood : GoodBlock fs inode ((offset.toNat + n) / 4096) :=
        hb.2 _ (Nat.div_le_div_right (Nat.le_add_right _ _)) (by omega)
      have hmore : n + roundSize (inodeLength fs inode).toNat length.toNat offset.toNat n < t := by
        have hneeded := hb.1
        have hfloor := Nat.div_le_div_right (c := 4096) (Nat.le_add_right offset.toNat n)
        unfold Needed at hneeded
        unfold roundSize
        have hlen : t = min length.toNat ((inodeLength fs inode).toNat - offset.toNat) := ht
        omega
      have hgo := mt hdone.1 (not_not.2 hmore)
      rw [not_or] at hgo
      obtain ⟨hpos, hend⟩ := roundSize_of_lt rfl hmore
      have hrest := ih _ (by omega) (by omega) (Or.inr hmore) rfl
      refine List.mem_cons_of_mem _ (List.mem_cons_of_mem _ ?_)
      rw [if_neg (show ¬dataBlockNum fs inode _ ≥ dataCount fs from hgood)]
      dsimp only
      rw [if_neg hgo.1, if_neg hgo.2, hnext hmore]
      exact List.mem_cons_of_mem _ (List.mem_append_right _ (List.mem_cons_of_mem _ hrest))

end Loop

/-! ## What is read decides the result -/

/-- Two images have the same bytes where an access reads. -/
def Access.Agree (fs fs' : Image) (inode : UInt32) (a : Access) : Prop :=
  ∀ i < a.size, fs' (a.addr fs inode + UInt32.ofNat i) = fs (a.addr fs inode + UInt32.ofNat i)

section Agree

variable {fs fs' : Image} {inode : UInt32}

theorem imageWord_congr {a : UInt32}
    (h : ∀ i < 4, fs' (a + UInt32.ofNat i) = fs (a + UInt32.ofNat i)) :
    imageWord fs' a = imageWord fs a := by
  unfold imageWord
  exact Bytes.word_congr h

theorem copyBlock_congr {b : Int32} {fileLength length : UInt32} {c : ReadCursor}
    (h : ∀ a ∈ copyReads fs b fileLength length c, a.Agree fs fs' inode) :
    copyBlock fs' (dataBlock fs b) fileLength length c
      = copyBlock fs (dataBlock fs b) fileLength length c := by
  fun_induction copyBlock fs (dataBlock fs b) fileLength length c with
  | case1 c hmore ih =>
    obtain ⟨hcount, hindex, hoffset⟩ := hmore
    rw [copyReads, if_pos ⟨hcount, hindex⟩, if_pos hoffset] at h
    have hbyte := h _ (List.mem_cons_of_mem _ List.mem_cons_self) 0 Nat.one_pos
    rw [Word32.add_ofNat_zero] at hbyte
    have hrest := ih fun a ha => h a (List.mem_cons_of_mem _ (List.mem_cons_of_mem _ ha))
    rw [copyBlock, if_pos ⟨hcount, hindex, hoffset⟩, ← hrest]
    congr 3
    exact congrArg (fun x => [x]) hbyte
  | case2 c hend => rw [copyBlock, if_neg hend]

/-- The head of the outer loop. -/
theorem head_congr {i : UInt32} {rest : List Access}
    (h : ∀ a ∈ .blockNum i :: .boot 8 :: rest, a.Agree fs fs' inode) :
    dataBlockNum fs' inode i = dataBlockNum fs inode i ∧ dataCount fs' = dataCount fs := by
  have hnum := h _ List.mem_cons_self
  have hcount := h _ (List.mem_cons_of_mem _ List.mem_cons_self)
  exact ⟨congrArg UInt32.toInt32 (imageWord_congr hnum),
    congrArg UInt32.toInt32 (imageWord_congr hcount)⟩

/-- One round of the outer loop. -/
theorem round_congr {length : UInt32} {c : ReadCursor}
    (h : ∀ a ∈ blockReads fs inode length c, a.Agree fs fs' inode)
    (hgood : ¬dataBlockNum fs inode c.indexInInode ≥ dataCount fs) :
    dataBlockNum fs' inode c.indexInInode = dataBlockNum fs inode c.indexInInode ∧
      dataCount fs' = dataCount fs ∧
      copyBlock fs' (dataBlock fs (dataBlockNum fs inode c.indexInInode)) (inodeLength fs inode)
          length c
        = copyBlock fs (dataBlock fs (dataBlockNum fs inode c.indexInInode))
          (inodeLength fs inode) length c := by
  rw [blockReads] at h
  obtain ⟨hnum, hcount⟩ := head_congr h
  rw [if_neg hgood] at h
  refine ⟨hnum, hcount, copyBlock_congr fun a ha => h a ?_⟩
  refine List.mem_cons_of_mem _ (List.mem_cons_of_mem _ (List.mem_cons_of_mem _ ?_))
  exact List.mem_append_left _ ha

theorem readBlocks_congr {length : UInt32} {c : ReadCursor}
    (hinodes : inodeCount fs' = inodeCount fs)
    (hlength : inodeLength fs' inode = inodeLength fs inode)
    (h : ∀ a ∈ blockReads fs inode length c, a.Agree fs fs' inode) :
    readBlocks fs' inode length c = readBlocks fs inode length c := by
  have hblock (n : Int32) : dataBlock fs' n = dataBlock fs n := by
    rw [dataBlock, dataBlock, hinodes]
  fun_induction readBlocks fs inode length c with
  | case1 c hbad =>
    rw [blockReads] at h
    obtain ⟨hnum, hcount⟩ := head_congr h
    rw [readBlocks, hnum, hcount, if_pos hbad]
  | case2 c hgood c' hdone =>
    obtain ⟨hnum, hcount, hcopy⟩ := round_congr h hgood
    rw [readBlocks, hnum, hcount, if_neg hgood, hblock, hlength, hcopy]
    exact if_pos hdone
  | case3 c hgood c' hmore ih =>
    obtain ⟨hnum, hcount, hcopy⟩ := round_congr h hgood
    rw [readBlocks, hnum, hcount, if_neg hgood, hblock, hlength, hcopy]
    refine (if_neg hmore).trans (ih fun a ha => h a ?_)
    rw [blockReads, if_neg hgood]
    refine List.mem_cons_of_mem _ (List.mem_cons_of_mem _ (List.mem_cons_of_mem _ ?_))
    refine List.mem_append_right _ ?_
    rw [if_neg (not_or.1 hmore).1, if_neg (not_or.1 hmore).2]
    exact List.mem_cons_of_mem _ ha

/-- **`read_data` reads nothing else**: what the bytes it reads are decides its result. -/
theorem readData_congr {offset length : UInt32}
    (h : ∀ a ∈ dataReads fs inode offset length, a.Agree fs fs' inode) :
    readData fs' inode offset length = readData fs inode offset length := by
  rw [dataReads] at h
  have hboot := h _ List.mem_cons_self
  have hinodes : inodeCount fs' = inodeCount fs := imageWord_congr hboot
  rw [readData, readData, hinodes]
  by_cases hinode : inode ≥ inodeCount fs
  · rw [if_pos hinode, if_pos hinode]
  · rw [if_neg hinode] at h
    have hinodeBlock := h _ (List.mem_cons_of_mem _ List.mem_cons_self)
    have hlength : inodeLength fs' inode = inodeLength fs inode := imageWord_congr hinodeBlock
    rw [if_neg hinode, if_neg hinode, hlength]
    by_cases hoff : offset ≥ inodeLength fs inode
    · rw [if_pos hoff, if_pos hoff]
    · rw [if_neg hoff] at h
      rw [if_neg hoff, if_neg hoff]
      exact readBlocks_congr hinodes hlength fun a ha =>
        h a (List.mem_cons_of_mem _ (List.mem_cons_of_mem _ ha))

end Agree

/-! ## Inside the image -/

/-- The counts of the boot block are not negative and describe the size of the image. -/
structure Sized (fs : Image) : Prop where
  inodes : 0 ≤ (inodeCount fs).toInt32
  data : 0 ≤ dataCount fs
  size_le : (1 + (inodeCount fs).toNat + (dataCount fs).toNatClampNeg) * 4096 ≤ 4294967296

section Inside

variable {fs : Image} {inode : UInt32}

/-- An access at offset `k` of its block. -/
theorem inside_of {a : Access} {k : ℕ} (hrange : a.InRange fs)
    (hblock : a.block fs inode < 1 + (inodeCount fs).toNat + (dataCount fs).toNatClampNeg)
    (haddr : (a.addr fs inode).toNat = a.block fs inode * 4096 + k) (hk : k + a.size ≤ 4096) :
    a.Inside fs inode where
  inRange := hrange
  block_lt := hblock
  from_le := by omega
  to_le := by omega

theorem toNat_block {n : UInt32} (h : (n.toNat + 1) * 4096 < 4294967296) :
    (numBInFourKb * (n + 1)).toNat = (n.toNat + 1) * 4096 := by
  have hone : (1 : UInt32).toNat = 1 := rfl
  have hsum : (n + 1).toNat = n.toNat + 1 := Word32.toNat_add_of_lt (by omega)
  rw [UInt32.toNat_mul, hsum, Nat.mul_comm]
  exact Nat.mod_eq_of_lt h

theorem inside_boot {field : UInt32} (h : field.toNat + 4 ≤ 4096) :
    (Access.boot field).Inside fs inode := by
  refine inside_of (k := field.toNat) trivial ?_ ?_ h
  · simp only [Access.block]
    omega
  · simp only [Access.block, Access.addr]
    omega

theorem toNat_inodeBlock (hs : Sized fs) (hinode : inode < inodeCount fs) :
    (inodeBlock inode).toNat = (inode.toNat + 1) * 4096 := by
  have hlt := UInt32.lt_iff_toNat_lt.1 hinode
  have hsize := hs.size_le
  exact toNat_block (by omega)

theorem inside_length (hs : Sized fs) (hinode : inode < inodeCount fs) :
    Access.length.Inside fs inode := by
  have hlt := UInt32.lt_iff_toNat_lt.1 hinode
  refine inside_of (k := 0) trivial ?_ ?_ (by decide)
  · simp only [Access.block]
    omega
  · simp only [Access.block, Access.addr, toNat_inodeBlock hs hinode]
    omega

theorem toNat_blockNum (hs : Sized fs) (hinode : inode < inodeCount fs) {i : UInt32}
    (hi : i.toNat ≤ 1022) :
    (inodeBlock inode + 4 + 4 * i).toNat = (inode.toNat + 1) * 4096 + 4 + 4 * i.toNat := by
  have hlt := UInt32.lt_iff_toNat_lt.1 hinode
  have hsize := hs.size_le
  have hbase := toNat_inodeBlock hs hinode
  have hfour : (4 * i).toNat = 4 * i.toNat := by
    rw [UInt32.toNat_mul]
    exact Nat.mod_eq_of_lt (by simp only [UInt32.reduceToNat]; omega)
  have hhead : (inodeBlock inode + 4).toNat = (inode.toNat + 1) * 4096 + 4 := by
    rw [← hbase]
    exact Word32.toNat_add_of_lt (by simp only [UInt32.reduceToNat]; omega)
  rw [Word32.toNat_add_of_lt (by omega), hhead, hfour]

theorem inside_blockNum (hs : Sized fs) (hinode : inode < inodeCount fs) {i : UInt32}
    (hi : i.toNat ≤ 1022) : (Access.blockNum i).Inside fs inode := by
  have hlt := UInt32.lt_iff_toNat_lt.1 hinode
  refine inside_of (k := 4 + 4 * i.toNat) hi ?_ ?_ ?_
  · simp only [Access.block]
    omega
  · simp only [Access.block, Access.addr, toNat_blockNum hs hinode hi]
    omega
  · simp only [Access.size]
    omega

theorem toNatClampNeg_lt {n d : Int32} (hn : 0 ≤ n) (hd : n < d) :
    n.toNatClampNeg < d.toNatClampNeg := by
  have h1 := Int32.le_iff_toInt_le.1 hn
  have h2 := Int32.lt_iff_toInt_lt.1 hd
  rw [← Int32.toNat_toInt, ← Int32.toNat_toInt]
  simp only [Int32.reduceToInt] at h1
  omega

theorem toNat_dataBlock (hs : Sized fs) {n : Int32} (hn : 0 ≤ n) (hn' : n < dataCount fs)
    {i : UInt32} (hi : i < numBInFourKb) :
    (dataBlock fs n + i).toNat
      = ((inodeCount fs).toNat + n.toNatClampNeg + 1) * 4096 + i.toNat := by
  have hlt : i.toNat < 4096 := UInt32.lt_iff_toNat_lt.1 hi
  have hsize := hs.size_le
  have hbelow := toNatClampNeg_lt hn hn'
  have hword : n.toUInt32.toNat = n.toNatClampNeg := Int32.toNat_toUInt32_of_le hn
  have hsum : (inodeCount fs + n.toUInt32).toNat = (inodeCount fs).toNat + n.toNatClampNeg := by
    rw [Word32.toNat_add_of_lt (by omega), hword]
  have hbase : (dataBlock fs n).toNat = ((inodeCount fs).toNat + n.toNatClampNeg + 1) * 4096 := by
    rw [← hsum]
    exact toNat_block (by omega)
  rw [Word32.toNat_add_of_lt (by omega), hbase]

theorem inside_data (hs : Sized fs) {n : Int32} (hn : 0 ≤ n) (hn' : n < dataCount fs)
    {i : UInt32} (hi : i < numBInFourKb) : (Access.data n i).Inside fs inode := by
  have hlt : i.toNat < 4096 := UInt32.lt_iff_toNat_lt.1 hi
  have hbelow := toNatClampNeg_lt hn hn'
  refine inside_of (k := i.toNat) ⟨hn, hn'⟩ ?_ ?_ hlt
  · simp only [Access.block]
    omega
  · simp only [Access.block, Access.addr, toNat_dataBlock hs hn hn' hi]
    omega

end Inside

/-! ## The law -/

section Law

variable {fs : Image} {inode offset length : UInt32}

/-- Place `b` is behind the block list, or the number there is not that of a data block. -/
def OutOfRange (fs : Image) (inode : UInt32) (b : ℕ) : Prop :=
  1022 < b ∨ dataBlockNum fs inode (UInt32.ofNat b) < 0 ∨
    dataCount fs ≤ dataBlockNum fs inode (UInt32.ofNat b)

/-- `read_data` returns -1 at the first place of the block list that is out of range, with
the blocks before it in the buffer. -/
def StopsInTime (fs : Image) (inode offset length : UInt32) : Prop :=
  inode < inodeCount fs → offset < inodeLength fs inode → ∀ b,
    Needed (inodeLength fs inode).toNat length.toNat offset.toNat b →
    (∀ b', offset.toNat / 4096 ≤ b' → b' < b → ¬OutOfRange fs inode b') →
    OutOfRange fs inode b →
    readData fs inode offset length
      = (-1, fileBytes fs inode offset.toNat (b * 4096 - offset.toNat))

/-- No place that `read_data` comes to before a number that is too large, or at one, is
behind the block list or holds a negative number. -/
def StaysOnList (fs : Image) (inode offset length : UInt32) : Prop :=
  inode < inodeCount fs → offset < inodeLength fs inode → ∀ b,
    Reached fs inode offset length b →
      b ≤ 1022 ∧ 0 ≤ dataBlockNum fs inode (UInt32.ofNat b)

theorem dataReads_eq (hinode : inode < inodeCount fs) (hoff : offset < inodeLength fs inode) :
    dataReads fs inode offset length
      = .boot 4 :: .length :: blockReads fs inode length (cursorAt fs inode offset 0) := by
  rw [dataReads, if_neg (UInt32.not_le.2 hinode), if_neg (UInt32.not_le.2 hoff), cursorAt_zero]

/-- On the list, `read_data` reads inside the image. -/
theorem StaysOnList.inside (hs : Sized fs) (h : StaysOnList fs inode offset length) {a : Access}
    (ha : a ∈ dataReads fs inode offset length) : a.Inside fs inode := by
  by_cases hinode : inode ≥ inodeCount fs
  · rw [dataReads, if_pos hinode, List.mem_singleton] at ha
    rw [ha]
    exact inside_boot (by decide)
  have hinode' := UInt32.not_le.1 hinode
  by_cases hoff : offset ≥ inodeLength fs inode
  · rw [dataReads, if_neg hinode, if_pos hoff] at ha
    rcases List.mem_cons.1 ha with rfl | ha
    · exact inside_boot (by decide)
    · rw [List.mem_singleton.1 ha]
      exact inside_length hs hinode'
  have hoff' := UInt32.not_le.1 hoff
  rw [dataReads_eq hinode' hoff'] at ha
  rcases List.mem_cons.1 ha with rfl | ha
  · exact inside_boot (by decide)
  rcases List.mem_cons.1 ha with rfl | ha
  · exact inside_length hs hinode'
  have hmem := mem_blockReads (UInt32.lt_iff_toNat_lt.1 hoff') (Or.inl rfl)
    (fun b hfrom hto => absurd hto (not_lt.2 hfrom)) ha
  rcases hmem with rfl | rfl | rfl | ⟨b, hb, hread⟩
  · exact inside_boot (by decide)
  · exact inside_boot (by decide)
  · exact inside_length hs hinode'
  · obtain ⟨hle, hpos⟩ := h hinode' hoff' b hb
    rcases hread with rfl | ⟨hgood, i, hi, rfl⟩
    · refine inside_blockNum hs hinode' ?_
      rw [Word32.toNat_ofNat (by omega)]
      exact hle
    · exact inside_data hs hpos (Int32.not_le.1 hgood) hi

/-- On the list, `read_data` stops at the first place that is out of range. -/
theorem StaysOnList.stops (h : StaysOnList fs inode offset length) :
    StopsInTime fs inode offset length := by
  intro hinode hoff b hneeded hbefore hout
  have hgood : ∀ b', offset.toNat / 4096 ≤ b' → b' < b → GoodBlock fs inode b' :=
    fun b' hfrom hto hbad => hbefore b' hfrom hto (Or.inr (Or.inr hbad))
  obtain ⟨hle, hpos⟩ := h hinode hoff b ⟨hneeded, hgood⟩
  have hbad : dataCount fs ≤ dataBlockNum fs inode (UInt32.ofNat b) := by
    rcases hout with hlist | hneg | hlarge
    · exact absurd hle (not_le.2 hlist)
    · exact absurd hpos (Int32.not_le.2 hneg)
    · exact hlarge
  exact readData_bad hinode (UInt32.lt_iff_toNat_lt.1 hoff) (not_not.2 hbad) hgood hneeded

/-- A block that is accepted is not where `read_data` stops. -/
theorem readData_ne (hinode : inode < inodeCount fs) (hoff : offset < inodeLength fs inode)
    {b : ℕ} (hb : Reached fs inode offset length b) (hgood : GoodBlock fs inode b) :
    readData fs inode offset length
      ≠ (-1, fileBytes fs inode offset.toNat (b * 4096 - offset.toNat)) := by
  intro hread
  have hneeded := hb.1
  have hsize (k : ℕ) : (fileBytes fs inode offset.toNat k).length = k := Blocks.length_slice ..
  by_cases hrequest : BadRequest fs inode offset length
  · -- the loop stops at a later block
    obtain ⟨-, bad, hneeded', hbad, hbefore⟩ := hrequest.first hinode
    rw [readData_bad hinode (UInt32.lt_iff_toNat_lt.1 hoff) hbad hbefore hneeded'] at hread
    have hlen := congrArg (fun r => r.2.length) hread
    simp only [hsize] at hlen
    have hlater : b < bad := by
      by_contra hle
      rcases Nat.lt_or_eq_of_le (not_lt.1 hle) with hlt | rfl
      · refine hbad (hb.2 bad ?_ hlt)
        unfold Needed at hneeded'
        omega
      · exact hbad hgood
    unfold Needed at hneeded hneeded'
    omega
  · -- the request is served
    rw [readData_accepted hrequest] at hread
    have hlen := congrArg (fun r => r.2.length) hread
    have hresult := congrArg Prod.fst hread
    simp only [hsize] at hlen
    rcases hneeded with rfl | hneeded
    · have hfloor := Nat.div_mul_le_self offset.toNat 4096
      have hzero : total (inodeLength fs inode).toNat length.toNat offset.toNat = 0 := by omega
      rw [hzero] at hresult
      exact absurd hresult (show ¬Int32.ofNat 0 = -1 by decide)
    · omega

/-- **`read_data` stays inside the image, as long as it stays on the block list.**  The
accesses listed are all it reads: an image that agrees with this one there gives the same
result. -/
theorem read_data_inside (hs : Sized fs) (inode offset length : UInt32) :
    (∀ fs', (∀ a ∈ dataReads fs inode offset length, a.Agree fs fs' inode) →
      readData fs' inode offset length = readData fs inode offset length) ∧
    (((∀ a ∈ dataReads fs inode offset length, a.Inside fs inode) ∧
      StopsInTime fs inode offset length) ↔ StaysOnList fs inode offset length) := by
  refine ⟨fun fs' h => readData_congr h, ?_⟩
  refine ⟨fun ⟨hinside, hstops⟩ => ?_, fun h => ⟨fun a ha => h.inside hs ha, h.stops⟩⟩
  intro hinode hoff
  by_contra hleaves
  push Not at hleaves
  obtain ⟨b, ⟨hreached, hout⟩, hmin⟩ := exists_first hleaves
  have hneeded := hreached.1
  have hbefore : ∀ b', offset.toNat / 4096 ≤ b' → b' < b → ¬OutOfRange fs inode b' := by
    intro b' hfrom hto hout'
    have hreached' : Reached fs inode offset length b' :=
      ⟨hneeded.of_le hfrom hto.le, fun c hc hc' => hreached.2 c hc (hc'.trans hto)⟩
    have hgood := Int32.not_le.1 (hreached.2 b' hfrom hto)
    refine hmin b' hto ⟨hreached', fun hle => ?_⟩
    rcases hout' with hlist | hneg | hlarge
    · exact absurd hle (not_le.2 hlist)
    · exact Int32.not_le.2 hneg
    · exact absurd hlarge (Int32.not_le.2 hgood)
  by_cases hle : b ≤ 1022
  · have hneg := Int32.not_le.1 (hout hle)
    have hgood : GoodBlock fs inode b :=
      Int32.not_le.2 (Int32.lt_of_lt_of_le hneg hs.data)
    exact readData_ne hinode hoff hreached hgood
      (hstops hinode hoff b hneeded hbefore (Or.inr (Or.inl hneg)))
  · have hmem : .blockNum (UInt32.ofNat b) ∈ dataReads fs inode offset length := by
      rw [dataReads_eq hinode hoff]
      refine List.mem_cons_of_mem _ (List.mem_cons_of_mem _ ?_)
      refine blockNum_mem (UInt32.lt_iff_toNat_lt.1 hoff) (Or.inl rfl) hreached ?_
      unfold Needed at hneeded
      omega
    have hrange : (UInt32.ofNat b).toNat ≤ 1022 := (hinside _ hmem).inRange
    have hlen := (inodeLength fs inode).toNat_lt
    have hpos := offset.toNat_lt
    rw [Word32.toNat_ofNat] at hrange
    · exact hle hrange
    · unfold Needed total at hneeded
      omega

/-- A file of a well-formed image is always on its list. -/
theorem WellFormed.staysOnList (h : WellFormed fs inode) (offset length : UInt32) :
    StaysOnList fs inode offset length := by
  intro _ hoff b hreached
  have hlt := UInt32.lt_iff_toNat_lt.1 hoff
  have hlen := h.length_le
  have hin : b * 4096 < (inodeLength fs inode).toNat := by
    have hneeded := hreached.1
    unfold Needed total at hneeded
    omega
  exact ⟨by omega, (h.blocks b hin).1⟩

end Law

theorem sized_sample : Sized sampleImage where
  inodes := by decide +kernel
  data := by decide +kernel
  size_le := by decide +kernel

/-- A read to the end of a well-formed file. -/
theorem read_data_inside_sample :
    (∀ a ∈ dataReads sampleImage 1 24 100, a.Inside sampleImage 1) ∧
      StopsInTime sampleImage 1 24 100 :=
  (read_data_inside sized_sample 1 24 100).2.2 (wellFormed_sample.staysOnList 24 100)

/-- An image of five blocks with a file of four bytes in block -1. -/
def strayImage : Image := memoryOf
  [(0, Bytes.wordBytes 1 ++ Bytes.wordBytes 2 ++ Bytes.wordBytes 2),
   (8192, Bytes.wordBytes 4 ++ Bytes.wordBytes 0xFFFFFFFF)]

/-- The four bytes are read from the inode block, without an error. -/
theorem read_data_strays :
    Sized strayImage ∧ .data (-1) 0 ∈ dataReads strayImage 1 0 4 ∧
      ¬(Access.data (-1) 0).Inside strayImage 1 ∧ (readData strayImage 1 0 4).1 = 4 := by
  refine ⟨⟨by decide +kernel, by decide +kernel, by decide +kernel⟩, by decide +kernel,
    fun h => ?_, by decide +kernel⟩
  exact absurd h.inRange.1 (by decide)

end CheetOS
