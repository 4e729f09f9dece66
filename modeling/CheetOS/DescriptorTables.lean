import CheetOS.KernelEntry
import CheetOS.Lib.BitField

/-!
# Descriptor tables (`x86_desc.h`, `x86_desc.S`, `idt.c`, `kernel.c`)

The descriptors of interrupts and segments, as the kernel writes them and as the processor
reads them.

* `gates_after_entry` says what the processor finds in the interrupt descriptor table when
  `entry` has filled it: every vector leads to its handler, with interrupts off, and a program
  may only name vector `0x80`;
* `segment_descriptor_read` says that a descriptor built in uninitialised memory reads back as
  the address and the limit it was given;
* `software_interrupts` says where `int n` leads a program, for every `n`.
-/

namespace CheetOS

open ProtectedMode BitField

/-! ## Interrupt descriptors -/

/-! The fields of `idt_desc_t`. -/

namespace IdtDesc

def offset1500 : Field 64 16 := ⟨0, by decide⟩
def segSelector : Field 64 16 := ⟨16, by decide⟩
def reserved4 : Field 64 8 := ⟨32, by decide⟩
def reserved3 : Field 64 1 := ⟨40, by decide⟩
def reserved2 : Field 64 1 := ⟨41, by decide⟩
def reserved1 : Field 64 1 := ⟨42, by decide⟩
def size : Field 64 1 := ⟨43, by decide⟩
def reserved0 : Field 64 1 := ⟨44, by decide⟩
def dpl : Field 64 2 := ⟨45, by decide⟩
def present : Field 64 1 := ⟨47, by decide⟩
def offset3116 : Field 64 16 := ⟨48, by decide⟩

end IdtDesc

/-- `SET_IDT_ENTRY`. -/
def setIdtEntry (handler : UInt32) (str : BitVec 64) : BitVec 64 :=
  IdtDesc.offset1500.set ((handler &&& 0xFFFF).toBitVec.setWidth 16)
    (IdtDesc.offset3116.set (((handler &&& 0xFFFF0000) >>> 16).toBitVec.setWidth 16) str)

/-- The gate the processor reads, for a gate of the 32-bit kinds. -/
def readGate (d : BitVec 64) : Option Gate :=
  let gate (interrupt : Bool) : Gate :=
    { offset := UInt32.ofBitVec (IdtDesc.offset3116.get d ++ IdtDesc.offset1500.get d)
      selector := UInt16.ofBitVec (IdtDesc.segSelector.get d)
      dpl := UInt16.ofBitVec ((IdtDesc.dpl.get d).setWidth 16)
      present := IdtDesc.present.get d == 1
      interrupt := interrupt }
  if IdtDesc.reserved0.get d = 0 ∧ IdtDesc.size.get d = 1 ∧ IdtDesc.reserved1.get d = 1 ∧
      IdtDesc.reserved2.get d = 1 then
    some (gate (IdtDesc.reserved3.get d == 0))
  else none

/-- `idt`. -/
abbrev Idt := UInt8 → BitVec 64

/-- `idt`, as it is in `x86_desc.S`. -/
def initialIdt : Idt := fun _ => 0x00008E0000100000

/-- `SET_IDT_ENTRY` of an entry of the table. -/
def setVector (i : UInt8) (handler : UInt32) (idt : Idt) : Idt :=
  Function.update idt i (setIdtEntry handler (idt i))

/-- The addresses of the handlers. -/
structure Handlers where
  divideError : UInt32
  debug : UInt32
  nmi : UInt32
  breakpoint : UInt32
  overflow : UInt32
  bounds : UInt32
  invalidOp : UInt32
  deviceNotAvailable : UInt32
  doubleFault : UInt32
  segmentOverrun : UInt32
  invalidTSS : UInt32
  segmentNotPresent : UInt32
  stackSegment : UInt32
  generalProtection : UInt32
  pageFault : UInt32
  genericError : UInt32
  fp : UInt32
  alignmentCheck : UInt32
  machineCheck : UInt32
  systemCallHandler : UInt32
  rtcHandler : UInt32
  keyHandler : UInt32

namespace Handlers

variable (h : Handlers)

/-- The loops of `init_idt`: `n` vectors from `i` on. -/
def genericVectors : ℕ → ℕ → Idt → Idt
  | _, 0, idt => idt
  | i, n + 1, idt => genericVectors (i + 1) n (setVector (UInt8.ofNat i) h.genericError idt)

/-- `init_idt`. -/
def initIdt (idt : Idt) : Idt :=
  let idt := setVector 0 h.divideError idt
  let idt := setVector 1 h.debug idt
  let idt := setVector 2 h.nmi idt
  let idt := setVector 3 h.breakpoint idt
  let idt := setVector 4 h.overflow idt
  let idt := setVector 5 h.bounds idt
  let idt := setVector 6 h.invalidOp idt
  let idt := setVector 7 h.deviceNotAvailable idt
  let idt := setVector 8 h.doubleFault idt
  let idt := setVector 9 h.segmentOverrun idt
  let idt := setVector 10 h.invalidTSS idt
  let idt := setVector 11 h.segmentNotPresent idt
  let idt := setVector 12 h.stackSegment idt
  let idt := setVector 13 h.generalProtection idt
  let idt := setVector 14 h.pageFault idt
  let idt := setVector 15 h.genericError idt
  let idt := setVector 16 h.fp idt
  let idt := setVector 17 h.alignmentCheck idt
  let idt := setVector 18 h.machineCheck idt
  let idt := h.genericVectors 19 (0x20 - 19) idt
  h.genericVectors 0x20 (256 - 0x20) idt

/-- What `entry` does to the table. -/
def entryIdt (idt : Idt) : Idt :=
  let idt := h.initIdt idt
  let idt := setVector 0x80 h.systemCallHandler idt
  let idt := Function.update idt 0x80 (IdtDesc.dpl.set 3 (idt 0x80))
  let idt := Function.update idt 0x80 (IdtDesc.segSelector.set kernelCs.toBitVec (idt 0x80))
  let idt := setVector 0x28 h.rtcHandler idt
  setVector 0x21 h.keyHandler idt

/-- The handlers of the first vectors. -/
def exceptions : List UInt32 :=
  [h.divideError, h.debug, h.nmi, h.breakpoint, h.overflow, h.bounds, h.invalidOp,
   h.deviceNotAvailable, h.doubleFault, h.segmentOverrun, h.invalidTSS, h.segmentNotPresent,
   h.stackSegment, h.generalProtection, h.pageFault, h.genericError, h.fp, h.alignmentCheck,
   h.machineCheck]

/-- The handler a vector is meant for. -/
def handler (n : UInt8) : UInt32 :=
  if n = 0x80 then h.systemCallHandler
  else if n = 0x28 then h.rtcHandler
  else if n = 0x21 then h.keyHandler
  else h.exceptions.getD n.toNat h.genericError

end Handlers

/-! ### What is written is what is read -/

/-- A part of a word, cut out with a mask. -/
theorem extract_of_mask {x : UInt32} (mask : UInt32) {k n : ℕ} (hk : k < 32)
    (hmask : ∀ i < n, mask.toBitVec.getLsbD (k + i) = true) :
    ((x &&& mask) >>> UInt32.ofNat k).toBitVec.setWidth n = x.toBitVec.extractLsb' k n := by
  apply BitVec.eq_of_getLsbD_eq
  intro i hi
  simp [hi, UInt32.toBitVec_shiftRight, Nat.mod_eq_of_lt hk, hmask i hi]

theorem low_half (x : UInt32) : (x &&& 0xFFFF).toBitVec.setWidth 16 = x.toBitVec.extractLsb' 0 16 := by
  have hpart := extract_of_mask (x := x) (k := 0) (n := 16) 0xFFFF (by decide) (by decide)
  rwa [show UInt32.ofNat 0 = 0 from rfl, UInt32.shiftRight_zero] at hpart

/-- The two halves of an address, put together again. -/
theorem halves (x : UInt32) :
    ((x &&& 0xFFFF0000) >>> 16).toBitVec.setWidth 16 ++ (x &&& 0xFFFF).toBitVec.setWidth 16
      = x.toBitVec := by
  have hhigh : ((x &&& 0xFFFF0000) >>> 16).toBitVec.setWidth 16 = x.toBitVec.extractLsb' 16 16 :=
    extract_of_mask _ (by decide) (by decide)
  rw [hhigh, low_half, BitVec.extractLsb'_append_extractLsb'_eq_extractLsb' (by decide)]
  exact BitVec.extractLsb'_eq_self

theorem readGate_setIdtEntry (a : UInt32) (d : BitVec 64) :
    readGate (setIdtEntry a d) = (readGate d).map fun g => { g with offset := a } := by
  have hother {n : ℕ} (f : Field 64 n) (hlow : f.Disjoint IdtDesc.offset1500)
      (hhigh : f.Disjoint IdtDesc.offset3116) : f.get (setIdtEntry a d) = f.get d := by
    rw [setIdtEntry, Field.get_set_of_disjoint hlow, Field.get_set_of_disjoint hhigh]
  have hlow : IdtDesc.offset1500.get (setIdtEntry a d) = (a &&& 0xFFFF).toBitVec.setWidth 16 := by
    rw [setIdtEntry, Field.get_set_same]
  have hhigh : IdtDesc.offset3116.get (setIdtEntry a d)
      = ((a &&& 0xFFFF0000) >>> 16).toBitVec.setWidth 16 := by
    rw [setIdtEntry, Field.get_set_of_disjoint (by decide), Field.get_set_same]
  rw [readGate, readGate, hlow, hhigh, halves, hother _ (by decide) (by decide),
    hother _ (by decide) (by decide), hother _ (by decide) (by decide),
    hother _ (by decide) (by decide), hother _ (by decide) (by decide),
    hother _ (by decide) (by decide), hother _ (by decide) (by decide),
    hother _ (by decide) (by decide)]
  split
  · rfl
  · rfl

theorem readGate_dpl (v : BitVec 2) (d : BitVec 64) :
    readGate (IdtDesc.dpl.set v d)
      = (readGate d).map fun g => { g with dpl := UInt16.ofBitVec (v.setWidth 16) } := by
  have hother {n : ℕ} (f : Field 64 n) (h : f.Disjoint IdtDesc.dpl) :
      f.get (IdtDesc.dpl.set v d) = f.get d :=
    Field.get_set_of_disjoint h v d
  rw [readGate, readGate, Field.get_set_same, hother _ (by decide), hother _ (by decide),
    hother _ (by decide), hother _ (by decide), hother _ (by decide), hother _ (by decide),
    hother _ (by decide), hother _ (by decide), hother _ (by decide)]
  split
  · rfl
  · rfl

theorem readGate_segSelector (v : BitVec 16) (d : BitVec 64) :
    readGate (IdtDesc.segSelector.set v d)
      = (readGate d).map fun g => { g with selector := UInt16.ofBitVec v } := by
  have hother {n : ℕ} (f : Field 64 n) (h : f.Disjoint IdtDesc.segSelector) :
      f.get (IdtDesc.segSelector.set v d) = f.get d :=
    Field.get_set_of_disjoint h v d
  rw [readGate, readGate, Field.get_set_same, hother _ (by decide), hother _ (by decide),
    hother _ (by decide), hother _ (by decide), hother _ (by decide), hother _ (by decide),
    hother _ (by decide), hother _ (by decide), hother _ (by decide)]
  split
  · rfl
  · rfl

/-- The entries are interrupt gates of the kernel, with the handlers `f`. -/
def Leads (idt : Idt) (f : UInt8 → UInt32) : Prop :=
  ∀ n, readGate (idt n) = some ⟨f n, kernelCs, 0, true, true⟩

theorem Leads.congr {idt : Idt} {f g : UInt8 → UInt32} (h : Leads idt f) (hfg : ∀ n, f n = g n) :
    Leads idt g := by
  intro n
  rw [h n, hfg n]

theorem leads_initialIdt : Leads initialIdt fun _ => 0 := by
  have hentry : readGate 0x00008E0000100000 = some ⟨0, kernelCs, 0, true, true⟩ := by decide
  intro n
  exact hentry

theorem Leads.setVector {idt : Idt} {f : UInt8 → UInt32} (h : Leads idt f) (i : UInt8)
    (a : UInt32) : Leads (setVector i a idt) (Function.update f i a) := by
  intro n
  rw [CheetOS.setVector]
  by_cases hn : n = i
  · subst hn
    rw [Function.update_self, Function.update_self, readGate_setIdtEntry, h n]
    rfl
  · rw [Function.update_of_ne hn, Function.update_of_ne hn, h n]

namespace Handlers

variable {h : Handlers}

theorem genericVectors_leads {i n : ℕ} {idt : Idt} {f : UInt8 → UInt32} (hf : Leads idt f)
    (hn : i + n ≤ 256) :
    Leads (h.genericVectors i n idt)
      fun m => if i ≤ m.toNat ∧ m.toNat < i + n then h.genericError else f m := by
  induction n generalizing i idt f with
  | zero =>
    have hnone (m : UInt8) : ¬(i ≤ m.toNat ∧ m.toNat < i + 0) := by omega
    simpa only [genericVectors, hnone, if_false] using hf
  | succ n ih =>
    have hrest := ih (hf.setVector (UInt8.ofNat i) h.genericError) (show i + 1 + n ≤ 256 by omega)
    rw [genericVectors]
    refine hrest.congr fun m => ?_
    have hfirst : m = UInt8.ofNat i ↔ m.toNat = i := by
      rw [← UInt8.toNat_inj, UInt8.toNat_ofNat', Nat.mod_eq_of_lt (show i < 2 ^ 8 by omega)]
    by_cases hm : m.toNat = i
    · rw [if_neg (by omega), if_pos (by omega), hfirst.2 hm, Function.update_self]
    · rw [Function.update_of_ne (fun heq => hm (hfirst.1 heq))]
      congr 1
      rw [eq_iff_iff]
      omega

theorem initIdt_leads :
    Leads (h.initIdt initialIdt) fun n => h.exceptions.getD n.toNat h.genericError := by
  have hexceptions := ((((((((((((((((((leads_initialIdt.setVector 0 h.divideError).setVector 1
    h.debug).setVector 2 h.nmi).setVector 3 h.breakpoint).setVector 4 h.overflow).setVector 5
    h.bounds).setVector 6 h.invalidOp).setVector 7 h.deviceNotAvailable).setVector 8
    h.doubleFault).setVector 9 h.segmentOverrun).setVector 10 h.invalidTSS).setVector 11
    h.segmentNotPresent).setVector 12 h.stackSegment).setVector 13 h.generalProtection).setVector
    14 h.pageFault).setVector 15 h.genericError).setVector 16 h.fp).setVector 17
    h.alignmentCheck).setVector 18 h.machineCheck
  have hrest := genericVectors_leads (h := h) (genericVectors_leads (h := h) hexceptions
    (show 19 + 13 ≤ 256 by decide)) (show 0x20 + 224 ≤ 256 by decide)
  refine hrest.congr fun n => ?_
  have hn := n.toNat_lt
  by_cases hgeneric : n.toNat < 19
  · rw [if_neg (by omega), if_neg (by omega)]
    have hcode : n = UInt8.ofNat n.toNat := UInt8.ofNat_toNat.symm
    generalize n.toNat = k at hgeneric hcode
    subst hcode
    interval_cases k
    all_goals rfl
  · have hpast : h.exceptions.length ≤ n.toNat := not_lt.1 hgeneric
    rw [List.getD_eq_getElem?_getD, List.getElem?_eq_none hpast]
    by_cases hlow : n.toNat < 0x20
    · rw [if_neg (by omega), if_pos (by omega)]
      rfl
    · rw [if_pos (by omega)]
      rfl

end Handlers

/-- **What the processor finds in the table** after `entry`: each vector leads to its handler, in
the kernel's code segment and with interrupts off, and a program may name vector `0x80`
alone. -/
theorem gates_after_entry (h : Handlers) (n : UInt8) :
    readGate (h.entryIdt initialIdt n)
      = some ⟨h.handler n, kernelCs, if n = 0x80 then 3 else 0, true, true⟩ := by
  have htrap := h.initIdt_leads.setVector 0x80 h.systemCallHandler
  have hdevices := (h.initIdt_leads.setVector 0x28 h.rtcHandler).setVector 0x21 h.keyHandler
  by_cases hn : n = 0x80
  · subst hn
    have hentry : h.entryIdt initialIdt 0x80 = IdtDesc.segSelector.set kernelCs.toBitVec
        (IdtDesc.dpl.set 3 (setVector 0x80 h.systemCallHandler (h.initIdt initialIdt) 0x80)) := rfl
    rw [hentry, readGate_segSelector, readGate_dpl, htrap]
    rfl
  · have hentry : h.entryIdt initialIdt n
        = setVector 0x21 h.keyHandler (setVector 0x28 h.rtcHandler (h.initIdt initialIdt)) n := by
      have hkey : ¬(0x21 : UInt8) = 0x80 := by decide
      have hclock : ¬(0x28 : UInt8) = 0x80 := by decide
      rw [Handlers.entryIdt]
      simp only [setVector, Function.update_apply, if_neg hn, if_neg hkey, if_neg hclock]
    rw [hentry, hdevices, Handlers.handler, if_neg hn, if_neg hn, Function.update_apply,
      Function.update_apply]
    by_cases hkey : n = 0x21
    · subst hkey
      rfl
    · rw [if_neg hkey, if_neg hkey]

/-! ## Segment descriptors -/

/-! The fields of `seg_desc_t`. -/

namespace SegDesc

def segLim1500 : Field 64 16 := ⟨0, by decide⟩
def base1500 : Field 64 16 := ⟨16, by decide⟩
def base2316 : Field 64 8 := ⟨32, by decide⟩
def type : Field 64 4 := ⟨40, by decide⟩
def sys : Field 64 1 := ⟨44, by decide⟩
def dpl : Field 64 2 := ⟨45, by decide⟩
def present : Field 64 1 := ⟨47, by decide⟩
def segLim1916 : Field 64 4 := ⟨48, by decide⟩
def avail : Field 64 1 := ⟨52, by decide⟩
def reserved : Field 64 1 := ⟨53, by decide⟩
def opsize : Field 64 1 := ⟨54, by decide⟩
def granularity : Field 64 1 := ⟨55, by decide⟩
def base3124 : Field 64 8 := ⟨56, by decide⟩

end SegDesc

/-- `SET_LDT_PARAMS` and `SET_TSS_PARAMS`, which are the same. -/
def setParams (addr lim : UInt32) : List (Assignment 64) :=
  [SegDesc.base3124.becomes (((addr &&& 0xFF000000) >>> 24).toBitVec.setWidth 8),
   SegDesc.base2316.becomes (((addr &&& 0x00FF0000) >>> 16).toBitVec.setWidth 8),
   SegDesc.base1500.becomes ((addr &&& 0x0000FFFF).toBitVec.setWidth 16),
   SegDesc.segLim1916.becomes (((lim &&& 0x000F0000) >>> 16).toBitVec.setWidth 4),
   SegDesc.segLim1500.becomes ((lim &&& 0x0000FFFF).toBitVec.setWidth 16)]

/-- `the_ldt_desc` in `entry`. -/
def theLdtDesc (ldt ldtSize : UInt32) : List (Assignment 64) :=
  [SegDesc.granularity.becomes 0, SegDesc.opsize.becomes 1, SegDesc.reserved.becomes 0,
   SegDesc.avail.becomes 0, SegDesc.present.becomes 1, SegDesc.dpl.becomes 0,
   SegDesc.sys.becomes 0, SegDesc.type.becomes 2] ++ setParams ldt ldtSize

/-- `TSS_SIZE`. -/
abbrev tssSize : UInt32 := 104

/-- `the_tss_desc` in `entry`. -/
def theTssDesc (tss size : UInt32) : List (Assignment 64) :=
  [SegDesc.granularity.becomes 0, SegDesc.opsize.becomes 0, SegDesc.reserved.becomes 0,
   SegDesc.avail.becomes 0, SegDesc.segLim1916.becomes ((tssSize &&& 0x000F0000).toBitVec.setWidth 4),
   SegDesc.present.becomes 1, SegDesc.dpl.becomes 0, SegDesc.sys.becomes 0,
   SegDesc.type.becomes 9, SegDesc.segLim1500.becomes ((tssSize &&& 0x0000FFFF).toBitVec.setWidth 16)] ++
    setParams tss size

/-- A segment, as the processor reads it from its descriptor. -/
structure Segment where
  base : UInt32
  /-- The highest offset, in bytes or in pages. -/
  limit : UInt32
  type : BitVec 4
  /-- It is not one of the system segments. -/
  code : Bool
  dpl : BitVec 2
  present : Bool
  pages : Bool
  deriving DecidableEq, Repr

def readSegment (d : BitVec 64) : Segment where
  base := UInt32.ofBitVec
    (SegDesc.base3124.get d ++ (SegDesc.base2316.get d ++ SegDesc.base1500.get d))
  limit := UInt32.ofBitVec ((SegDesc.segLim1916.get d ++ SegDesc.segLim1500.get d).setWidth 32)
  type := SegDesc.type.get d
  code := SegDesc.sys.get d == 1
  dpl := SegDesc.dpl.get d
  present := SegDesc.present.get d == 1
  pages := SegDesc.granularity.get d == 1

theorem base_parts (addr : UInt32) :
    ((addr &&& 0xFF000000) >>> 24).toBitVec.setWidth 8 ++
      (((addr &&& 0x00FF0000) >>> 16).toBitVec.setWidth 8 ++
        (addr &&& 0x0000FFFF).toBitVec.setWidth 16) = addr.toBitVec := by
  have hhigh : ((addr &&& 0xFF000000) >>> 24).toBitVec.setWidth 8 = addr.toBitVec.extractLsb' 24 8 :=
    extract_of_mask _ (by decide) (by decide)
  have hmiddle : ((addr &&& 0x00FF0000) >>> 16).toBitVec.setWidth 8
      = addr.toBitVec.extractLsb' 16 8 :=
    extract_of_mask _ (by decide) (by decide)
  rw [hhigh, hmiddle, low_half, BitVec.extractLsb'_append_extractLsb'_eq_extractLsb' (by decide),
    BitVec.extractLsb'_append_extractLsb'_eq_extractLsb' (by decide)]
  exact BitVec.extractLsb'_eq_self

theorem limit_parts (lim : UInt32) :
    (((lim &&& 0x000F0000) >>> 16).toBitVec.setWidth 4 ++
      (lim &&& 0x0000FFFF).toBitVec.setWidth 16).setWidth 32 = (lim &&& 0xFFFFF).toBitVec := by
  have hhigh : ((lim &&& 0x000F0000) >>> 16).toBitVec.setWidth 4 = lim.toBitVec.extractLsb' 16 4 :=
    extract_of_mask _ (by decide) (by decide)
  rw [hhigh, low_half, BitVec.extractLsb'_append_extractLsb'_eq_extractLsb' (by decide)]
  apply BitVec.eq_of_getLsbD_eq
  intro i hi
  have hmask : (UInt32.toBitVec 0xFFFFF).getLsbD i = decide (i < 20) := by
    revert i
    decide
  rw [UInt32.toBitVec_and, BitVec.getLsbD_and, hmask]
  simp [hi, Bool.and_comm]

/-- The parameters are read back, whatever is in the other fields. -/
theorem readSegment_setParams (addr lim : UInt32) (d : BitVec 64) :
    readSegment (assign (setParams addr lim) d) = { readSegment d with
      base := addr
      limit := lim &&& 0xFFFFF } := by
  simp (disch := decide) only [readSegment, setParams, assign, List.foldl, Field.becomes,
    Field.get_set_same, Field.get_set_of_disjoint, base_parts, limit_parts, UInt32.ofBitVec_toBitVec]

/-- **The descriptors of the TSS and the LDT** are built in uninitialised variables.  Whatever
was in these, the processor reads the address and the limit that were meant. -/
theorem segment_descriptor_read (addr lim : UInt32) (d d' : BitVec 64) :
    assign (theTssDesc addr lim) d = assign (theTssDesc addr lim) d' ∧
    assign (theLdtDesc addr lim) d = assign (theLdtDesc addr lim) d' ∧
    readSegment (assign (theTssDesc addr lim) d)
      = ⟨addr, lim &&& 0xFFFFF, 9, false, 0, true, false⟩ ∧
    readSegment (assign (theLdtDesc addr lim) d)
      = ⟨addr, lim &&& 0xFFFFF, 2, false, 0, true, false⟩ := by
  have htss := assign_eq_of_cover (theTssDesc addr lim)
    (show ∀ i < 64, ∃ p ∈ [(55, 1), (54, 1), (53, 1), (52, 1), (48, 4), (47, 1), (45, 2), (44, 1),
      (40, 4), (0, 16), (56, 8), (32, 8), (16, 16), (48, 4), (0, 16)], p.1 ≤ i ∧ i < p.1 + p.2
      by decide)
  have hldt := assign_eq_of_cover (theLdtDesc addr lim)
    (show ∀ i < 64, ∃ p ∈ [(55, 1), (54, 1), (53, 1), (52, 1), (47, 1), (45, 2), (44, 1), (40, 4),
      (56, 8), (32, 8), (16, 16), (48, 4), (0, 16)], p.1 ≤ i ∧ i < p.1 + p.2 by decide)
  refine ⟨htss d d', hldt d d', ?_, ?_⟩
  · simp (disch := decide) only [readSegment, theTssDesc, setParams, assign, List.cons_append,
      List.nil_append, List.foldl, Field.becomes, Field.get_set_same, Field.get_set_of_disjoint,
      base_parts, limit_parts, UInt32.ofBitVec_toBitVec]
    rfl
  · simp (disch := decide) only [readSegment, theLdtDesc, setParams, assign, List.cons_append,
      List.nil_append, List.foldl, Field.becomes, Field.get_set_same, Field.get_set_of_disjoint,
      base_parts, limit_parts, UInt32.ofBitVec_toBitVec]
    rfl

/-! ## What a program can name -/

/-- The processor has the table of `entry`. -/
structure Loaded (E : Env) (h : Handlers) : Prop where
  gates : ∀ n, readGate (h.entryIdt initialIdt n) = some (E.gate n)

section Programs

variable {E : Env} {h : Handlers} {s : Cpu} {next : UInt32}

theorem Loaded.gate (hE : Loaded E h) (n : UInt8) :
    E.gate n = ⟨h.handler n, kernelCs, if n = 0x80 then 3 else 0, true, true⟩ :=
  Option.some_inj.1 ((hE.gates n).symm.trans (gates_after_entry h n))

/-- `int n` in a program. -/
theorem exec_int_user (hE : Loaded E h) (hs : s.cpl = 3) (n : UInt8) (next : UInt32) :
    E.exec (.int n) next s =
      if n = 0x80 then E.inside 0x80 s h.systemCallHandler (returnFrame s next)
      else E.inside 13 s h.generalProtection ((n.toUInt32 * 8 + 2) :: returnFrame s s.eip) := by
  rw [E.exec_int, Env.trap, hE.gate n, hs]
  dsimp only
  by_cases hn : n = 0x80
  · rw [if_pos hn, if_pos hn, if_neg (by decide), if_neg (by decide), hn, deliver_eq, hE.gate]
    rfl
  · rw [if_neg hn, if_neg hn, if_pos (by decide), Env.fault, deliver_eq, inside_push, hE.gate]
    rfl

/-- **Every interrupt and exception reaches its handler**, at level 0 and with interrupts
off.  The `int` instruction of a program reaches `system_call_handler` for `0x80` and
`general_protection` for every other number, with an error code that names it, so that a program
can neither call the handler of a device nor that of an exception. -/
theorem interrupts_reach_handlers (hE : Loaded E h) (s : Cpu) :
    (∀ n ret, E.deliver n ret s = E.inside n s (h.handler n) (returnFrame s ret) ∧
      (E.deliver n ret s).cpl = 0 ∧ (E.deliver n ret s).interrupts = false) ∧
    (s.cpl = 3 → ∀ n next, E.exec (.int n) next s =
      if n = 0x80 then E.inside 0x80 s h.systemCallHandler (returnFrame s next)
      else E.inside 13 s h.generalProtection ((n.toUInt32 * 8 + 2) :: returnFrame s s.eip)) := by
  constructor
  · intro n ret
    have hstate : E.deliver n ret s = E.inside n s (h.handler n) (returnFrame s ret) := by
      rw [deliver_eq, hE.gate]
    rw [hstate]
    exact ⟨rfl, cpl_inside n s _ _, interrupts_inside (by rw [hE.gate]) s _ _⟩
  · intro hs n next
    exact exec_int_user hE hs n next

end Programs

/-- A machine with the table, and handlers at the addresses of `h`. -/
def tableKernel (h : Handlers) : Env :=
  { sampleKernel with
    gate := fun n => (readGate (h.entryIdt initialIdt n)).getD ⟨0, 0, 0, false, false⟩ }

theorem loaded_tableKernel (h : Handlers) : Loaded (tableKernel h) h where
  gates := by
    intro n
    have hgate : (tableKernel h).gate n
        = (readGate (h.entryIdt initialIdt n)).getD ⟨0, 0, 0, false, false⟩ := rfl
    rw [hgate, gates_after_entry, Option.getD_some]

/-- Handlers at the addresses 1 to 22. -/
def sampleHandlers : Handlers :=
  ⟨1, 2, 3, 4, 5, 6, 7, 8, 9, 10, 11, 12, 13, 14, 15, 16, 17, 18, 19, 20, 21, 22⟩

/-- A program tries to call the handler of the keyboard, and ends in `general_protection`. -/
theorem interrupts_reach_handlers_key :
    ((tableKernel sampleHandlers).exec (.int 0x21) 0x6668 (sampleUser 0x6666 0 [])).eip = 14 := by
  rw [(interrupts_reach_handlers (loaded_tableKernel sampleHandlers) (sampleUser 0x6666 0 [])).2
    (by decide)]
  rfl

end CheetOS
