import CheetOS.Lib.MemoryBlock

/-!
# Assembly routines

The 32-bit instructions that memory routines are written in, on a flat address space, and
programs of them with labels.

* `Instr.next` and `Instr.effect` are the meaning of an instruction, and `Runs` is a number
  of them; `Ends p s s'` says that the program `p` runs from its beginning to its end;
* `Runs.go` executes one instruction;
* `runs_rep` executes a repeated string instruction, and `repeated_stosl`, `repeated_movs`
  and `mem_repeated_down` say what it does.
-/

namespace X86

open MemoryBlock

/-! ## Processor -/

/-- The registers the routines use, the two status flags that are tested, the direction
flag, and the memory. -/
structure Cpu where
  eax : UInt32
  ecx : UInt32
  edx : UInt32
  esi : UInt32
  edi : UInt32
  ds : UInt16
  es : UInt16
  zf : Bool
  cf : Bool
  df : Bool
  mem : UInt32 → UInt8

inductive Reg
  | eax
  | ecx
  | edx
  | esi
  | edi
  deriving DecidableEq, Repr

namespace Cpu

def get (s : Cpu) : Reg → UInt32
  | .eax => s.eax
  | .ecx => s.ecx
  | .edx => s.edx
  | .esi => s.esi
  | .edi => s.edi

def set (s : Cpu) (r : Reg) (v : UInt32) : Cpu :=
  match r with
  | .eax => { s with eax := v }
  | .ecx => { s with ecx := v }
  | .edx => { s with edx := v }
  | .esi => { s with esi := v }
  | .edi => { s with edi := v }

def flags (s : Cpu) (zf cf : Bool) : Cpu := { s with zf := zf, cf := cf }

/-- What a string instruction adds to an index register. -/
def stride (s : Cpu) (width : UInt32) : UInt32 := if s.df then -width else width

end Cpu

/-! ## Instructions -/

/-- A string instruction, without its repetition. -/
inductive StringOp
  /-- `stosl`. -/
  | stosl
  /-- `movsb` and `movsl`, of 1 and 4 bytes. -/
  | movs (width : ℕ)
  deriving DecidableEq, Repr

/-- Store the four bytes of a word, lowest first. -/
def storeWord (p w : UInt32) (mem : UInt32 → UInt8) : UInt32 → UInt8 := fun a =>
  if (a - p).toNat < 4 then (w >>> (8 * (a - p))).toUInt8 else mem a

/-- One round of a string instruction.  All bytes are read before one is written. -/
def StringOp.effect (op : StringOp) (s : Cpu) : Cpu :=
  match op with
  | .stosl => { s with mem := storeWord s.edi s.eax s.mem, edi := s.edi + s.stride 4 }
  | .movs width =>
    { s with
      mem := copy s.edi s.esi width s.mem
      edi := s.edi + s.stride (UInt32.ofNat width)
      esi := s.esi + s.stride (UInt32.ofNat width) }

/-- The instructions, in the order of operands of the assembler: the destination comes
last.  `L` are the labels. -/
inductive Instr (L : Type)
  | label (l : L)
  | testImm (i : UInt32) (r : Reg)
  | test (r r' : Reg)
  | cmp (r r' : Reg)
  | jz (l : L)
  | jae (l : L)
  | jmp (l : L)
  /-- `movb %al, (%r)`. -/
  | storeAl (r : Reg)
  /-- `movb (%r), %al`. -/
  | loadAl (r : Reg)
  | addImm (i : UInt32) (r : Reg)
  | subImm (i : UInt32) (r : Reg)
  | andImm (i : UInt32) (r : Reg)
  | shrImm (i : UInt32) (r : Reg)
  | mov (r r' : Reg)
  /-- `leal d(%b, %x), %r`. -/
  | lea (d : UInt32) (b x r : Reg)
  /-- `movw %ds, %dx`. -/
  | movDsDx
  /-- `movw %dx, %es`. -/
  | movDxEs
  | cld
  | std
  | rep (op : StringOp)
  deriving DecidableEq, Repr

namespace Instr

variable {L : Type}

/-- What an instruction does to registers, flags and memory. -/
def effect : Instr L → Cpu → Cpu
  | .label _, s => s
  | .testImm i r, s => s.flags (s.get r &&& i == 0) false
  | .test r r', s => s.flags (s.get r' &&& s.get r == 0) false
  | .cmp r r', s => s.flags (s.get r' == s.get r) (s.get r' < s.get r)
  | .jz _, s | .jae _, s | .jmp _, s => s
  | .storeAl r, s => { s with mem := Function.update s.mem (s.get r) s.eax.toUInt8 }
  | .loadAl r, s =>
    { s with eax := (s.eax &&& 0xFFFFFF00) ||| (s.mem (s.get r)).toUInt32 }
  | .addImm i r, s =>
    (s.set r (s.get r + i)).flags (s.get r + i == 0) (s.get r + i < s.get r)
  | .subImm i r, s => (s.set r (s.get r - i)).flags (s.get r - i == 0) (s.get r < i)
  | .andImm i r, s => (s.set r (s.get r &&& i)).flags (s.get r &&& i == 0) false
  | .shrImm i r, s =>
    (s.set r (s.get r >>> i)).flags (s.get r >>> i == 0) (s.get r >>> (i - 1) &&& 1 != 0)
  | .mov r r', s => s.set r' (s.get r)
  | .lea d b x r, s => s.set r (s.get b + s.get x + d)
  | .movDsDx, s => { s with edx := (s.edx &&& 0xFFFF0000) ||| s.ds.toUInt32 }
  | .movDxEs, s => { s with es := s.edx.toUInt16 }
  | .cld, s => { s with df := false }
  | .std, s => { s with df := true }
  | .rep op, s => if s.ecx = 0 then s else { op.effect s with ecx := s.ecx - 1 }

/-- The instructions that neither jump nor are repeated. -/
def straight : Instr L → Bool
  | .jz _ | .jae _ | .jmp _ | .rep _ => false
  | _ => true

variable [DecidableEq L]

/-- Where a program goes on after an instruction at `pc`.  A string instruction is repeated
until `ecx` is zero. -/
def next (p : List (Instr L)) (pc : ℕ) (s : Cpu) : Instr L → ℕ
  | .jz l => if s.zf then p.idxOf (.label l) else pc + 1
  | .jae l => if s.cf then pc + 1 else p.idxOf (.label l)
  | .jmp l => p.idxOf (.label l)
  | .rep _ => if s.ecx = 0 then pc + 1 else pc
  | _ => pc + 1

end Instr

/-! ## Programs -/

section Programs

variable {L : Type} [DecidableEq L]

/-- One instruction of a program; behind its end there is none. -/
def step (p : List (Instr L)) (c : ℕ × Cpu) : Option (ℕ × Cpu) :=
  p[c.1]?.map fun i => (i.next p c.1 c.2, i.effect c.2)

/-- A number of instructions. -/
def Runs (p : List (Instr L)) : ℕ × Cpu → ℕ × Cpu → Prop :=
  Relation.ReflTransGen fun c c' => step p c = some c'

/-- A whole run of a program. -/
def Ends (p : List (Instr L)) (s s' : Cpu) : Prop := Runs p (0, s) (p.length, s')

variable {p : List (Instr L)} {pc pc' : ℕ} {s : Cpu} {c c' c'' : ℕ × Cpu}

theorem Runs.done (c : ℕ × Cpu) : Runs p c c := Relation.ReflTransGen.refl

theorem Runs.trans (h : Runs p c c') (h' : Runs p c' c'') : Runs p c c'' :=
  Relation.ReflTransGen.trans h h'

/-- One instruction, and what comes after it. -/
theorem Runs.go {i : Instr L} (hi : p[pc]? = some i) (hnext : i.next p pc s = pc')
    (h : Runs p (pc', i.effect s) c) : Runs p (pc, s) c := by
  refine Relation.ReflTransGen.head ?_ h
  rw [step, hi, ← hnext]
  rfl

/-- Instructions one after the other. -/
theorem runs_straight {is : List (Instr L)} (hp : is <+: p.drop pc)
    (his : is.all Instr.straight = true) (s : Cpu) :
    Runs p (pc, s) (pc + is.length, is.foldl (fun s i => i.effect s) s) := by
  induction is generalizing pc s with
  | nil => exact .done _
  | cons i is ih =>
    obtain ⟨rest, hrest⟩ := hp
    rw [List.all_cons, Bool.and_eq_true] at his
    have hi : p[pc]? = some i := by
      rw [← Nat.add_zero pc, ← List.getElem?_drop, ← hrest]
      rfl
    have htail : is <+: p.drop (pc + 1) := by
      rw [← List.tail_drop, ← hrest]
      exact ⟨rest, rfl⟩
    have hnext : i.next p pc s = pc + 1 := by
      cases i with
      | jz l | jae l | jmp l | rep op => cases his.1
      | _ => rfl
    refine .go hi hnext ?_
    rw [List.length_cons, Nat.add_comm is.length, ← Nat.add_assoc]
    exact ih htail his.2 _

/-- A register that is tested and is not zero. -/
theorem runs_test_ne {r : Reg} {l : L} (htest : p[pc]? = some (.test r r))
    (hjz : p[pc + 1]? = some (.jz l)) (h : s.get r ≠ 0) :
    Runs p (pc, s) (pc + 2, s.flags false false) := by
  have hzf : (s.get r &&& s.get r == 0) = false := by simpa using h
  refine .go htest rfl ?_
  rw [Instr.effect, hzf]
  exact .go hjz rfl (.done _)

/-- A register that is tested and is zero. -/
theorem runs_test_zero {r : Reg} {l : L} (htest : p[pc]? = some (.test r r))
    (hjz : p[pc + 1]? = some (.jz l)) (hl : p.idxOf (.label l) = pc') (h : s.get r = 0) :
    Runs p (pc, s) (pc', s.flags true false) := by
  have hzf : (s.get r &&& s.get r == 0) = true := by simpa using h
  refine .go htest rfl ?_
  rw [Instr.effect, hzf]
  exact .go hjz hl (.done _)

/-- Bits of a register that are tested and are not all zero. -/
theorem runs_testImm_ne {i : UInt32} {r : Reg} {l : L} (htest : p[pc]? = some (.testImm i r))
    (hjz : p[pc + 1]? = some (.jz l)) (h : s.get r &&& i ≠ 0) :
    Runs p (pc, s) (pc + 2, s.flags false false) := by
  have hzf : (s.get r &&& i == 0) = false := by simpa using h
  refine .go htest rfl ?_
  rw [Instr.effect, hzf]
  exact .go hjz rfl (.done _)

/-- Bits of a register that are tested and are zero. -/
theorem runs_testImm_zero {i : UInt32} {r : Reg} {l : L} (htest : p[pc]? = some (.testImm i r))
    (hjz : p[pc + 1]? = some (.jz l)) (hl : p.idxOf (.label l) = pc') (h : s.get r &&& i = 0) :
    Runs p (pc, s) (pc', s.flags true false) := by
  have hzf : (s.get r &&& i == 0) = true := by simpa using h
  refine .go htest rfl ?_
  rw [Instr.effect, hzf]
  exact .go hjz hl (.done _)

/-- A register that is compared and is not below the other one. -/
theorem runs_cmp_ge {r r' : Reg} {l : L} (hcmp : p[pc]? = some (.cmp r r'))
    (hjae : p[pc + 1]? = some (.jae l)) (hl : p.idxOf (.label l) = pc')
    (h : ¬s.get r' < s.get r) :
    Runs p (pc, s) (pc', s.flags (s.get r' == s.get r) false) := by
  have hcf : decide (s.get r' < s.get r) = false := by simpa using h
  refine .go hcmp rfl ?_
  rw [Instr.effect, hcf]
  exact .go hjae hl (.done _)

/-- A register that is compared and is below the other one. -/
theorem runs_cmp_lt {r r' : Reg} {l : L} (hcmp : p[pc]? = some (.cmp r r'))
    (hjae : p[pc + 1]? = some (.jae l)) (h : s.get r' < s.get r) :
    Runs p (pc, s) (pc + 2, s.flags (s.get r' == s.get r) true) := by
  have hcf : decide (s.get r' < s.get r) = true := by simpa using h
  refine .go hcmp rfl ?_
  rw [Instr.effect, hcf]
  exact .go hjae rfl (.done _)

/-- A program has one end. -/
theorem Ends.unique {s' s'' : Cpu} (h : Ends p s s') (h' : Ends p s s'') : s' = s'' := by
  have hstop (t : Cpu) (c : ℕ × Cpu) : ¬step p (p.length, t) = some c := by
    simp [step]
  have hright : Relator.RightUnique fun c c' : ℕ × Cpu => step p c = some c' :=
    fun _ _ _ hb hc => Option.some.inj (hb.symm.trans hc)
  rcases Relation.ReflTransGen.total_of_right_unique hright h h' with hrun | hrun
  · rcases Relation.ReflTransGen.cases_head hrun with heq | ⟨c, hc, -⟩
    · exact (Prod.mk.inj heq).2
    · exact absurd hc (hstop _ _)
  · rcases Relation.ReflTransGen.cases_head hrun with heq | ⟨c, hc, -⟩
    · exact (Prod.mk.inj heq).2.symm
    · exact absurd hc (hstop _ _)

/-! ## Repeated string instructions -/

/-- `n` rounds of a string instruction. -/
def repeated (op : StringOp) : ℕ → Cpu → Cpu
  | 0, s => s
  | n + 1, s => repeated op n { op.effect s with ecx := s.ecx - 1 }

/-- `rep` makes as many rounds as `ecx` says. -/
theorem runs_rep {op : StringOp} (hi : p[pc]? = some (.rep op)) (s : Cpu) :
    Runs p (pc, s) (pc + 1, repeated op s.ecx.toNat s) := by
  induction hn : s.ecx.toNat generalizing s with
  | zero =>
    have hzero : s.ecx = 0 := UInt32.toNat_inj.1 hn
    refine .go hi (if_pos hzero) ?_
    rw [Instr.effect, if_pos hzero]
    exact .done _
  | succ n ih =>
    obtain ⟨hne, hpred⟩ := Word32.toNat_pred hn
    refine .go hi (if_neg hne) ?_
    rw [Instr.effect, if_neg hne]
    exact ih _ hpred

end Programs

theorem repeated_df (op : StringOp) (n : ℕ) (s : Cpu) : (repeated op n s).df = s.df := by
  induction n generalizing s with
  | zero => rfl
  | succ n ih =>
    rw [repeated, ih]
    cases op with
    | stosl => rfl
    | movs width => rfl

theorem stride_up {s : Cpu} (h : s.df = false) (width : UInt32) : s.stride width = width := by
  rw [Cpu.stride, h, if_neg Bool.false_ne_true]

/-- All bytes of a word are the same. -/
theorem storeWord_eq_fill {w : UInt32} {b : UInt8}
    (hw : ∀ i < 4, (w >>> (8 * UInt32.ofNat i)).toUInt8 = b) (p : UInt32)
    (mem : UInt32 → UInt8) : storeWord p w mem = fill p 4 b mem := by
  funext a
  rw [storeWord, fill]
  by_cases h : (a - p).toNat < 4
  · have hbyte := hw _ h
    rw [UInt32.ofNat_toNat] at hbyte
    rw [if_pos h, if_pos h, hbyte]
  · rw [if_neg h, if_neg h]

/-- `rep stosl` upwards, of a word whose bytes are the same. -/
theorem repeated_stosl {s : Cpu} (hdf : s.df = false) {b : UInt8}
    (hw : ∀ i < 4, (s.eax >>> (8 * UInt32.ofNat i)).toUInt8 = b) {n : ℕ}
    (hn : 4 * n ≤ 4294967296) :
    repeated .stosl n s
      = { s with mem := fill s.edi (4 * n) b s.mem, edi := s.edi + UInt32.ofNat (4 * n),
                 ecx := s.ecx - UInt32.ofNat n } := by
  induction n generalizing s with
  | zero => simp [repeated]
  | succ n ih =>
    have hround : { StringOp.stosl.effect s with ecx := s.ecx - 1 }
        = { s with mem := fill s.edi 4 b s.mem, edi := s.edi + UInt32.ofNat 4,
                   ecx := s.ecx - 1 } := by
      rw [StringOp.effect, storeWord_eq_fill hw, stride_up hdf]
      rfl
    have hcount : s.ecx - 1 - UInt32.ofNat n = s.ecx - UInt32.ofNat (n + 1) := by
      rw [UInt32.ofNat_add]
      grind
    have hrest := ih (s := { s with mem := fill s.edi 4 b s.mem,
                                    edi := s.edi + UInt32.ofNat 4, ecx := s.ecx - 1 })
      hdf hw (by omega)
    rw [repeated, hround, hrest]
    simp only [fill_fill s.edi b s.mem (show 4 + 4 * n ≤ 4294967296 by omega),
      Word32.add_ofNat_add_ofNat, hcount, show 4 + 4 * n = 4 * (n + 1) by ring]

/-- `rep movs` upwards. -/
theorem repeated_movs {s : Cpu} (hdf : s.df = false) {width n : ℕ}
    (hsafe : UpSafe s.edi s.esi (width * n)) (hn : width * n ≤ 4294967296) :
    repeated (.movs width) n s
      = { s with mem := copy s.edi s.esi (width * n) s.mem
                 edi := s.edi + UInt32.ofNat (width * n)
                 esi := s.esi + UInt32.ofNat (width * n)
                 ecx := s.ecx - UInt32.ofNat n } := by
  induction n generalizing s with
  | zero => simp [repeated]
  | succ n ih =>
    have hlen : width + width * n = width * (n + 1) := by ring
    rw [← hlen] at hsafe hn ⊢
    have hround : { (StringOp.movs width).effect s with ecx := s.ecx - 1 }
        = { s with mem := copy s.edi s.esi width s.mem, edi := s.edi + UInt32.ofNat width,
                   esi := s.esi + UInt32.ofNat width, ecx := s.ecx - 1 } := by
      rw [StringOp.effect, stride_up hdf]
    have hcount : s.ecx - 1 - UInt32.ofNat n = s.ecx - UInt32.ofNat (n + 1) := by
      rw [UInt32.ofNat_add]
      grind
    have hrest := ih (s := { s with mem := copy s.edi s.esi width s.mem,
                                    edi := s.edi + UInt32.ofNat width,
                                    esi := s.esi + UInt32.ofNat width, ecx := s.ecx - 1 })
      hdf hsafe.shift (by omega)
    rw [repeated, hround, hrest]
    simp only [copy_upwards hsafe hn, Word32.add_ofNat_add_ofNat, hcount]

/-- `rep movsb` downwards, from the last byte of each block on. -/
theorem mem_repeated_down {s : Cpu} (hdf : s.df = true) {dest src : UInt32} {n : ℕ}
    (hedi : s.edi = dest + UInt32.ofNat n - 1) (hesi : s.esi = src + UInt32.ofNat n - 1)
    (hsafe : DownSafe dest src n) (hn : n ≤ 4294967296) :
    (repeated (.movs 1) n s).mem = copy dest src n s.mem := by
  induction n generalizing s with
  | zero => rw [repeated, copy_zero]
  | succ n ih =>
    have hlast (x : UInt32) : x + UInt32.ofNat (n + 1) - 1 = x + UInt32.ofNat n := by
      rw [UInt32.ofNat_add]
      grind
    rw [hlast] at hedi hesi
    have hround : { (StringOp.movs 1).effect s with ecx := s.ecx - 1 }
        = { s with mem := copy (dest + UInt32.ofNat n) (src + UInt32.ofNat n) 1 s.mem,
                   edi := dest + UInt32.ofNat n - 1, esi := src + UInt32.ofNat n - 1,
                   ecx := s.ecx - 1 } := by
      have hback (x : UInt32) : x + -UInt32.ofNat 1 = x - 1 := (UInt32.sub_eq_add_neg x 1).symm
      rw [StringOp.effect, Cpu.stride, hdf, if_pos rfl, hedi, hesi, hback, hback]
    have hrest := ih (s := { s with
        mem := copy (dest + UInt32.ofNat n) (src + UInt32.ofNat n) 1 s.mem
        edi := dest + UInt32.ofNat n - 1, esi := src + UInt32.ofNat n - 1, ecx := s.ecx - 1 })
      hdf rfl rfl (hsafe.mono (Nat.le_succ n)) (by omega)
    rw [repeated, hround, hrest]
    exact copy_downwards hsafe hn s.mem

end X86
