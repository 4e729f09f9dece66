import CheetOS.Lib.Bytes
import CheetOS.Lib.MemoryBlock

/-!
# Protected mode

A 32-bit processor as far as entering and leaving a kernel needs it: registers, stack,
privilege levels and gates, on a flat address space.

* `exec` is the meaning of an instruction and `Step` one step of a machine, where routines
  of a compiler are known by what a call of them does (`Env.routine`);
* `Code E a is b` says that the instructions `is` stand from the address `a` up to `b`, and
  `runs_code` executes them;
* `Stacked mem p ws` says that the words `ws` stand from the address `p` upwards;
  `stacked_pushAll` puts words there;
* `Returned n s s'` is what a compiled routine keeps whose arguments are `n` words.
-/

namespace ProtectedMode

open MemoryBlock

/-! ## Words in memory -/

/-- The 32-bit word at an address. -/
def loadWord (mem : UInt32 → UInt8) (p : UInt32) : UInt32 :=
  Bytes.word fun i => mem (p + UInt32.ofNat i)

/-- Store a 32-bit word, lowest byte first. -/
def storeWord (p w : UInt32) (mem : UInt32 → UInt8) : UInt32 → UInt8 := fun a =>
  if (a - p).toNat < 4 then (w >>> (8 * (a - p))).toUInt8 else mem a

theorem word_bytes (w : UInt32) :
    (Bytes.word fun i => (w >>> (8 * UInt32.ofNat i)).toUInt8) = w := by
  rw [Bytes.word, ← UInt32.toBitVec_inj]
  simp only [UInt32.toBitVec_or, UInt32.toBitVec_shiftLeft, UInt8.toBitVec_toUInt32,
    UInt32.toBitVec_toUInt8, UInt32.toBitVec_shiftRight]
  simp
  ext i hi
  simp [BitVec.getElem_or]
  rw [← BitVec.getLsbD_eq_getElem]
  -- which of the four bytes the bit is in
  by_cases h8 : i < 8
  · simp [h8, show i < 16 by omega, show i < 24 by omega]
  by_cases h16 : i < 16
  · simp [h8, h16, show 8 + (i - 8) = i by omega, show i - 8 < 8 by omega, show i < 24 by omega]
  by_cases h24 : i < 24
  · simp [h8, h16, h24, show 16 + (i - 16) = i by omega, show ¬i - 8 < 8 by omega,
      show i - 16 < 8 by omega]
  · simp [h8, h16, h24, show 24 + (i - 24) = i by omega, show ¬i - 8 < 8 by omega,
      show ¬i - 16 < 8 by omega, show i - 24 < 8 by omega]

theorem loadWord_storeWord (p w : UInt32) (mem : UInt32 → UInt8) :
    loadWord (storeWord p w mem) p = w := by
  refine (Bytes.word_congr fun i hi => ?_).trans (word_bytes w)
  have hoffset : p + UInt32.ofNat i - p = UInt32.ofNat i := by grind
  rw [storeWord, hoffset, Word32.toNat_ofNat (by omega), if_pos hi]

theorem storeWord_of_le {p w a : UInt32} {mem : UInt32 → UInt8} (h : 4 ≤ (a - p).toNat) :
    storeWord p w mem a = mem a := by
  rw [storeWord, if_neg (by omega)]

theorem loadWord_congr {p : UInt32} {mem mem' : UInt32 → UInt8}
    (h : ∀ a, (a - p).toNat < 4 → mem' a = mem a) : loadWord mem' p = loadWord mem p := by
  refine Bytes.word_congr fun i hi => h _ ?_
  have hoffset : p + UInt32.ofNat i - p = UInt32.ofNat i := by grind
  rw [hoffset, Word32.toNat_ofNat (by omega)]
  exact hi

/-- The words `ws` stand from the address `p` upwards. -/
def Stacked (mem : UInt32 → UInt8) : UInt32 → List UInt32 → Prop
  | _, [] => True
  | p, w :: ws => loadWord mem p = w ∧ Stacked mem (p + 4) ws

instance decidableStacked (mem : UInt32 → UInt8) (p : UInt32) (ws : List UInt32) :
    Decidable (Stacked mem p ws) :=
  match ws with
  | [] => inferInstanceAs (Decidable True)
  | w :: ws =>
    have := decidableStacked mem (p + 4) ws
    inferInstanceAs (Decidable (loadWord mem p = w ∧ Stacked mem (p + 4) ws))

/-- Only the bytes of the words matter. -/
theorem Stacked.congr {mem mem' : UInt32 → UInt8} {p : UInt32} {ws : List UInt32}
    (hlen : 4 * ws.length ≤ 4294967296)
    (hmem : ∀ a, (a - p).toNat < 4 * ws.length → mem' a = mem a) (h : Stacked mem p ws) :
    Stacked mem' p ws := by
  induction ws generalizing p with
  | nil => trivial
  | cons w ws ih =>
    rw [List.length_cons] at hlen hmem
    obtain ⟨hw, hws⟩ := h
    refine ⟨?_, ih (by omega) ?_ hws⟩
    · rw [← hw]
      exact loadWord_congr fun a ha => hmem a (by omega)
    · intro a ha
      have hsecond := (toNat_sub_add_lt a p (k := 4) (m := 4 * ws.length) (by omega)).1 ha
      exact hmem a (by omega)

theorem stacked_append {mem : UInt32 → UInt8} {p : UInt32} {ws vs : List UInt32} :
    Stacked mem p (ws ++ vs)
      ↔ Stacked mem p ws ∧ Stacked mem (p + UInt32.ofNat (4 * ws.length)) vs := by
  induction ws generalizing p with
  | nil => simp [Stacked]
  | cons w ws ih =>
    have hnext : p + 4 + UInt32.ofNat (4 * ws.length)
        = p + UInt32.ofNat (4 * (w :: ws).length) := by
      rw [List.length_cons, show 4 * (ws.length + 1) = 4 + 4 * ws.length by ring,
        UInt32.ofNat_add, ← UInt32.add_assoc]
      rfl
    rw [List.cons_append, Stacked, Stacked, ih, hnext, and_assoc]

/-- The word at an index. -/
theorem Stacked.get {mem : UInt32 → UInt8} {p w : UInt32} {ws : List UInt32} {i : ℕ}
    (h : Stacked mem p ws) (hi : ws[i]? = some w) :
    loadWord mem (p + 4 * UInt32.ofNat i) = w := by
  induction ws generalizing p i with
  | nil => cases hi
  | cons v ws ih =>
    obtain ⟨hv, hws⟩ := h
    cases i with
    | zero =>
      cases hi
      simpa using hv
    | succ i =>
      have hrest := ih hws hi
      rw [UInt32.ofNat_add]
      have hp : p + 4 * (UInt32.ofNat i + UInt32.ofNat 1) = p + 4 + 4 * UInt32.ofNat i := by
        rw [show UInt32.ofNat 1 = 1 from rfl]
        grind
      rw [hp]
      exact hrest

/-- The blocks of `n` bytes from `p` on and of `m` bytes from `q` on have no byte in common. -/
def Apart (p : UInt32) (n : ℕ) (q : UInt32) (m : ℕ) : Prop :=
  ∀ a, (a - p).toNat < n → m ≤ (a - q).toNat

theorem apart_of_le {p q : UInt32} {n m : ℕ} (hpq : p.toNat + n ≤ q.toNat)
    (hq : q.toNat + m ≤ 4294967296) : Apart p n q m := by
  intro a ha
  have hp' := UInt32.toNat_sub a p
  have hq' := UInt32.toNat_sub a q
  have hlt := a.toNat_lt
  omega

theorem Apart.symm {p q : UInt32} {n m : ℕ} (h : Apart p n q m) : Apart q m p n := by
  intro a ha
  by_contra hlt
  have hmq := h a (by omega)
  omega

/-- Two memories agree but for the `n` bytes from `p` on. -/
def SameBut (p : UInt32) (n : ℕ) (mem mem' : UInt32 → UInt8) : Prop :=
  ∀ a, n ≤ (a - p).toNat → mem' a = mem a

/-- A block in a larger one, which ends at `top`. -/
theorem SameBut.extend {mem mem' : UInt32 → UInt8} {top : UInt32} {k n m : ℕ}
    (h : SameBut (top - UInt32.ofNat k) n mem mem') (hn : n ≤ k) (hkm : k ≤ m)
    (hm : m ≤ 4294967296) : SameBut (top - UInt32.ofNat m) m mem mem' := by
  intro a ha
  refine h a ?_
  have hp : top - UInt32.ofNat k = top - UInt32.ofNat m + UInt32.ofNat (m - k) := by
    have hsum : UInt32.ofNat m = UInt32.ofNat (m - k) + UInt32.ofNat k := by
      rw [← UInt32.ofNat_add, Nat.sub_add_cancel hkm]
    rw [hsum]
    grind
  have hpart := toNat_sub_add_lt a (top - UInt32.ofNat m) (k := m - k) (m := n) (by omega)
  rw [hp]
  omega

/-- A block in a larger one. -/
theorem SameBut.within {mem mem' : UInt32 → UInt8} {p q : UInt32} {n m : ℕ}
    (h : SameBut q m mem mem') (hp : p.toNat ≤ q.toNat) (hq : q.toNat + m ≤ p.toNat + n)
    (hn : p.toNat + n ≤ 4294967296) : SameBut p n mem mem' := by
  intro a ha
  refine h a ?_
  have hp' := UInt32.toNat_sub a p
  have hq' := UInt32.toNat_sub a q
  have hlt := a.toNat_lt
  omega

theorem SameBut.trans {mem mem' mem'' : UInt32 → UInt8} {p : UInt32} {n : ℕ}
    (h : SameBut p n mem mem') (h' : SameBut p n mem' mem'') : SameBut p n mem mem'' :=
  fun a ha => (h' a ha).trans (h a ha)

theorem sameBut_storeWord (p w : UInt32) (mem : UInt32 → UInt8) :
    SameBut p 4 mem (storeWord p w mem) :=
  fun _ ha => storeWord_of_le ha

theorem Stacked.sameBut {mem mem' : UInt32 → UInt8} {p q : UInt32} {n : ℕ} {ws : List UInt32}
    (h : Stacked mem p ws) (hlen : 4 * ws.length ≤ 4294967296) (hsame : SameBut q n mem mem')
    (hapart : Apart p (4 * ws.length) q n) : Stacked mem' p ws :=
  h.congr hlen fun a ha => hsame a (hapart a ha)

/-! ## Processor -/

/-- The general registers. -/
inductive Reg
  | eax
  | ecx
  | edx
  | ebx
  | esp
  | ebp
  | esi
  | edi
  deriving DecidableEq, Repr

/-- The data segment registers. -/
inductive Seg
  | es
  | ds
  | fs
  | gs
  deriving DecidableEq, Repr

structure Cpu where
  eax : UInt32
  ecx : UInt32
  edx : UInt32
  ebx : UInt32
  esp : UInt32
  ebp : UInt32
  esi : UInt32
  edi : UInt32
  es : UInt16
  ds : UInt16
  fs : UInt16
  gs : UInt16
  cs : UInt16
  ss : UInt16
  eip : UInt32
  eflags : UInt32
  mem : UInt32 → UInt8

/-- The six status flags. -/
structure Status where
  cf : Bool
  pf : Bool
  af : Bool
  zf : Bool
  sf : Bool
  of : Bool
  deriving DecidableEq, Repr

namespace Status

/-- Their bits in EFLAGS. -/
def word (f : Status) : UInt32 :=
  (if f.cf then 0x1 else 0) ||| (if f.pf then 0x4 else 0) ||| (if f.af then 0x10 else 0) |||
    (if f.zf then 0x40 else 0) ||| (if f.sf then 0x80 else 0) ||| (if f.of then 0x800 else 0)

/-- An even number of ones in the lowest byte. -/
def parity (w : UInt32) : Bool :=
  ((List.range 8).countP fun i => w.toNat.testBit i) % 2 == 0

/-- After `a - b`. -/
def sub (a b : UInt32) : Status where
  cf := decide (a < b)
  pf := parity (a - b)
  af := decide (a &&& 0xF < b &&& 0xF)
  zf := a - b == 0
  sf := decide ((a - b).toInt32.toInt < 0)
  of := decide ((a - b).toInt32.toInt ≠ a.toInt32.toInt - b.toInt32.toInt)

/-- After `a + b`. -/
def add (a b : UInt32) : Status where
  cf := decide (a + b < a)
  pf := parity (a + b)
  af := decide (0xF < (a &&& 0xF) + (b &&& 0xF))
  zf := a + b == 0
  sf := decide ((a + b).toInt32.toInt < 0)
  of := decide ((a + b).toInt32.toInt ≠ a.toInt32.toInt + b.toInt32.toInt)

/-- After a logical operation with the result `w`; the processor leaves AF undefined. -/
def logic (af : Bool) (w : UInt32) : Status where
  cf := false
  pf := parity w
  af := af
  zf := w == 0
  sf := decide (w.toInt32.toInt < 0)
  of := false

end Status

namespace Cpu

/-- The privilege level code runs at. -/
def cpl (s : Cpu) : UInt16 := s.cs &&& 3

def get (s : Cpu) : Reg → UInt32
  | .eax => s.eax
  | .ecx => s.ecx
  | .edx => s.edx
  | .ebx => s.ebx
  | .esp => s.esp
  | .ebp => s.ebp
  | .esi => s.esi
  | .edi => s.edi

def set (s : Cpu) (r : Reg) (v : UInt32) : Cpu :=
  match r with
  | .eax => { s with eax := v }
  | .ecx => { s with ecx := v }
  | .edx => { s with edx := v }
  | .ebx => { s with ebx := v }
  | .esp => { s with esp := v }
  | .ebp => { s with ebp := v }
  | .esi => { s with esi := v }
  | .edi => { s with edi := v }

def seg (s : Cpu) : Seg → UInt16
  | .es => s.es
  | .ds => s.ds
  | .fs => s.fs
  | .gs => s.gs

def setSeg (s : Cpu) (r : Seg) (v : UInt16) : Cpu :=
  match r with
  | .es => { s with es := v }
  | .ds => { s with ds := v }
  | .fs => { s with fs := v }
  | .gs => { s with gs := v }

def goto (s : Cpu) (a : UInt32) : Cpu := { s with eip := a }

def setFlags (s : Cpu) (eflags : UInt32) : Cpu := { s with eflags := eflags }

def status (s : Cpu) (f : Status) : Cpu := s.setFlags ((s.eflags &&& ~~~0x8D5) ||| f.word)

/-- ZF. -/
def zero (s : Cpu) : Bool := s.eflags &&& 0x40 != 0

/-- SF and OF differ: the first operand of the last comparison was the smaller one. -/
def less (s : Cpu) : Bool := (s.eflags &&& 0x80 != 0) != (s.eflags &&& 0x800 != 0)

/-- IF. -/
def interrupts (s : Cpu) : Bool := s.eflags &&& 0x200 != 0

def push (s : Cpu) (w : UInt32) : Cpu :=
  { s with esp := s.esp - 4, mem := storeWord (s.esp - 4) w s.mem }

/-- The word on the top of the stack. -/
def top (s : Cpu) : UInt32 := loadWord s.mem s.esp

/-- Take `n` bytes off the stack. -/
def drop (s : Cpu) (n : UInt32) : Cpu := { s with esp := s.esp + n }

def pushAll (s : Cpu) (ws : List UInt32) : Cpu := ws.foldl push s

end Cpu

/-! ## Comparing -/

theorem word_bits (f : Status) :
    (f.word &&& 0x40 != 0) = f.zf ∧ (f.word &&& 0x80 != 0) = f.sf ∧
      (f.word &&& 0x800 != 0) = f.of := by
  obtain ⟨cf, pf, af, zf, sf, of⟩ := f
  revert cf pf af zf sf of
  decide

theorem and_or_distrib (x y z : UInt32) : (x ||| y) &&& z = x &&& z ||| y &&& z := by
  apply UInt32.toBitVec_inj.1
  simp only [UInt32.toBitVec_and, UInt32.toBitVec_or]
  exact BitVec.and_or_distrib_right

theorem and_status (e w bit : UInt32) (h : ~~~0x8D5 &&& bit = 0) :
    ((e &&& ~~~0x8D5) ||| w) &&& bit = w &&& bit := by
  rw [and_or_distrib, UInt32.and_assoc, h, UInt32.and_zero, UInt32.zero_or]

@[simp] theorem Cpu.zero_status (s : Cpu) (f : Status) : (s.status f).zero = f.zf := by
  rw [zero, status, setFlags, and_status _ _ _ (by decide)]
  exact (word_bits f).1

@[simp] theorem Cpu.less_status (s : Cpu) (f : Status) : (s.status f).less = (f.sf != f.of) := by
  rw [less, status, setFlags, and_status _ _ _ (by decide), and_status _ _ _ (by decide),
    (word_bits f).2.1, (word_bits f).2.2]

theorem word_interrupts (f : Status) : f.word &&& 0x200 = 0 := by
  obtain ⟨cf, pf, af, zf, sf, of⟩ := f
  revert cf pf af zf sf of
  decide

theorem Cpu.status_goto (s : Cpu) (a : UInt32) (f : Status) :
    (s.goto a).status f = (s.status f).goto a := rfl

@[simp] theorem Cpu.interrupts_status (s : Cpu) (f : Status) :
    (s.status f).interrupts = s.interrupts := by
  rw [interrupts, status, setFlags, and_or_distrib, word_interrupts, UInt32.or_zero, UInt32.and_assoc]
  rfl

/-- SF and OF after a subtraction compare its operands as signed numbers. -/
theorem Status.less_sub (a b : UInt32) :
    ((Status.sub a b).sf != (Status.sub a b).of) = decide (a.toInt32 < b.toInt32) := by
  have ha := a.toInt32.toInt_lt
  have ha' := a.toInt32.le_toInt
  have hb := b.toInt32.toInt_lt
  have hb' := b.toInt32.le_toInt
  have hsub : (a - b).toInt32.toInt = (a.toInt32.toInt - b.toInt32.toInt).bmod (2 ^ 32) := by
    rw [UInt32.toInt32_sub, Int32.toInt_sub]
  rw [Status.sub, hsub, Bool.eq_iff_iff, Int.bmod_def]
  simp only [bne_iff_ne, ne_eq, decide_eq_decide, decide_eq_true_eq, Int32.lt_iff_toInt_lt]
  split
  all_goals omega

theorem Status.zf_sub (a b : UInt32) : (Status.sub a b).zf = decide (a = b) := by
  rw [Status.sub, Bool.eq_iff_iff]
  simp [UInt32.sub_eq_iff_eq_add]

theorem Status.greater (a b : UInt32) :
    (!decide (a = b) && !decide (a.toInt32 < b.toInt32)) = decide (b.toInt32 < a.toInt32) := by
  have hne : a = b ↔ a.toInt32.toInt = b.toInt32.toInt := by
    constructor
    · intro h
      rw [h]
    · intro h
      have hab := congrArg Int32.toUInt32 (Int32.toInt_inj.1 h)
      simpa using hab
  rw [Bool.eq_iff_iff]
  simp only [Bool.and_eq_true, Bool.not_eq_true', decide_eq_false_iff_not, decide_eq_true_eq,
    Int32.lt_iff_toInt_lt, hne]
  omega

/-! ## The stack -/

/-- The memory after the words `ws` were pushed on a stack whose top was `p`. -/
def pushed : UInt32 → List UInt32 → (UInt32 → UInt8) → UInt32 → UInt8
  | _, [], mem => mem
  | p, w :: ws, mem => pushed (p - 4) ws (storeWord (p - 4) w mem)

theorem sub_ofNat_succ (p : UInt32) (n : ℕ) :
    p - 4 - UInt32.ofNat (4 * n) = p - UInt32.ofNat (4 * (n + 1)) := by
  rw [show 4 * (n + 1) = 4 * n + 4 by ring, UInt32.ofNat_add]
  grind

theorem sub_ofNat_succ_add (p : UInt32) (n : ℕ) :
    p - UInt32.ofNat (4 * (n + 1)) + 4 = p - UInt32.ofNat (4 * n) := by
  rw [← sub_ofNat_succ]
  grind

/-- Nothing else is pushed. -/
theorem Cpu.pushAll_eq (s : Cpu) (ws : List UInt32) :
    s.pushAll ws = { s with
      esp := s.esp - UInt32.ofNat (4 * ws.length), mem := pushed s.esp ws s.mem } := by
  induction ws generalizing s with
  | nil => simp [pushAll, pushed]
  | cons w ws ih =>
    have hrest := ih (s.push w)
    rw [pushAll] at hrest ⊢
    rw [List.foldl_cons, hrest, List.length_cons, ← sub_ofNat_succ]
    rfl

theorem Cpu.pushAll_pushAll (s : Cpu) (ws vs : List UInt32) :
    (s.pushAll ws).pushAll vs = s.pushAll (ws ++ vs) :=
  (List.foldl_append ..).symm

/-- Pushing changes the words pushed. -/
theorem sameBut_pushed (p : UInt32) (ws : List UInt32) (mem : UInt32 → UInt8)
    (hlen : 4 * ws.length ≤ 4294967296) :
    SameBut (p - UInt32.ofNat (4 * ws.length)) (4 * ws.length) mem (pushed p ws mem) := by
  intro a h
  induction ws generalizing p mem with
  | nil => rfl
  | cons w ws ih =>
    rw [List.length_cons] at hlen h
    have hp : p - 4 = p - UInt32.ofNat (4 * (ws.length + 1)) + UInt32.ofNat (4 * ws.length) := by
      rw [← sub_ofNat_succ, UInt32.sub_add_cancel]
    have hoffset := toNat_sub_add a (p - UInt32.ofNat (4 * (ws.length + 1)))
      (k := 4 * ws.length) (by omega)
    rw [← hp, if_pos (by omega)] at hoffset
    rw [pushed, ih _ _ (by omega) (by rw [sub_ofNat_succ]; omega), storeWord_of_le (by omega)]

theorem sub_ofNat_sub_ofNat (p : UInt32) (m n : ℕ) :
    p - UInt32.ofNat (4 * m) - UInt32.ofNat (4 * n) = p - UInt32.ofNat (4 * (n + m)) := by
  rw [show 4 * (n + m) = 4 * m + 4 * n by ring, UInt32.ofNat_add]
  grind

theorem pushed_append (p : UInt32) (ws vs : List UInt32) (mem : UInt32 → UInt8) :
    pushed p (ws ++ vs) mem = pushed (p - UInt32.ofNat (4 * ws.length)) vs (pushed p ws mem) := by
  induction ws generalizing p mem with
  | nil => simp [pushed]
  | cons w ws ih => rw [List.cons_append, pushed, ih, sub_ofNat_succ, pushed, List.length_cons]

/-- What was on the stack stays on it, below the words pushed. -/
theorem Stacked.pushed {p : UInt32} {mem : UInt32 → UInt8} (ws vs : List UInt32)
    (hlen : 4 * (ws.length + vs.length) ≤ 4294967296)
    (h : Stacked mem p vs) :
    Stacked (pushed p ws mem) (p - UInt32.ofNat (4 * ws.length)) (ws.reverse ++ vs) := by
  induction ws generalizing p mem vs with
  | nil => simpa [ProtectedMode.pushed] using h
  | cons w ws ih =>
    rw [List.length_cons] at hlen
    have hback : p - 4 + 4 = p := UInt32.sub_add_cancel p 4
    have hone : Stacked (storeWord (p - 4) w mem) (p - 4) (w :: vs) := by
      refine ⟨loadWord_storeWord _ _ _, ?_⟩
      rw [hback]
      refine h.congr (by omega) fun a ha => storeWord_of_le ?_
      -- the word below the stack is not one of its words
      have hoffset := toNat_sub_add a (p - 4) (k := 4) (by omega)
      rw [show UInt32.ofNat 4 = 4 from rfl, hback] at hoffset
      split at hoffset
      all_goals omega
    have hrest := ih (w :: vs) (by rw [List.length_cons]; omega) hone
    rw [sub_ofNat_succ] at hrest
    rwa [ProtectedMode.pushed, List.length_cons, List.reverse_cons, List.append_assoc]

/-! ## Instructions -/

/-- The instructions, in the order of operands of the assembler: the destination comes
last. -/
inductive Instr
  | push (r : Reg)
  | pushSeg (r : Seg)
  | pushImm (i : UInt32)
  | pushf
  | pusha
  | pop (r : Reg)
  | popSeg (r : Seg)
  | popf
  | popa
  | movImm (i : UInt32) (r : Reg)
  /-- `movl d(%b), %r`. -/
  | load (d : UInt32) (b r : Reg)
  /-- `movb d(%b), %al`. -/
  | loadAl (d : UInt32) (b : Reg)
  | addImm (i : UInt32) (r : Reg)
  | orImm (i : UInt32) (r : Reg)
  /-- `xorl %r, %r`. -/
  | clear (r : Reg)
  | cmpImm (i : UInt32) (r : Reg)
  | jl (a : UInt32)
  | jg (a : UInt32)
  | jmp (a : UInt32)
  /-- `jmp *%r`. -/
  | jmpReg (r : Reg)
  | call (a : UInt32)
  /-- `call *table(, %r, 4)`. -/
  | callTable (table : UInt32) (r : Reg)
  | ret
  | int (n : UInt8)
  | iret
  deriving DecidableEq, Repr

namespace Instr

/-- What an instruction that does not jump does.  `popf` is that of level 0. -/
def effect : Instr → Cpu → Cpu
  | .push r, s => s.push (s.get r)
  | .pushSeg r, s => s.push (s.seg r).toUInt32
  | .pushImm i, s => s.push i
  | .pushf, s => s.push (s.eflags &&& 0xFCFFFF)
  | .pusha, s => s.pushAll [s.eax, s.ecx, s.edx, s.ebx, s.esp, s.ebp, s.esi, s.edi]
  | .pop r, s => (s.drop 4).set r s.top
  | .popSeg r, s => (s.drop 4).setSeg r s.top.toUInt16
  | .popf, s => { s.drop 4 with eflags := (s.top &&& ~~~0x30000) ||| (s.eflags &&& 0x20000) }
  | .popa, s =>
    -- the word for `esp` is skipped
    { s.drop 32 with
      edi := loadWord s.mem s.esp
      esi := loadWord s.mem (s.esp + 4)
      ebp := loadWord s.mem (s.esp + 8)
      ebx := loadWord s.mem (s.esp + 16)
      edx := loadWord s.mem (s.esp + 20)
      ecx := loadWord s.mem (s.esp + 24)
      eax := loadWord s.mem (s.esp + 28) }
  | .movImm i r, s => s.set r i
  | .load d b r, s => s.set r (loadWord s.mem (s.get b + d))
  | .loadAl d b, s =>
    { s with eax := (s.eax &&& 0xFFFFFF00) ||| (s.mem (s.get b + d)).toUInt32 }
  | .addImm i r, s => (s.set r (s.get r + i)).status (.add (s.get r) i)
  | .orImm i r, s =>
    (s.set r (s.get r ||| i)).status (.logic (s.eflags &&& 0x10 != 0) (s.get r ||| i))
  | .clear r, s => (s.set r 0).status (.logic (s.eflags &&& 0x10 != 0) 0)
  | .cmpImm i r, s => s.status (.sub (s.get r) i)
  | .jl _, s | .jg _, s | .jmp _, s | .jmpReg _, s | .call _, s | .callTable _ _, s | .ret, s
  | .int _, s | .iret, s => s

/-- The instructions that go on with the next one. -/
def straight : Instr → Bool
  | .jl _ | .jg _ | .jmp _ | .jmpReg _ | .call _ | .callTable _ _ | .ret | .int _ | .iret => false
  | _ => true

/-- What an instruction that pushes one word pushes.  A pushed `esp` is not provided for. -/
def operand : Instr → Cpu → Option UInt32
  | .push .esp, _ => none
  | .push r, s => some (s.get r)
  | .pushSeg r, s => some (s.seg r).toUInt32
  | .pushImm i, _ => some i
  | .pushf, s => some (s.eflags &&& 0xFCFFFF)
  | _, _ => none

end Instr

/-- The state after instructions that do not jump. -/
def Cpu.after (s : Cpu) (is : List Instr) : Cpu := is.foldl (fun s i => i.effect s) s

/-! ## Machine -/

/-- An entry of the interrupt descriptor table, for a handler at level 0. -/
structure Gate where
  offset : UInt32
  selector : UInt16
  dpl : UInt16
  present : Bool
  /-- An interrupt gate clears IF, a trap gate does not. -/
  interrupt : Bool
  deriving DecidableEq, Repr

/-- What a machine runs. -/
structure Env where
  /-- The instruction at an address, and the address behind it. -/
  code : UInt32 → Option (Instr × UInt32)
  /-- The compiled routine at an address: its calls, from its first instruction to behind
  its return. -/
  routine : UInt32 → Option (Cpu → Cpu → Prop)
  gate : UInt8 → Gate
  /-- The address of the task state segment. -/
  tss : UInt32
  /-- The privilege level of the descriptor a selector names. -/
  dpl : UInt16 → UInt16

namespace Env

variable (E : Env)

/-- ESP for level 0. -/
def esp0 (mem : UInt32 → UInt8) : UInt32 := loadWord mem (E.tss + 4)

/-- SS for level 0. -/
def ss0 (mem : UInt32 → UInt8) : UInt16 := (loadWord mem (E.tss + 8)).toUInt16

/-- The stack an interrupt of a state uses; coming from an outer level, the words that lead
back to the stack of that level are on it. -/
def innerStack (s : Cpu) : Cpu :=
  if s.cpl = 0 then s
  else { s with esp := E.esp0 s.mem, ss := E.ss0 s.mem }.pushAll [s.ss.toUInt32, s.esp]

/-- Go through a gate, to come back to `ret`. -/
def deliver (n : UInt8) (ret : UInt32) (s : Cpu) : Cpu :=
  let g := E.gate n
  { (E.innerStack s).pushAll [s.eflags, s.cs.toUInt32, ret] with
    cs := g.selector &&& 0xFFFC
    eip := g.offset
    -- TF, NT, RF and VM, and IF for an interrupt gate
    eflags := s.eflags &&& (if g.interrupt then ~~~0x34300 else ~~~0x34100) }

/-- An exception that comes with an error code; it leads back to the instruction. -/
def fault (n : UInt8) (code : UInt32) (s : Cpu) : Cpu := (E.deliver n s.eip s).push code

/-- `int n`.  A gate has to let the caller's level through (#GP) and be present (#NP). -/
def trap (n : UInt8) (next : UInt32) (s : Cpu) : Cpu :=
  if (E.gate n).dpl < s.cpl then E.fault 13 (n.toUInt32 * 8 + 2) s
  else if (E.gate n).present = false then E.fault 11 (n.toUInt32 * 8 + 2) s
  else E.deliver n next s

/-- What is left of a segment selector at a level: null, if the level may not use it. -/
def visible (level selector : UInt16) : UInt16 := if E.dpl selector < level then 0 else selector

/-- `iret`. -/
def iret (s : Cpu) : Cpu :=
  let cs := (loadWord s.mem (s.esp + 4)).toUInt16
  let level := cs &&& 3
  let back := { s with eip := s.top, cs := cs, eflags := loadWord s.mem (s.esp + 8) }
  if level = s.cpl then back.drop 12
  else
    { back with
      esp := loadWord s.mem (s.esp + 12)
      ss := (loadWord s.mem (s.esp + 16)).toUInt16
      es := E.visible level s.es
      ds := E.visible level s.ds
      fs := E.visible level s.fs
      gs := E.visible level s.gs }

/-- An instruction with the address behind it. -/
def exec : Instr → UInt32 → Cpu → Cpu
  | .jl a, next, s => s.goto (if s.less then a else next)
  | .jg a, next, s => s.goto (if !s.zero && !s.less then a else next)
  | .jmp a, _, s => s.goto a
  | .jmpReg r, _, s => s.goto (s.get r)
  | .call a, next, s => (s.push next).goto a
  | .callTable table r, next, s =>
    (s.push next).goto (loadWord s.mem (table + 4 * s.get r))
  | .ret, _, s => (s.drop 4).goto s.top
  | .int n, next, s => E.trap n next s
  | .iret, _, s => E.iret s
  | i, next, s => (i.effect s).goto next

theorem exec_iret (next : UInt32) (s : Cpu) : E.exec .iret next s = E.iret s := rfl

theorem exec_int (n : UInt8) (next : UInt32) (s : Cpu) :
    E.exec (.int n) next s = E.trap n next s := rfl

theorem exec_cmpImm (i next : UInt32) (r : Reg) (s : Cpu) :
    E.exec (.cmpImm i r) next s = (s.goto next).status (.sub (s.get r) i) := rfl

theorem exec_jl (a next : UInt32) (s : Cpu) :
    E.exec (.jl a) next s = s.goto (if s.less then a else next) := rfl

theorem exec_jg (a next : UInt32) (s : Cpu) :
    E.exec (.jg a) next s = s.goto (if !s.zero && !s.less then a else next) := rfl

theorem exec_jmp (a next : UInt32) (s : Cpu) : E.exec (.jmp a) next s = s.goto a := rfl

theorem exec_call (a next : UInt32) (s : Cpu) :
    E.exec (.call a) next s = (s.push next).goto a := rfl

theorem exec_callTable (table next : UInt32) (r : Reg) (s : Cpu) :
    E.exec (.callTable table r) next s
      = (s.push next).goto (loadWord s.mem (table + 4 * s.get r)) := rfl

theorem exec_ret (next : UInt32) (s : Cpu) : E.exec .ret next s = (s.drop 4).goto s.top := rfl

/-- One instruction, or one call of a compiled routine. -/
inductive Step : Cpu → Cpu → Prop
  | instr {s : Cpu} {i : Instr} {next : UInt32} (h : E.code s.eip = some (i, next)) :
      Step s (E.exec i next s)
  | routine {s s' : Cpu} {R : Cpu → Cpu → Prop} (h : E.routine s.eip = some R) (hr : R s s') :
      Step s s'

/-- A number of steps. -/
def Runs : Cpu → Cpu → Prop := Relation.ReflTransGen E.Step

/-- The instructions `is` stand from the address `a` up to `b`. -/
def Code : UInt32 → List Instr → UInt32 → Prop
  | a, [], b => a = b
  | a, i :: is, b => ∃ next, E.code a = some (i, next) ∧ Code next is b

instance decidableCode (a : UInt32) (is : List Instr) (b : UInt32) :
    Decidable (E.Code a is b) :=
  match is with
  | [] => inferInstanceAs (Decidable (a = b))
  | i :: is =>
    match h : E.code a with
    | none => isFalse fun ⟨_, hi, _⟩ => nomatch h.symm.trans hi
    | some (j, next) =>
      have := decidableCode next is b
      decidable_of_iff (j = i ∧ E.Code next is b) (by simp [Code, h])

end Env

/-- Instructions one after the other from an address on, each one byte long. -/
def listing (base : UInt32) (is : List Instr) (a : UInt32) : Option (Instr × UInt32) :=
  is[(a - base).toNat]?.map fun i => (i, a + 1)

section Runs

variable {E : Env} {s s' s'' : Cpu} {a b : UInt32}

theorem code_append {is js : List Instr} :
    E.Code a (is ++ js) b ↔ ∃ m, E.Code a is m ∧ E.Code m js b := by
  induction is generalizing a with
  | nil => simp [Env.Code]
  | cons i is ih =>
    constructor
    · rintro ⟨next, hi, hrest⟩
      obtain ⟨m, h, h'⟩ := ih.1 hrest
      exact ⟨m, ⟨next, hi, h⟩, h'⟩
    · rintro ⟨m, ⟨next, hi, h⟩, h'⟩
      exact ⟨next, hi, ih.2 ⟨m, h, h'⟩⟩

theorem Env.Runs.trans (h : E.Runs s s') (h' : E.Runs s' s'') : E.Runs s s'' :=
  Relation.ReflTransGen.trans h h'

/-- One instruction. -/
theorem runs_instr {i : Instr} {next : UInt32} (h : E.code s.eip = some (i, next)) :
    E.Runs s (E.exec i next s) :=
  Relation.ReflTransGen.single (.instr h)

/-- One call of a compiled routine. -/
theorem runs_routine {R : Cpu → Cpu → Prop} (h : E.routine s.eip = some R) (hr : R s s') :
    E.Runs s s' :=
  Relation.ReflTransGen.single (.routine h hr)

theorem pushAll_goto (s : Cpu) (a : UInt32) (ws : List UInt32) :
    (s.goto a).pushAll ws = (s.pushAll ws).goto a := by
  rw [Cpu.pushAll_eq, Cpu.pushAll_eq]
  rfl

theorem effect_of_operand {i : Instr} {w : UInt32} (h : i.operand s = some w) :
    i.effect s = s.push w := by
  cases i with
  | push r => cases r with | esp => cases h | _ => cases h; rfl
  | pushSeg r | pushImm r => cases h; rfl
  | pushf => cases h; rfl
  | _ => cases h

theorem operand_push (i : Instr) (s : Cpu) (w : UInt32) : i.operand (s.push w) = i.operand s := by
  cases i with
  | push r => cases r with | _ => rfl
  | pushSeg r => cases r with | _ => rfl
  | _ => rfl

/-- A row of pushes. -/
theorem after_pushes {is : List Instr} (ws : List UInt32)
    (h : is.map (fun i => i.operand s) = ws.map some) : s.after is = s.pushAll ws := by
  induction is generalizing s ws with
  | nil =>
    rw [List.map_eq_nil_iff.1 h.symm]
    rfl
  | cons i is ih =>
    obtain ⟨w, ws, rfl, hi, his⟩ := List.map_eq_cons_iff.1 h.symm
    have hrest : is.map (fun i => i.operand (s.push w)) = ws.map some := by
      simpa only [operand_push] using his.symm
    rw [Cpu.after, List.foldl_cons, effect_of_operand hi.symm]
    exact ih _ hrest

/-- Where an instruction stands does not matter to it. -/
theorem effect_goto {i : Instr} (hi : i.straight = true) (s : Cpu) (a : UInt32) :
    i.effect (s.goto a) = (i.effect s).goto a := by
  cases i with
  | pop r => cases r with | _ => rfl
  | popSeg r => cases r with | _ => rfl
  | push r => cases r with | _ => rfl
  | pushSeg r => cases r with | _ => rfl
  | movImm i r => cases r with | _ => rfl
  | load d b r => cases r with | _ => cases b with | _ => rfl
  | loadAl d b => cases b with | _ => rfl
  | addImm i r => cases r with | _ => rfl
  | orImm i r => cases r with | _ => rfl
  | clear r => cases r with | _ => rfl
  | cmpImm i r => cases r with | _ => rfl
  | pushImm i => rfl
  | pusha => exact pushAll_goto s a _
  | pushf | popf | popa => rfl
  | jl | jg | jmp | jmpReg | call | callTable | ret | int | iret => cases hi

theorem after_goto {is : List Instr} (his : is.all Instr.straight = true) (s : Cpu)
    (a : UInt32) : (s.goto a).after is = (s.after is).goto a := by
  induction is generalizing s with
  | nil => rfl
  | cons i is ih =>
    rw [List.all_cons, Bool.and_eq_true] at his
    rw [Cpu.after, List.foldl_cons, effect_goto his.1]
    exact ih his.2 (i.effect s)

theorem exec_straight {i : Instr} (hi : i.straight = true) (next : UInt32) (s : Cpu) :
    E.exec i next s = (i.effect s).goto next := by
  cases i with
  | jl | jg | jmp | jmpReg | call | callTable | ret | int | iret => cases hi
  | _ => rfl

/-- Instructions one after the other. -/
theorem runs_code {is : List Instr} (hcode : E.Code a is b)
    (his : is.all Instr.straight = true) (hs : s.eip = a) :
    E.Runs s ((s.after is).goto b) := by
  induction is generalizing a s with
  | nil =>
    have hb : s.goto b = s := by
      rw [← (hcode : a = b), ← hs]
      rfl
    rw [Cpu.after, List.foldl_nil, hb]
    exact Relation.ReflTransGen.refl
  | cons i is ih =>
    obtain ⟨next, hi, hrest⟩ := hcode
    rw [List.all_cons, Bool.and_eq_true] at his
    have hone := runs_instr (hs ▸ hi)
    rw [exec_straight his.1] at hone
    have htail := ih hrest his.2 (s := (i.effect s).goto next) rfl
    rw [after_goto his.2] at htail
    exact hone.trans htail

end Runs

/-! ## Compiled routines -/

/-- A call of a compiled routine, from behind the call (`s`) to behind the return (`s'`): its
`n` words of arguments are its own, and the `room` bytes of stack that follow are not. -/
structure Returned (n room : ℕ) (s s' : Cpu) : Prop where
  eip : s'.eip = s.top
  esp : s'.esp = s.esp + 4
  cs : s'.cs = s.cs
  stack : ∀ a, (a - (s.esp + UInt32.ofNat (4 + 4 * n))).toNat < room → s'.mem a = s.mem a

/-- It does not touch the segment registers. -/
def SameSegments (s s' : Cpu) : Prop :=
  s'.es = s.es ∧ s'.ds = s.ds ∧ s'.fs = s.fs ∧ s'.gs = s.gs ∧ s'.ss = s.ss

theorem SameSegments.trans {s s' s'' : Cpu} (h : SameSegments s s') (h' : SameSegments s' s'') :
    SameSegments s s'' := by
  obtain ⟨hes, hds, hfs, hgs, hss⟩ := h
  obtain ⟨hes', hds', hfs', hgs', hss'⟩ := h'
  exact ⟨hes'.trans hes, hds'.trans hds, hfs'.trans hfs, hgs'.trans hgs, hss'.trans hss⟩

/-- The words behind the arguments are still there. -/
theorem Returned.stacked {n room : ℕ} {s s' : Cpu} {ws : List UInt32} (h : Returned n room s s')
    (hroom : 4 * ws.length ≤ room) (hlen : room ≤ 4294967296)
    (hws : Stacked s.mem (s.esp + UInt32.ofNat (4 + 4 * n)) ws) :
    Stacked s'.mem (s'.esp + UInt32.ofNat (4 * n)) ws := by
  have hp : s'.esp + UInt32.ofNat (4 * n) = s.esp + UInt32.ofNat (4 + 4 * n) := by
    rw [h.esp, UInt32.ofNat_add, ← UInt32.add_assoc]
    rfl
  rw [hp]
  exact hws.congr (by omega) fun a ha => h.stack a (by omega)

/-! ## Through a gate and back -/

section Gates

variable {E : Env} {s r : Cpu} {n : UInt8} {ret : UInt32} {ws : List UInt32}

/-- What the processor pushes for an interrupt that leads back to `ret`, last word first. -/
def returnFrame (s : Cpu) (ret : UInt32) : List UInt32 :=
  if s.cpl = 0 then [ret, s.cs.toUInt32, s.eflags]
  else [ret, s.cs.toUInt32, s.eflags, s.esp, s.ss.toUInt32]

theorem returnFrame_length (s : Cpu) (ret : UInt32) : (returnFrame s ret).length ≤ 5 := by
  rw [returnFrame]
  split
  · simp
  · simp

namespace Env

variable (E)

/-- The top of the stack an interrupt of `s` uses. -/
def entryEsp (s : Cpu) : UInt32 := if s.cpl = 0 then s.esp else E.esp0 s.mem

/-- The segment of that stack. -/
def entrySs (s : Cpu) : UInt16 := if s.cpl = 0 then s.ss else E.ss0 s.mem

/-- In the handler of interrupt `n` of `s`, at the address `m`, with `ws` on the stack. -/
def inside (n : UInt8) (s : Cpu) (m : UInt32) (ws : List UInt32) : Cpu :=
  { s with
    esp := E.entryEsp s - UInt32.ofNat (4 * ws.length)
    ss := E.entrySs s
    cs := (E.gate n).selector &&& 0xFFFC
    eip := m
    eflags := s.eflags &&& (if (E.gate n).interrupt then ~~~0x34300 else ~~~0x34100)
    mem := pushed (E.entryEsp s) ws.reverse s.mem }

end Env

/-- An interrupt. -/
theorem deliver_eq (n : UInt8) (ret : UInt32) (s : Cpu) :
    E.deliver n ret s = E.inside n s (E.gate n).offset (returnFrame s ret) := by
  rw [Env.deliver, Env.innerStack, Env.inside, Env.entryEsp, Env.entrySs, returnFrame]
  split
  · rw [Cpu.pushAll_eq]
    rfl
  · rw [Cpu.pushAll_pushAll, Cpu.pushAll_eq]
    rfl

theorem inside_goto (n : UInt8) (s : Cpu) (m a : UInt32) (ws : List UInt32) :
    (E.inside n s m ws).goto a = E.inside n s a ws := rfl

theorem inside_pushAll (n : UInt8) (s : Cpu) (m : UInt32) (ws vs : List UInt32) :
    (E.inside n s m ws).pushAll vs.reverse = E.inside n s m (vs ++ ws) := by
  have hesp : E.entryEsp s - UInt32.ofNat (4 * ws.length)
        - UInt32.ofNat (4 * vs.reverse.length)
      = E.entryEsp s - UInt32.ofNat (4 * (vs ++ ws).length) := by
    rw [List.length_reverse, List.length_append, sub_ofNat_sub_ofNat]
  have hmem : pushed (E.entryEsp s - UInt32.ofNat (4 * ws.length)) vs.reverse
        (pushed (E.entryEsp s) ws.reverse s.mem)
      = pushed (E.entryEsp s) (vs ++ ws).reverse s.mem := by
    rw [List.reverse_append, pushed_append, List.length_reverse]
  rw [Cpu.pushAll_eq, Env.inside, Env.inside]
  dsimp only
  rw [hesp, hmem]

theorem inside_push (n : UInt8) (s : Cpu) (m w : UInt32) (ws : List UInt32) :
    (E.inside n s m ws).push w = E.inside n s m (w :: ws) :=
  inside_pushAll n s m ws [w]

/-- The stack of the handler. -/
theorem stacked_inside (n : UInt8) (s : Cpu) (m : UInt32) (ws : List UInt32)
    (hws : ws.length ≤ 1073741824) :
    Stacked (E.inside n s m ws).mem (E.inside n s m ws).esp ws := by
  have hnil : Stacked s.mem (E.entryEsp s) [] := trivial
  have hstack := hnil.pushed ws.reverse [] (by rw [List.length_reverse, List.length_nil]; omega)
  rw [List.length_reverse, List.reverse_reverse, List.append_nil] at hstack
  exact hstack

theorem sameBut_inside (n : UInt8) (s : Cpu) (m : UInt32) (ws : List UInt32) {k : ℕ}
    (hws : 4 * ws.length ≤ k) (hk : k ≤ 4294967296) :
    SameBut (E.entryEsp s - UInt32.ofNat k) k s.mem (E.inside n s m ws).mem := by
  have hsame := sameBut_pushed (E.entryEsp s) ws.reverse s.mem (by rw [List.length_reverse]; omega)
  rw [List.length_reverse] at hsame
  exact hsame.extend (le_refl _) hws hk

/-- An interrupt gate clears IF. -/
theorem interrupts_inside (hgate : (E.gate n).interrupt = true) (s : Cpu) (m : UInt32)
    (ws : List UInt32) : (E.inside n s m ws).interrupts = false := by
  have hflags : (s.eflags &&& ~~~0x34300) &&& 0x200 = 0 := by
    rw [UInt32.and_assoc, show ~~~0x34300 &&& 0x200 = (0 : UInt32) by decide, UInt32.and_zero]
  rw [Cpu.interrupts, Env.inside, hgate, if_pos rfl, hflags]
  rfl

/-- A handler runs at level 0. -/
theorem cpl_inside (n : UInt8) (s : Cpu) (m : UInt32) (ws : List UInt32) :
    (E.inside n s m ws).cpl = 0 := by
  rw [Cpu.cpl, Env.inside, UInt16.and_assoc, show (0xFFFC : UInt16) &&& 3 = 0 by decide,
    UInt16.and_zero]

/-- The data segments are ones that the level of the code may use. -/
structure OwnSegments (E : Env) (s : Cpu) : Prop where
  es : E.visible s.cpl s.es = s.es
  ds : E.visible s.cpl s.ds = s.ds
  fs : E.visible s.cpl s.fs = s.fs
  gs : E.visible s.cpl s.gs = s.gs

theorem visible_visible (E : Env) (level selector : UInt16) :
    E.visible level (E.visible level selector) = E.visible level selector := by
  rw [Env.visible, Env.visible]
  split
  · exact ite_self 0
  · rfl

/-- `iret` to an outer level. -/
theorem iret_outer {eip eflags esp : UInt32} {cs ss : UInt16}
    (hs : Stacked s.mem s.esp [eip, cs.toUInt32, eflags, esp, ss.toUInt32])
    (hlevel : cs &&& 3 ≠ s.cpl) :
    E.iret s = { s with
      eip := eip
      cs := cs
      eflags := eflags
      esp := esp
      ss := ss
      es := E.visible (cs &&& 3) s.es
      ds := E.visible (cs &&& 3) s.ds
      fs := E.visible (cs &&& 3) s.fs
      gs := E.visible (cs &&& 3) s.gs } := by
  obtain ⟨h0, h4, h8, h12, h16, -⟩ := hs
  simp only [UInt32.add_assoc, UInt32.reduceAdd] at h8 h12 h16
  simp only [Env.iret, Cpu.top, h0, h4, h8, h12, h16, UInt16.toUInt16_toUInt32, if_neg hlevel]

/-- `iret` from the handler of an interrupt of `s`: its registers, but for the general
ones, come back. -/
theorem iret_inside (hstack : Stacked r.mem r.esp (returnFrame s ret)) (hcpl : r.cpl = 0)
    (hsegments : OwnSegments E s) (hes : r.es = s.es) (hds : r.ds = s.ds) (hfs : r.fs = s.fs)
    (hgs : r.gs = s.gs) (hinner : s.cpl = 0 → r.ss = s.ss ∧ r.esp + 12 = s.esp) :
    E.iret r = { s with
      eax := r.eax
      ecx := r.ecx
      edx := r.edx
      ebx := r.ebx
      ebp := r.ebp
      esi := r.esi
      edi := r.edi
      eip := ret
      mem := r.mem } := by
  rw [returnFrame] at hstack
  split at hstack
  next hlevel =>
    -- the level stays the same, and so does the stack
    obtain ⟨hss, hesp⟩ := hinner hlevel
    obtain ⟨h0, h4, h8, -⟩ := hstack
    simp only [UInt32.add_assoc, UInt32.reduceAdd] at h8
    have hsame : s.cs &&& 3 = r.cpl := by
      rw [hcpl, ← hlevel, Cpu.cpl]
    simp only [Env.iret, Cpu.top, h0, h4, h8, UInt16.toUInt16_toUInt32, if_pos hsame, Cpu.drop,
      hesp, hes, hds, hfs, hgs, hss]
  next hlevel =>
    have hdiffers : s.cs &&& 3 ≠ r.cpl := by
      rw [hcpl]
      exact hlevel
    rw [iret_outer hstack hdiffers, hes, hds, hfs, hgs, ← Cpu.cpl, hsegments.es, hsegments.ds,
      hsegments.fs, hsegments.gs]

end Gates

end ProtectedMode
