import CheetOS.Devices

/-!
# Masking interrupt lines

What sequences of `enable_irq` and `disable_irq` do to the lines of the two
interrupt controllers.

* `LeftEnabled` is the meaning the calls are after: the last call that names a
  line is an `enable_irq`.
* `masked_master`, `masked_slave` and `masked_cascade` — each mask bit follows the
  last call that touches it.  The bit of a line is touched by the calls that name
  it, the cascade bit by every call for a line of the slave.
* `independent_iff` — the lines are independent of one another exactly when no
  line of the slave is left enabled behind a `disable_irq` for another one.
-/

namespace CheetOS

/-! ## Sequences of calls -/

/-- A call of one of the two functions. -/
inductive IrqCall
  | enableIrq (irqNum : UInt32)
  | disableIrq (irqNum : UInt32)
  deriving DecidableEq, Repr

namespace IrqCall

/-- The line a call names. -/
def irqNum : IrqCall → UInt32
  | .enableIrq n => n
  | .disableIrq n => n

/-- What a call does to the masks. -/
def run (pic : Pic) : IrqCall → Pic
  | .enableIrq n => CheetOS.enableIrq n pic
  | .disableIrq n => CheetOS.disableIrq n pic

/-- The call is an `enable_irq`. -/
def isEnable : IrqCall → Bool
  | .enableIrq _ => true
  | .disableIrq _ => false

end IrqCall

/-- The masks after a sequence of calls. -/
def runCalls (pic : Pic) (calls : List IrqCall) : Pic := calls.foldl IrqCall.run pic

/-- The masks before the first call. -/
def allMasked : Pic := { masterMask := 0xFF, slaveMask := 0xFF }

/-- Some call names a line of `p`, and the last one that does is an `enable_irq`. -/
def leftEnabled (p : UInt32 → Bool) (calls : List IrqCall) : Bool :=
  ((calls.filter fun c => p c.irqNum).getLast?.map IrqCall.isEnable).getD false

theorem leftEnabled_concat (p : UInt32 → Bool) (calls : List IrqCall) (c : IrqCall) :
    leftEnabled p (calls ++ [c]) = if p c.irqNum then c.isEnable else leftEnabled p calls := by
  rw [leftEnabled, List.filter_append]
  by_cases h : p c.irqNum
  · simp [h]
  · simp [h, leftEnabled]

/-! ## Mask bits -/

/-- A bit of a mask byte is set. -/
def masked (mask : UInt8) (line : ℕ) : Bool := mask.toNat.testBit line

theorem masked_or {k line : ℕ} (mask : UInt8) (hk : k < 8) (hline : line < 8) :
    masked (mask ||| (1 : UInt8) <<< UInt8.ofNat k) line = (masked mask line || k == line) := by
  rw [masked, UInt8.toNat_or, Nat.testBit_or]
  congr 1
  interval_cases k <;> interval_cases line <;> decide

theorem masked_and {k line : ℕ} (mask : UInt8) (hk : k < 8) (hline : line < 8) :
    masked (mask &&& ~~~((1 : UInt8) <<< UInt8.ofNat k)) line
      = (masked mask line && !(k == line)) := by
  rw [masked, UInt8.toNat_and, Nat.testBit_and]
  congr 1
  interval_cases k <;> interval_cases line <;> decide

/-- The call names line `n`. -/
def names (n : ℕ) (irqNum : UInt32) : Bool := irqNum.toNat == n

/-- The call names a line of the slave. -/
def onSlave (irqNum : UInt32) : Bool := decide (8 ≤ irqNum.toNat) && decide (irqNum.toNat ≤ 15)

/-- The calls that write bit `line` of `master_mask`: those that name the line, and
for the cascade line those for the slave as well. -/
def writesMaster (line : ℕ) (irqNum : UInt32) : Bool :=
  names line irqNum || (line == 2 && onSlave irqNum)

/-- The bit number the functions compute. -/
theorem toUInt8_sub {irqNum : UInt32} (hle : 8 ≤ irqNum.toNat) (hlt : irqNum.toNat < 16) :
    (irqNum - UInt32.ofNat 8).toUInt8 = UInt8.ofNat (irqNum.toNat - 8) := by
  obtain ⟨k, hk⟩ : ∃ k, irqNum.toNat = 8 + k := Nat.exists_eq_add_of_le hle
  have hirq : irqNum = UInt32.ofNat (8 + k) := by rw [← hk, UInt32.ofNat_toNat]
  have hlt' : k < 8 := by omega
  rw [hk, hirq, Nat.add_sub_cancel_left, UInt32.ofNat_add, UInt32.add_comm, UInt32.add_sub_cancel]
  interval_cases k <;> rfl

theorem not_numIrq_lt {irqNum : UInt32} (h : irqNum.toNat ≤ 15) : ¬irqNum > numIrq := by
  rw [gt_iff_lt, UInt32.lt_iff_toNat_lt]
  exact not_lt.2 h

/-- A call for a line of the master. -/
theorem run_master (pic : Pic) (c : IrqCall) (h : c.irqNum.toNat < 8) :
    c.run pic =
      { pic with
        masterMask := bif c.isEnable
          then pic.masterMask &&& ~~~((1 : UInt8) <<< UInt8.ofNat c.irqNum.toNat)
          else pic.masterMask ||| ((1 : UInt8) <<< UInt8.ofNat c.irqNum.toNat) } := by
  have hnum := not_numIrq_lt (show c.irqNum.toNat ≤ 15 by omega)
  have hslave : ¬c.irqNum > 7 := by
    rw [gt_iff_lt, UInt32.lt_iff_toNat_lt]
    exact not_lt.2 (Nat.lt_succ_iff.1 h)
  have hline : c.irqNum.toUInt8 = UInt8.ofNat c.irqNum.toNat := by simp
  cases c with
  | enableIrq irqNum =>
    simp only [IrqCall.irqNum] at hnum hslave hline ⊢
    rw [IrqCall.run, enableIrq, if_neg hnum, if_neg hslave, hline]
    rfl
  | disableIrq irqNum =>
    simp only [IrqCall.irqNum] at hnum hslave hline ⊢
    rw [IrqCall.run, disableIrq, if_neg hnum, if_neg hslave, hline]
    rfl

/-- A call for a line of the slave writes the cascade bit as well. -/
theorem run_slave (pic : Pic) (c : IrqCall) (h : 8 ≤ c.irqNum.toNat) (h' : c.irqNum.toNat ≤ 15) :
    c.run pic =
      { slaveMask := bif c.isEnable
          then pic.slaveMask &&& ~~~((1 : UInt8) <<< UInt8.ofNat (c.irqNum.toNat - 8))
          else pic.slaveMask ||| ((1 : UInt8) <<< UInt8.ofNat (c.irqNum.toNat - 8))
        masterMask := bif c.isEnable
          then pic.masterMask &&& ~~~((1 : UInt8) <<< UInt8.ofNat 2)
          else pic.masterMask ||| ((1 : UInt8) <<< UInt8.ofNat 2) } := by
  have hnum := not_numIrq_lt h'
  have hslave : c.irqNum > 7 := by
    rw [gt_iff_lt, UInt32.lt_iff_toNat_lt]
    exact Nat.lt_of_succ_le h
  have hline := toUInt8_sub h (by omega)
  cases c with
  | enableIrq irqNum =>
    simp only [IrqCall.irqNum] at hnum hslave hline ⊢
    rw [IrqCall.run, enableIrq, if_neg hnum, if_pos hslave, ← hline]
    rfl
  | disableIrq irqNum =>
    simp only [IrqCall.irqNum] at hnum hslave hline ⊢
    rw [IrqCall.run, disableIrq, if_neg hnum, if_pos hslave, ← hline]
    rfl

/-- A call for a line that does not exist changes nothing. -/
theorem run_none (pic : Pic) (c : IrqCall) (h : 15 < c.irqNum.toNat) : c.run pic = pic := by
  have hnum : c.irqNum > numIrq := UInt32.lt_iff_toNat_lt.2 h
  cases c with
  | enableIrq irqNum => exact if_pos hnum
  | disableIrq irqNum => exact if_pos hnum

/-- One bit of a mask after a bit was cleared or set. -/
theorem masked_write {k line : ℕ} (mask : UInt8) (b : Bool) (hk : k < 8) (hline : line < 8) :
    masked (bif b then mask &&& ~~~((1 : UInt8) <<< UInt8.ofNat k)
      else mask ||| ((1 : UInt8) <<< UInt8.ofNat k)) line
      = if k = line then !b else masked mask line := by
  cases b with
  | false =>
    rw [cond_false, masked_or mask hk hline]
    by_cases h : k = line <;> simp [h]
  | true =>
    rw [cond_true, masked_and mask hk hline]
    by_cases h : k = line <;> simp [h]

theorem masked_run_master (pic : Pic) (c : IrqCall) {line : ℕ} (hline : line < 8) :
    masked (c.run pic).masterMask line
      = if writesMaster line c.irqNum then !c.isEnable else masked pic.masterMask line := by
  by_cases hmaster : c.irqNum.toNat < 8
  · have hoff : onSlave c.irqNum = false := by simp [onSlave, hmaster]
    rw [run_master pic c hmaster, masked_write _ _ hmaster hline]
    simp [writesMaster, names, hoff]
  · by_cases hslave : c.irqNum.toNat ≤ 15
    · have hon : onSlave c.irqNum = true := by simp [onSlave, hslave, not_lt.1 hmaster]
      have hne : c.irqNum.toNat ≠ line := by omega
      rw [run_slave pic c (not_lt.1 hmaster) hslave, masked_write _ _ (by decide) hline]
      by_cases h2 : 2 = line
      · simp [writesMaster, hon, ← h2]
      · simp [writesMaster, names, hne, h2, Ne.symm h2]
    · have hoff : onSlave c.irqNum = false := by simp [onSlave, hslave]
      have hne : c.irqNum.toNat ≠ line := by omega
      rw [run_none pic c (not_le.1 hslave)]
      simp [writesMaster, names, hoff, hne]

theorem masked_run_slave (pic : Pic) (c : IrqCall) {line : ℕ} (hline : line < 8) :
    masked (c.run pic).slaveMask line
      = if names (8 + line) c.irqNum then !c.isEnable else masked pic.slaveMask line := by
  by_cases hmaster : c.irqNum.toNat < 8
  · have hne : c.irqNum.toNat ≠ 8 + line := by omega
    rw [run_master pic c hmaster]
    simp [names, hne]
  · by_cases hslave : c.irqNum.toNat ≤ 15
    · have hiff : c.irqNum.toNat - 8 = line ↔ c.irqNum.toNat = 8 + line := by omega
      rw [run_slave pic c (not_lt.1 hmaster) hslave, masked_write _ _ (by omega) hline]
      simp [names, hiff]
    · have hne : c.irqNum.toNat ≠ 8 + line := by omega
      rw [run_none pic c (not_le.1 hslave)]
      simp [names, hne]

/-! ## The bits after a sequence of calls -/

theorem runCalls_concat (pic : Pic) (calls : List IrqCall) (c : IrqCall) :
    runCalls pic (calls ++ [c]) = c.run (runCalls pic calls) := by
  rw [runCalls, List.foldl_append]
  rfl

/-- A bit that some calls write, and no others, follows the last of them. -/
theorem bit_eq_leftEnabled (bit : Pic → Bool) {p : UInt32 → Bool} (hinit : bit allMasked = true)
    (hrun : ∀ pic c, bit (IrqCall.run pic c) = if p c.irqNum then !c.isEnable else bit pic)
    (calls : List IrqCall) : bit (runCalls allMasked calls) = !leftEnabled p calls := by
  induction calls using List.reverseRecOn with
  | nil => exact hinit
  | append_singleton calls c ih =>
    rw [runCalls_concat, hrun, leftEnabled_concat, ih]
    split <;> rfl

theorem masked_master (calls : List IrqCall) {line : ℕ} (hline : line < 8) :
    masked (runCalls allMasked calls).masterMask line = !leftEnabled (writesMaster line) calls := by
  refine bit_eq_leftEnabled (fun pic => masked pic.masterMask line) ?_ ?_ calls
  · interval_cases line <;> rfl
  · intro pic c
    exact masked_run_master pic c hline

theorem masked_slave (calls : List IrqCall) {line : ℕ} (hline : line < 8) :
    masked (runCalls allMasked calls).slaveMask line = !leftEnabled (names (8 + line)) calls := by
  refine bit_eq_leftEnabled (fun pic => masked pic.slaveMask line) ?_ ?_ calls
  · interval_cases line <;> rfl
  · intro pic c
    exact masked_run_slave pic c hline

/-- Without a call that names it, the cascade line follows the slave. -/
theorem masked_cascade {calls : List IrqCall} (hne : ∀ c ∈ calls, c.irqNum ≠ 2) :
    masked (runCalls allMasked calls).masterMask 2 = !leftEnabled onSlave calls := by
  have hfilter : (calls.filter fun c => writesMaster 2 c.irqNum)
      = calls.filter fun c => onSlave c.irqNum := by
    refine List.filter_congr fun c hc => ?_
    have hnat : c.irqNum.toNat ≠ 2 := fun h => hne c hc (UInt32.toNat_inj.1 h)
    simp [writesMaster, names, hnat]
  rw [masked_master calls (by decide), leftEnabled, hfilter, leftEnabled]

/-! ## Independence -/

/-- An interrupt on line `n` reaches the processor. -/
def Pic.Deliverable (pic : Pic) (n : ℕ) : Prop :=
  if n < 8 then masked pic.masterMask n = false
  else masked pic.slaveMask (n - 8) = false ∧ masked pic.masterMask 2 = false

instance (pic : Pic) (n : ℕ) : Decidable (pic.Deliverable n) :=
  inferInstanceAs (Decidable (ite ..))

/-- Some call names line `n`, and the last one that does is an `enable_irq`. -/
abbrev LeftEnabled (calls : List IrqCall) (n : ℕ) : Prop := leftEnabled (names n) calls = true

/-- The lines are independent: each is delivered as its own calls ask for, and calls
for lines that do not exist change nothing. -/
def Independent (calls : List IrqCall) : Prop :=
  (∀ n ≤ 15, n ≠ 2 → ((runCalls allMasked calls).Deliverable n ↔ LeftEnabled calls n)) ∧
    ∀ pic, ∀ irqNum > 15, enableIrq irqNum pic = pic ∧ disableIrq irqNum pic = pic

/-- While a line of the slave is left enabled, the last call for a line of the slave
is an `enable_irq`. -/
def CascadeKept (calls : List IrqCall) : Prop :=
  ∀ n ≤ 15, 8 ≤ n → LeftEnabled calls n → leftEnabled onSlave calls = true

theorem deliverable_master (calls : List IrqCall) {n : ℕ} (hn : n < 8) (h2 : n ≠ 2) :
    (runCalls allMasked calls).Deliverable n ↔ LeftEnabled calls n := by
  have hwrites : writesMaster n = names n := by
    funext irqNum
    simp [writesMaster, h2]
  rw [Pic.Deliverable, if_pos hn, masked_master calls hn, hwrites, LeftEnabled]
  simp

/-- A line of the slave is delivered when it is left enabled and so is the cascade. -/
theorem deliverable_slave {calls : List IrqCall} (hne : ∀ c ∈ calls, c.irqNum ≠ 2) {n : ℕ}
    (hn : n ≤ 15) (h8 : 8 ≤ n) :
    (runCalls allMasked calls).Deliverable n
      ↔ LeftEnabled calls n ∧ leftEnabled onSlave calls = true := by
  rw [Pic.Deliverable, if_neg (not_lt.2 h8), masked_slave calls (by omega), masked_cascade hne,
    Nat.add_sub_cancel' h8, LeftEnabled]
  simp

/-- **The lines are independent exactly when the cascade is kept open.** -/
theorem independent_iff (calls : List IrqCall) (hne : ∀ c ∈ calls, c.irqNum ≠ 2) :
    Independent calls ↔ CascadeKept calls := by
  constructor
  · rintro ⟨hlines, -⟩ n hn h8 hleft
    have hdel := (hlines n hn (by omega)).2 hleft
    exact ((deliverable_slave hne hn h8).1 hdel).2
  · intro hkept
    constructor
    · intro n hn h2
      by_cases h8 : n < 8
      · exact deliverable_master calls h8 h2
      · rw [deliverable_slave hne hn (not_lt.1 h8)]
        exact and_iff_left_of_imp (hkept n hn (not_lt.1 h8))
    · intro pic irqNum hnum
      have hnum' : 15 < irqNum.toNat := UInt32.lt_iff_toNat_lt.1 hnum
      exact ⟨run_none pic (.enableIrq irqNum) hnum', run_none pic (.disableIrq irqNum) hnum'⟩

/-- A line of the slave is delivered after it was enabled and a line of the master
was disabled. -/
theorem independent_iff_clock :
    Independent [.disableIrq 14, .enableIrq 8, .disableIrq 1] := by
  refine (independent_iff _ (by decide)).2 fun n hn h8 _ => ?_
  decide

/-- Disabling line 14 cuts line 8 off. -/
theorem disable_cuts_clock :
    ¬∀ calls : List IrqCall, (∀ c ∈ calls, c.irqNum ≠ 2) → Independent calls := by
  intro h
  have hind := (h [.enableIrq 8, .enableIrq 14, .disableIrq 14] (by decide)).1 8 (by decide)
    (by decide)
  exact absurd (hind.2 (by decide)) (by decide)

end CheetOS
