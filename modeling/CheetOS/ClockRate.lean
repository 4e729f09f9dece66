import CheetOS.ClockDescriptor

/-!
# The rates of the clock (`rtc.c`)

`rtc_write` chooses the rate of the periodic interrupt.

* `rateHz` is the frequency the MC146818 gives to a rate, and `RateLaw` what a call should
  do: set the rate of a supported frequency, refuse everything else;
* `rateLaw_rtcWrite_iff` says for which calls it holds.  The arm for 256 is taken by every
  value the arms before it left over, and the number of bytes is not looked at.
-/

namespace CheetOS

open Exec

/-! ## The rates -/

/-- The frequency of the periodic interrupt at a rate; rate 0 turns it off. -/
def rateHz : ℕ → ℕ
  | 0 => 0
  | 1 => 256
  | 2 => 128
  | rate => 32768 >>> (rate - 1)

/-- What `rtc_write` supports: a frequency in four bytes, a power of two up to 1024. -/
def Supported (frequency : UInt32) (nbytes : Int32) : Prop :=
  nbytes = 4 ∧ ∃ k, 1 ≤ k ∧ k ≤ 10 ∧ frequency.toNat = 2 ^ k

/-- What `rtc_write` should return, and do to register A. -/
structure RateLaw (frequency : UInt32) (nbytes result : Int32) (regA regA' : UInt8) : Prop where
  /-- A supported frequency is set, and the high nibble stays. -/
  set : Supported frequency nbytes → 0 ≤ result ∧ regA' &&& 0xF0 = regA &&& 0xF0 ∧
    rateHz (regA' &&& 0x0F).toNat = frequency.toNat
  /-- Everything else is refused. -/
  refused : ¬Supported frequency nbytes → result = -1 ∧ regA' = regA

/-! ## The chain of tests -/

/-- The rate of a power of two that has an arm of its own, and of 256. -/
theorem rateHz_rtcRate {k : ℕ} (h1 : 1 ≤ k) (h8 : k ≤ 8) :
    0 ≤ rtcRate (UInt32.ofNat (2 ^ k)).toInt32 ∧
      (rtcRate (UInt32.ofNat (2 ^ k)).toInt32).toUInt32.toUInt8 &&& 0xF0 = 0 ∧
      rateHz (rtcRate (UInt32.ofNat (2 ^ k)).toInt32).toUInt32.toUInt8.toNat = 2 ^ k := by
  interval_cases k
  all_goals decide

/-- The arm for 256 catches 512 and 1024. -/
theorem rtcRate_caught {k : ℕ} (h9 : 9 ≤ k) (h10 : k ≤ 10) :
    rtcRate (UInt32.ofNat (2 ^ k)).toInt32 = 1 := by
  interval_cases k
  all_goals decide

theorem or_and_distrib (a b mask : UInt8) : (a ||| b) &&& mask = a &&& mask ||| b &&& mask := by
  rw [← UInt8.toNat_inj]
  simp only [UInt8.toNat_and, UInt8.toNat_or]
  exact Nat.and_or_distrib_right ..

/-- The two nibbles of what is written to register A. -/
theorem nibbles (regA rate : UInt8) (h : rate &&& 0xF0 = 0) :
    (regA &&& 0xF0 ||| rate) &&& 0xF0 = regA &&& 0xF0 ∧
      (regA &&& 0xF0 ||| rate) &&& 0x0F = rate := by
  have hlow : rate &&& 0x0F = rate := by
    have hsplit := or_and_distrib 0x0F 0xF0 rate
    rwa [UInt8.and_comm 0xF0, h, UInt8.or_zero, show (0x0F ||| 0xF0 : UInt8) = -1 by decide,
      UInt8.neg_one_and, UInt8.and_comm, eq_comm] at hsplit
  constructor
  · rw [or_and_distrib, UInt8.and_assoc, UInt8.and_self, h, UInt8.or_zero]
  · have hnone : (0xF0 : UInt8) &&& 0x0F = 0 := by decide
    rw [or_and_distrib, UInt8.and_assoc, hnone, hlow, UInt8.and_zero]
    exact UInt8.zero_or

namespace Platform

variable {P : Platform}

/-- What a call returns and leaves in the clock. -/
theorem rtcWrite_run {buf f : UInt32} {k : Kernel} (hload : P.loadWord buf k = .ok f k)
    (nbytes : Int32) :
    P.rtcWrite buf nbytes k
      = .ok (rtcRate f.toInt32) { k with rtc := (rtcSetRate f.toInt32 k.rtc).2 } := by
  unfold rtcWrite
  rw [bind_of_ok hload]
  rfl

/-- **The calls that do what `rtc_write` should do** are those with four bytes and a power
of two from 2 to 256. -/
theorem rateLaw_rtcWrite_iff {buf f : UInt32} {k : Kernel}
    (hload : P.loadWord buf k = .ok f k) (nbytes : Int32) :
    ∃ result k', P.rtcWrite buf nbytes k = .ok result k' ∧
      (RateLaw f nbytes result k.rtc.regA k'.rtc.regA ↔
        nbytes = 4 ∧ ∃ j, 1 ≤ j ∧ j ≤ 8 ∧ f.toNat = 2 ^ j) := by
  refine ⟨_, _, rtcWrite_run hload nbytes, ?_⟩
  have hword (j : ℕ) (hj : f.toNat = 2 ^ j) : f = UInt32.ofNat (2 ^ j) := by
    rw [← hj, UInt32.ofNat_toNat]
  constructor
  · intro hlaw
    by_cases hsup : Supported f nbytes
    · obtain ⟨hfour, j, h1, h10, hj⟩ := hsup
      refine ⟨hfour, j, h1, ?_, hj⟩
      by_contra h8
      have hhz := (hlaw.set ⟨hfour, j, h1, h10, hj⟩).2.2
      have hcaught := rtcRate_caught (show 9 ≤ j by omega) h10
      rw [← hword j hj] at hcaught
      -- the rate in the register is 1, that of 256 Hz
      have hreg : ((rtcSetRate f.toInt32 k.rtc).2.regA &&& 0x0F) = 1 := by
        rw [rtcSetRate, hcaught]
        exact (nibbles k.rtc.regA 1 (by decide)).2
      have h256 : f.toNat = 256 := by
        rw [← hhz]
        exact congrArg (fun b : UInt8 => rateHz b.toNat) hreg
      have hlarge : 2 ^ 9 ≤ 2 ^ j := Nat.pow_le_pow_right (by decide) (by omega)
      omega
    · exact absurd (hlaw.refused hsup).1 (rtcRate_ne _)
  · rintro ⟨hfour, j, h1, h8, hj⟩
    have hsup : Supported f nbytes := ⟨hfour, j, h1, by omega, hj⟩
    refine ⟨fun _ => ?_, fun h => absurd hsup h⟩
    obtain ⟨hpos, hnibble, hhz⟩ := rateHz_rtcRate h1 h8
    rw [← hword j hj] at hpos hnibble hhz
    obtain ⟨hhigh, hlow⟩ := nibbles k.rtc.regA _ hnibble
    refine ⟨hpos, hhigh, ?_⟩
    rw [hj, ← hhz]
    exact congrArg (fun b : UInt8 => rateHz b.toNat) hlow

/-- A kernel that is asked for 64 Hz. -/
theorem rateLaw_rtcWrite_iff_sample :
    ∃ k : Kernel, samplePlatform.loadWord 0x500400 k = .ok 64 k ∧
      ∃ result k', samplePlatform.rtcWrite 0x500400 4 k = .ok result k' ∧
        (RateLaw 64 4 result k.rtc.regA k'.rtc.regA ↔
          (4 : Int32) = 4 ∧ ∃ j, 1 ≤ j ∧ j ≤ 8 ∧ (64 : UInt32).toNat = 2 ^ j) := by
  have hload : samplePlatform.loadWord 0x500400
      (bootMachine samplePlatform [(0x500400, [64, 0, 0, 0])]).kernel = .ok 64
        (bootMachine samplePlatform [(0x500400, [64, 0, 0, 0])]).kernel := by
    rfl
  exact ⟨_, hload, rateLaw_rtcWrite_iff hload 4⟩

/-- Asked for 512 Hz the clock is set to 256 Hz. -/
theorem rtcWrite_catches_512 :
    ∃ k : Kernel, samplePlatform.loadWord 0x500400 k = .ok 512 k ∧
      ∃ k', samplePlatform.rtcWrite 0x500400 4 k = .ok 1 k' ∧
        ¬RateLaw 512 4 1 k.rtc.regA k'.rtc.regA := by
  have hload : samplePlatform.loadWord 0x500400
      (bootMachine samplePlatform [(0x500400, [0, 2, 0, 0])]).kernel = .ok 512
        (bootMachine samplePlatform [(0x500400, [0, 2, 0, 0])]).kernel := by
    rfl
  refine ⟨_, hload, _, rtcWrite_run hload 4, fun hlaw => ?_⟩
  have hhz := (hlaw.set ⟨rfl, 9, by decide, by decide, by decide⟩).2.2
  exact absurd hhz (by decide)

end Platform

end CheetOS
