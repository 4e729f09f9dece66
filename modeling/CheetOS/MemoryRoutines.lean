import CheetOS.TextScreen
import CheetOS.Lib.X86

/-!
# memset, memcpy and memmove (`lib.c`)

The three routines instruction by instruction, and what they do to memory.

* `memset_ends` and `memcpy_ends` — the loops over bytes up to an aligned address, over
  words, and over the last bytes together fill, or copy, the block;
* `memmove_ends` — `memmove` copies the block at once, upwards or downwards, and returns
  with the direction flag set when it went downwards.
-/

namespace CheetOS

open X86 MemoryBlock

/-! ## The programs -/

/-- The labels, without the name of the routine in front. -/
inductive Label
  | top
  | aligned
  | bottom
  | done
  | go
  deriving DecidableEq, Repr

/-- `memset`. -/
def memsetCode : List (Instr Label) :=
  [.label .top,
   .test .ecx .ecx,
   .jz .done,
   .testImm 3 .edi,
   .jz .aligned,
   .storeAl .edi,
   .addImm 1 .edi,
   .subImm 1 .ecx,
   .jmp .top,
   .label .aligned,
   .movDsDx,
   .movDxEs,
   .mov .ecx .edx,
   .shrImm 2 .ecx,
   .andImm 3 .edx,
   .cld,
   .rep .stosl,
   .label .bottom,
   .test .edx .edx,
   .jz .done,
   .storeAl .edi,
   .addImm 1 .edi,
   .subImm 1 .edx,
   .jmp .bottom,
   .label .done]

/-- The registers `memset(s, c, n)` begins with. -/
def memsetCall (s : UInt32) (c : Int32) (n : UInt32) (cpu : Cpu) : Cpu :=
  let c := c.toUInt32 &&& 0xFF
  { cpu with eax := c <<< 24 ||| c <<< 16 ||| c <<< 8 ||| c, edi := s, ecx := n }

/-- `memcpy`. -/
def memcpyCode : List (Instr Label) :=
  [.label .top,
   .test .ecx .ecx,
   .jz .done,
   .testImm 3 .edi,
   .jz .aligned,
   .loadAl .esi,
   .storeAl .edi,
   .addImm 1 .edi,
   .addImm 1 .esi,
   .subImm 1 .ecx,
   .jmp .top,
   .label .aligned,
   .movDsDx,
   .movDxEs,
   .mov .ecx .edx,
   .shrImm 2 .ecx,
   .andImm 3 .edx,
   .cld,
   .rep (.movs 4),
   .label .bottom,
   .test .edx .edx,
   .jz .done,
   .loadAl .esi,
   .storeAl .edi,
   .addImm 1 .edi,
   .addImm 1 .esi,
   .subImm 1 .edx,
   .jmp .bottom,
   .label .done]

/-- The registers `memcpy(dest, src, n)` and `memmove(dest, src, n)` begin with. -/
def copyCall (dest src n : UInt32) (cpu : Cpu) : Cpu :=
  { cpu with esi := src, edi := dest, ecx := n }

/-- `memmove`. -/
def memmoveCode : List (Instr Label) :=
  [.movDsDx,
   .movDxEs,
   .cld,
   .cmp .edi .esi,
   .jae .go,
   .lea (-1) .esi .ecx .esi,
   .lea (-1) .edi .ecx .edi,
   .std,
   .label .go,
   .rep (.movs 1)]

/-! ## memset -/

/-- A byte of the last loop of `memset`. -/
theorem memset_bottom_round {s : Cpu} (h : s.edx ≠ 0) :
    ∃ s', Runs memsetCode (17, s) (17, s') ∧ s'.edx = s.edx - 1 ∧ s'.edi = s.edi + 1 ∧
      s'.eax = s.eax ∧ s'.mem = Function.update s.mem s.edi s.eax.toUInt8 := by
  have htest : Runs memsetCode (18, s) (20, s.flags false false) := runs_test_ne rfl rfl h
  have hbody := runs_straight (show [.storeAl .edi, .addImm 1 .edi, .subImm 1 .edx]
    <+: memsetCode.drop 20 by decide) rfl (s.flags false false)
  exact ⟨_, .go rfl rfl (htest.trans (hbody.trans (.go rfl rfl (.done _)))), rfl, rfl, rfl, rfl⟩

/-- The last loop of `memset`. -/
theorem memset_bottom {s : Cpu} {b : UInt8} (hal : s.eax.toUInt8 = b) :
    ∃ s', Runs memsetCode (17, s) (25, s') ∧ s'.mem = fill s.edi s.edx.toNat b s.mem := by
  induction hm : s.edx.toNat generalizing s with
  | zero =>
    have hzero : s.get .edx = 0 := UInt32.toNat_inj.1 hm
    have htest : Runs memsetCode (18, s) (24, s.flags true false) :=
      runs_test_zero rfl rfl rfl hzero
    exact ⟨_, .go rfl rfl (htest.trans (.go rfl rfl (.done _))), (fill_zero s.edi b s.mem).symm⟩
  | succ m ih =>
    have hlt := s.edx.toNat_lt
    obtain ⟨hne, hpred⟩ := Word32.toNat_pred hm
    obtain ⟨t, hround, hedx, hedi, heax, hmem⟩ := memset_bottom_round hne
    obtain ⟨s', hrest, hfill⟩ := ih (heax.symm ▸ hal) (hedx.symm ▸ hpred)
    refine ⟨s', hround.trans hrest, ?_⟩
    rw [hfill, hedi, hmem, hal]
    exact fill_succ s.edi b s.mem (by omega)

/-- A byte of the first loop. -/
theorem memset_top_round {s : Cpu} (hcount : s.ecx ≠ 0) (halign : s.edi &&& 3 ≠ 0) :
    ∃ s', Runs memsetCode (0, s) (0, s') ∧ s'.ecx = s.ecx - 1 ∧ s'.edi = s.edi + 1 ∧
      s'.eax = s.eax ∧ s'.mem = Function.update s.mem s.edi s.eax.toUInt8 := by
  have htest : Runs memsetCode (1, s) (3, s.flags false false) := runs_test_ne rfl rfl hcount
  have hbits : Runs memsetCode (3, s.flags false false) (5, s.flags false false) :=
    runs_testImm_ne rfl rfl halign
  have hbody := runs_straight (show [.storeAl .edi, .addImm 1 .edi, .subImm 1 .ecx]
    <+: memsetCode.drop 5 by decide) rfl (s.flags false false)
  exact ⟨_, .go rfl rfl (htest.trans (hbits.trans (hbody.trans (.go rfl rfl (.done _))))),
    rfl, rfl, rfl, rfl⟩

/-- From an aligned address to the string instruction. -/
theorem memset_aligned {s : Cpu} (hcount : s.ecx ≠ 0) (halign : s.edi &&& 3 = 0) :
    ∃ t, Runs memsetCode (0, s) (16, t) ∧ t.ecx = s.ecx >>> 2 ∧ t.edx = s.ecx &&& 3 ∧
      t.edi = s.edi ∧ t.eax = s.eax ∧ t.mem = s.mem ∧ t.df = false := by
  have htest : Runs memsetCode (1, s) (3, s.flags false false) := runs_test_ne rfl rfl hcount
  have hbits : Runs memsetCode (3, s.flags false false) (9, s.flags true false) :=
    runs_testImm_zero rfl rfl rfl halign
  have hbody := runs_straight (show [.label .aligned, .movDsDx, .movDxEs, .mov .ecx .edx,
    .shrImm 2 .ecx, .andImm 3 .edx, .cld] <+: memsetCode.drop 9 by decide) rfl (s.flags true false)
  exact ⟨_, .go rfl rfl (htest.trans (hbits.trans hbody)), rfl, rfl, rfl, rfl, rfl, rfl⟩

/-- The words and the bytes behind them. -/
theorem words_and_bytes (n : UInt32) :
    (n >>> 2).toNat = n.toNat / 4 ∧ (n &&& 3).toNat = n.toNat % 4 := by
  constructor
  · rw [UInt32.toNat_shiftRight, Nat.shiftRight_eq_div_pow]
    rfl
  · rw [UInt32.toNat_and]
    exact Nat.and_two_pow_sub_one_eq_mod n.toNat 2

/-- The words and the bytes behind them, from an aligned address on. -/
theorem memset_words {s : Cpu} {b : UInt8}
    (hw : ∀ i < 4, (s.eax >>> (8 * UInt32.ofNat i)).toUInt8 = b) (hal : s.eax.toUInt8 = b)
    (hcount : s.ecx ≠ 0) (halign : s.edi &&& 3 = 0) :
    ∃ s', Runs memsetCode (0, s) (25, s') ∧ s'.mem = fill s.edi s.ecx.toNat b s.mem := by
  obtain ⟨t, hruns, hecx, hedx, hedi, heax, hmem, hdf⟩ := memset_aligned hcount halign
  obtain ⟨hquot, hrem⟩ := words_and_bytes s.ecx
  have hlt := s.ecx.toNat_lt
  have hrep : Runs memsetCode (16, t) (17, repeated .stosl t.ecx.toNat t) := runs_rep rfl t
  rw [hecx, hquot, repeated_stosl hdf (heax.symm ▸ hw) (by omega)] at hrep
  obtain ⟨s', hrest, hfill⟩ := memset_bottom (b := b) (s := { t with
    mem := fill t.edi (4 * (s.ecx.toNat / 4)) b t.mem
    edi := t.edi + UInt32.ofNat (4 * (s.ecx.toNat / 4))
    ecx := t.ecx - UInt32.ofNat (s.ecx.toNat / 4) }) (heax.symm ▸ hal)
  refine ⟨s', hruns.trans (hrep.trans hrest), ?_⟩
  rw [hfill]
  dsimp only
  rw [hedx, hrem, hedi, hmem, fill_fill _ _ _ (by omega), Nat.div_add_mod]

/-- `memset` from its beginning on, for a register `eax` whose four bytes are `b`. -/
theorem memset_run {s : Cpu} {b : UInt8}
    (hw : ∀ i < 4, (s.eax >>> (8 * UInt32.ofNat i)).toUInt8 = b) :
    ∃ s', Runs memsetCode (0, s) (25, s') ∧ s'.mem = fill s.edi s.ecx.toNat b s.mem := by
  have hal : s.eax.toUInt8 = b := by
    have hlow := hw 0 (by decide)
    rwa [show (8 : UInt32) * UInt32.ofNat 0 = 0 from rfl, UInt32.shiftRight_zero] at hlow
  induction hm : s.ecx.toNat generalizing s with
  | zero =>
    have hzero : s.get .ecx = 0 := UInt32.toNat_inj.1 hm
    have htest : Runs memsetCode (1, s) (24, s.flags true false) :=
      runs_test_zero rfl rfl rfl hzero
    exact ⟨_, .go rfl rfl (htest.trans (.go rfl rfl (.done _))), (fill_zero s.edi b s.mem).symm⟩
  | succ m ih =>
    have hlt := s.ecx.toNat_lt
    obtain ⟨hne, hpred⟩ := Word32.toNat_pred hm
    by_cases halign : s.edi &&& 3 = 0
    · rw [← hm]
      exact memset_words hw hal hne halign
    · obtain ⟨t, hround, hecx, hedi, heax, hmem⟩ := memset_top_round hne halign
      obtain ⟨s', hrest, hfill⟩ := ih (heax.symm ▸ hw) (heax.symm ▸ hal) (hecx.symm ▸ hpred)
      refine ⟨s', hround.trans hrest, ?_⟩
      rw [hfill, hedi, hmem, hal]
      exact fill_succ s.edi b s.mem (by omega)

/-- The bytes of `eax` that `memset` begins with. -/
theorem splat_bytes : ∀ n < 256, ∀ i < 4,
    ((UInt32.ofNat n <<< 24 ||| UInt32.ofNat n <<< 16 ||| UInt32.ofNat n <<< 8 ||| UInt32.ofNat n)
      >>> (8 * UInt32.ofNat i)).toUInt8 = UInt8.ofNat n := by
  decide +kernel

/-- **What `memset` does.** -/
theorem memset_ends (s : UInt32) (c : Int32) (n : UInt32) (cpu : Cpu) :
    ∃ cpu', Ends memsetCode (memsetCall s c n cpu) cpu' ∧
      cpu'.mem = fill s n.toNat c.toUInt32.toUInt8 cpu.mem := by
  have hmask : (c.toUInt32 &&& 0xFF).toNat = c.toUInt32.toNat % 256 := by
    rw [UInt32.toNat_and]
    exact Nat.and_two_pow_sub_one_eq_mod _ 8
  have hbyte : UInt8.ofNat (c.toUInt32 &&& 0xFF).toNat = c.toUInt32.toUInt8 := by
    rw [← UInt8.toNat_inj, UInt8.toNat_ofNat', hmask, UInt32.toNat_toUInt8]
    exact Nat.mod_mod _ _
  refine memset_run fun i hi => ?_
  have hsplat := splat_bytes (c.toUInt32 &&& 0xFF).toNat (by omega) i hi
  rw [UInt32.ofNat_toNat, hbyte] at hsplat
  exact hsplat

/-! ## memcpy -/

/-- `movb` changes the low byte of a register. -/
theorem low_byte (w : UInt32) (b : UInt8) :
    ((w &&& 0xFFFFFF00) ||| b.toUInt32).toUInt8 = b := by
  rw [UInt32.toUInt8_or, UInt32.toUInt8_and, UInt8.toUInt8_toUInt32]
  show (w.toUInt8 &&& 0) ||| b = b
  rw [UInt8.and_zero, UInt8.zero_or]

/-- A byte of the last loop of `memcpy`. -/
theorem memcpy_bottom_round {s : Cpu} (h : s.edx ≠ 0) :
    ∃ s', Runs memcpyCode (19, s) (19, s') ∧ s'.edx = s.edx - 1 ∧ s'.edi = s.edi + 1 ∧
      s'.esi = s.esi + 1 ∧ s'.mem = copy s.edi s.esi 1 s.mem := by
  have htest : Runs memcpyCode (20, s) (22, s.flags false false) := runs_test_ne rfl rfl h
  have hbody := runs_straight (show [.loadAl .esi, .storeAl .edi, .addImm 1 .edi, .addImm 1 .esi,
    .subImm 1 .edx] <+: memcpyCode.drop 22 by decide) rfl (s.flags false false)
  refine ⟨_, .go rfl rfl (htest.trans (hbody.trans (.go rfl rfl (.done _)))), rfl, rfl, rfl, ?_⟩
  rw [← copy_one, ← low_byte s.eax (s.mem s.esi)]
  rfl

/-- The last loop of `memcpy`. -/
theorem memcpy_bottom {s : Cpu} (hsafe : UpSafe s.edi s.esi s.edx.toNat) :
    ∃ s', Runs memcpyCode (19, s) (29, s') ∧ s'.mem = copy s.edi s.esi s.edx.toNat s.mem := by
  induction hm : s.edx.toNat generalizing s with
  | zero =>
    have hzero : s.get .edx = 0 := UInt32.toNat_inj.1 hm
    have htest : Runs memcpyCode (20, s) (28, s.flags true false) :=
      runs_test_zero rfl rfl rfl hzero
    exact ⟨_, .go rfl rfl (htest.trans (.go rfl rfl (.done _))), (copy_zero s.edi s.esi s.mem).symm⟩
  | succ m ih =>
    have hlt := s.edx.toNat_lt
    obtain ⟨hne, hpred⟩ := Word32.toNat_pred hm
    obtain ⟨t, hround, hedx, hedi, hesi, hmem⟩ := memcpy_bottom_round hne
    rw [hm] at hsafe
    obtain ⟨s', hrest, hcopy⟩ := ih (by rw [hedx, hpred, hedi, hesi]; exact hsafe.tail)
      (hedx.symm ▸ hpred)
    refine ⟨s', hround.trans hrest, ?_⟩
    rw [hcopy, hedi, hesi, hmem]
    exact copy_succ hsafe (by omega) s.mem

/-- A byte of the first loop. -/
theorem memcpy_top_round {s : Cpu} (hcount : s.ecx ≠ 0) (halign : s.edi &&& 3 ≠ 0) :
    ∃ s', Runs memcpyCode (0, s) (0, s') ∧ s'.ecx = s.ecx - 1 ∧ s'.edi = s.edi + 1 ∧
      s'.esi = s.esi + 1 ∧ s'.mem = copy s.edi s.esi 1 s.mem := by
  have htest : Runs memcpyCode (1, s) (3, s.flags false false) := runs_test_ne rfl rfl hcount
  have hbits : Runs memcpyCode (3, s.flags false false) (5, s.flags false false) :=
    runs_testImm_ne rfl rfl halign
  have hbody := runs_straight (show [.loadAl .esi, .storeAl .edi, .addImm 1 .edi, .addImm 1 .esi,
    .subImm 1 .ecx] <+: memcpyCode.drop 5 by decide) rfl (s.flags false false)
  refine ⟨_, .go rfl rfl (htest.trans (hbits.trans (hbody.trans (.go rfl rfl (.done _))))),
    rfl, rfl, rfl, ?_⟩
  rw [← copy_one, ← low_byte s.eax (s.mem s.esi)]
  rfl

/-- From an aligned address to the string instruction. -/
theorem memcpy_aligned {s : Cpu} (hcount : s.ecx ≠ 0) (halign : s.edi &&& 3 = 0) :
    ∃ t, Runs memcpyCode (0, s) (18, t) ∧ t.ecx = s.ecx >>> 2 ∧ t.edx = s.ecx &&& 3 ∧
      t.edi = s.edi ∧ t.esi = s.esi ∧ t.mem = s.mem ∧ t.df = false := by
  have htest : Runs memcpyCode (1, s) (3, s.flags false false) := runs_test_ne rfl rfl hcount
  have hbits : Runs memcpyCode (3, s.flags false false) (11, s.flags true false) :=
    runs_testImm_zero rfl rfl rfl halign
  have hbody := runs_straight (show [.label .aligned, .movDsDx, .movDxEs, .mov .ecx .edx,
    .shrImm 2 .ecx, .andImm 3 .edx, .cld] <+: memcpyCode.drop 11 by decide) rfl (s.flags true false)
  exact ⟨_, .go rfl rfl (htest.trans (hbits.trans hbody)), rfl, rfl, rfl, rfl, rfl, rfl⟩

/-- The words and the bytes behind them, from an aligned address on. -/
theorem memcpy_words {s : Cpu} (hsafe : UpSafe s.edi s.esi s.ecx.toNat) (hcount : s.ecx ≠ 0)
    (halign : s.edi &&& 3 = 0) :
    ∃ s', Runs memcpyCode (0, s) (29, s') ∧ s'.mem = copy s.edi s.esi s.ecx.toNat s.mem := by
  obtain ⟨t, hruns, hecx, hedx, hedi, hesi, hmem, hdf⟩ := memcpy_aligned hcount halign
  obtain ⟨hquot, hrem⟩ := words_and_bytes s.ecx
  have hlt := s.ecx.toNat_lt
  rw [← Nat.div_add_mod s.ecx.toNat 4] at hsafe
  have hlow : UpSafe t.edi t.esi (4 * (s.ecx.toNat / 4)) := by
    rw [hedi, hesi]
    exact hsafe.mono (Nat.le_add_right _ _)
  have hrep : Runs memcpyCode (18, t) (19, repeated (.movs 4) t.ecx.toNat t) := runs_rep rfl t
  rw [hecx, hquot, repeated_movs hdf hlow (by omega)] at hrep
  obtain ⟨s', hrest, hcopy⟩ := memcpy_bottom (s := { t with
    mem := copy t.edi t.esi (4 * (s.ecx.toNat / 4)) t.mem
    edi := t.edi + UInt32.ofNat (4 * (s.ecx.toNat / 4))
    esi := t.esi + UInt32.ofNat (4 * (s.ecx.toNat / 4))
    ecx := t.ecx - UInt32.ofNat (s.ecx.toNat / 4) })
    (by dsimp only; rw [hedx, hrem, hedi, hesi]; exact hsafe.shift)
  refine ⟨s', hruns.trans (hrep.trans hrest), ?_⟩
  rw [hcopy]
  dsimp only
  rw [hedx, hrem, hedi, hesi, hmem, copy_upwards hsafe (by omega), Nat.div_add_mod]

/-- `memcpy` from its beginning on. -/
theorem memcpy_run {s : Cpu} (hsafe : UpSafe s.edi s.esi s.ecx.toNat) :
    ∃ s', Runs memcpyCode (0, s) (29, s') ∧ s'.mem = copy s.edi s.esi s.ecx.toNat s.mem := by
  induction hm : s.ecx.toNat generalizing s with
  | zero =>
    have hzero : s.get .ecx = 0 := UInt32.toNat_inj.1 hm
    have htest : Runs memcpyCode (1, s) (28, s.flags true false) :=
      runs_test_zero rfl rfl rfl hzero
    exact ⟨_, .go rfl rfl (htest.trans (.go rfl rfl (.done _))), (copy_zero s.edi s.esi s.mem).symm⟩
  | succ m ih =>
    have hlt := s.ecx.toNat_lt
    obtain ⟨hne, hpred⟩ := Word32.toNat_pred hm
    by_cases halign : s.edi &&& 3 = 0
    · rw [← hm]
      exact memcpy_words hsafe hne halign
    · obtain ⟨t, hround, hecx, hedi, hesi, hmem⟩ := memcpy_top_round hne halign
      rw [hm] at hsafe
      obtain ⟨s', hrest, hcopy⟩ := ih (by rw [hecx, hpred, hedi, hesi]; exact hsafe.tail)
        (hecx.symm ▸ hpred)
      refine ⟨s', hround.trans hrest, ?_⟩
      rw [hcopy, hedi, hesi, hmem]
      exact copy_succ hsafe (by omega) s.mem

/-- **What `memcpy` does**, for blocks that have no byte in common. -/
theorem memcpy_ends {dest src n : UInt32} (h : Apart dest src n.toNat) (cpu : Cpu) :
    ∃ cpu', Ends memcpyCode (copyCall dest src n cpu) cpu' ∧
      cpu'.mem = copy dest src n.toNat cpu.mem :=
  memcpy_run (s := copyCall dest src n cpu) h.upSafe

/-- **The routines that work by words do what loops over bytes would do.** -/
theorem memory_routines_bytewise (cpu : Cpu) :
    (∀ (s : UInt32) (c : Int32) (n : UInt32),
      ∃ cpu', Ends memsetCode (memsetCall s c n cpu) cpu' ∧
        (∀ i < n.toNat, cpu'.mem (s + UInt32.ofNat i) = c.toUInt32.toUInt8) ∧
        ∀ a, (∀ i < n.toNat, a ≠ s + UInt32.ofNat i) → cpu'.mem a = cpu.mem a) ∧
    ∀ dest src n : UInt32, Apart dest src n.toNat →
      ∃ cpu', Ends memcpyCode (copyCall dest src n cpu) cpu' ∧
        (∀ i < n.toNat, cpu'.mem (dest + UInt32.ofNat i) = cpu.mem (src + UInt32.ofNat i)) ∧
        ∀ a, (∀ i < n.toNat, a ≠ dest + UInt32.ofNat i) → cpu'.mem a = cpu.mem a := by
  constructor
  · intro s c n
    obtain ⟨cpu', hends, hmem⟩ := memset_ends s c n cpu
    exact ⟨cpu', hends, fun i hi => hmem ▸ fill_at _ _ hi n.toNat_lt.le,
      fun a ha => hmem ▸ fill_outside _ _ ha⟩
  · intro dest src n h
    obtain ⟨cpu', hends, hmem⟩ := memcpy_ends h cpu
    exact ⟨cpu', hends, fun i hi => hmem ▸ copy_at dest src _ hi n.toNat_lt.le,
      fun a ha => hmem ▸ copy_outside src _ ha⟩

/-- A processor whose memory holds at each address its last byte. -/
def sampleCpu : Cpu where
  eax := 0
  ecx := 0
  edx := 0
  esi := 0
  edi := 0
  ds := 0x18
  es := 0x18
  zf := false
  cf := false
  df := false
  mem := UInt32.toUInt8

/-- Five bytes are copied from an odd address to another one. -/
theorem memory_routines_bytewise_sample :
    Apart 0x1003 0x2001 (5 : UInt32).toNat ∧
      ∃ cpu', Ends memcpyCode (copyCall 0x1003 0x2001 5 sampleCpu) cpu' ∧
        cpu'.mem (0x1003 + UInt32.ofNat 4) = 0x05 := by
  have hapart : Apart 0x1003 0x2001 (5 : UInt32).toNat := by
    have hall : ∀ i < 5, ∀ j < 5, (0x2001 : UInt32) + UInt32.ofNat j ≠ 0x1003 + UInt32.ofNat i := by
      decide
    exact fun i j hi hj => hall i hi j hj
  obtain ⟨cpu', hends, hat, -⟩ := (memory_routines_bytewise sampleCpu).2 0x1003 0x2001 5 hapart
  exact ⟨hapart, cpu', hends, hat 4 (by decide)⟩

/-! ## memmove -/

/-- The beginning of `memmove`, up to the comparison. -/
theorem memmove_begin (s : Cpu) :
    ∃ t, Runs memmoveCode (0, s) (3, t) ∧ t.ecx = s.ecx ∧ t.mem = s.mem ∧ t.edi = s.edi ∧
      t.esi = s.esi ∧ t.df = false :=
  ⟨_, runs_straight (show [.movDsDx, .movDxEs, .cld] <+: memmoveCode.drop 0 by decide) rfl s,
    rfl, rfl, rfl, rfl, rfl⟩

/-- The string instruction is reached with the direction flag clear. -/
theorem memmove_up {s : Cpu} (h : ¬s.esi < s.edi) :
    ∃ t, Runs memmoveCode (0, s) (9, t) ∧ t.ecx = s.ecx ∧ t.mem = s.mem ∧ t.edi = s.edi ∧
      t.esi = s.esi ∧ t.df = false := by
  obtain ⟨u, hbegin, hecx, hmem, hedi, hesi, hdf⟩ := memmove_begin s
  have hjump : Runs memmoveCode (3, u) (8, u.flags (u.get .esi == u.get .edi) false) := by
    refine runs_cmp_ge rfl rfl rfl ?_
    show ¬u.esi < u.edi
    rwa [hesi, hedi]
  exact ⟨_, hbegin.trans (hjump.trans (.go rfl rfl (.done _))), hecx, hmem, hedi, hesi, hdf⟩

/-- The pointers are moved to the last bytes. -/
theorem memmove_back (s : Cpu) :
    Runs memmoveCode (5, s) (9, { s with
      edi := s.edi + s.ecx + -1
      esi := s.esi + s.ecx + -1
      df := true }) := by
  have hsrc : Runs memmoveCode (5, s) (6, { s with esi := s.esi + s.ecx + -1 }) :=
    .go rfl rfl (.done _)
  have hdest (t : Cpu) : Runs memmoveCode (6, t) (7, { t with edi := t.edi + t.ecx + -1 }) :=
    .go rfl rfl (.done _)
  have hstd (t : Cpu) : Runs memmoveCode (7, t) (9, { t with df := true }) :=
    .go rfl rfl (.go rfl rfl (.done _))
  exact hsrc.trans ((hdest _).trans (hstd _))

/-- Or it is reached at the ends of the blocks, with the flag set. -/
theorem memmove_down {s : Cpu} (h : s.esi < s.edi) :
    ∃ t, Runs memmoveCode (0, s) (9, t) ∧ t.ecx = s.ecx ∧ t.mem = s.mem ∧
      t.edi = s.edi + s.ecx + -1 ∧ t.esi = s.esi + s.ecx + -1 ∧ t.df = true := by
  obtain ⟨u, hbegin, hecx, hmem, hedi, hesi, -⟩ := memmove_begin s
  have hnext : Runs memmoveCode (3, u) (5, u.flags (u.get .esi == u.get .edi) true) := by
    refine runs_cmp_lt rfl rfl ?_
    show u.esi < u.edi
    rwa [hesi, hedi]
  rw [← hecx, ← hmem, ← hedi, ← hesi]
  exact ⟨_, hbegin.trans (hnext.trans (memmove_back _)), rfl, rfl, rfl, rfl, rfl⟩

/-- **What `memmove` does**: a simultaneous copy, upwards or downwards.  It returns with the
direction flag as it has set it. -/
theorem memmove_ends {dest src n : UInt32} (hdest : dest.toNat + n.toNat ≤ 4294967296)
    (hsrc : src.toNat + n.toNat ≤ 4294967296) (cpu : Cpu) :
    ∃ cpu', Ends memmoveCode (copyCall dest src n cpu) cpu' ∧
      cpu'.mem = copy dest src n.toNat cpu.mem ∧ cpu'.df = decide (src < dest) := by
  have hn := n.toNat_lt
  by_cases hdir : src < dest
  · obtain ⟨t, hruns, hecx, hmem, hedi, hesi, hdf⟩ :=
      memmove_down (s := copyCall dest src n cpu) hdir
    have hrep : Runs memmoveCode (9, t) (10, repeated (.movs 1) t.ecx.toNat t) := runs_rep rfl t
    have hlast (x : UInt32) : x + n + -1 = x + UInt32.ofNat n.toNat - 1 := by
      rw [UInt32.ofNat_toNat, UInt32.sub_eq_add_neg]
    refine ⟨_, hruns.trans hrep, ?_, ?_⟩
    · rw [hecx]
      have hdown := mem_repeated_down (n := n.toNat) hdf (hedi.trans (hlast dest))
        (hesi.trans (hlast src)) (downSafe_of_lt hdir hdest) hn.le
      rw [hmem] at hdown
      exact hdown
    · rw [repeated_df, hdf, decide_eq_true hdir]
  · obtain ⟨t, hruns, hecx, hmem, hedi, hesi, hdf⟩ :=
      memmove_up (s := copyCall dest src n cpu) hdir
    have hrep : Runs memmoveCode (9, t) (10, repeated (.movs 1) t.ecx.toNat t) := runs_rep rfl t
    have hsafe : UpSafe t.edi t.esi (1 * t.ecx.toNat) := by
      rw [hedi, hesi, hecx, Nat.one_mul]
      exact upSafe_of_le (UInt32.not_lt.1 hdir) hsrc
    refine ⟨_, hruns.trans hrep, ?_, ?_⟩
    · rw [repeated_movs hdf hsafe (by rw [hecx, Nat.one_mul]; exact hn.le)]
      dsimp only
      rw [hedi, hesi, hecx, hmem, Nat.one_mul]
      rfl
    · rw [repeated_df, hdf, decide_eq_false hdir]

/-- What `memmove` should leave: the block moved, every other byte, and the direction flag
clear, as compiled code and later string instructions rely on. -/
structure MemmoveLaw (dest src n : UInt32) (cpu cpu' : Cpu) : Prop where
  moved : ∀ i < n.toNat, cpu'.mem (dest + UInt32.ofNat i) = cpu.mem (src + UInt32.ofNat i)
  kept : ∀ a, (∀ i < n.toNat, a ≠ dest + UInt32.ofNat i) → cpu'.mem a = cpu.mem a
  direction : cpu'.df = false

/-- **The calls of `memmove` that leave what they should** are those to an address that is
not above the source. -/
theorem memmove_law_iff {dest src n : UInt32} (hdest : dest.toNat + n.toNat ≤ 4294967296)
    (hsrc : src.toNat + n.toNat ≤ 4294967296) (cpu : Cpu) :
    (∃ cpu', Ends memmoveCode (copyCall dest src n cpu) cpu' ∧ MemmoveLaw dest src n cpu cpu') ↔
      dest ≤ src := by
  obtain ⟨t, hends, hmem, hdf⟩ := memmove_ends hdest hsrc cpu
  constructor
  · rintro ⟨cpu', hends', hlaw⟩
    obtain rfl := hends.unique hends'
    rw [hlaw.direction] at hdf
    exact UInt32.not_lt.1 (of_decide_eq_false hdf.symm)
  · intro hle
    refine ⟨t, hends, fun i hi => hmem ▸ copy_at dest src _ hi n.toNat_lt.le,
      fun a ha => hmem ▸ copy_outside src _ ha, ?_⟩
    rw [hdf, decide_eq_false (UInt32.not_lt.2 hle)]

/-- Two blocks that overlap, moved to the lower address. -/
theorem memmove_law_iff_sample :
    (∃ cpu', Ends memmoveCode (copyCall 0x1000 0x1001 4 sampleCpu) cpu' ∧
      MemmoveLaw 0x1000 0x1001 4 sampleCpu cpu') ↔ (0x1000 : UInt32) ≤ 0x1001 :=
  memmove_law_iff (by decide) (by decide) sampleCpu

/-- Moved to the higher address, they leave the direction flag set. -/
theorem memmove_leaves_direction :
    ¬∃ cpu', Ends memmoveCode (copyCall 0x1001 0x1000 4 sampleCpu) cpu' ∧
      MemmoveLaw 0x1001 0x1000 4 sampleCpu cpu' := by
  rintro ⟨cpu', hends', hlaw⟩
  have hdest : (0x1001 : UInt32).toNat + (4 : UInt32).toNat ≤ 4294967296 := by decide
  have hsrc : (0x1000 : UInt32).toNat + (4 : UInt32).toNat ≤ 4294967296 := by decide
  obtain ⟨t, hends, -, hdf⟩ := memmove_ends hdest hsrc sampleCpu
  obtain rfl := hends.unique hends'
  exact absurd (hlaw.direction.symm.trans hdf) (by decide)

/-! ## The screen -/

/-- The copy that the screen is modelled with is the one the instructions make. -/
theorem memmove_eq_copy (dest src n : UInt32) (mem : UInt32 → UInt8) :
    memmove dest src n mem = copy dest src n.toNat mem := by
  funext a
  simp only [memmove, copy, UInt32.lt_iff_toNat_lt]

/-- When `putc` scrolls, `memmove` goes upwards, and leaves the direction flag clear. -/
theorem scroll_memmove (cpu : Cpu) :
    ∃ cpu', Ends memmoveCode (copyCall video (video + 80 * 2) (24 * 80 * 2) cpu) cpu' ∧
      cpu'.mem = memmove video (video + 80 * 2) (24 * 80 * 2) cpu.mem ∧ cpu'.df = false := by
  have hdest : video.toNat + (24 * 80 * 2 : UInt32).toNat ≤ 4294967296 := by decide
  have hsrc : (video + 80 * 2).toNat + (24 * 80 * 2 : UInt32).toNat ≤ 4294967296 := by decide
  obtain ⟨cpu', hends, hmem, hdf⟩ := memmove_ends hdest hsrc cpu
  exact ⟨cpu', hends, hmem.trans (memmove_eq_copy _ _ _ _).symm, hdf.trans (by decide)⟩

end CheetOS
