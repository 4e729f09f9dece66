import CheetOS.Isolation

/-!
# Memory as the kernel sees it

Which addresses the kernel can reach, and what it reads back after a store.

* `Space` is the invariant on the page tables, with or without a running program,
  `space_reachable` says that it holds in every state;
* `translate_supervisor_cases` lists the four areas that are mapped;
* `translate_inj` says that a stretch of addresses is not mapped twice to one place,
  and `storeBytes_load`, `storeBytes_frame` what a store does to the bytes inside
  and outside of it.
-/

namespace CheetOS

open Exec

namespace Platform

variable (P : Platform)

/-! ## The page tables, with or without a program -/

/-- The page tables are those of some process, or of none yet. -/
structure Space (t : Tables) : Prop where
  mapped : ∃ v, P.Mapped v t
  user : t.pageDirectory 32 = 2 ∨ ∃ pid < numMaxProcesses, t.pageDirectory 32 = userEntry pid

variable {P}

theorem space_boot {m : Machine} (h : P.Boot m) : P.Space m.kernel.toTables where
  mapped := ⟨False, mapped_boot h⟩
  user := by
    rw [h.pageDirectory]
    exact Or.inl rfl

theorem Space.congr {t t' : Tables} (h : P.Space t) (hdir : t'.pageDirectory = t.pageDirectory)
    (htable : t'.pageTable = t.pageTable) (hvideo : t'.videoPages = t.videoPages) :
    P.Space t' := by
  obtain ⟨v, hm⟩ := h.mapped
  refine ⟨⟨v, hm.congr (fun i _ => by rw [hdir]) htable hvideo⟩, ?_⟩
  rw [hdir]
  exact h.user

/-- Writing the entry of the user page. -/
theorem Space.update {t t' : Tables} (h : P.Space t) {pid : UInt32} (hpid : pid < numMaxProcesses)
    (hdir : t'.pageDirectory = Function.update t.pageDirectory 32 (userEntry pid))
    (htable : t'.pageTable = t.pageTable) (hvideo : t'.videoPages = t.videoPages) :
    P.Space t' := by
  obtain ⟨v, hm⟩ := h.mapped
  refine ⟨⟨v, hm.congr (fun i hi => ?_) htable hvideo⟩, Or.inr ⟨pid, hpid, ?_⟩⟩
  · rw [hdir, Function.update_of_ne hi]
  · rw [hdir, Function.update_self]

theorem Space.take {t : Tables} (h : P.Space t) {pid : UInt32} (hpid : pid < numMaxProcesses) :
    P.Space (t.take pid) := by
  rw [Tables.take_eq]
  exact h.update hpid rfl rfl rfl

theorem Space.start {t : Tables} (h : P.Space t) {pid : UInt32} (hpid : pid < numMaxProcesses)
    (arg : List UInt8) : P.Space (P.startTables t pid arg) := by
  rw [P.startTables_eq]
  exact h.update hpid rfl rfl rfl

/-- Every effect keeps the page tables in order. -/
theorem Effect.space {v : Prop} {t t' : Tables} {fs fs' : List Frame}
    (h : P.Effect v t fs t' fs') (hn : P.Nested t fs) (hs : P.Space t) : P.Space t' := by
  have hafter := h.nested hn
  cases h with
  | same => exact hs
  | opened | closed | moved => exact hs.congr rfl rfl rfl
  | video _ _ =>
    obtain ⟨w, hm⟩ := hs.mapped
    refine ⟨⟨True, hm.mapVideo⟩, ?_⟩
    rw [pageDirectory_mapVideo, Function.update_of_ne (by decide)]
    exact hs.user
  | leaked i free =>
    rw [t.leak_eq]
    exact hs.update hn.running_bound rfl rfl rfl
  | started i free arg => exact hs.start (firstInactive_eq_some free).1 arg
  | halted _ _ _ _ =>
    have hbound := hafter.running_bound
    rw [t.halt_eq] at hbound ⊢
    exact hs.update hbound rfl rfl rfl

theorem space_step {m m' : Machine} {e : Event} (hn : P.Nested m.kernel.toTables m.frames)
    (hs : P.Space m.kernel.toTables) (h : P.step m e = some m') : P.Space m'.kernel.toTables := by
  rcases P.step_effect h with ⟨-, -, htables⟩ | ⟨regs, -, -, heffect⟩
  · rw [htables]
    exact hs
  · exact heffect.space (hn.enter regs) (hs.congr rfl rfl rfl)

/-- The page tables are in order in every state. -/
theorem space_reachable {m : Machine} (h : P.Reachable m) : P.Space m.kernel.toTables := by
  obtain ⟨m₀, es, hboot, hrun⟩ := h
  exact (Run.invariant_run
    (I := fun m => P.Nested m.kernel.toTables m.frames ∧ P.Space m.kernel.toTables)
    (fun _ _ _ hi hs => ⟨nested_step hi.1 hs, space_step hi.1 hi.2 hs⟩)
    ⟨nested_boot hboot, space_boot hboot⟩ hrun).2

theorem space_enter {m : Machine} (h : P.Reachable m) (regs : Regs) :
    P.Space (m.enter regs).toTables :=
  (space_reachable h).congr rfl rfl rfl

/-! ## What the kernel reaches -/

/-- Where the user page is in physical memory. -/
def userBase (t : Tables) : UInt32 := t.pageDirectory 32 &&& 0xFFC00000

/-- The kernel may write wherever it may read. -/
theorem translate_supervisor_access (t : Tables) (va : UInt32) :
    P.translate t .supervisor .write va = P.translate t .supervisor .read va := rfl

/-- The first table maps the screen only. -/
theorem screen_of_translate {v : Prop} {t : Tables} (hm : P.Mapped v t) {w : Paging.Access}
    {va a : UInt32} (h0 : va >>> 22 = 0) (h : P.translate t .supervisor w va = some a) :
    0xB8000 ≤ va.toNat ∧ va.toNat < 0xBC000 := by
  have hsecond := Paging.toNat_tableIndex va
  have hindex := congrArg UInt32.toNat h0
  rw [Paging.toNat_dirIndex] at hindex
  simp only [UInt32.reduceToNat] at hindex
  rw [translate_first hm w h0] at h
  by_contra hout
  have hpage : ¬((va >>> 12) &&& 0x3FF ≥ vmStart ∧ (va >>> 12) &&& 0x3FF ≤ vmStart + 3) := by
    simp only [ge_iff_le, UInt32.le_iff_toNat_le, hsecond]
    rw [show vmStart.toNat = 184 from rfl, show (vmStart + 3).toNat = 187 from rfl]
    omega
  -- the other entries are even
  have habsent : Paging.present (initPageTable ((va >>> 12) &&& 0x3FF)) = false := by
    unfold initPageTable Paging.present
    rw [if_neg hpage, Paging.and_or_distrib_right,
      show (2 : UInt32) &&& 1 = 0 from by decide, UInt32.or_zero]
    have heven : ((va >>> 12) &&& 0x3FF) * 0x1000 &&& 1 = 0 := by
      rw [← UInt32.toNat_inj, UInt32.toNat_and, UInt32.toNat_mul,
        show (1 : UInt32).toNat = 2 ^ 1 - 1 from rfl, Nat.and_two_pow_sub_one_eq_mod]
      simp only [UInt32.reduceToNat]
      omega
    rw [heven]
    rfl
  rw [if_neg (by simp [Paging.permits, habsent])] at h
  cases h

/-- The page of a process, as the kernel sees it. -/
theorem userBase_of_page {t : Tables} {pid : UInt32} (hpid : pid < numMaxProcesses)
    (hpage : t.pageDirectory 32 = userEntry pid) : userBase t = userPage pid := by
  unfold userBase
  rw [hpage]
  rcases pid_cases hpid with rfl | rfl | rfl | rfl | rfl | rfl <;> decide

/-- The page of the kernel is mapped to itself. -/
theorem kernel_of_translate {v : Prop} {t : Tables} (hm : P.Mapped v t) {w : Paging.Access}
    {va a : UInt32} (h1 : va >>> 22 = 1) (h : P.translate t .supervisor w va = some a) :
    0x400000 ≤ va.toNat ∧ va.toNat < 0x800000 ∧ a.toNat = va.toNat := by
  have hindex := Paging.toNat_dirIndex va
  rw [h1] at hindex
  simp only [UInt32.reduceToNat] at hindex
  have hlo : 0x400000 ≤ va.toNat := by omega
  have hhi : va.toNat < 0x800000 := by omega
  have hsame := translate_kernel hm w (UInt32.le_iff_toNat_le.2 hlo) (UInt32.lt_iff_toNat_lt.2 hhi)
  rw [h] at hsame
  exact ⟨hlo, hhi, congrArg UInt32.toNat (Option.some.inj hsame)⟩

/-- The user page is there if it has an entry. -/
theorem user_of_translate {t : Tables} (hs : P.Space t) {w : Paging.Access} {va a : UInt32}
    (h32 : va >>> 22 = 32) (h : P.translate t .supervisor w va = some a) :
    0x8000000 ≤ va.toNat ∧ va.toNat < 0x8400000 ∧ 0x800000 ≤ (userBase t).toNat ∧
      a.toNat = (userBase t).toNat + (va.toNat - 0x8000000) := by
  have hindex := Paging.toNat_dirIndex va
  rw [h32] at hindex
  simp only [UInt32.reduceToNat] at hindex
  have hlo : 0x8000000 ≤ va.toNat := by omega
  have hhi : va.toNat < 0x8400000 := by omega
  rcases hs.user with habsent | ⟨pid, hpid, hpage⟩
  · unfold translate at h
    rw [Paging.translate_none (by rw [h32, habsent]; decide)] at h
    cases h
  · have hsame := translate_user_page (P := P) hpid hpage .supervisor w
      (UInt32.le_iff_toNat_le.2 hlo) (UInt32.lt_iff_toNat_lt.2 hhi)
    rw [h] at hsame
    have hbase := userBase_of_page hpid hpage
    have hbound := toNat_userPage hpid
    refine ⟨hlo, hhi, by rw [hbase]; omega, ?_⟩
    rw [Option.some.inj hsame, hbase, toNat_user hpid (UInt32.le_iff_toNat_le.2 hlo)
      (UInt32.lt_iff_toNat_lt.2 hhi)]

/-- The page `vidmap` makes is there if it was called. -/
theorem video_of_translate {v : Prop} {t : Tables} (hm : P.Mapped v t) {w : Paging.Access}
    {va a : UInt32} (h33 : va >>> 22 = 33) (h : P.translate t .supervisor w va = some a) :
    0x8400000 ≤ va.toNat ∧ va.toNat < 0x8401000 ∧
      a.toNat = 0xB8000 + (va.toNat - 0x8400000) := by
  have hindex := Paging.toNat_dirIndex va
  rw [h33] at hindex
  simp only [UInt32.reduceToNat] at hindex
  have hlo : 0x8400000 ≤ va.toNat := by omega
  have hshown : v ∧ va.toNat < 0x8401000 := by
    by_contra hout
    rw [translate_video_none hm .supervisor w h33 hout] at h
    cases h
  have hsame := translate_user_video hm hshown.1 .supervisor w (UInt32.le_iff_toNat_le.2 hlo)
    (UInt32.lt_iff_toNat_lt.2 hshown.2)
  rw [h] at hsame
  have hsub : (va - 0x08400000).toNat = va.toNat - 0x8400000 :=
    UInt32.toNat_sub_of_le va _ (UInt32.le_iff_toNat_le.2 hlo)
  have hbase : (0xB8000 : UInt32).toNat = 0xB8000 := rfl
  refine ⟨hlo, hshown.2, ?_⟩
  rw [Option.some.inj hsame, Word32.toNat_add_of_lt (by omega), hsub, hbase]

/-- The four areas that are mapped for the kernel. -/
theorem translate_supervisor_cases {t : Tables} (hs : P.Space t) {w : Paging.Access}
    {va a : UInt32} (h : P.translate t .supervisor w va = some a) :
    (0xB8000 ≤ va.toNat ∧ va.toNat < 0xBC000 ∧ a.toNat = va.toNat) ∨
    (0x400000 ≤ va.toNat ∧ va.toNat < 0x800000 ∧ a.toNat = va.toNat) ∨
    (0x8000000 ≤ va.toNat ∧ va.toNat < 0x8400000 ∧ 0x800000 ≤ (userBase t).toNat ∧
      a.toNat = (userBase t).toNat + (va.toNat - 0x8000000)) ∨
    (0x8400000 ≤ va.toNat ∧ va.toNat < 0x8401000 ∧
      a.toNat = 0xB8000 + (va.toNat - 0x8400000)) := by
  obtain ⟨v, hm⟩ := hs.mapped
  have hva := va.toNat_lt
  have hindex : (va >>> 22).toNat = va.toNat / 4194304 := Paging.toNat_dirIndex va
  have hlt : va >>> 22 < 1024 := by
    rw [UInt32.lt_iff_toNat_lt, hindex]
    simp only [UInt32.reduceToNat]
    omega
  by_cases h0 : va >>> 22 = 0
  · left
    obtain ⟨hlo, hhi⟩ := screen_of_translate hm h0 h
    have hsame := translate_screen hm w (UInt32.le_iff_toNat_le.2 hlo)
      (UInt32.lt_iff_toNat_lt.2 hhi)
    rw [h] at hsame
    exact ⟨hlo, hhi, congrArg UInt32.toNat (Option.some.inj hsame)⟩
  by_cases h1 : va >>> 22 = 1
  · right; left
    exact kernel_of_translate hm h1 h
  by_cases h32 : va >>> 22 = 32
  · right; right; left
    exact user_of_translate hs h32 h
  by_cases h33 : va >>> 22 = 33
  · right; right; right
    exact video_of_translate hm h33 h
  · unfold translate at h
    rw [Paging.translate_none (by rw [hm.absent _ hlt h0 h1 h32 h33]; decide)] at h
    cases h

/-- Null is not mapped. -/
theorem ne_zero_of_translate {t : Tables} (hs : P.Space t) {w : Paging.Access} {va a : UInt32}
    (h : P.translate t .supervisor w va = some a) : va ≠ 0 := by
  rintro rfl
  have hzero : (0 : UInt32).toNat = 0 := rfl
  rcases translate_supervisor_cases hs h with h | h | h | h <;> omega

/-- Two addresses less than 128 MB apart never reach the same place. -/
theorem translate_inj {t : Tables} (hs : P.Space t) {w w' : Paging.Access} {va a : UInt32}
    {i j : ℕ} (hij : i < j) (hj : j - i < 0x8000000)
    (hi : P.translate t .supervisor w (va + UInt32.ofNat i) = some a) :
    P.translate t .supervisor w' (va + UInt32.ofNat j) ≠ some a := by
  intro hj'
  have hsum : va + UInt32.ofNat j = va + UInt32.ofNat i + UInt32.ofNat (j - i) := by
    rw [Word32.add_ofNat_add_ofNat]
    congr 2
    omega
  have hnat : (va + UInt32.ofNat j).toNat
      = ((va + UInt32.ofNat i).toNat + (j - i)) % 4294967296 := by
    rw [hsum, UInt32.toNat_add, Word32.toNat_ofNat (by omega)]
  have hlt := (va + UInt32.ofNat i).toNat_lt
  rcases translate_supervisor_cases hs hi with h | h | h | h <;>
  · rcases translate_supervisor_cases hs hj' with h' | h' | h' | h' <;> omega

/-- A stretch of addresses that are all mapped ends before it is 8 MB long. -/
theorem exists_unmapped {t : Tables} (hs : P.Space t) (w : Paging.Access) (va : UInt32) :
    ∃ n ≤ 0x744000, P.translate t .supervisor w (va + UInt32.ofNat n) = none := by
  -- the end of the area the stretch begins in
  have hgap : ∃ n ≤ 0x744000, ∀ a, ¬ P.translate t .supervisor w (va + UInt32.ofNat n) = some a := by
    have hva := va.toNat_lt
    have hout : ∀ n, va.toNat + n < 4294967296 → va.toNat + n ∉ Set.Ico 0xB8000 0xBC000 →
        va.toNat + n ∉ Set.Ico 0x400000 0x800000 → va.toNat + n ∉ Set.Ico 0x8000000 0x8401000 →
        ∀ a, ¬ P.translate t .supervisor w (va + UInt32.ofNat n) = some a := by
      intro n hn h1 h2 h3 a ha
      simp only [Set.mem_Ico, not_and, not_lt] at h1 h2 h3
      have hnat := Word32.toNat_add_ofNat hn
      rcases translate_supervisor_cases hs ha with h | h | h | h <;> omega
    by_cases h1 : va.toNat ∈ Set.Ico 0xB8000 0xBC000
    · obtain ⟨hlo, hhi⟩ := h1
      exact ⟨0xBC000 - va.toNat, by omega, hout _ (by omega) (by simp; omega) (by simp; omega)
        (by simp; omega)⟩
    by_cases h2 : va.toNat ∈ Set.Ico 0x400000 0x800000
    · obtain ⟨hlo, hhi⟩ := h2
      exact ⟨0x800000 - va.toNat, by omega, hout _ (by omega) (by simp; omega) (by simp; omega)
        (by simp; omega)⟩
    by_cases h3 : va.toNat ∈ Set.Ico 0x8000000 0x8401000
    · obtain ⟨hlo, hhi⟩ := h3
      exact ⟨0x8401000 - va.toNat, by omega, hout _ (by omega) (by simp; omega) (by simp; omega)
        (by simp; omega)⟩
    · exact ⟨0, Nat.zero_le _, hout 0 hva h1 h2 h3⟩
  obtain ⟨n, hn, hnone⟩ := hgap
  exact ⟨n, hn, Option.eq_none_iff_forall_ne_some.2 hnone⟩

/-- A read where a page is. -/
theorem load_of_translate {k : Kernel} {va a : UInt32}
    (h : P.translate k.toTables .supervisor .read va = some a) :
    P.load k va = if P.kernelData a then none else some (k.mem a) := by
  unfold load
  rw [h]

/-- The bytes the kernel can read. -/
theorem load_eq_some {k : Kernel} {va : UInt32} {b : UInt8} :
    P.load k va = some b ↔ ∃ a, P.translate k.toTables .supervisor .read va = some a ∧
      P.kernelData a = false ∧ k.mem a = b := by
  unfold load
  cases P.translate k.toTables .supervisor .read va with
  | none => simp
  | some a => cases hdata : P.kernelData a <;> simp [hdata]

/-- What the kernel reads only depends on the page tables and the memory. -/
theorem load_congr {k k' : Kernel} (hdir : k'.pageDirectory = k.pageDirectory)
    (htable : k'.pageTable = k.pageTable) (hvideo : k'.videoPages = k.videoPages)
    (hmem : k'.mem = k.mem) : P.load k' = P.load k := by
  unfold load translate tablesOf
  rw [hdir, htable, hvideo, hmem]

/-! ## Stores -/

variable (P) in
theorem storeByte_cases {va : UInt32} {b : UInt8} {k k' : Kernel}
    (h : P.storeByte va b k = .ok () k') :
    ∃ a, P.translate k.toTables .supervisor .write va = some a ∧ P.kernelData a = false ∧
      k' = { k with mem := Function.update k.mem a b } := by
  unfold storeByte target at h
  rw [get_bind_run] at h
  cases htr : P.translate k.toTables .supervisor .write va with
  | none => simp [htr] at h
  | some a =>
    simp only [htr] at h
    cases hdata : P.kernelData a with
    | true => simp [hdata] at h
    | false =>
      simp only [hdata] at h
      exact ⟨a, rfl, hdata, (modify_eq_ok.1 h).symm⟩

variable (P) in
/-- A byte that can be stored. -/
theorem storeByte_run {va a : UInt32} {k : Kernel}
    (h : P.translate k.toTables .supervisor .write va = some a) (hdata : P.kernelData a = false)
    (b : UInt8) : P.storeByte va b k = .ok () { k with mem := Function.update k.mem a b } := by
  unfold storeByte target
  rw [get_bind_run]
  simp only [h, hdata]
  rfl

/-- Bytes that a store does not reach stay. -/
theorem storeBytes_frame {va : UInt32} {bs : List UInt8} {k k' : Kernel}
    (h : P.storeBytes va bs k = .ok () k') {a : UInt32}
    (ha : ∀ i < bs.length,
      P.translate k.toTables .supervisor .write (va + UInt32.ofNat i) ≠ some a) :
    k'.mem a = k.mem a := by
  induction bs generalizing va k with
  | nil =>
    cases h
    rfl
  | cons b bs ih =>
    obtain ⟨⟨⟩, k₁, hbyte, hrest⟩ := bind_eq_ok.1 h
    obtain ⟨a₀, htr, -, rfl⟩ := P.storeByte_cases hbyte
    have hne : a ≠ a₀ := by
      rintro rfl
      refine ha 0 (Nat.succ_pos _) ?_
      rwa [Word32.add_ofNat_zero]
    rw [ih hrest]
    · exact Function.update_of_ne hne _ _
    · intro i hi
      rw [Word32.add_one_add_ofNat]
      exact ha (i + 1) (Nat.succ_lt_succ hi)

/-- Everything but the memory stays. -/
theorem storeBytes_rest {va : UInt32} {bs : List UInt8} {k k' : Kernel}
    (h : P.storeBytes va bs k = .ok () k') :
    k'.toTables = k.toTables ∧ k'.last = k.last := by
  induction bs generalizing va k with
  | nil =>
    cases h
    exact ⟨rfl, rfl⟩
  | cons b bs ih =>
    obtain ⟨⟨⟩, k₁, hbyte, hrest⟩ := bind_eq_ok.1 h
    obtain ⟨a₀, -, -, rfl⟩ := P.storeByte_cases hbyte
    have hall := ih hrest
    exact hall

/-- A store reaches mapped addresses only, and none of the kernel's variables. -/
theorem storeBytes_mapped {va : UInt32} {bs : List UInt8} {k k' : Kernel}
    (h : P.storeBytes va bs k = .ok () k') (i : ℕ) (hi : i < bs.length) :
    ∃ a, P.translate k.toTables .supervisor .write (va + UInt32.ofNat i) = some a ∧
      P.kernelData a = false := by
  induction bs generalizing va k i with
  | nil => exact absurd hi (Nat.not_lt_zero _)
  | cons b bs ih =>
    obtain ⟨⟨⟩, k₁, hbyte, hrest⟩ := bind_eq_ok.1 h
    obtain ⟨a, htr, hdata, rfl⟩ := P.storeByte_cases hbyte
    cases i with
    | zero =>
      rw [Word32.add_ofNat_zero]
      exact ⟨a, htr, hdata⟩
    | succ i =>
      have hmore := ih hrest i (Nat.lt_of_succ_lt_succ hi)
      rwa [Word32.add_one_add_ofNat] at hmore

theorem storeBytes_length {va : UInt32} {bs : List UInt8} {k k' : Kernel}
    (hs : P.Space k.toTables) (h : P.storeBytes va bs k = .ok () k') : bs.length ≤ 0x744000 := by
  obtain ⟨n, hn, hnone⟩ := exists_unmapped hs .write va
  by_contra hlong
  obtain ⟨a, htr, -⟩ := storeBytes_mapped h n (by omega)
  rw [hnone] at htr
  cases htr

/-- **What was stored is read back.** -/
theorem storeBytes_load {va : UInt32} {bs : List UInt8} {k k' : Kernel}
    (hs : P.Space k.toTables) (h : P.storeBytes va bs k = .ok () k') (i : ℕ) (hi : i < bs.length) :
    P.load k' (va + UInt32.ofNat i) = some bs[i] := by
  induction bs generalizing va k i with
  | nil => exact absurd hi (Nat.not_lt_zero _)
  | cons b bs ih =>
    obtain ⟨⟨⟩, k₁, hbyte, hrest⟩ := bind_eq_ok.1 h
    obtain ⟨a, htr, hdata, rfl⟩ := P.storeByte_cases hbyte
    have hsize := storeBytes_length hs h
    cases i with
    | zero =>
      have hkeep : k'.mem a = b := by
        rw [storeBytes_frame hrest]
        · exact Function.update_self ..
        · intro j hj
          rw [Word32.add_one_add_ofNat]
          have hzero := htr
          rw [← Word32.add_ofNat_zero va] at hzero
          have hbound : bs.length + 1 ≤ 0x744000 := hsize
          exact translate_inj hs (Nat.succ_pos j) (by omega) hzero
      refine load_eq_some.2 ⟨a, ?_, hdata, hkeep⟩
      rw [(storeBytes_rest hrest).1, Word32.add_ofNat_zero, ← translate_supervisor_access]
      exact htr
    | succ i =>
      have hspace : P.Space ({ k with mem := Function.update k.mem a b } : Kernel).toTables := hs
      have hread := ih hspace hrest i (Nat.lt_of_succ_lt_succ hi)
      rwa [Word32.add_one_add_ofNat] at hread

theorem loadByte_run {va : UInt32} {k : Kernel} {b : UInt8} (h : P.load k va = some b) :
    P.loadByte va k = .ok b k := by
  unfold loadByte
  rw [get_bind_run, h]
  rfl

/-- A word is read byte by byte. -/
theorem loadWord_run {va : UInt32} {k : Kernel} {b : ℕ → UInt8}
    (h : ∀ i < 4, P.load k (va + UInt32.ofNat i) = some (b i)) :
    P.loadWord va k = .ok (Bytes.word b) k := by
  have h₀ := h 0 (by decide)
  rw [Word32.add_ofNat_zero] at h₀
  have h₁ : P.load k (va + 1) = some (b 1) := h 1 (by decide)
  have h₂ : P.load k (va + 2) = some (b 2) := h 2 (by decide)
  have h₃ : P.load k (va + 3) = some (b 3) := h 3 (by decide)
  unfold loadWord
  rw [bind_of_ok (loadByte_run h₀), bind_of_ok (loadByte_run h₁), bind_of_ok (loadByte_run h₂),
    bind_of_ok (loadByte_run h₃)]
  rfl

/-- Where a write goes that reaches memory. -/
theorem translate_of_target {t : Tables} {va : UInt32} (h : (P.target t va).isOk) :
    ∃ a, P.translate t .supervisor .write va = some a ∧ P.kernelData a = false := by
  unfold target at h
  cases htr : P.translate t .supervisor .write va with
  | none => simp [htr, Except.isOk, Except.toBool] at h
  | some a =>
    cases hdata : P.kernelData a with
    | true => simp [htr, hdata, Except.isOk, Except.toBool] at h
    | false => exact ⟨a, rfl, hdata⟩

theorem target_isOk_iff {t : Tables} {va : UInt32} : (P.target t va).isOk ↔
    ∃ a, P.translate t .supervisor .write va = some a ∧ P.kernelData a = false := by
  refine ⟨translate_of_target, ?_⟩
  rintro ⟨a, ha, hdata⟩
  unfold target
  simp only [ha, hdata]
  rfl

/-- A store succeeds if every byte can be stored. -/
theorem storeBytes_run {va : UInt32} {bs : List UInt8} {k : Kernel}
    (h : ∀ i < bs.length, ∃ a, P.translate k.toTables .supervisor .write (va + UInt32.ofNat i)
      = some a ∧ P.kernelData a = false) : ∃ k', P.storeBytes va bs k = .ok () k' := by
  induction bs generalizing va k with
  | nil => exact ⟨k, rfl⟩
  | cons b bs ih =>
    obtain ⟨a, htr, hdata⟩ := h 0 (Nat.succ_pos _)
    rw [Word32.add_ofNat_zero] at htr
    have hrest : ∃ k', P.storeBytes (va + 1) bs { k with mem := Function.update k.mem a b }
        = .ok () k' := by
      refine ih fun i hi => ?_
      rw [Word32.add_one_add_ofNat]
      exact h (i + 1) (Nat.succ_lt_succ hi)
    obtain ⟨k', hk'⟩ := hrest
    exact ⟨k', (bind_of_ok (P.storeByte_run htr hdata b) _).trans hk'⟩

end Platform

end CheetOS
