import CheetOS.Lib.Words
import CheetOS.Memory

/-!
# Strings in memory

What the string routines of the kernel do to the strings of a program.

* `Holds s l` says that a string pointer with the bytes `s` points to the string
  `l`; `cstr_eq_some` that this is what the routines read;
* `FirstToken` is what one call of `strtok` finds, `strtok_ok` that it finds it and
  which byte it overwrites;
* `strtok_word` is what a call makes of a string, `Pending` the list of words later
  calls still have to deliver, and `strtok_pending` the step from one call to the
  next.
-/

namespace CheetOS

open Exec Words
open Platform (delim)

/-! ## Strings -/

/-- The bytes `s` are the string `l` and the zero that ends it. -/
structure Holds (s : ℕ → Option UInt8) (l : List UInt8) : Prop where
  bytes : ∀ i (h : i < l.length), s i = some l[i]
  stop : s l.length = some 0
  clean : (0 : UInt8) ∉ l

theorem holds_nil {s : ℕ → Option UInt8} : Holds s [] ↔ s 0 = some 0 :=
  ⟨fun h => h.stop, fun h => ⟨fun _ hi => absurd hi (Nat.not_lt_zero _), h, List.not_mem_nil⟩⟩

theorem holds_cons {s : ℕ → Option UInt8} {c : UInt8} {l : List UInt8} :
    Holds s (c :: l) ↔ s 0 = some c ∧ c ≠ 0 ∧ Holds (fun i => s (i + 1)) l := by
  constructor
  · intro h
    refine ⟨h.bytes 0 (Nat.succ_pos _), ?_, ⟨fun i hi => ?_, h.stop, ?_⟩⟩
    · rintro rfl
      exact h.clean List.mem_cons_self
    · exact h.bytes (i + 1) (Nat.succ_lt_succ hi)
    · exact fun hmem => h.clean (List.mem_cons_of_mem c hmem)
  · rintro ⟨h0, hc, h⟩
    refine ⟨fun i hi => ?_, h.stop, fun hmem => ?_⟩
    · cases i with
      | zero => exact h0
      | succ i => exact h.bytes i (Nat.lt_of_succ_lt_succ hi)
    · rcases List.mem_cons.1 hmem with heq | hmem
      · exact hc heq.symm
      · exact h.clean hmem

/-- The next character of a string that is read by its index, and those behind it. -/
theorem holds_index_cons {s : ℕ → Option UInt8} {i : ℕ} {c : UInt8} {l : List UInt8}
    (h : Holds (fun j => s (i + j)) (c :: l)) :
    s i = some c ∧ c ≠ 0 ∧ Holds (fun j => s (i + 1 + j)) l := by
  obtain ⟨hc, hne, hrest⟩ := holds_cons.1 h
  have hshift : (fun j => s (i + 1 + j)) = fun j => s (i + (j + 1)) := by
    funext j
    rw [Nat.add_right_comm, Nat.add_assoc]
  exact ⟨hc, hne, hshift ▸ hrest⟩

/-- A string in two parts. -/
theorem holds_append {s : ℕ → Option UInt8} {l l' : List UInt8} :
    Holds s (l ++ l') ↔ (∀ i (h : i < l.length), s i = some l[i]) ∧ (0 : UInt8) ∉ l ∧
      Holds (fun i => s (l.length + i)) l' := by
  constructor
  · intro h
    refine ⟨fun i hi => ?_, fun hmem => h.clean (List.mem_append_left _ hmem),
      ⟨fun i hi => ?_, ?_, fun hmem => h.clean (List.mem_append_right _ hmem)⟩⟩
    · have hb := h.bytes i (by rw [List.length_append]; omega)
      rwa [List.getElem_append_left hi] at hb
    · have hb := h.bytes (l.length + i) (by rw [List.length_append]; omega)
      rw [List.getElem_append_right (Nat.le_add_right _ _)] at hb
      simpa using hb
    · have hb := h.stop
      rwa [List.length_append] at hb
  · rintro ⟨hl, hclean, hl'⟩
    refine ⟨fun i hi => ?_, ?_, fun hmem => ?_⟩
    · by_cases hlt : i < l.length
      · rw [List.getElem_append_left hlt]
        exact hl i hlt
      · rw [List.length_append] at hi
        have hb := hl'.bytes (i - l.length) (by omega)
        rw [Nat.add_sub_cancel' (not_lt.1 hlt)] at hb
        rw [List.getElem_append_right (not_lt.1 hlt)]
        exact hb
    · rw [List.length_append]
      exact hl'.stop
    · rcases List.mem_append.1 hmem with hmem | hmem
      · exact hclean hmem
      · exact hl'.clean hmem

theorem cstrFrom_eq_some {s : ℕ → Option UInt8} {n i : ℕ} {l : List UInt8} :
    cstrFrom s n i = some l ↔ l.length < n ∧ Holds (fun j => s (i + j)) l := by
  induction n generalizing i l with
  | zero => simp [cstrFrom]
  | succ n ih =>
    have hshift : (fun j => s (i + (j + 1))) = fun j => s (i + 1 + j) := by
      funext j
      congr 1
      omega
    rw [cstrFrom]
    cases hc : s i with
    | none =>
      have hnot : ¬Holds (fun j => s (i + j)) l := by
        intro h
        cases l with
        | nil => simp [holds_nil, hc] at h
        | cons c l => simp [holds_cons, hc] at h
      simp [hnot]
    | some c =>
      cases l with
      | nil => by_cases h0 : c = 0 <;> simp [h0, holds_nil, hc]
      | cons b l =>
        by_cases h0 : c = 0
        · subst h0
          have hnot : ¬Holds (fun j => s (i + j)) (b :: l) := by
            rintro h
            obtain ⟨hb, hne, -⟩ := holds_cons.1 h
            simp only [Nat.add_zero, hc, Option.some.injEq] at hb
            exact hne hb.symm
          simp [hnot]
        · simp only [if_neg h0, holds_cons, Nat.add_zero, hc, Option.map_eq_some_iff, ih, hshift,
            List.length_cons, Nat.succ_lt_succ_iff]
          constructor
          · rintro ⟨a, ⟨hlen, hrest⟩, heq⟩
            obtain ⟨rfl, rfl⟩ := List.cons.inj heq
            exact ⟨hlen, rfl, h0, hrest⟩
          · rintro ⟨hlen, heq, -, hrest⟩
            obtain rfl := Option.some.inj heq
            exact ⟨l, ⟨hlen, hrest⟩, rfl⟩

/-- What the string routines read. -/
theorem cstr_eq_some {s : ℕ → Option UInt8} {l : List UInt8} :
    cstr s = some l ↔ l.length < addressSpace ∧ Holds s l := by
  unfold cstr
  rw [cstrFrom_eq_some]
  simp only [Nat.zero_add]

theorem Holds.congr {s s' : ℕ → Option UInt8} {l : List UInt8} (h : Holds s l)
    (heq : ∀ i ≤ l.length, s' i = s i) : Holds s' l where
  bytes := fun i hi => (heq i hi.le).trans (h.bytes i hi)
  stop := (heq l.length le_rfl).trans h.stop
  clean := h.clean

theorem Holds.inj {s : ℕ → Option UInt8} {l l' : List UInt8} (h : Holds s l) (h' : Holds s l') :
    l = l' := by
  induction l generalizing s l' with
  | nil =>
    cases l' with
    | nil => rfl
    | cons c l' =>
      rw [holds_nil] at h
      obtain ⟨hc, hne, -⟩ := holds_cons.1 h'
      rw [h] at hc
      exact absurd (Option.some.inj hc).symm hne
  | cons c l ih =>
    obtain ⟨hc, hne, hrest⟩ := holds_cons.1 h
    cases l' with
    | nil =>
      rw [holds_nil, hc] at h'
      exact absurd (Option.some.inj h') hne
    | cons c' l' =>
      obtain ⟨hc', -, hrest'⟩ := holds_cons.1 h'
      rw [hc] at hc'
      rw [Option.some.inj hc', ih hrest hrest']

/-- A string the kernel holds itself. -/
theorem holds_ofList {l : List UInt8} (h : (0 : UInt8) ∉ l) : Holds (ofList l) l where
  bytes := fun i hi => by rw [ofList, List.getD_eq_getElem l 0 hi]
  stop := by simp [ofList]
  clean := h

/-! ## Tokens -/

/-- From `s` on there are `n` delimiters, then the word `w`, then `c`. -/
structure FirstToken (s : ℕ → Option UInt8) (n : ℕ) (w : List UInt8) (c : UInt8) : Prop where
  skip : ∀ i < n, s i = some delim
  bytes : ∀ i (h : i < w.length), s (n + i) = some w[i]
  stop : s (n + w.length) = some c
  ne : w ≠ []
  zero_notMem : (0 : UInt8) ∉ w
  delim_notMem : delim ∉ w
  ends : c = 0 ∨ c = delim

theorem zero_notMem_replicate (n : ℕ) : (0 : UInt8) ∉ List.replicate n delim := fun hmem =>
  absurd (List.eq_of_mem_replicate hmem) (by decide)

/-- A word with a zero behind it is a string. -/
theorem FirstToken.holds {s : ℕ → Option UInt8} {n : ℕ} {w : List UInt8}
    (h : FirstToken s n w 0) : Holds s (List.replicate n delim ++ w) := by
  refine holds_append.2 ⟨fun i hi => ?_, zero_notMem_replicate n, ?_⟩
  · rw [List.length_replicate] at hi
    rw [List.getElem_replicate]
    exact h.skip i hi
  · rw [List.length_replicate]
    exact ⟨h.bytes, h.stop, h.zero_notMem⟩

/-- So is a word with a space and a string behind it. -/
theorem FirstToken.holds_more {s : ℕ → Option UInt8} {n : ℕ} {w l : List UInt8}
    (h : FirstToken s n w delim) (hl : Holds (fun i => s (n + w.length + 1 + i)) l) :
    Holds s (List.replicate n delim ++ (w ++ delim :: l)) := by
  have hshift : (fun i => s (n + (w.length + (i + 1)))) = fun i => s (n + w.length + 1 + i) := by
    funext i
    congr 1
    omega
  refine holds_append.2 ⟨fun i hi => ?_, zero_notMem_replicate n, ?_⟩
  · rw [List.length_replicate] at hi
    rw [List.getElem_replicate]
    exact h.skip i hi
  · rw [List.length_replicate]
    refine holds_append.2 ⟨h.bytes, h.zero_notMem, holds_cons.2 ⟨h.stop, by decide, ?_⟩⟩
    exact hshift ▸ hl

/-- The way a string begins is the way its first word is found. -/
theorem Holds.words_cases {s : ℕ → Option UInt8} {l : List UInt8} (h : Holds s l) :
    (words delim l = [] ∧ ∃ n, (∀ i < n, s i = some delim) ∧ s n = some 0) ∨
    (∃ n w, FirstToken s n w 0 ∧ words delim l = [w]) ∨
    ∃ n w l', FirstToken s n w delim ∧ words delim l = w :: words delim l' ∧
      l.length = n + w.length + 1 + l'.length ∧
      Holds (fun i => s (n + w.length + 1 + i)) l' := by
  have hskip : ∀ {n l}, Holds s (List.replicate n delim ++ l) →
      (∀ i < n, s i = some delim) ∧ Holds (fun i => s (n + i)) l := by
    intro n l h
    obtain ⟨hbytes, -, hrest⟩ := holds_append.1 h
    rw [List.length_replicate] at hrest
    refine ⟨fun i hi => ?_, hrest⟩
    have hb := hbytes i (by rwa [List.length_replicate])
    rwa [List.getElem_replicate] at hb
  induction l using words_induction (d := delim) with
  | blank n =>
    rw [← List.append_nil (List.replicate n delim)] at h
    obtain ⟨hblank, hrest⟩ := hskip h
    exact Or.inl ⟨words_blank n, n, hblank, hrest.stop⟩
  | last n w hw hd =>
    obtain ⟨hblank, hrest⟩ := hskip h
    exact Or.inr (Or.inl ⟨n, w, ⟨hblank, hrest.bytes, hrest.stop, hw, hrest.clean, hd, Or.inl rfl⟩,
      words_last n hw hd⟩)
  | more n w l hw hd _ =>
    obtain ⟨hblank, hrest⟩ := hskip h
    obtain ⟨hword, hclean, htail⟩ := holds_append.1 hrest
    obtain ⟨hstop, -, hmore⟩ := holds_cons.1 htail
    have hlength : (List.replicate n delim ++ (w ++ delim :: l)).length
        = n + w.length + 1 + l.length := by
      simp only [List.length_append, List.length_replicate, List.length_cons]
      omega
    refine Or.inr (Or.inr ⟨n, w, l, ⟨hblank, hword, hstop, hw, hclean, hd, Or.inr rfl⟩,
      words_more n hw hd l, hlength, ?_⟩)
    have hshift : (fun i => s (n + w.length + 1 + i)) = fun i => s (n + (w.length + (i + 1))) := by
      funext i
      congr 1
      omega
    rw [hshift]
    exact hmore

/-- There is at most one first token. -/
theorem FirstToken.inj {s : ℕ → Option UInt8} {n n' : ℕ} {w w' : List UInt8} {c c' : UInt8}
    (h : FirstToken s n w c) (h' : FirstToken s n' w' c') : n = n' ∧ w = w' ∧ c = c' := by
  have hhead : ∀ {n w c}, FirstToken s n w c → s n ≠ some delim := by
    intro n w c h heq
    have hpos := List.length_pos_of_ne_nil h.ne
    have hb := h.bytes 0 hpos
    rw [Nat.add_zero, heq] at hb
    exact h.delim_notMem (Option.some.inj hb ▸ List.getElem_mem hpos)
  have hn : n = n' := by
    rcases Nat.lt_trichotomy n n' with hlt | heq | hlt
    · exact absurd (h'.skip n hlt) (hhead h)
    · exact heq
    · exact absurd (h.skip n' hlt) (hhead h')
  subst hn
  -- where one word ends, the other one cannot go on
  have hlen : ∀ {w w' c c'}, FirstToken s n w c → FirstToken s n w' c' →
      ¬w.length < w'.length := by
    intro w w' c c' h h' hlt
    have hb := h'.bytes _ hlt
    rw [h.stop] at hb
    have hmem : c ∈ w' := Option.some.inj hb ▸ List.getElem_mem hlt
    rcases h.ends with rfl | rfl
    · exact h'.zero_notMem hmem
    · exact h'.delim_notMem hmem
  have heq : w.length = w'.length := Nat.le_antisymm (not_lt.1 (hlen h' h)) (not_lt.1 (hlen h h'))
  have hw : w = w' := by
    refine List.ext_getElem heq fun i hi hi' => ?_
    have hb := h.bytes i hi
    rw [h'.bytes i hi'] at hb
    exact (Option.some.inj hb).symm
  subst hw
  have hc := h.stop
  rw [h'.stop] at hc
  exact ⟨rfl, rfl, (Option.some.inj hc).symm⟩

/-- Where there is a token there are not only delimiters. -/
theorem FirstToken.not_blank {s : ℕ → Option UInt8} {n m : ℕ} {w : List UInt8} {c : UInt8}
    (h : FirstToken s n w c) (hskip : ∀ i < m, s i = some delim) : s m ≠ some 0 := by
  intro hstop
  have hpos := List.length_pos_of_ne_nil h.ne
  have hb := h.bytes 0 hpos
  rw [Nat.add_zero] at hb
  rcases Nat.lt_trichotomy n m with hlt | rfl | hlt
  · rw [hskip n hlt] at hb
    exact h.delim_notMem (Option.some.inj hb ▸ List.getElem_mem hpos)
  · rw [hstop] at hb
    exact h.zero_notMem (Option.some.inj hb ▸ List.getElem_mem hpos)
  · rw [h.skip m hlt] at hstop
    exact absurd (Option.some.inj hstop) (by decide)

/-- A word with a space behind it is a part of the string. -/
theorem FirstToken.lt_length {s : ℕ → Option UInt8} {l : List UInt8} {n : ℕ} {w : List UInt8}
    (h : FirstToken s n w delim) (hl : Holds s l) : n + w.length < l.length := by
  rcases hl.words_cases with ⟨-, m, hskip, hstop⟩ | ⟨m, w', h', -⟩ | ⟨m, w', l', h', -, hlength, -⟩
  · exact absurd hstop (h.not_blank hskip)
  · exact absurd (h.inj h').2.2 (by decide)
  · obtain ⟨rfl, rfl, -⟩ := h.inj h'
    omega

theorem FirstToken.delim_mem {s : ℕ → Option UInt8} {l : List UInt8} {n : ℕ} {w : List UInt8}
    (h : FirstToken s n w delim) (hl : Holds s l) : delim ∈ l := by
  have hlt := h.lt_length hl
  have hstop := h.stop
  rw [hl.bytes _ hlt] at hstop
  exact Option.some.inj hstop ▸ List.getElem_mem hlt

theorem FirstToken.succ {s : ℕ → Option UInt8} {n : ℕ} {w : List UInt8} {c : UInt8}
    (h0 : s 0 = some delim) (h : FirstToken (fun i => s (i + 1)) n w c) :
    FirstToken s (n + 1) w c where
  skip := fun i hi => by
    cases i with
    | zero => exact h0
    | succ i => exact h.skip i (Nat.lt_of_succ_lt_succ hi)
  bytes := fun i hi => by
    rw [Nat.add_right_comm]
    exact h.bytes i hi
  stop := by
    rw [Nat.add_right_comm]
    exact h.stop
  ne := h.ne
  zero_notMem := h.zero_notMem
  delim_notMem := h.delim_notMem
  ends := h.ends

namespace Platform

variable {P : Platform}

theorem bytesAt_zero (k : Kernel) (p : UInt32) : P.bytesAt k p 0 = P.load k p := by
  unfold bytesAt
  rw [Word32.add_ofNat_zero]

theorem bytesAt_add_one (k : Kernel) (p : UInt32) :
    P.bytesAt k (p + 1) = fun i => P.bytesAt k p (i + 1) := by
  funext i
  unfold bytesAt
  rw [Word32.add_one_add_ofNat]

theorem bytesAt_add (k : Kernel) (p : UInt32) (m : ℕ) :
    P.bytesAt k (p + UInt32.ofNat m) = fun i => P.bytesAt k p (m + i) := by
  funext i
  unfold bytesAt
  rw [Word32.add_ofNat_add_ofNat]

theorem loadByte_ok {va : UInt32} {k k' : Kernel} {b : UInt8} (h : P.loadByte va k = .ok b k') :
    P.load k va = some b ∧ k' = k := by
  unfold loadByte at h
  rw [get_bind_run] at h
  obtain ⟨hload, hk⟩ := orUnread_eq_ok.1 h
  exact ⟨hload, hk.symm⟩

/-- The end of a string is loaded. -/
theorem load_string_nil {s : UInt32} {k : Kernel} (h : Holds (P.bytesAt k s) []) :
    P.loadByte s k = .ok 0 k := loadByte_run (P.bytesAt_zero k s ▸ h.stop)

/-- A character of a string is loaded, and the others are behind it. -/
theorem load_string_cons {s : UInt32} {k : Kernel} {c : UInt8} {l : List UInt8}
    (h : Holds (P.bytesAt k s) (c :: l)) :
    P.loadByte s k = .ok c k ∧ c ≠ 0 ∧ Holds (P.bytesAt k (s + 1)) l := by
  obtain ⟨hc, hne, hrest⟩ := holds_cons.1 h
  rw [← bytesAt_add_one] at hrest
  exact ⟨loadByte_run (P.bytesAt_zero k s ▸ hc), hne, hrest⟩

theorem readString_ok {p : UInt32} {k k' : Kernel} {l : List UInt8}
    (h : P.readString p k = .ok l k') : Holds (P.bytesAt k p) l ∧ k' = k := by
  unfold readString at h
  rw [get_bind_run] at h
  obtain ⟨hread, hk⟩ := orUnread_eq_ok.1 h
  exact ⟨(cstr_eq_some.1 hread).2, hk.symm⟩

variable (P) in
/-- The state after `strtok` has found a token that ends at `s` with `c`. -/
def TokenEnd (k : Kernel) (s : UInt32) (c : UInt8) (k' : Kernel) : Prop :=
  (c = 0 ∧ k' = { k with last := 0 }) ∨
  (c = delim ∧ ∃ a, P.translate k.toTables .supervisor .write s = some a ∧
    P.kernelData a = false ∧
    k' = { k with mem := Function.update k.mem a 0, last := s + 1 })

/-- The second loop of `strtok`. -/
theorem strtokScan_ok {tok s r : UInt32} {n : ℕ} {k k' : Kernel}
    (h : P.strtokScan tok n s k = .ok r k') :
    r = tok ∧ ∃ (w : List UInt8) (c : UInt8), (∀ i (hi : i < w.length), P.bytesAt k s i = some w[i]) ∧
      P.bytesAt k s w.length = some c ∧ (0 : UInt8) ∉ w ∧ delim ∉ w ∧ (c = 0 ∨ c = delim) ∧
      P.TokenEnd k (s + UInt32.ofNat w.length) c k' := by
  induction n generalizing s with
  | zero => exact (throw_eq_ok.1 h).elim
  | succ n ih =>
    obtain ⟨c, k₁, hload, hrest⟩ := bind_eq_ok.1 h
    obtain ⟨hc, rfl⟩ := loadByte_ok hload
    clear h
    rw [← bytesAt_zero] at hc
    split_ifs at hrest with h0 hd
    · rw [modify_bind_run] at hrest
      obtain ⟨rfl, rfl⟩ := pure_eq_ok.1 hrest
      exact ⟨rfl, [], c, fun i hi => absurd hi (Nat.not_lt_zero i), hc, List.not_mem_nil,
        List.not_mem_nil, Or.inl h0, Or.inl ⟨h0, rfl⟩⟩
    · obtain ⟨⟨⟩, k₂, hstore, hrest⟩ := bind_eq_ok.1 hrest
      rw [modify_bind_run] at hrest
      obtain ⟨rfl, rfl⟩ := pure_eq_ok.1 hrest
      obtain ⟨a, htr, hdata, rfl⟩ := P.storeByte_cases hstore
      refine ⟨rfl, [], c, fun i hi => absurd hi (Nat.not_lt_zero i), hc, List.not_mem_nil,
        List.not_mem_nil, Or.inr hd, Or.inr ⟨hd, a, ?_, hdata, ?_⟩⟩
      · rwa [List.length_nil, Word32.add_ofNat_zero]
      · rw [List.length_nil, Word32.add_ofNat_zero]
    · obtain ⟨rfl, w, c', hbytes, hstop, hzero, hdelim, hends, hend⟩ := ih hrest
      rw [bytesAt_add_one] at hbytes hstop
      rw [Word32.add_one_add_ofNat] at hend
      refine ⟨rfl, c :: w, c', fun i hi => ?_, hstop, ?_, ?_, hends, hend⟩
      · cases i with
        | zero => exact hc
        | succ i => exact hbytes i (Nat.lt_of_succ_lt_succ hi)
      · exact List.not_mem_cons_of_ne_of_not_mem (Ne.symm h0) hzero
      · exact List.not_mem_cons_of_ne_of_not_mem (Ne.symm hd) hdelim

/-- The first loop of `strtok`. -/
theorem strtokSkip_ok {s r : UInt32} {n : ℕ} {k k' : Kernel}
    (h : P.strtokSkip n s k = .ok r k') :
    (r = 0 ∧ k' = { k with last := 0 } ∧
      ∃ m, (∀ i < m, P.bytesAt k s i = some delim) ∧ P.bytesAt k s m = some 0) ∨
    ∃ m w c, FirstToken (P.bytesAt k s) m w c ∧ r = s + UInt32.ofNat m ∧
      P.TokenEnd k (s + UInt32.ofNat (m + w.length)) c k' := by
  induction n generalizing s with
  | zero => exact (throw_eq_ok.1 h).elim
  | succ n ih =>
    obtain ⟨c, k₁, hload, hrest⟩ := bind_eq_ok.1 h
    obtain ⟨hc, rfl⟩ := loadByte_ok hload
    clear h
    rw [← bytesAt_zero] at hc
    split_ifs at hrest with hd h0
    · rw [hd] at hc
      rcases ih hrest with ⟨rfl, rfl, m, hskip, hstop⟩ | ⟨m, w, c', htoken, rfl, hend⟩
      · rw [bytesAt_add_one] at hskip hstop
        refine Or.inl ⟨rfl, rfl, m + 1, fun i hi => ?_, hstop⟩
        cases i with
        | zero => exact hc
        | succ i => exact hskip i (Nat.lt_of_succ_lt_succ hi)
      · rw [bytesAt_add_one] at htoken
        rw [Word32.add_one_add_ofNat] at hend
        refine Or.inr ⟨m + 1, w, c', htoken.succ hc, Word32.add_one_add_ofNat s m, ?_⟩
        rwa [Nat.add_right_comm]
    · rw [modify_bind_run] at hrest
      obtain ⟨rfl, rfl⟩ := pure_eq_ok.1 hrest
      rw [h0] at hc
      exact Or.inl ⟨rfl, rfl, 0, fun i hi => absurd hi (Nat.not_lt_zero i), hc⟩
    · obtain ⟨rfl, w, c', hbytes, hstop, hzero, hdelim, hends, hend⟩ := strtokScan_ok hrest
      rw [bytesAt_add_one] at hbytes hstop
      rw [Word32.add_one_add_ofNat] at hend
      refine Or.inr ⟨0, c :: w, c', ⟨fun i hi => absurd hi (Nat.not_lt_zero i), fun i hi => ?_, ?_,
        List.cons_ne_nil c w, ?_, ?_, hends⟩, (Word32.add_ofNat_zero r).symm, ?_⟩
      · rw [Nat.zero_add]
        cases i with
        | zero => exact hc
        | succ i => exact hbytes i (Nat.lt_of_succ_lt_succ hi)
      · rw [Nat.zero_add]
        exact hstop
      · exact List.not_mem_cons_of_ne_of_not_mem (Ne.symm h0) hzero
      · exact List.not_mem_cons_of_ne_of_not_mem (Ne.symm hd) hdelim
      · rwa [Nat.zero_add]

/-- What a call of `strtok` finds from `s` on, the argument or `last`. -/
theorem strtok_ok {p s r : UInt32} {k k' : Kernel} (hs : s = if p = 0 then k.last else p)
    (h : P.strtok p k = .ok r k') :
    (s = 0 ∧ r = 0 ∧ k' = k) ∨
    (s ≠ 0 ∧ r = 0 ∧ k' = { k with last := 0 } ∧
      ∃ m, (∀ i < m, P.bytesAt k s i = some delim) ∧ P.bytesAt k s m = some 0) ∨
    (s ≠ 0 ∧ ∃ m w c, FirstToken (P.bytesAt k s) m w c ∧ r = s + UInt32.ofNat m ∧
      P.TokenEnd k (s + UInt32.ofNat (m + w.length)) c k') := by
  unfold strtok at h
  rw [get_bind_run, ← hs] at h
  split_ifs at h with h0
  · obtain ⟨rfl, rfl⟩ := pure_eq_ok.1 h
    exact Or.inl ⟨h0, rfl, rfl⟩
  · rcases strtokSkip_ok h with hblank | htoken
    · exact Or.inr (Or.inl ⟨h0, hblank⟩)
    · exact Or.inr (Or.inr ⟨h0, htoken⟩)

/-- The second loop of `strtok` on a string without delimiters. -/
theorem strtokScan_run {tok s : UInt32} {n : ℕ} {w : List UInt8} {k : Kernel}
    (h : Holds (P.bytesAt k s) w) (hd : delim ∉ w) (hn : w.length < n) :
    P.strtokScan tok n s k = .ok tok { k with last := 0 } := by
  induction w generalizing s n with
  | nil =>
    cases n with
    | zero => exact absurd hn (Nat.not_lt_zero _)
    | succ n =>
      rw [strtokScan, bind_of_ok (load_string_nil h), if_pos rfl]
      rfl
  | cons c w ih =>
    cases n with
    | zero => exact absurd hn (Nat.not_lt_zero _)
    | succ n =>
      obtain ⟨hload, hne, hrest⟩ := load_string_cons h
      have hdelim : c ≠ delim := fun heq => hd (heq ▸ List.mem_cons_self)
      rw [strtokScan, bind_of_ok hload, if_neg hne, if_neg hdelim]
      exact ih hrest (fun hmem => hd (List.mem_cons_of_mem c hmem)) (Nat.lt_of_succ_lt_succ hn)

/-- `strtok` on a single word finds it and overwrites nothing. -/
theorem strtok_single {p : UInt32} {w : List UInt8} {k : Kernel} (hp : p ≠ 0)
    (h : Holds (P.bytesAt k p) w) (hw : w ≠ []) (hd : delim ∉ w)
    (hlen : w.length < addressSpace) : P.strtok p k = .ok p { k with last := 0 } := by
  obtain ⟨c, w, rfl⟩ := List.exists_cons_of_ne_nil hw
  obtain ⟨hload, hne, hrest⟩ := load_string_cons h
  have hdelim : c ≠ delim := fun heq => hd (heq ▸ List.mem_cons_self)
  unfold strtok
  rw [get_bind_run, if_neg hp, if_neg hp]
  show P.strtokSkip (4294967295 + 1) p k = _
  rw [strtokSkip, bind_of_ok hload, if_neg hdelim, if_neg hne]
  exact strtokScan_run hrest (fun hmem => hd (List.mem_cons_of_mem c hmem))
    (lt_trans (Nat.lt_succ_self _) hlen)

/-! ## Strings that stay in memory -/

theorem ne_zero_of_load {k : Kernel} (hs : P.Space k.toTables) {p : UInt32} {b : UInt8}
    (h : P.load k p = some b) : p ≠ 0 := by
  obtain ⟨a, htr, -⟩ := load_eq_some.1 h
  exact ne_zero_of_translate hs htr

/-- A string is not at null. -/
theorem ne_zero_of_holds {k : Kernel} (hs : P.Space k.toTables) {p : UInt32} {l : List UInt8}
    (h : Holds (P.bytesAt k p) l) : p ≠ 0 := by
  have hfirst : ∃ b, P.bytesAt k p 0 = some b := by
    cases l with
    | nil => exact ⟨0, h.stop⟩
    | cons c l => exact ⟨c, h.bytes 0 (Nat.succ_pos _)⟩
  obtain ⟨b, hb⟩ := hfirst
  rw [bytesAt_zero] at hb
  exact ne_zero_of_load hs hb

/-- Bytes that are all mapped are not many. -/
theorem length_le_of_bytesAt {k : Kernel} (hs : P.Space k.toTables) {p : UInt32} {n : ℕ}
    (h : ∀ i < n, P.bytesAt k p i ≠ none) : n ≤ 0x744000 := by
  obtain ⟨m, hm, hnone⟩ := exists_unmapped hs .read p
  by_contra hlong
  refine h m (by omega) ?_
  unfold bytesAt load
  rw [hnone]

/-- A byte that is written, at index `m` from `p` on. -/
theorem bytesAt_update_self {k k' : Kernel} {p a : UInt32} {m : ℕ} {b : UInt8}
    (htr : P.translate k.toTables .supervisor .write (p + UInt32.ofNat m) = some a)
    (hdata : P.kernelData a = false) (htables : k'.toTables = k.toTables)
    (hmem : k'.mem = Function.update k.mem a b) : P.bytesAt k' p m = some b := by
  refine load_eq_some.2 ⟨a, ?_, hdata, ?_⟩
  · rw [htables, ← translate_supervisor_access]
    exact htr
  · rw [hmem, Function.update_self]

/-- The bytes near it stay. -/
theorem bytesAt_update_of_ne {k k' : Kernel} (hs : P.Space k.toTables) {p a : UInt32} {m j : ℕ}
    {b : UInt8} (htr : P.translate k.toTables .supervisor .write (p + UInt32.ofNat m) = some a)
    (htables : k'.toTables = k.toTables) (hmem : k'.mem = Function.update k.mem a b) (hne : j ≠ m)
    (hj : j < m + 0x8000000) (hm : m < j + 0x8000000) : P.bytesAt k' p j = P.bytesAt k p j := by
  unfold bytesAt load
  rw [htables, hmem]
  cases htr' : P.translate k.toTables .supervisor .read (p + UInt32.ofNat j) with
  | none => rfl
  | some a' =>
    have ha : a' ≠ a := by
      rintro rfl
      rcases Nat.lt_or_gt_of_ne hne with hlt | hlt
      · exact translate_inj hs hlt (by omega) htr' htr
      · exact translate_inj hs hlt (by omega) htr htr'
    dsimp only
    rw [Function.update_of_ne ha]

theorem ne_zero_of_firstToken {k : Kernel} (hs : P.Space k.toTables) {s : UInt32} {m : ℕ}
    {w : List UInt8} {c : UInt8} (h : FirstToken (P.bytesAt k s) m w c) :
    s + UInt32.ofNat m ≠ 0 := by
  have hfirst := h.bytes 0 (List.length_pos_of_ne_nil h.ne)
  exact ne_zero_of_load hs hfirst

/-- The place behind a word is not null. -/
theorem TokenEnd.last_ne_zero {k k' : Kernel} (hspace : P.Space k.toTables) {s : UInt32}
    (h : P.TokenEnd k s delim k') : k'.last ≠ 0 := by
  rcases h with ⟨h0, -⟩ | ⟨-, a, htr, -, rfl⟩
  · exact absurd h0 (by decide)
  · have hbound : s.toNat < 0x8401000 := by
      rcases translate_supervisor_cases hspace htr with h | h | h | h <;> omega
    show s + 1 ≠ 0
    rw [ne_eq, ← UInt32.toNat_inj, Word32.toNat_add_of_lt (by simp only [UInt32.reduceToNat]; omega)]
    simp

/-- A word and the blanks before it are in memory. -/
theorem size_of_firstToken {k : Kernel} (hspace : P.Space k.toTables) {s : UInt32} {n : ℕ}
    {w : List UInt8} {c : UInt8} (h : FirstToken (P.bytesAt k s) n w c) :
    n + w.length ≤ 0x744000 := by
  refine length_le_of_bytesAt (p := s) hspace fun i hi => ?_
  rcases Nat.lt_or_ge i n with hlt | hge
  · rw [h.skip i hlt]
    exact Option.some_ne_none _
  · have hbyte := h.bytes (i - n) (by omega)
    rw [Nat.add_sub_cancel' hge] at hbyte
    rw [hbyte]
    exact Option.some_ne_none _

variable (P) in
/-- `strtok` still has the words `ws` to deliver, from `s` on. -/
def Pending (k : Kernel) (s : UInt32) (ws : List (List UInt8)) : Prop :=
  (s = 0 ∧ ws = []) ∨ (s ≠ 0 ∧ ∃ l, Holds (P.bytesAt k s) l ∧ words delim l = ws)

/-- The token is a string of its own when `strtok` returns it. -/
theorem TokenEnd.holds {k k' : Kernel} (hs : P.Space k.toTables) {s : UInt32} {m : ℕ}
    {w : List UInt8} {c : UInt8} (htoken : FirstToken (P.bytesAt k s) m w c)
    (hend : P.TokenEnd k (s + UInt32.ofNat (m + w.length)) c k') :
    Holds (P.bytesAt k' (s + UInt32.ofNat m)) w := by
  rw [bytesAt_add]
  rcases hend with ⟨rfl, rfl⟩ | ⟨rfl, a, htr, hdata, rfl⟩
  · exact ⟨htoken.bytes, htoken.stop, htoken.zero_notMem⟩
  · have hsize : w.length ≤ 0x744000 := by
      refine length_le_of_bytesAt (k := k) (p := s + UInt32.ofNat m) hs fun i hi => ?_
      rw [bytesAt_add]
      exact fun hnone => Option.some_ne_none _ ((htoken.bytes i hi).symm.trans hnone)
    refine ⟨fun i hi => ?_, ?_, htoken.zero_notMem⟩
    · rw [← htoken.bytes i hi]
      exact bytesAt_update_of_ne hs htr rfl rfl (by omega) (by omega) (by omega)
    · exact bytesAt_update_self htr hdata rfl rfl

/-- A string behind the token stays what it is. -/
theorem TokenEnd.holds_rest {k k' : Kernel} (hs : P.Space k.toTables) {s : UInt32} {m : ℕ}
    {l : List UInt8} (hl : Holds (fun i => P.bytesAt k s (m + 1 + i)) l)
    (hend : P.TokenEnd k (s + UInt32.ofNat m) delim k') :
    k'.last = s + UInt32.ofNat (m + 1) ∧ Holds (P.bytesAt k' k'.last) l := by
  rcases hend with ⟨h0, -⟩ | ⟨-, a, htr, -, rfl⟩
  · exact absurd h0 (by decide)
  · have hlast : s + UInt32.ofNat m + 1 = s + UInt32.ofNat (m + 1) :=
      Word32.add_ofNat_add_ofNat s m 1
    have hsize : l.length ≤ 0x744000 := by
      refine length_le_of_bytesAt (k := k) (p := s + UInt32.ofNat (m + 1)) hs fun i hi => ?_
      rw [bytesAt_add]
      exact fun hnone => Option.some_ne_none _ ((hl.bytes i hi).symm.trans hnone)
    refine ⟨hlast, ?_⟩
    dsimp only
    rw [hlast, bytesAt_add]
    refine ⟨fun i hi => ?_, ?_, hl.clean⟩
    · rw [← hl.bytes i hi]
      exact bytesAt_update_of_ne hs htr rfl rfl (by omega) (by omega) (by omega)
    · rw [← hl.stop]
      exact bytesAt_update_of_ne hs htr rfl rfl (by omega) (by omega) (by omega)

/-- **One call of `strtok` delivers one word** of the string, and keeps the place behind it. -/
theorem strtok_word {p s r : UInt32} {k k' : Kernel} {l : List UInt8} (hspace : P.Space k.toTables)
    (hs : s = if p = 0 then k.last else p) (hl : Holds (P.bytesAt k s) l)
    (h : P.strtok p k = .ok r k') :
    (words delim l = [] ∧ r = 0 ∧ k'.last = 0) ∨
    (∃ w, words delim l = [w] ∧ r ≠ 0 ∧ Holds (P.bytesAt k' r) w ∧ k'.last = 0) ∨
    ∃ w l' m, words delim l = w :: words delim l' ∧ r ≠ 0 ∧ Holds (P.bytesAt k' r) w ∧
      l.length = m + l'.length ∧ k'.last = s + UInt32.ofNat m ∧ k'.last ≠ 0 ∧
      Holds (P.bytesAt k' k'.last) l' := by
  have hne : s ≠ 0 := ne_zero_of_holds hspace hl
  rcases strtok_ok hs h with ⟨h0, -, -⟩ | ⟨-, hr, rfl, m, hskip, hstop⟩ |
    ⟨-, m, w, c, htoken, rfl, hend⟩
  · exact absurd h0 hne
  · rcases hl.words_cases with ⟨hnil, -⟩ | ⟨n, w, htoken, -⟩ | ⟨n, w, l', htoken, -⟩
    · exact Or.inl ⟨hnil, hr, rfl⟩
    · exact absurd hstop (htoken.not_blank hskip)
    · exact absurd hstop (htoken.not_blank hskip)
  · have hword := TokenEnd.holds hspace htoken hend
    have hpos : s + UInt32.ofNat m ≠ 0 := ne_zero_of_firstToken hspace htoken
    rcases hl.words_cases with ⟨-, n, hskip, hstop⟩ | ⟨n, w', htoken', hws⟩ |
      ⟨n, w', l', htoken', hws, hlength, hrest⟩
    · exact absurd hstop (htoken.not_blank hskip)
    · obtain ⟨rfl, rfl, rfl⟩ := htoken.inj htoken'
      refine Or.inr (Or.inl ⟨w, hws, hpos, hword, ?_⟩)
      rcases hend with ⟨-, rfl⟩ | ⟨h0, -⟩
      · rfl
      · exact absurd h0 (by decide)
    · obtain ⟨rfl, rfl, rfl⟩ := htoken.inj htoken'
      obtain ⟨hlast, hmore⟩ := TokenEnd.holds_rest hspace hrest hend
      have htables : k'.toTables = k.toTables := P.quiet_strtok p h
      exact Or.inr (Or.inr ⟨w, l', m + w.length + 1, hws, hpos, hword, hlength, hlast,
        ne_zero_of_holds (htables ▸ hspace) hmore, hmore⟩)

/-- A call of `strtok` that has nothing left to look at. -/
theorem strtok_nothing {r : UInt32} {k k' : Kernel} (hlast : k.last = 0)
    (h : P.strtok 0 k = .ok r k') : r = 0 ∧ k' = k := by
  unfold strtok at h
  rw [get_bind_run, if_pos rfl, if_pos hlast] at h
  obtain ⟨rfl, rfl⟩ := pure_eq_ok.1 h
  exact ⟨rfl, rfl⟩

/-- The words that are left, after one more call. -/
theorem strtok_pending {p s r : UInt32} {k k' : Kernel} {ws : List (List UInt8)}
    (hspace : P.Space k.toTables) (hs : s = if p = 0 then k.last else p) (hws : P.Pending k s ws)
    (h : P.strtok p k = .ok r k') :
    (r = 0 ∧ ws = []) ∨
    ∃ w ws', ws = w :: ws' ∧ r ≠ 0 ∧ Holds (P.bytesAt k' r) w ∧ P.Pending k' k'.last ws' := by
  rcases hws with ⟨h0, rfl⟩ | ⟨-, l, hl, rfl⟩
  · split_ifs at hs with hp
    · subst hp
      exact Or.inl ⟨(strtok_nothing (hs.symm.trans h0) h).1, rfl⟩
    · exact absurd (hs.symm.trans h0) hp
  · rcases strtok_word hspace hs hl h with ⟨hnil, hr, -⟩ | ⟨w, hws, hr, hw, hlast⟩ |
      ⟨w, l', m, hws, hr, hw, -, -, hne, hl'⟩
    · exact Or.inl ⟨hr, hnil⟩
    · exact Or.inr ⟨w, [], hws, hr, hw, Or.inl ⟨hlast, rfl⟩⟩
    · exact Or.inr ⟨w, _, hws, hr, hw, Or.inr ⟨hne, l', hl', rfl⟩⟩

end Platform

end CheetOS
