import CheetOS.Opening

/-!
# The tokenizer, call after call

What `execute` makes of a command string it may write to.

* `strtok_ends` — no call of `strtok` on such a string fails;
* `Remaining` is the list of words that are left, `strtok_remaining` the step from one call
  to the next;
* `findProgram_ends` and `joinArgs_ends` carry it through the two routines: the second
  leaves `buffer` exactly if the joined words do not fit.
-/

namespace CheetOS

open Exec Words
open Platform (delim)

namespace Platform

variable {P : Platform}

/-! ## Calls that come to an end -/

variable (P) in
/-- The kernel may write to the `n` bytes from `s` on: they are there, and not its own data. -/
def Writable (t : Tables) (s : UInt32) (n : ℕ) : Prop :=
  ∀ i < n, (P.target t (s + UInt32.ofNat i)).isOk

theorem Writable.tail {t : Tables} {s : UInt32} {n : ℕ} (h : P.Writable t s (n + 1)) :
    P.Writable t (s + 1) n := by
  intro i hi
  rw [Word32.add_one_add_ofNat]
  exact h (i + 1) (Nat.succ_lt_succ hi)

theorem Writable.drop {t : Tables} {s : UInt32} {m n : ℕ} (h : P.Writable t s (m + n)) :
    P.Writable t (s + UInt32.ofNat m) n := by
  intro i hi
  rw [Word32.add_ofNat_add_ofNat]
  exact h (m + i) (Nat.add_lt_add_left hi m)

/-- A string a program may write to may be written to by the kernel. -/
theorem storeByte_writable {k : Kernel} {s : UInt32} {n : ℕ}
    (h : P.Writable k.toTables s (n + 1)) (b : UInt8) :
    ∃ a, P.storeByte s b k = .ok () { k with mem := Function.update k.mem a b } := by
  have hfirst := h 0 (Nat.succ_pos n)
  rw [Word32.add_ofNat_zero] at hfirst
  obtain ⟨a, htr, hdata⟩ := translate_of_target hfirst
  exact ⟨a, P.storeByte_run htr hdata b⟩

theorem strtokScan_ends {tok s : UInt32} {n : ℕ} {l : List UInt8} {k : Kernel}
    (h : Holds (P.bytesAt k s) l) (hw : P.Writable k.toTables s l.length) (hn : l.length < n) :
    ∃ k', P.strtokScan tok n s k = .ok tok k' := by
  induction l generalizing s n with
  | nil =>
    obtain ⟨n, rfl⟩ := Nat.exists_eq_succ_of_ne_zero (Nat.ne_of_gt hn)
    rw [strtokScan, bind_of_ok (load_string_nil h), if_pos rfl]
    exact ⟨_, rfl⟩
  | cons c l ih =>
    obtain ⟨n, rfl⟩ := Nat.exists_eq_succ_of_ne_zero (Nat.ne_of_gt (lt_trans (Nat.succ_pos _) hn))
    obtain ⟨hload, hne, hrest⟩ := load_string_cons h
    rw [strtokScan, bind_of_ok hload, if_neg hne]
    by_cases hd : c = delim
    · obtain ⟨a, hstore⟩ := storeByte_writable hw 0
      rw [if_pos hd, bind_of_ok hstore]
      exact ⟨_, rfl⟩
    · rw [if_neg hd]
      exact ih hrest hw.tail (Nat.lt_of_succ_lt_succ hn)

theorem strtokSkip_ends {s : UInt32} {n : ℕ} {l : List UInt8} {k : Kernel}
    (h : Holds (P.bytesAt k s) l) (hw : P.Writable k.toTables s l.length) (hn : l.length < n)
    (hlen : l.length < addressSpace) : ∃ r k', P.strtokSkip n s k = .ok r k' := by
  induction l generalizing s n with
  | nil =>
    obtain ⟨n, rfl⟩ := Nat.exists_eq_succ_of_ne_zero (Nat.ne_of_gt hn)
    rw [strtokSkip, bind_of_ok (load_string_nil h), if_neg (by decide), if_pos rfl]
    exact ⟨_, _, rfl⟩
  | cons c l ih =>
    obtain ⟨n, rfl⟩ := Nat.exists_eq_succ_of_ne_zero (Nat.ne_of_gt (lt_trans (Nat.succ_pos _) hn))
    obtain ⟨hload, hne, hrest⟩ := load_string_cons h
    rw [strtokSkip, bind_of_ok hload]
    by_cases hd : c = delim
    · rw [if_pos hd]
      exact ih hrest hw.tail (Nat.lt_of_succ_lt_succ hn) (Nat.lt_of_succ_lt hlen)
    · rw [if_neg hd, if_neg hne]
      exact ⟨s, strtokScan_ends hrest hw.tail (Nat.lt_of_succ_lt hlen)⟩

/-- A string in memory is shorter than the address space. -/
theorem length_lt_of_holds {k : Kernel} (hs : P.Space k.toTables) {s : UInt32} {l : List UInt8}
    (h : Holds (P.bytesAt k s) l) : l.length < addressSpace := by
  have hsize : l.length ≤ 0x744000 := by
    refine length_le_of_bytesAt (p := s) hs fun i hi hnone => ?_
    rw [h.bytes i hi] at hnone
    cases hnone
  exact Nat.lt_of_le_of_lt hsize (by decide)

/-- **`strtok` comes to an end** on a string it may write to. -/
theorem strtok_ends {p s : UInt32} {l : List UInt8} {k : Kernel} (hspace : P.Space k.toTables)
    (hs : s = if p = 0 then k.last else p) (h : Holds (P.bytesAt k s) l)
    (hw : P.Writable k.toTables s l.length) : ∃ r k', P.strtok p k = .ok r k' := by
  have hlen := length_lt_of_holds hspace h
  unfold strtok
  rw [get_bind_run, ← hs, if_neg (ne_zero_of_holds hspace h)]
  exact strtokSkip_ends h hw hlen hlen

/-! ## The words that are left -/

variable (P) in
/-- `strtok` still has the words `ws` to deliver, from `s` on, in a string it may write to. -/
def Remaining (k : Kernel) (s : UInt32) (ws : List (List UInt8)) : Prop :=
  (s = 0 ∧ ws = []) ∨
  ∃ l, Holds (P.bytesAt k s) l ∧ words delim l = ws ∧ P.Writable k.toTables s l.length

variable (P) in
/-- `token` is the first of the words that are left, and then nothing is forgotten. -/
def AtToken (k : Kernel) (token : UInt32) (ws : List (List UInt8)) : Prop :=
  (token = 0 ∧ ws = [] ∧ k.last = 0) ∨
  ∃ w ws', ws = w :: ws' ∧ token ≠ 0 ∧ Holds (P.bytesAt k token) w ∧ P.Remaining k k.last ws'

/-- **Each call delivers the next word**, until there is none left. -/
theorem strtok_remaining {p s : UInt32} {k : Kernel} {ws : List (List UInt8)}
    (hspace : P.Space k.toTables) (hs : s = if p = 0 then k.last else p)
    (hws : P.Remaining k s ws) :
    ∃ r k', P.strtok p k = .ok r k' ∧ k'.toTables = k.toTables ∧ P.AtToken k' r ws := by
  rcases hws with ⟨h0, rfl⟩ | ⟨l, hl, rfl, hw⟩
  · split_ifs at hs with hp
    · subst hp
      refine ⟨0, k, ?_, rfl, Or.inl ⟨rfl, rfl, hs.symm.trans h0⟩⟩
      unfold strtok
      rw [get_bind_run, if_pos rfl, if_pos (hs.symm.trans h0)]
      rfl
    · exact absurd (hs.symm.trans h0) hp
  · obtain ⟨r, k', hrun⟩ := strtok_ends hspace hs hl hw
    have htables : k'.toTables = k.toTables := P.quiet_strtok p hrun
    refine ⟨r, k', hrun, htables, ?_⟩
    rcases strtok_word hspace hs hl hrun with ⟨hnil, hr, hlast⟩ | ⟨w, hws, hr, hword, hlast⟩ |
      ⟨w, l', m, hws, hr, hword, hlength, hlast, -, hl'⟩
    · exact Or.inl ⟨hr, hnil, hlast⟩
    · exact Or.inr ⟨w, [], hws, hr, hword, Or.inl ⟨hlast, rfl⟩⟩
    · refine Or.inr ⟨w, _, hws, hr, hword, Or.inr ⟨l', hl', rfl, ?_⟩⟩
      rw [htables, hlast]
      rw [hlength] at hw
      exact hw.drop

theorem readString_run {p : UInt32} {k : Kernel} {l : List UInt8} (hs : P.Space k.toTables)
    (h : Holds (P.bytesAt k p) l) : P.readString p k = .ok l k := by
  unfold readString
  rw [get_bind_run, cstr_eq_some.2 ⟨length_lt_of_holds hs h, h⟩]
  rfl

/-! ## The program -/

/-- The look-up of a string never page-faults. -/
theorem readDentryByName_ends (fs : Image) {w : List UInt8} (h : (0 : UInt8) ∉ w) :
    ∃ found, readDentryByName fs (some (ofList w)) = some found := by
  have hholds := holds_ofList h
  unfold readDentryByName
  cases w with
  | nil => exact ⟨none, by simp [ofList]⟩
  | cons c w =>
    have hc : ofList (c :: w) 0 = some c := rfl
    simp only [hc]
    split_ifs
    · exact ⟨none, rfl⟩
    · exact findDentry_ok fs hholds numFiles 0

variable (P) in
/-- What `execute` looks up for the words of a command. -/
def programOf (ws : List (List UInt8)) : Option Dentry := ws.head?.bind (programNamed P.fs)

/-- With a first word, the first routine of `execute` finds the file that it names. -/
theorem findProgram_run {command token : UInt32} {k k₁ : Kernel} {w : List UInt8}
    (hspace : P.Space k₁.toTables) (htoken : P.strtok command k = .ok token k₁) (h0 : token ≠ 0)
    (hw : Holds (P.bytesAt k₁ token) w) :
    P.findProgram command k = .ok (programNamed P.fs w) k₁ := by
  obtain ⟨found, hfound⟩ := readDentryByName_ends P.fs hw.clean
  unfold findProgram programNamed
  rw [bind_of_ok htoken, if_neg h0, bind_of_ok (readString_run hspace hw)]
  by_cases hlen : w.length ≥ filenameLen - 1
  · rw [if_pos hlen, if_pos hlen]
    rfl
  · rw [if_neg hlen, if_neg hlen, bind_of_ok (strcpyFilename_fits hlen k₁), hfound]
    cases found with
    | none => rfl
    | some d =>
      show (if d.filetype ≠ fileTypeFile then pure none else pure (some d) : K _) k₁ = _
      by_cases hd : d.filetype = fileTypeFile
      · rw [if_neg (not_not.2 hd)]
        dsimp only
        rw [if_pos hd]
        rfl
      · rw [if_pos hd]
        dsimp only
        rw [if_neg hd]
        rfl

/-- **The first routine of `execute` comes to an end**, with the file that the first word
names. -/
theorem findProgram_ends {command : UInt32} {k : Kernel} {s : List UInt8}
    (hspace : P.Space k.toTables) (hs : Holds (P.bytesAt k command) s)
    (hw : P.Writable k.toTables command s.length) :
    ∃ k', P.findProgram command k = .ok (P.programOf (words delim s)) k' ∧
      k'.toTables = k.toTables ∧ (words delim s ≠ [] → P.Remaining k' k'.last (words delim s).tail) := by
  have hne : command ≠ 0 := ne_zero_of_holds hspace hs
  obtain ⟨token, k₁, htoken, htables, hat⟩ :=
    strtok_remaining hspace (if_neg hne).symm (Or.inr ⟨s, hs, rfl, hw⟩)
  rcases hat with ⟨rfl, hnil, -⟩ | ⟨w, ws', hws, h0, hword, hrest⟩
  · refine ⟨k₁, ?_, htables, fun hwords => absurd hnil hwords⟩
    unfold findProgram
    rw [bind_of_ok htoken, if_pos rfl, hnil]
    rfl
  · rw [hws]
    exact ⟨k₁, findProgram_run (htables ▸ hspace) htoken h0 hword, htables, fun _ => hrest⟩

/-! ## The arguments -/

theorem memcpyBuffer_fits {room : ℕ} {buffer : ℕ → UInt8} {ptr : ℕ} {bytes : List UInt8}
    {k : Kernel} (h : ptr + bytes.length ≤ room) :
    memcpyBuffer room buffer ptr bytes k = .ok (Bytes.writeAt buffer ptr bytes) k := by
  unfold memcpyBuffer
  rw [if_pos h]
  rfl

/-- A copy that goes past the end is not followed any further. -/
theorem memcpyBuffer_overruns {room : ℕ} {buffer : ℕ → UInt8} {ptr : ℕ} {bytes : List UInt8}
    {k : Kernel} (h : room < ptr + bytes.length) :
    memcpyBuffer room buffer ptr bytes k = .error .undefined k := by
  unfold memcpyBuffer
  rw [if_neg (not_le.2 h)]
  rfl

section Round

variable {room n : ℕ} {token : UInt32} {buffer : ℕ → UInt8} {acc w : List UInt8} {k : Kernel}

/-- The round for the first argument. -/
theorem joinLoop_first (hs : P.Space k.toTables)
    (hbuffer : Holds (fun i => some (buffer i)) ([] : List UInt8)) (h0 : token ≠ 0)
    (hw : Holds (P.bytesAt k token) w) :
    (w.length < room ∧ ∃ b, Holds (fun i => some (b i)) w ∧
        (∀ i, w.length < i → b i = buffer i) ∧
        P.joinLoop room (n + 1) token buffer 0 k
          = (P.strtok 0 >>= fun t => P.joinLoop room n t b w.length) k) ∨
    (room ≤ w.length ∧ P.joinLoop room (n + 1) token buffer 0 k = .error .undefined k) := by
  have hsize : (w ++ [0]).length = w.length + 1 := List.length_append
  have hboth := holds_copied hbuffer hw.clean
  have hsame : (pure buffer : K (ℕ → UInt8)) k = .ok buffer k := rfl
  rw [joinLoop_succ h0]
  simp only [ne_eq, not_true_eq_false, if_false]
  rw [bind_of_ok hsame, bind_of_ok (readString_run hs hw)]
  by_cases hfit : 0 + (w ++ [0]).length ≤ room
  · rw [bind_of_ok (memcpyBuffer_fits hfit), Nat.zero_add]
    exact Or.inl ⟨by omega, _, hboth, fun i hi => Bytes.writeAt_of_le (by simp; omega), rfl⟩
  · rw [bind_of_error (memcpyBuffer_overruns (not_le.1 hfit))]
    exact Or.inr ⟨by omega, rfl⟩

/-- The round for a later argument: a separator comes first. -/
theorem joinLoop_next (hs : P.Space k.toTables)
    (hbuffer : Holds (fun i => some (buffer i)) acc) (hne : acc ≠ []) (h0 : token ≠ 0)
    (hw : Holds (P.bytesAt k token) w) :
    ((acc ++ [delim] ++ w).length < room ∧ ∃ b, Holds (fun i => some (b i)) (acc ++ [delim] ++ w) ∧
        (∀ i, (acc ++ [delim] ++ w).length < i → b i = buffer i) ∧
        P.joinLoop room (n + 1) token buffer acc.length k
          = (P.strtok 0 >>= fun t => P.joinLoop room n t b (acc ++ [delim] ++ w).length) k) ∨
    (room ≤ (acc ++ [delim] ++ w).length ∧
      P.joinLoop room (n + 1) token buffer acc.length k = .error .undefined k) := by
  have hp : acc.length ≠ 0 := fun h => hne (List.eq_nil_of_length_eq_zero h)
  have hsize : (w ++ [0]).length = w.length + 1 := List.length_append
  have hlength : (acc ++ [delim] ++ w).length = acc.length + 1 + w.length := by
    rw [List.length_append, List.length_append, List.length_singleton]
  rw [joinLoop_succ h0]
  simp only [if_pos hp, hlength]
  by_cases hspace : acc.length + 2 ≤ room
  · have hsep : memcpyBuffer room buffer acc.length [0x20, 0] k
        = .ok (Bytes.writeAt buffer acc.length [0x20, 0]) k := memcpyBuffer_fits hspace
    have hboth := holds_copied (holds_copied (w := [delim]) hbuffer (by decide)) hw.clean
    have hat : (acc ++ [delim]).length = acc.length + 1 := by
      rw [List.length_append, List.length_singleton]
    rw [hat] at hboth
    rw [bind_of_ok hsep, bind_of_ok (readString_run hs hw)]
    by_cases hfit : acc.length + 1 + (w ++ [0]).length ≤ room
    · rw [bind_of_ok (memcpyBuffer_fits hfit)]
      refine Or.inl ⟨by omega, _, hboth, fun i hi => ?_, rfl⟩
      rw [Bytes.writeAt_of_le (by omega), Bytes.writeAt_of_le (by simp; omega)]
    · rw [bind_of_error (memcpyBuffer_overruns (not_le.1 hfit))]
      exact Or.inr ⟨by omega, rfl⟩
  · have hsep : memcpyBuffer room buffer acc.length [0x20, 0] k = .error .undefined k :=
      memcpyBuffer_overruns (not_le.1 hspace)
    rw [bind_of_error hsep]
    exact Or.inr ⟨by omega, rfl⟩

/-- One round of the loop: the word is in `buffer`, or does not fit. -/
theorem joinLoop_round (hs : P.Space k.toTables) (hbuffer : Holds (fun i => some (buffer i)) acc)
    (h0 : token ≠ 0) (hw : Holds (P.bytesAt k token) w) :
    ((appendWord delim acc w).length < room ∧
      ∃ b, Holds (fun i => some (b i)) (appendWord delim acc w) ∧
        (∀ i, (appendWord delim acc w).length < i → b i = buffer i) ∧
        P.joinLoop room (n + 1) token buffer acc.length k
          = (P.strtok 0 >>= fun t => P.joinLoop room n t b (appendWord delim acc w).length) k) ∨
    (room ≤ (appendWord delim acc w).length ∧
      P.joinLoop room (n + 1) token buffer acc.length k = .error .undefined k) := by
  by_cases hne : acc = []
  · subst hne
    exact joinLoop_first hs hbuffer h0 hw
  · rw [appendWord_of_ne_nil hne, ← List.singleton_append, ← List.append_assoc]
    exact joinLoop_next hs hbuffer hne h0 hw

end Round

/-- The loop runs to the last word, or to the first that does not fit. -/
theorem joinLoop_ends {room n : ℕ} {token : UInt32} {buffer : ℕ → UInt8} {ptr : ℕ} {acc : List UInt8}
    {ws : List (List UInt8)} {k : Kernel} (hs : P.Space k.toTables)
    (hbuffer : Holds (fun i => some (buffer i)) acc) (hptr : ptr = acc.length)
    (hroom : acc.length < room) (hws : P.AtToken k token ws) (hn : ws.length < n) :
    ((ws.foldl (appendWord delim) acc).length < room ∧
      ∃ b k', P.joinLoop room n token buffer ptr k = .ok b k' ∧ k'.last = 0) ∨
    (room ≤ (ws.foldl (appendWord delim) acc).length ∧
      ∃ k', P.joinLoop room n token buffer ptr k = .error .undefined k') := by
  induction n generalizing token buffer ptr acc ws k with
  | zero => exact absurd hn (Nat.not_lt_zero _)
  | succ n ih =>
    rcases hws with ⟨rfl, rfl, hlast⟩ | ⟨w, ws', rfl, h0, hw, hrest⟩
    · refine Or.inl ⟨hroom, buffer, k, ?_, hlast⟩
      unfold joinLoop
      rw [if_pos rfl]
      rfl
    · rw [List.foldl_cons]
      rw [hptr]
      rcases joinLoop_round (n := n) hs hbuffer h0 hw with
        ⟨hfit, b, hb, -, hround⟩ | ⟨hlong, hround⟩
      · obtain ⟨token', k', hrun, htables, hat⟩ := strtok_remaining hs (if_pos rfl).symm hrest
        rw [hround, bind_of_ok hrun]
        exact ih (htables ▸ hs) hb rfl hfit hat (Nat.lt_of_succ_lt_succ hn)
      · exact Or.inr ⟨hlong.trans (length_le_foldl_appendWord delim ws' _), k, hround⟩

/-- **The joined arguments are in `buffer` exactly if they fit**, and the tokenizer is done
with the command then. -/
theorem joinArgs_ends {room : ℕ} (hpos : 0 < room) {buffer : ℕ → UInt8}
    {ws : List (List UInt8)} {k : Kernel} (hs : P.Space k.toTables)
    (hws : P.Remaining k k.last ws) (hne : ∀ w ∈ ws, w ≠ []) :
    (([delim].intercalate ws).length < room ∧
      ∃ b k', P.joinArgs room buffer k = .ok b k' ∧ k'.last = 0 ∧
        Holds (fun i => some (b i)) ([delim].intercalate ws)) ∨
    (room ≤ ([delim].intercalate ws).length ∧
      ∃ k', P.joinArgs room buffer k = .error .undefined k') := by
  have hcount : ws.length < addressSpace := by
    rcases hws with ⟨-, rfl⟩ | ⟨l, hl, rfl, -⟩
    · exact Nat.succ_pos _
    · exact Nat.lt_of_le_of_lt (length_words_le delim l) (length_lt_of_holds hs hl)
  have hpending : P.Pending k k.last ws := by
    rcases hws with h0 | ⟨l, hl, hwords, -⟩
    · exact Or.inl h0
    · exact Or.inr ⟨ne_zero_of_holds hs hl, l, hl, hwords⟩
  obtain ⟨token, k₁, hrun, htables, hat⟩ := strtok_remaining hs (if_pos rfl).symm hws
  have hempty : Holds (fun i => some (Function.update buffer 0 0 i)) [] :=
    holds_nil.2 (congrArg some (Function.update_self ..))
  have hargs : P.joinArgs room buffer k
      = P.joinLoop room addressSpace token (Function.update buffer 0 0) 0 k₁ := by
    unfold joinArgs
    exact bind_of_ok hrun _
  rw [hargs, ← foldl_appendWord hne]
  rcases joinLoop_ends (htables ▸ hs) hempty rfl hpos hat hcount with
    ⟨hfit, b, k', hloop, hlast⟩ | hlong
  · refine Or.inl ⟨hfit, b, k', hloop, hlast, ?_⟩
    rw [foldl_appendWord hne]
    exact joinArgs_ok hs hpending hne (hargs.trans hloop)
  · exact Or.inr hlong

end Platform

end CheetOS
