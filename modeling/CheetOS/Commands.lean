import CheetOS.Effects
import CheetOS.Strings

/-!
# What execute makes of a command

The part of `execute` that works on strings: the first word names the program,
the others are joined with single spaces.

* `programNamed` is the directory entry behind a first word, `findProgram_ok` says
  that `execute` finds it;
* `joinLoop_ok` says what the loop over the arguments has collected, with
  `appendWord` for one round of it, and `joinArgs_ok` what is in `buffer` then.
-/

namespace CheetOS

open Exec Words
open Platform (delim)

/-! ## The program -/

/-- The regular file that `execute` runs for a first word, `none` where it fails. -/
def programNamed (fs : Image) (name : List UInt8) : Option Dentry :=
  if name.length ≥ filenameLen - 1 then none
  else
    match readDentryByName fs (some (ofList name)) with
    | some (some d) => if d.filetype = fileTypeFile then some d else none
    | _ => none

theorem programNamed_eq_some {fs : Image} {name : List UInt8} {d : Dentry} :
    programNamed fs name = some d ↔ name.length < filenameLen - 1 ∧
      readDentryByName fs (some (ofList name)) = some (some d) ∧ d.filetype = fileTypeFile := by
  unfold programNamed
  split_ifs with hlen
  · constructor
    · exact fun h => absurd h (by simp)
    · exact fun h => absurd h.1 (not_lt.2 hlen)
  · rw [not_le] at hlen
    cases hread : readDentryByName fs (some (ofList name)) with
    | none => simp
    | some found =>
      cases found with
      | none => simp
      | some e =>
        by_cases he : e.filetype = fileTypeFile
        · simp only [if_pos he, Option.some.injEq]
          constructor
          · rintro rfl
            exact ⟨hlen, rfl, he⟩
          · exact fun h => h.2.1
        · simp only [if_neg he]
          constructor
          · exact fun h => absurd h (by simp)
          · rintro ⟨-, heq, hd⟩
            rw [Option.some.inj (Option.some.inj heq)] at he
            exact absurd hd he

namespace Platform

variable {P : Platform}

/-- A name that is short enough to be looked up fits into `filename`. -/
theorem strcpyFilename_fits {filename : List UInt8} (h : ¬filename.length ≥ filenameLen - 1)
    (k : Kernel) : strcpyFilename filename k = .ok () k := by
  have hsize : filenameLen = 32 := rfl
  unfold strcpyFilename
  rw [if_pos (by omega)]
  rfl

/-- `execute` looks up the first token that `strtok` finds. -/
theorem findProgram_ok {command : UInt32} {k k' : Kernel} {found : Option Dentry}
    (h : P.findProgram command k = .ok found k') :
    ∃ token, P.strtok command k = .ok token k' ∧
      ((token = 0 ∧ found = none) ∨
       token ≠ 0 ∧ ∃ w, Holds (P.bytesAt k' token) w ∧ found = programNamed P.fs w) := by
  unfold findProgram at h
  obtain ⟨token, k₁, htoken, h⟩ := bind_eq_ok.1 h
  by_cases h0 : token = 0
  · rw [if_pos h0] at h
    obtain ⟨rfl, rfl⟩ := pure_eq_ok.1 h
    exact ⟨token, htoken, Or.inl ⟨h0, rfl⟩⟩
  · rw [if_neg h0] at h
    obtain ⟨w, k₂, hread, hlook⟩ := bind_eq_ok.1 h
    obtain ⟨hw, rfl⟩ := readString_ok hread
    by_cases hlen : w.length ≥ filenameLen - 1
    · rw [if_pos hlen] at hlook
      obtain ⟨rfl, rfl⟩ := pure_eq_ok.1 hlook
      refine ⟨token, htoken, Or.inr ⟨h0, w, hw, ?_⟩⟩
      rw [programNamed, if_pos hlen]
    · rw [if_neg hlen, bind_of_ok (strcpyFilename_fits hlen k₂)] at hlook
      obtain ⟨entry, k₃, hentry, hfile⟩ := bind_eq_ok.1 hlook
      obtain ⟨hlookup, rfl⟩ := orUnread_eq_ok.1 hentry
      cases entry with
      | none =>
        obtain ⟨rfl, rfl⟩ := pure_eq_ok.1 hfile
        refine ⟨token, htoken, Or.inr ⟨h0, w, hw, ?_⟩⟩
        rw [programNamed, if_neg hlen, hlookup]
      | some d =>
        have hname : programNamed P.fs w = if d.filetype = fileTypeFile then some d else none := by
          rw [programNamed, if_neg hlen, hlookup]
        dsimp only at hfile
        by_cases hd : d.filetype = fileTypeFile
        · rw [if_neg (not_not.2 hd)] at hfile
          obtain ⟨rfl, rfl⟩ := pure_eq_ok.1 hfile
          exact ⟨token, htoken, Or.inr ⟨h0, w, hw, by rw [hname, if_pos hd]⟩⟩
        · rw [if_pos hd] at hfile
          obtain ⟨rfl, rfl⟩ := pure_eq_ok.1 hfile
          exact ⟨token, htoken, Or.inr ⟨h0, w, hw, by rw [hname, if_neg hd]⟩⟩

/-! ## The arguments -/

/-- A word is copied behind what is in the buffer. -/
theorem holds_writeAt {buffer : ℕ → UInt8} {acc w : List UInt8}
    (h : ∀ i (hi : i < acc.length), buffer i = acc[i]) (hacc : (0 : UInt8) ∉ acc)
    (hw : (0 : UInt8) ∉ w) :
    Holds (fun i => some (Bytes.writeAt buffer acc.length (w ++ [0]) i)) (acc ++ w) := by
  refine holds_append.2 ⟨fun i hi => ?_, hacc, ⟨fun i hi => ?_, ?_, hw⟩⟩
  · rw [Bytes.writeAt_of_lt hi, h i hi]
  · rw [Bytes.writeAt_add (by rw [List.length_append]; omega), List.getElem_append_left hi]
  · rw [Bytes.writeAt_add (by simp)]
    simp

/-- What is in `buffer` after a word was copied behind the others. -/
theorem holds_copied {buffer : ℕ → UInt8} {acc w : List UInt8}
    (hbuffer : Holds (fun i => some (buffer i)) acc) (hw : (0 : UInt8) ∉ w) :
    Holds (fun i => some (Bytes.writeAt buffer acc.length (w ++ [0]) i)) (acc ++ w) :=
  holds_writeAt (fun i hi => Option.some.inj (hbuffer.bytes i hi)) hbuffer.clean hw

/-- A string is copied to the beginning of an array. -/
theorem holds_copy (buffer : ℕ → UInt8) {w : List UInt8} (hw : (0 : UInt8) ∉ w) :
    Holds (fun i => some (Bytes.writeAt buffer 0 (w ++ [0]) i)) w := by
  have h : Holds (fun i => some (Bytes.writeAt buffer ([] : List UInt8).length (w ++ [0]) i))
      ([] ++ w) :=
    holds_writeAt (fun i hi => absurd hi (Nat.not_lt_zero i)) List.not_mem_nil hw
  rwa [List.nil_append] at h

theorem memcpyBuffer_ok {room : ℕ} {buffer buffer' : ℕ → UInt8} {ptr : ℕ} {bytes : List UInt8}
    {k k' : Kernel} (h : memcpyBuffer room buffer ptr bytes k = .ok buffer' k') :
    buffer' = Bytes.writeAt buffer ptr bytes ∧ k' = k := by
  unfold memcpyBuffer at h
  split_ifs at h
  · obtain ⟨rfl, rfl⟩ := pure_eq_ok.1 h
    exact ⟨rfl, rfl⟩
  · exact (throw_eq_ok.1 h).elim

/-- The space between two arguments. -/
theorem separator_ok {room : ℕ} {buffer buffer' : ℕ → UInt8} {ptr : ℕ} {acc : List UInt8} {k k' : Kernel}
    (hbuffer : Holds (fun i => some (buffer i)) acc) (hptr : ptr = acc.length)
    (h : (if ptr ≠ 0 then memcpyBuffer room buffer ptr [0x20, 0] else pure buffer : K (ℕ → UInt8)) k
      = .ok buffer' k') :
    k' = k ∧ ∃ acc', Holds (fun i => some (buffer' i)) acc' ∧
      (if ptr ≠ 0 then ptr + 1 else ptr) = acc'.length ∧
      ∀ w, acc' ++ w = appendWord delim acc w := by
  by_cases h0 : ptr ≠ 0
  · rw [if_pos h0] at h ⊢
    obtain ⟨rfl, rfl⟩ := memcpyBuffer_ok h
    have hne : acc ≠ [] := by
      rintro rfl
      exact h0 hptr
    refine ⟨rfl, acc ++ [delim], ?_, by simp [hptr], fun w => ?_⟩
    · rw [hptr]
      exact holds_copied (w := [delim]) hbuffer (by decide)
    · rw [appendWord_of_ne_nil hne, List.append_assoc, List.singleton_append]
  · rw [if_neg h0] at h ⊢
    obtain ⟨rfl, rfl⟩ := pure_eq_ok.1 h
    have hnil : acc = [] := List.eq_nil_of_length_eq_zero (by omega)
    subst hnil
    exact ⟨rfl, [], hbuffer, hptr, fun w => rfl⟩

/-- `token` is the first of the words that are left. -/
def AtWord (P : Platform) (k : Kernel) (token : UInt32) (ws : List (List UInt8)) : Prop :=
  (token = 0 ∧ ws = []) ∨
  ∃ w ws', ws = w :: ws' ∧ token ≠ 0 ∧ Holds (P.bytesAt k token) w ∧ P.Pending k k.last ws'

/-- One round of the loop. -/
theorem joinLoop_succ {room n : ℕ} {token : UInt32} (h0 : token ≠ 0) (buffer : ℕ → UInt8) (ptr : ℕ) :
    P.joinLoop room (n + 1) token buffer ptr =
      (if ptr ≠ 0 then memcpyBuffer room buffer ptr [0x20, 0] else pure buffer) >>= fun b => (do
        let string ← P.readString token
        let b' ← memcpyBuffer room b (if ptr ≠ 0 then ptr + 1 else ptr) (string ++ [0])
        let token' ← P.strtok 0
        P.joinLoop room n token' b' ((if ptr ≠ 0 then ptr + 1 else ptr) + string.length)) := by
  rw [joinLoop, if_neg h0]
  by_cases hp : ptr ≠ 0
  · simp only [if_pos hp]
  · simp only [if_neg hp]

/-- The loop appends the words that are left, one by one. -/
theorem joinLoop_ok {room n : ℕ} {token : UInt32} {buffer buffer' : ℕ → UInt8} {ptr : ℕ}
    {acc : List UInt8} {ws : List (List UInt8)} {k k' : Kernel} (hs : P.Space k.toTables)
    (hbuffer : Holds (fun i => some (buffer i)) acc) (hptr : ptr = acc.length)
    (hws : P.AtWord k token ws) (h : P.joinLoop room n token buffer ptr k = .ok buffer' k') :
    Holds (fun i => some (buffer' i)) (ws.foldl (appendWord delim) acc) := by
  induction n generalizing token buffer ptr acc ws k with
  | zero => exact (throw_eq_ok.1 h).elim
  | succ n ih =>
    rcases hws with ⟨rfl, rfl⟩ | ⟨w, ws', rfl, h0, hw, hrest⟩
    · rw [joinLoop, if_pos rfl] at h
      obtain ⟨rfl, rfl⟩ := pure_eq_ok.1 h
      exact hbuffer
    · rw [joinLoop_succ h0] at h
      obtain ⟨b, k₁, hspace, hmore⟩ := bind_eq_ok.1 h
      obtain ⟨rfl, acc', hacc', hptr', happend⟩ := separator_ok hbuffer hptr hspace
      obtain ⟨string, k₂, hread, hcopy⟩ := bind_eq_ok.1 hmore
      obtain ⟨hstring, rfl⟩ := readString_ok hread
      obtain rfl := hw.inj hstring
      obtain ⟨b', k₃, hmemcpy, hnext⟩ := bind_eq_ok.1 hcopy
      obtain ⟨rfl, rfl⟩ := memcpyBuffer_ok hmemcpy
      obtain ⟨token', k₄, hstep, hloop⟩ := bind_eq_ok.1 hnext
      have htables : k₄.toTables = k₃.toTables := P.quiet_strtok 0 hstep
      have hat : P.AtWord k₄ token' ws' := strtok_pending hs (if_pos rfl).symm hrest hstep
      rw [hptr'] at hloop
      have hall := ih (htables ▸ hs) (holds_copied hacc' hw.clean) List.length_append.symm hat hloop
      rwa [happend] at hall

/-- **The arguments are joined with single spaces**, however they were separated. -/
theorem joinArgs_ok {room : ℕ} {buffer buffer' : ℕ → UInt8} {ws : List (List UInt8)} {k k' : Kernel}
    (hs : P.Space k.toTables) (hws : P.Pending k k.last ws) (hne : ∀ w ∈ ws, w ≠ [])
    (h : P.joinArgs room buffer k = .ok buffer' k') :
    Holds (fun i => some (buffer' i)) ([delim].intercalate ws) := by
  unfold joinArgs at h
  obtain ⟨token, k₁, hnext, h⟩ := bind_eq_ok.1 h
  have htables : k₁.toTables = k.toTables := P.quiet_strtok 0 hnext
  have hat : P.AtWord k₁ token ws := strtok_pending hs (if_pos rfl).symm hws hnext
  rw [← foldl_appendWord hne]
  refine joinLoop_ok (htables ▸ hs) (holds_nil.2 ?_) rfl hat h
  exact congrArg some (Function.update_self ..)

end Platform

end CheetOS
