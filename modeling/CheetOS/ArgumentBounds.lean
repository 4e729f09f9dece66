import CheetOS.Arguments
import CheetOS.Tokenizer

/-!
# The buffers of execute

`execute` copies the first word to `filename[32]`, joins the others in `buffer[128]` and
copies the result to `pcb->arg[128]`.

* `ArgumentBounds` says that the three arrays are kept to, and that a command that does
  not fit is refused;
* `execute_refuses` is the exit for that;
* `argument_bounds` — the length of the first word is checked, that of the arguments is
  not: `buffer` is kept to exactly if the arguments of a program are shorter than it.
-/

namespace CheetOS

open Exec Words
open Platform (delim)

namespace Platform

variable {P : Platform}

variable (P) in
/-- `execute` keeps to its buffers when it gets the command `s`. -/
structure ArgumentBounds (k : Kernel) (command : UInt32) (s : List UInt8) : Prop where
  /-- The copy to `filename` does not go past its end. -/
  filename : ∀ k₁, P.findProgram command k ≠ .error .undefined k₁
  /-- No copy to `buffer` goes past its end. -/
  buffer : ∀ d k₁ k₂, P.findProgram command k = .ok (some d) k₁ → P.isExecutable d.inodeNum = true →
    P.joinArgs bufferSize (Bytes.writeAt (fun _ => 0) 0 (readData P.fs d.inodeNum 0 4).2) k₁
      ≠ .error .undefined k₂
  /-- The control block holds the arguments, and their length. -/
  stored : ∀ entryPoint k', P.execute command k = .ok (.started entryPoint) k' →
    Stores (k'.pcb (pcbAddr k'.currProcess)) ([delim].intercalate (words delim s).tail)
  /-- What does not fit is refused. -/
  refused : ∀ token tokens, words delim s = token :: tokens →
    (filenameLen < token.length + 1 ∨ 128 < ([delim].intercalate tokens).length + 1) →
    ∃ k', P.execute command k = .ok (.returned (-1)) k'

/-- What a program keeps in its own page it may pass. -/
theorem writable_own {m : Machine} (hm : P.Reachable m) (hlive : m.frames ≠ []) (regs : Regs)
    {s : UInt32} {n : ℕ}
    (h : ∀ i < n, 0x08000000 ≤ s + UInt32.ofNat i ∧ s + UInt32.ofNat i < 0x08400000) :
    P.Writable (m.enter regs).toTables s n := by
  intro i hi
  have hn := nested_reachable hm
  have hpage : (m.enter regs).pageDirectory 32 = userEntry m.kernel.currProcess :=
    hn.userPage hlive
  obtain ⟨hlo, hhi⟩ := h i hi
  exact target_isOk_iff.2 ⟨_, translate_user_page hn.running_bound hpage .supervisor .write hlo hhi,
    kernelData_user_page hn.running_bound hlo hhi⟩

/-- `execute` returns `-1` without a program that can be run. -/
theorem execute_refuses {command : UInt32} {k k₁ : Kernel} {found : Option Dentry}
    (hfind : P.findProgram command k = .ok found k₁)
    (hnot : ∀ d ∈ found, P.isExecutable d.inodeNum = false) :
    P.execute command k = .ok (.returned (-1)) k₁ := by
  unfold execute
  rw [bind_of_ok hfind]
  cases found with
  | none => rfl
  | some d =>
    dsimp only
    rw [if_pos (hnot d rfl)]
    rfl

/-- No program has a name that does not fit into `filename`. -/
theorem programOf_long {token : List UInt8} (tokens : List (List UInt8))
    (h : filenameLen < token.length + 1) : P.programOf (token :: tokens) = none := by
  have hsize : filenameLen = 32 := rfl
  show programNamed P.fs token = none
  unfold programNamed
  rw [if_pos (by omega)]

/-- **`execute` keeps to its buffers exactly if the arguments of the program are shorter than
`buffer`.**  Only the length of the file name is checked. -/
theorem argument_bounds (P : Platform) {m : Machine} {regs : Regs} {command : UInt32}
    {s : List UInt8} (hm : P.Reachable m) (hs : Holds (P.bytesAt (m.enter regs) command) s)
    (hw : P.Writable (m.enter regs).toTables command s.length) :
    P.ArgumentBounds (m.enter regs) command s ↔
      ∀ d, P.programOf (words delim s) = some d → P.isExecutable d.inodeNum = true →
        ([delim].intercalate (words delim s).tail).length < 128 := by
  have hspace := space_enter hm regs
  obtain ⟨k₁, hfind, htables, hrest⟩ := findProgram_ends hspace hs hw
  -- what becomes of the arguments of a program
  have hjoin : ∀ d, P.programOf (words delim s) = some d → ∀ header,
      (([delim].intercalate (words delim s).tail).length < 128 ∧
        ∃ b k', P.joinArgs bufferSize header k₁ = .ok b k') ∨
      (128 ≤ ([delim].intercalate (words delim s).tail).length ∧
        ∃ k', P.joinArgs bufferSize header k₁ = .error .undefined k') := by
    intro d hd header
    have hne : words delim s ≠ [] := by
      intro hnil
      rw [hnil] at hd
      cases hd
    have hwords : ∀ w ∈ (words delim s).tail, w ≠ [] :=
      fun w hw => (mem_words (List.mem_of_mem_tail hw)).1
    exact (joinArgs_ends (by decide) (htables ▸ hspace) (hrest hne) hwords).imp_left
      fun ⟨hfit, b, k', hrun, _⟩ => ⟨hfit, b, k', hrun⟩
  constructor
  · intro h d hd hexecutable
    rw [hd] at hfind
    rcases hjoin d hd (Bytes.writeAt (fun _ => 0) 0 (readData P.fs d.inodeNum 0 4).2) with
      ⟨hfit, -⟩ | ⟨-, k', hrun⟩
    · exact hfit
    · exact absurd hrun (h.buffer d k₁ k' hfind hexecutable)
  · intro hfit
    refine ⟨fun k₂ => ?_, ?_, ?_, ?_⟩
    · rw [hfind]
      exact fun h => by cases h
    · intro d k₂ k₃ hfind' hexecutable
      rw [hfind] at hfind'
      obtain ⟨hd, rfl⟩ := EStateM.Result.ok.inj hfind'
      rcases hjoin d hd (Bytes.writeAt (fun _ => 0) 0 (readData P.fs d.inodeNum 0 4).2) with
        ⟨-, b, k', hrun⟩ | ⟨hlong, -⟩
      · rw [hrun]
        exact fun h => by cases h
      · exact absurd (hfit d hd hexecutable) (not_lt.2 hlong)
    · exact fun entryPoint k' hrun => stores_words hspace hs hrun
    · intro token tokens hwords hlong
      refine ⟨k₁, execute_refuses hfind fun d hd => ?_⟩
      rw [hwords] at hd hfit
      rw [← Bool.not_eq_true]
      intro hexecutable
      rcases hlong with hname | hargs
      · rw [programOf_long tokens hname] at hd
        cases hd
      · have hshort := hfit d hd hexecutable
        rw [List.tail_cons] at hshort
        omega

/-- A command with 128 characters behind the first word. -/
def longCommand : List UInt8 := [0x73, 0x68, 0x20] ++ List.replicate 128 0x61

/-- A shell with two commands in its page. -/
def commandBoot : Machine :=
  bootMachine samplePlatform [(0x500000, [0x73, 0x68]), (0x850000, [0x73, 0x68, 0x20, 0x61]),
    (0x850100, longCommand)]

/-- The short one is within bounds. -/
theorem argument_bounds_short :
    ∃ m, Run.run samplePlatform.step commandBoot [.call (.execute 0x500000) ⟨64, 0x7FFFF0⟩] = some m ∧
      samplePlatform.ArgumentBounds (m.enter ⟨64, 0⟩) 0x8050000 [0x73, 0x68, 0x20, 0x61] := by
  have hrun : (Run.run samplePlatform.step commandBoot
      [.call (.execute 0x500000) ⟨64, 0x7FFFF0⟩]).any (fun m : Machine =>
        decide (m.frames ≠ []) && decide (cstr (samplePlatform.bytesAt (m.enter ⟨64, 0⟩) 0x8050000)
          = some [0x73, 0x68, 0x20, 0x61])) = true := by
    decide +kernel
  simp only [Option.any_eq_true, Bool.and_eq_true, decide_eq_true_eq] at hrun
  obtain ⟨m, hm, hlive, hstring⟩ := hrun
  have hreach : samplePlatform.Reachable m := ⟨_, _, boot_bootMachine _ _, hm⟩
  exact ⟨m, hm, (argument_bounds samplePlatform hreach (cstr_eq_some.1 hstring).2
    (writable_own hreach hlive _ (by decide))).2 fun _ _ _ => by decide⟩

/-- The long one makes `execute` write behind `buffer`. -/
theorem argument_overruns :
    ∃ m d k₁ k₂, Run.run samplePlatform.step commandBoot [.call (.execute 0x500000) ⟨64, 0x7FFFF0⟩]
        = some m ∧
      samplePlatform.findProgram 0x8050100 (m.enter ⟨64, 0⟩) = .ok (some d) k₁ ∧
      samplePlatform.isExecutable d.inodeNum = true ∧
      samplePlatform.joinArgs bufferSize
        (Bytes.writeAt (fun _ => 0) 0 (readData samplePlatform.fs d.inodeNum 0 4).2) k₁
        = .error .undefined k₂ ∧
      ¬samplePlatform.ArgumentBounds (m.enter ⟨64, 0⟩) 0x8050100 longCommand := by
  have hrun : (Run.run samplePlatform.step commandBoot
      [.call (.execute 0x500000) ⟨64, 0x7FFFF0⟩]).any (fun m : Machine =>
        decide (m.frames ≠ []) && decide (cstr (samplePlatform.bytesAt (m.enter ⟨64, 0⟩) 0x8050100)
          = some longCommand)) = true := by
    decide +kernel
  simp only [Option.any_eq_true, Bool.and_eq_true, decide_eq_true_eq] at hrun
  obtain ⟨m, hm, hlive, hstring⟩ := hrun
  have hwords : words delim longCommand = [[0x73, 0x68], List.replicate 128 0x61] := by
    decide +kernel
  have hprogram : (programNamed sampleImage [0x73, 0x68]).any
      (fun d => samplePlatform.isExecutable d.inodeNum) = true := by
    decide +kernel
  obtain ⟨d, hd, hexecutable⟩ := (Option.any_eq_true _ _).1 hprogram
  have hreach : samplePlatform.Reachable m := ⟨_, _, boot_bootMachine _ _, hm⟩
  have hspace := space_enter hreach ⟨64, 0⟩
  obtain ⟨k₁, hfind, htables, hrest⟩ := findProgram_ends hspace (cstr_eq_some.1 hstring).2
    (writable_own hreach hlive _ (by decide +kernel))
  rw [hwords] at hfind hrest
  have hfound : samplePlatform.programOf [[0x73, 0x68], List.replicate 128 0x61] = some d := hd
  rw [hfound] at hfind
  have hlength : ([delim].intercalate [List.replicate 128 (0x61 : UInt8)]).length = 128 := by
    rw [List.intercalate_singleton, List.length_replicate]
  rcases joinArgs_ends (show 0 < bufferSize by decide) (htables ▸ hspace)
    (hrest (by simp)) (by simp) with ⟨hfit, -⟩ | ⟨-, k₂, hjoin⟩
  · rw [List.tail_cons, hlength] at hfit
    exact absurd hfit (lt_irrefl _)
  · exact ⟨m, d, k₁, k₂, hm, hfind, hexecutable, hjoin,
      fun h => h.buffer d k₁ k₂ hfind hexecutable hjoin⟩

end Platform

end CheetOS
