import CheetOS.CallReturn
import CheetOS.Commands

/-!
# The arguments of a program

What a program finds out about the command that started it.

* `launch_started` and `execute_started` say what `execute` has stored when it starts a
  program;
* `HasArgs` says that a program, somewhere in the chain, has an argument string, and
  `hasArgs_step` that it keeps it;
* `stores_running` says that every running program has such a string;
* `argument_round_trip` follows the words of a command from `execute` to `getargs`.
-/

namespace CheetOS

open Exec Words
open Platform (delim)

/-- The string an array holds. -/
theorem holds_of_stringAt {n : ℕ} {b : ℕ → UInt8} {l : List UInt8}
    (h : Bytes.stringAt n b = some l) : Holds (fun i => some (b i)) l := by
  induction n generalizing b l with
  | zero => cases h
  | succ n ih =>
    rw [Bytes.stringAt] at h
    split_ifs at h with h0
    · cases h
      exact holds_nil.2 (congrArg some h0)
    · obtain ⟨l', hl', rfl⟩ := Option.map_eq_some_iff.1 h
      exact holds_cons.2 ⟨rfl, h0, ih hl'⟩

theorem stringAt_of_holds {n : ℕ} {b : ℕ → UInt8} {l : List UInt8}
    (h : Holds (fun i => some (b i)) l) (hn : l.length < n) : Bytes.stringAt n b = some l :=
  Bytes.stringAt_eq hn h.clean (fun i hi => Option.some.inj (h.bytes i hi))
    (Option.some.inj h.stop)

namespace Platform

variable {P : Platform}

/-! ## What execute stores -/

/-- When a program starts, its file is in memory, nothing else has been written, and the
entry point has been read from there. -/
theorem launch_started {inode : UInt32} {buffer : ℕ → UInt8} {k k' : Kernel} {entryPoint : UInt32}
    (hspace : P.Space k.toTables) (h : P.launch inode buffer k = .ok (.started entryPoint) k') :
    ∃ i arg, firstInactive k.pidArray = some i ∧ Bytes.stringAt 128 buffer = some arg ∧
      k'.toTables = P.startTables k.toTables i arg ∧
      (∀ j (hj : j < (P.loadedBytes inode).length),
        P.load k' (programImage + UInt32.ofNat j) = some (P.loadedBytes inode)[j]) ∧
      (∀ a, (∀ j < (P.loadedBytes inode).length, P.translate (k.toTables.take i) .supervisor .write
        (programImage + UInt32.ofNat j) ≠ some a) → k'.mem a = k.mem a) ∧
      P.loadWord (programImage + 24) k' = .ok entryPoint k' := by
  rcases P.launch_cases h with ⟨-, hr, -⟩ | ⟨i, k₃, hi, hstore, hrestore, ⟨-, hr, -⟩ |
    ⟨e, arg, -, hr, harg, hk', hword⟩⟩
  · cases hr
  · cases hr
  obtain rfl : entryPoint = e := ExecResult.started.inj hr
  have hmem : k'.mem = k₃.mem := congrArg (fun t : Store => t.mem) hrestore
  refine ⟨i, arg, hi, harg, hk', fun j hj => ?_, fun a ha => ?_, hword⟩
  · have hspace₂ := hspace.take (firstInactive_eq_some hi).1
    have hread := storeBytes_load (k := { k with toTables := k.toTables.take i }) hspace₂ hstore j hj
    have hsame : P.load k' = P.load k₃ := by
      have h₃ : k₃.toTables = k.toTables.take i := (storeBytes_rest hstore).1
      refine load_congr ?_ ?_ ?_ hmem
      · rw [hk', h₃]
        rfl
      · rw [hk', h₃]
        rfl
      · rw [hk', h₃]
        rfl
    rw [hsame, hread]
  · rw [hmem]
    exact storeBytes_frame hstore ha

/-- When a program starts, its file is in memory and its control block holds the
words behind the first one. -/
theorem execute_started {command : UInt32} {k k' : Kernel} {entryPoint : UInt32} {s : List UInt8}
    (hspace : P.Space k.toTables) (hs : Holds (P.bytesAt k command) s)
    (h : P.execute command k = .ok (.started entryPoint) k') :
    ∃ t₀ ts d i, words delim s = t₀ :: ts ∧ programNamed P.fs t₀ = some d ∧
      firstInactive k.pidArray = some i ∧
      k'.toTables = P.startTables k.toTables i ([delim].intercalate ts) ∧
      (∀ j (hj : j < (P.loadedBytes d.inodeNum).length),
        P.load k' (programImage + UInt32.ofNat j) = some (P.loadedBytes d.inodeNum)[j]) ∧
      P.loadWord (programImage + 24) k' = .ok entryPoint k' := by
  rcases P.execute_cases h with ⟨hr, -⟩ | ⟨d, k₁, buffer, k₂, hfind, -, hjoin, hk₂, hlaunch⟩
  · cases hr
  -- the first word
  obtain ⟨token, htoken, ⟨-, hnone⟩ | ⟨hne, w, hw, hfound⟩⟩ := findProgram_ok hfind
  · cases hnone
  have hcommand : command ≠ 0 := ne_zero_of_holds hspace hs
  have hpending : P.Pending k command (words delim s) := Or.inr ⟨hcommand, s, hs, rfl⟩
  have htables : k₁.toTables = k.toTables := P.quiet_strtok command htoken
  rcases strtok_pending hspace (if_neg hcommand).symm hpending htoken with ⟨h0, -⟩ |
    ⟨t₀, ts, hwords, -, ht₀, hrest⟩
  · exact absurd h0 hne
  obtain rfl := hw.inj ht₀
  -- the others
  have hwordsNe : ∀ v ∈ ts, v ≠ [] := by
    intro v hv
    exact (mem_words (d := delim) (l := s) (hwords ▸ List.mem_cons_of_mem w hv)).1
  have hbuffer := joinArgs_ok (htables ▸ hspace) hrest hwordsNe hjoin
  obtain ⟨i, arg, hi, harg, hk', hload, -, hword⟩ := launch_started (hk₂ ▸ hspace) hlaunch
  obtain rfl := hbuffer.inj (holds_of_stringAt harg)
  rw [hk₂] at hi hk'
  exact ⟨w, ts, d, i, hwords, hfound.symm, hi, hk', hload, hword⟩

/-! ## What the program keeps -/

/-- An effect changes at most the descriptors of a program that is not halted. -/
theorem Effect.pcb_live {v : Prop} {t t' : Tables} {fs fs' : List Frame}
    (h : P.Effect v t fs t' fs') (hn : P.Nested t fs) {f : Frame} (hf : f ∈ fs) :
    ∃ files, t'.pcb (pcbAddr f.pid) = { t.pcb (pcbAddr f.pid) with fileArray := files } := by
  cases h with
  | same => exact ⟨_, rfl⟩
  | opened _ _ idx d _ => exact t.pcb_setFile idx _ _
  | closed _ fd _ _ => exact t.pcb_setFile (slot fd) _ _
  | moved _ fd _ _ => exact t.pcb_setFile (slot fd) _ _
  | video _ _ => exact ⟨_, rfl⟩
  | leaked i _ => exact ⟨_, rfl⟩
  | started i free arg =>
    have hne : pcbAddr f.pid ≠ pcbAddr i :=
      pcbAddr_ne (hn.chain.bound_of_mem f hf) (firstInactive_eq_some free).1
        (UInt32.ne_of_lt (hn.lt_free free f hf))
    refine ⟨(t.pcb (pcbAddr f.pid)).fileArray, ?_⟩
    rw [P.startTables_eq]
    dsimp only
    rw [Function.update_of_ne hne]
  | halted _ _ _ _ =>
    rw [t.halt_eq]
    exact ⟨_, rfl⟩

variable (P) in
/-- The program behind the frame `f` has the arguments `args`, and has not halted. -/
structure HasArgs (fs : List Frame) (f : Frame) (args : List UInt8) (s : Machine) : Prop where
  nested : P.Nested s.kernel.toTables s.frames
  frames : ∃ inner, s.frames = inner ++ f :: fs
  arg : Holds (fun i => some ((s.kernel.pcb (pcbAddr f.pid)).arg i)) args
  count : (s.kernel.pcb (pcbAddr f.pid)).numCharInArg = UInt8.ofNat args.length

/-- A program keeps its arguments. -/
theorem hasArgs_step {fs : List Frame} {f : Frame} {args : List UInt8} {s s' : Machine} {e : Event}
    (hdeep : fs.length < s'.frames.length) (h : P.HasArgs fs f args s)
    (hs : P.step s e = some s') : P.HasArgs fs f args s' := by
  have hf : f ∈ s.frames := by
    obtain ⟨inner, hinner⟩ := h.frames
    rw [hinner]
    exact List.mem_append_right _ List.mem_cons_self
  have hpcb : ∃ files, s'.kernel.pcb (pcbAddr f.pid)
      = { s.kernel.pcb (pcbAddr f.pid) with fileArray := files } := by
    rcases P.step_effect hs with ⟨-, -, htables⟩ | ⟨regs, -, -, heffect⟩
    · rw [htables]
      exact ⟨_, rfl⟩
    · exact heffect.pcb_live (h.nested.enter regs) hf
  obtain ⟨files, hfiles⟩ := hpcb
  refine ⟨nested_step h.nested hs, inner_step h.nested hdeep h.frames hs, ?_, ?_⟩
  · rw [hfiles]
    exact h.arg
  · rw [hfiles]
    exact h.count

/-! ## Every program has arguments -/

theorem length_resume {fs fs' : List Frame} {esp ebp : UInt32}
    (h : Machine.resume fs esp ebp = some fs') : fs'.length < fs.length := by
  induction fs with
  | nil => cases h
  | cons f fs ih =>
    unfold Machine.resume at h
    split_ifs at h with hregs
    · cases h
      exact Nat.lt_succ_self _
    · exact (ih h).trans (Nat.lt_succ_self _)

/-- Only `execute` starts a program. -/
theorem execute_of_push {m m' : Machine} {e : Event} (hs : P.step m e = some m')
    (hlen : m'.frames.length = m.frames.length + 1) :
    ∃ command regs, e = .call (.execute command) regs := by
  cases e with
  | store va b =>
    obtain ⟨-, hframes, -⟩ := P.store_of_step hs
    rw [hframes] at hlen
    omega
  | call c regs =>
    cases c with
    | execute command => exact ⟨command, regs, rfl⟩
    | plain c =>
      obtain ⟨-, -, -, hframes, -⟩ := P.plain_of_step hs
      rw [hframes] at hlen
      omega
    | halt status =>
      obtain ⟨-, -, hcall⟩ := P.call_of_step hs
      unfold call at hcall
      dsimp only at hcall
      split_ifs at hcall with hfs
      unfold CheetOS.halt at hcall
      rw [get_bind_run, modify_bind_run, pure_run] at hcall
      dsimp only at hcall
      unfold returnToExecute at hcall
      split_ifs at hcall with hret
      split at hcall
      · cases hcall
      · rename_i fs' hresume
        cases hcall
        have hshort := length_resume hresume
        dsimp only at hlen
        omega

/-- What a process control block holds as arguments: a string of at most 127 characters and
its length. -/
structure Stores (pcb : Pcb) (args : List UInt8) : Prop where
  arg : Holds (fun i => some (pcb.arg i)) args
  count : pcb.numCharInArg = UInt8.ofNat args.length
  length : args.length < terminalBufferSize

/-- What `execute` stores before it starts a program. -/
theorem stores_started {command : UInt32} {k k' : Kernel} {entryPoint : UInt32}
    (h : P.execute command k = .ok (.started entryPoint) k') :
    ∃ args, Stores (k'.pcb (pcbAddr k'.currProcess)) args := by
  rcases P.execute_cases h with ⟨hr, -⟩ | ⟨d, k₁, buffer, k₂, -, -, -, -, hlaunch⟩
  · cases hr
  rcases P.launch_cases hlaunch with ⟨-, hr, -⟩ | ⟨i, k₃, -, -, -, ⟨-, hr, -⟩ |
    ⟨e, arg, -, -, harg, htables, -⟩⟩
  · cases hr
  · cases hr
  have hcurr : k'.currProcess = i := by
    rw [htables]
    rfl
  have hpcb : k'.pcb (pcbAddr i) = P.newPcb k₂.toTables (k₂.pcb (pcbAddr i)) arg := by
    rw [htables, P.startTables_eq]
    dsimp only
    rw [Function.update_self]
  rw [hcurr, hpcb]
  exact ⟨arg, holds_copy _ (holds_of_stringAt harg).clean, rfl, Bytes.length_of_stringAt harg⟩

/-- Every program that has not halted has its arguments. -/
def ArgsStored (m : Machine) : Prop :=
  ∀ f ∈ m.frames, ∃ args, Stores (m.kernel.pcb (pcbAddr f.pid)) args

theorem argsStored_step {m m' : Machine} {e : Event} (hn : P.Nested m.kernel.toTables m.frames)
    (h : ArgsStored m) (hs : P.step m e = some m') : ArgsStored m' := by
  -- the programs that were there
  have hold : ∀ f ∈ m.frames, ∃ args, Stores (m'.kernel.pcb (pcbAddr f.pid)) args := by
    intro f hf
    obtain ⟨args, hargs⟩ := h f hf
    have hpcb : ∃ files, m'.kernel.pcb (pcbAddr f.pid)
        = { m.kernel.pcb (pcbAddr f.pid) with fileArray := files } := by
      rcases P.step_effect hs with ⟨-, -, htables⟩ | ⟨regs, -, -, heffect⟩
      · rw [htables]
        exact ⟨_, rfl⟩
      · exact heffect.pcb_live (hn.enter regs) hf
    obtain ⟨files, hfiles⟩ := hpcb
    rw [hfiles]
    exact ⟨args, hargs.arg, hargs.count, hargs.length⟩
  intro f hf
  rcases step_frames hn hs with hframes | ⟨g, hframes⟩ | ⟨g, hframes⟩
  · exact hold f (hframes ▸ hf)
  · -- the one that starts
    obtain ⟨command, regs, rfl⟩ := execute_of_push hs (by rw [hframes]; rfl)
    obtain ⟨r, hrun, ⟨ret, -, hsame, -⟩ | ⟨rfl, hframes'⟩⟩ := P.execute_of_step hs
    · exact absurd (hframes.symm.trans hsame) (List.cons_ne_self g m.frames)
    · rw [hframes'] at hf
      rcases List.mem_cons.1 hf with rfl | hf
      · exact stores_started hrun
      · exact hold f hf
  · exact hold f (hframes ▸ List.mem_cons_of_mem g hf)

/-- **The running program has its arguments** in the control block that `getargs` looks at. -/
theorem stores_running {m : Machine} (hm : P.Reachable m) (hlive : m.frames ≠ []) {regs : Regs}
    (h0 : 0 < regs.depth) (hroom : regs.depth ≤ stackRoom) :
    ∃ args, Stores ((m.enter regs).pcb (currentPcbAddr (m.enter regs).toTables)) args := by
  obtain ⟨m₀, es, hboot, hrun⟩ := hm
  have hall : P.Nested m.kernel.toTables m.frames ∧ ArgsStored m := by
    refine Run.invariant_run (I := fun s => P.Nested s.kernel.toTables s.frames ∧ ArgsStored s) ?_
      ⟨nested_boot hboot, ?_⟩ hrun
    · rintro s e t ⟨hn, h⟩ hs
      exact ⟨nested_step hn hs, argsStored_step hn h hs⟩
    · intro f hf
      rw [hboot.frames] at hf
      cases hf
  obtain ⟨f, fs, hframes⟩ := List.exists_cons_of_ne_nil hlive
  obtain ⟨args, hargs⟩ := hall.2 f (by rw [hframes]; exact List.mem_cons_self)
  rw [hall.1.currentPcb hlive h0 hroom, hall.1.current, hframes]
  exact ⟨args, hargs⟩

/-! ## getargs -/

theorem getargs_blank {k : Kernel}
    (h : Holds (fun i => some ((k.pcb (currentPcbAddr k.toTables)).arg i)) []) (buf : UInt32)
    (nbytes : Int32) : P.getargs buf nbytes k = .ok (-1) k := by
  have h0 : (k.pcb (currentPcbAddr k.toTables)).arg 0 = 0 := Option.some.inj (holds_nil.1 h)
  unfold getargs
  split_ifs with hbuf
  · rfl
  · rw [get_bind_run, if_pos h0]
    rfl

/-- A string that is not empty does not begin with a zero. -/
theorem arg_ne_zero {arg : ℕ → UInt8} {args : List UInt8} (h : Holds (fun i => some (arg i)) args)
    (hne : args ≠ []) : arg 0 ≠ 0 := by
  have hpos := List.length_pos_of_ne_nil hne
  intro h0
  have hb := h.bytes 0 hpos
  rw [h0] at hb
  exact h.clean (Option.some.inj hb ▸ List.getElem_mem hpos)

/-- `num_char_in_arg` as `getargs` compares it. -/
theorem toInt_count {n : ℕ} (h : n < 128) : (UInt8.ofNat n).toUInt32.toInt32.toInt = n := by
  revert n
  decide

/-- `getargs` copies the arguments if there are any and the buffer is said to be
large enough. -/
theorem getargs_run {k : Kernel} {args : List UInt8}
    (h : Holds (fun i => some ((k.pcb (currentPcbAddr k.toTables)).arg i)) args)
    (hcount : (k.pcb (currentPcbAddr k.toTables)).numCharInArg = UInt8.ofNat args.length)
    (hne : args ≠ []) (hlen : args.length < 128) {buf : UInt32} (hbuf : buf ≠ 0) {nbytes : Int32}
    (hn : args.length ≤ nbytes.toInt) :
    P.getargs buf nbytes k = (do
      P.storeBytes buf (args ++ [0])
      return 0 : K Int32) k := by
  have hroom : ¬nbytes < (UInt8.ofNat args.length).toUInt32.toInt32 := by
    rw [Int32.lt_iff_toInt_lt, toInt_count hlen]
    omega
  unfold getargs
  rw [if_neg hbuf, get_bind_run, if_neg (arg_ne_zero h hne), hcount, if_neg hroom,
    stringAt_of_holds h hlen]

/-- The arguments fit into the buffers of 128 bytes. -/
theorem length_args_le {s t₀ : List UInt8} {ts : List (List UInt8)}
    (hwords : words delim s = t₀ :: ts) (hlen : s.length ≤ 128) :
    ([delim].intercalate ts).length ≤ 126 := by
  cases ts with
  | nil => exact Nat.zero_le _
  | cons t ts =>
    have hsum := sum_length_words_le delim s
    have hpos : 0 < t₀.length := by
      refine List.length_pos_of_ne_nil (mem_words (d := delim) (l := s) ?_).1
      rw [hwords]
      exact List.mem_cons_self
    have hjoin := length_intercalate (d := delim) (w := t) ts
    rw [hwords, List.map_cons, List.sum_cons, ← hjoin] at hsum
    omega

theorem args_ne_nil {s t₀ : List UInt8} {ts : List (List UInt8)}
    (hwords : words delim s = t₀ :: ts) (hts : ts ≠ []) : [delim].intercalate ts ≠ [] := by
  obtain ⟨t, ts', rfl⟩ := List.exists_cons_of_ne_nil hts
  have hpos : 0 < t.length := by
    refine List.length_pos_of_ne_nil (mem_words (d := delim) (l := s) ?_).1
    rw [hwords]
    exact List.mem_cons_of_mem _ List.mem_cons_self
  have hjoin := length_intercalate (d := delim) (w := t) ts'
  intro hnil
  rw [hnil, List.map_cons, List.sum_cons, List.length_nil] at hjoin
  omega

theorem zero_notMem_args {s t₀ : List UInt8} {ts : List (List UInt8)}
    (hwords : words delim s = t₀ :: ts) (hs : (0 : UInt8) ∉ s) :
    (0 : UInt8) ∉ [delim].intercalate ts := by
  intro hmem
  rcases mem_intercalate hmem with h0 | ⟨w, hw, hc⟩
  · exact absurd h0 (by decide)
  · have hword := mem_words (d := delim) (l := s) (w := w)
    rw [hwords] at hword
    exact hs ((hword (List.mem_cons_of_mem _ hw)).2.2 0 hc)

/-! ## From the command to getargs -/

/-- What `execute` stores are the words behind the first one. -/
theorem stores_words {command : UInt32} {k k' : Kernel} {entryPoint : UInt32} {s : List UInt8}
    (hspace : P.Space k.toTables) (hs : Holds (P.bytesAt k command) s)
    (h : P.execute command k = .ok (.started entryPoint) k') :
    Stores (k'.pcb (pcbAddr k'.currProcess)) ([delim].intercalate (words delim s).tail) := by
  obtain ⟨t₀, ts, d, i, hwords, -, -, hk', -⟩ := execute_started hspace hs h
  obtain ⟨args, hargs⟩ := stores_started h
  have hcurr : k'.currProcess = i := by
    rw [hk']
    rfl
  have hpcb : k'.pcb (pcbAddr i)
      = P.newPcb k.toTables (k.pcb (pcbAddr i)) ([delim].intercalate ts) := by
    rw [hk', P.startTables_eq]
    dsimp only
    rw [Function.update_self]
  have harg : Holds (fun j => some ((k'.pcb (pcbAddr k'.currProcess)).arg j))
      ([delim].intercalate ts) := by
    rw [hcurr, hpcb]
    exact holds_copy _ (zero_notMem_args hwords hs.clean)
  rw [hwords, List.tail_cons, harg.inj hargs.arg]
  exact hargs

/-- The running program is the one behind the innermost frame, and has its arguments. -/
theorem HasArgs.enter {fs : List Frame} {f : Frame} {args : List UInt8} {s : Machine}
    (h : P.HasArgs fs f args s) (hown : s.frames.length = fs.length + 1) {regs : Regs}
    (h0 : 0 < regs.depth) (hroom : regs.depth ≤ stackRoom) :
    s.frames ≠ [] ∧ currentPcbAddr (s.enter regs).toTables = pcbAddr f.pid := by
  obtain ⟨inner, hinner⟩ := h.frames
  have hframes : s.frames = f :: fs := by
    rw [hinner, List.length_append, List.length_cons] at hown
    have hnil : inner = [] := List.length_eq_zero_iff.1 (by omega)
    rw [hinner, hnil, List.nil_append]
  have hlive : s.frames ≠ [] := by
    rw [hframes]
    exact List.cons_ne_nil _ _
  refine ⟨hlive, ?_⟩
  rw [h.nested.currentPcb hlive h0 hroom, h.nested.current, hframes]
  rfl

/-- The child of a call of `execute` has the words behind the first one as arguments. -/
theorem hasArgs_started {m m₁ : Machine} {command i : UInt32} {regs : Regs} {args : List UInt8}
    (hn : P.Nested m.kernel.toTables m.frames)
    (hexec : P.step m (.call (.execute command) regs) = some m₁)
    (htables : m₁.kernel.toTables = P.startTables (m.enter regs).toTables i args)
    (hclean : (0 : UInt8) ∉ args)
    (hframes : m₁.frames
      = ⟨(m.enter regs).esp, (m.enter regs).ebp, m₁.kernel.currProcess⟩ :: m.frames) :
    P.HasArgs m.frames ⟨(m.enter regs).esp, (m.enter regs).ebp, m₁.kernel.currProcess⟩ args m₁ := by
  have hcurr : m₁.kernel.currProcess = i := by
    rw [htables]
    rfl
  have hpcb : m₁.kernel.pcb (pcbAddr i)
      = P.newPcb (m.enter regs).toTables ((m.enter regs).pcb (pcbAddr i)) args := by
    rw [htables, P.startTables_eq]
    dsimp only
    rw [Function.update_self]
  refine ⟨nested_step hn hexec, ⟨[], hframes⟩, ?_, ?_⟩
  · rw [hcurr, hpcb]
    exact holds_copy ((m.enter regs).pcb (pcbAddr i)).arg hclean
  · rw [hcurr, hpcb]
    unfold newPcb
    rfl

/-- `getargs` of a program that has no arguments. -/
theorem HasArgs.step_blank {fs : List Frame} {f : Frame} {s : Machine} (h : P.HasArgs fs f [] s)
    (hown : s.frames.length = fs.length + 1) {regs : Regs} (h0 : 0 < regs.depth)
    (hroom : regs.depth ≤ stackRoom) (buf : UInt32) (nbytes : Int32) :
    ∃ s', P.step s (.call (.plain (.getargs buf nbytes)) regs) = some s' ∧
      s'.eax = (-1 : Int32).toUInt32 ∧ s'.kernel.mem = s.kernel.mem := by
  obtain ⟨hlive, hpcb⟩ := h.enter hown h0 hroom
  have harg := h.arg
  rw [← hpcb] at harg
  have hblank : P.getargs buf nbytes (s.enter regs) = .ok (-1) (s.enter regs) :=
    getargs_blank harg buf nbytes
  exact ⟨_, P.step_of_plain hlive h0 hroom hblank, rfl, rfl⟩

/-- `getargs` of a program that has some, into a buffer they fit in. -/
theorem HasArgs.step_delivers {fs : List Frame} {f : Frame} {args : List UInt8} {s : Machine}
    (h : P.HasArgs fs f args s) (hs : P.Reachable s) (hown : s.frames.length = fs.length + 1)
    {regs : Regs} (h0 : 0 < regs.depth) (hroom : regs.depth ≤ stackRoom) (hne : args ≠ [])
    (hlen : args.length < 128) {buf : UInt32} {nbytes : Int32} (hbytes : args.length < nbytes.toInt)
    (hbuf : ∀ i ≤ args.length, (P.target s.kernel.toTables (buf + UInt32.ofNat i)).isOk) :
    ∃ s', P.step s (.call (.plain (.getargs buf nbytes)) regs) = some s' ∧
      s'.eax = 0 ∧ ∀ i (hi : i < (args ++ [0]).length),
        P.load s'.kernel (buf + UInt32.ofNat i) = some (args ++ [0])[i] := by
  obtain ⟨hlive, hpcb⟩ := h.enter hown h0 hroom
  have harg := h.arg
  have hcount := h.count
  rw [← hpcb] at harg hcount
  have hspace := space_enter hs regs
  have htarget : ∀ i < (args ++ [0]).length, ∃ a,
      P.translate (s.enter regs).toTables .supervisor .write (buf + UInt32.ofNat i) = some a ∧
        P.kernelData a = false := by
    intro i hi
    rw [List.length_append, List.length_singleton] at hi
    exact translate_of_target (hbuf i (by omega))
  have hnull : buf ≠ 0 := by
    obtain ⟨a, htr, -⟩ := htarget 0 (by simp)
    rw [Word32.add_ofNat_zero] at htr
    exact ne_zero_of_translate hspace htr
  obtain ⟨k', hstore⟩ := storeBytes_run htarget
  have hcall : P.getargs buf nbytes (s.enter regs) = .ok 0 k' := by
    rw [getargs_run harg hcount hne hlen hnull (by omega)]
    exact bind_of_ok hstore _
  refine ⟨_, P.step_of_plain hlive h0 hroom hcall, rfl, ?_⟩
  exact storeBytes_load hspace hstore

/-- **The arguments come round.**  When `execute` starts a program for a command of at
most 128 characters, the program is the file the first word names, the other words
with single spaces between them fit into 128 bytes, and whenever the program calls
`getargs` with a buffer that can hold more than that, it gets them, or `-1` and an
untouched memory if there are none. -/
theorem argument_round_trip (P : Platform) {m m₁ : Machine} {command : UInt32} {regs : Regs}
    {s : List UInt8} (hm : P.Reachable m) (hs : cstr (P.bytesAt m.kernel command) = some s)
    (hlen : s.length ≤ 128) (hexec : P.step m (.call (.execute command) regs) = some m₁)
    (hstarted : m₁.frames.length = m.frames.length + 1) :
    ∃ t₀ ts d, words delim s = t₀ :: ts ∧
      readDentryByName P.fs (some (ofList t₀)) = some (some d) ∧ d.filetype = fileTypeFile ∧
      (∀ i (hi : i < (P.loadedBytes d.inodeNum).length),
        P.load m₁.kernel (programImage + UInt32.ofNat i) = some (P.loadedBytes d.inodeNum)[i]) ∧
      P.loadWord (programImage + 24) m₁.kernel = .ok m₁.entry m₁.kernel ∧
      let args := [delim].intercalate ts
      args.length + 1 ≤ 128 ∧
      ∀ es m₂, Run.run P.step m₁ es = some m₂ →
        Run.Along P.step (fun s => m.frames.length < s.frames.length) m₁ es →
        m₂.frames.length = m.frames.length + 1 →
        ∀ buf nbytes (regs' : Regs), 0 < regs'.depth → regs'.depth ≤ stackRoom →
          (ts = [] →
            ∃ m₃, P.step m₂ (.call (.plain (.getargs buf nbytes)) regs') = some m₃ ∧
              m₃.eax = (-1 : Int32).toUInt32 ∧ m₃.kernel.mem = m₂.kernel.mem) ∧
          (ts ≠ [] → args.length < nbytes.toInt →
            (∀ i ≤ args.length, (P.target m₂.kernel.toTables (buf + UInt32.ofNat i)).isOk) →
            ∃ m₃, P.step m₂ (.call (.plain (.getargs buf nbytes)) regs') = some m₃ ∧
              m₃.eax = 0 ∧ ∀ i (hi : i < (args ++ [0]).length),
                P.load m₃.kernel (buf + UInt32.ofNat i) = some (args ++ [0])[i]) := by
  have hn := nested_reachable hm
  have hholds : Holds (P.bytesAt (m.enter regs) command) s := (cstr_eq_some.1 hs).2
  have hspace := space_enter hm regs
  obtain ⟨r, hrun, ⟨ret, -, hframes, -⟩ | ⟨rfl, hframes⟩⟩ := P.execute_of_step hexec
  · rw [hframes] at hstarted
    omega
  obtain ⟨t₀, ts, d, i, hwords, hname, -, htables, hload, hentry⟩ :=
    execute_started hspace hholds hrun
  obtain ⟨-, hlookup, hfile⟩ := programNamed_eq_some.1 hname
  refine ⟨t₀, ts, d, hwords, hlookup, hfile, hload, hentry, ?_⟩
  intro args
  have hfit : args.length ≤ 126 := length_args_le hwords hlen
  have hclean : (0 : UInt8) ∉ args := zero_notMem_args hwords hholds.clean
  refine ⟨by omega, ?_⟩
  intro es m₂ hes halong hown buf nbytes regs' h0 hroom
  have hargs₁ := hasArgs_started hn hexec htables hclean hframes
  have hargs : P.HasArgs m.frames ⟨(m.enter regs).esp, (m.enter regs).ebp, m₁.kernel.currProcess⟩
      args m₂ := by
    refine (Run.along_run (J := P.HasArgs m.frames _ args) ?_ halong hargs₁ hes).1
    intro s e t _ hdeep hs hstep
    exact hasArgs_step hdeep hs hstep
  constructor
  · rintro rfl
    exact hargs.step_blank hown h0 hroom buf nbytes
  · intro hts hbytes hbuf
    exact hargs.step_delivers ((hm.step hexec).run hes) hown h0 hroom (args_ne_nil hwords hts)
      (by omega) hbytes hbuf

/-- A program started as `sh a  b` gets `a b`. -/
theorem argument_round_trip_two :
    ∃ m₁ m₂, samplePlatform.step sampleBoot (.call (.execute 0x500000) ⟨64, 0x7FFFF0⟩) = some m₁ ∧
      samplePlatform.step m₁ (.call (.plain (.getargs 0x8050000 100)) ⟨64, 0⟩) = some m₂ ∧
      m₂.eax = 0 ∧ ∀ i (hi : i < 4), samplePlatform.load m₂.kernel (0x8050000 + UInt32.ofNat i)
        = some ([0x61, 0x20, 0x62, 0].get ⟨i, hi⟩) := by
  have hstring : cstr (samplePlatform.bytesAt sampleBoot.kernel 0x500000)
      = some [0x73, 0x68, 0x20, 0x61, 0x20, 0x20, 0x62] := by
    decide +kernel
  have hrun : (samplePlatform.step sampleBoot (.call (.execute 0x500000) ⟨64, 0x7FFFF0⟩)).any
      (fun m₁ : Machine => decide (m₁.frames.length = sampleBoot.frames.length + 1) &&
        (List.range 4).all fun i => (samplePlatform.target m₁.kernel.toTables
          (0x8050000 + UInt32.ofNat i)).isOk) = true := by
    decide +kernel
  simp only [Option.any_eq_true, Bool.and_eq_true, decide_eq_true_eq, List.all_eq_true,
    List.mem_range] at hrun
  obtain ⟨m₁, hm₁, hstarted, htarget⟩ := hrun
  have hwords : words delim [0x73, 0x68, 0x20, 0x61, 0x20, 0x20, 0x62]
      = [[0x73, 0x68], [0x61], [0x62]] := by decide
  obtain ⟨t₀, ts, d, hts, -, -, -, -, -, hargs⟩ := argument_round_trip samplePlatform
    ⟨_, [], boot_bootMachine _ _, rfl⟩ hstring (by decide) hm₁ hstarted
  rw [hwords] at hts
  obtain ⟨rfl, rfl⟩ := List.cons.inj hts
  have halong : sampleBoot.frames.length < m₁.frames.length := by
    rw [hstarted]
    exact Nat.lt_succ_self _
  obtain ⟨-, hsome⟩ := hargs [] m₁ rfl halong hstarted 0x8050000 100 ⟨64, 0⟩ (by decide) (by decide)
  obtain ⟨m₂, hm₂, heax, hload⟩ := hsome (by decide) (by decide)
    fun i hi => htarget i (Nat.lt_succ_of_le hi)
  exact ⟨m₁, m₂, hm₁, hm₂, heax, hload⟩

end Platform

end CheetOS
