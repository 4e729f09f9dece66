import CheetOS.Processes

/-!
# execute and halt as call and return

Between the `execute` that starts a program and the `halt` that ends it, the
process control block of the caller is out of reach: the programs that run have
other numbers.  So the caller finds everything as it left it.

* `Below m f s` says that `s` is a state in which the program behind the frame `f`,
  started in `m`, is still running, with the caller's control block untouched;
* `below_step` is its preservation, `child_below` what that means at the end of a run and
  `child_halts` what `halt` makes of it;
* `execute_halt_returns` is the conclusion.
-/

namespace CheetOS

open Exec

namespace Platform

variable {P : Platform}

/-! ## What an effect reaches -/

/-- An effect changes the control block of the running process and that of a
process it starts, and no other. -/
theorem Effect.pcb_of_ne {v : Prop} {t t' : Tables} {fs fs' : List Frame} (h : P.Effect v t fs t' fs')
    {a : UInt32} (hrunning : a ≠ currentPcbAddr t)
    (hstarted : ∀ i, firstInactive t.pidArray = some i → a ≠ pcbAddr i) :
    t'.pcb a = t.pcb a := by
  cases h with
  | same => rfl
  | opened _ _ idx d _ => exact t.pcb_setFile_of_ne idx _ hrunning
  | closed _ fd _ _ => exact t.pcb_setFile_of_ne (slot fd) _ hrunning
  | moved _ fd _ _ => exact t.pcb_setFile_of_ne (slot fd) _ hrunning
  | video _ _ => rfl
  | leaked i _ => rw [t.leak_eq]
  | started i free arg =>
    rw [P.startTables_eq]
    dsimp only
    rw [Function.update_of_ne (hstarted i free)]
  | halted _ _ _ _ => rw [t.halt_eq]

/-- As long as the program behind a frame is not halted, its frame stays where it is. -/
theorem inner_step {s s' : Machine} {e : Event} {f : Frame} {fs : List Frame}
    (hn : P.Nested s.kernel.toTables s.frames) (hdeep : fs.length < s'.frames.length)
    (hframes : ∃ inner, s.frames = inner ++ f :: fs) (hs : P.step s e = some s') :
    ∃ inner, s'.frames = inner ++ f :: fs := by
  obtain ⟨inner, hinner⟩ := hframes
  rcases step_frames hn hs with hframes | ⟨g, hframes⟩ | ⟨g, hframes⟩
  · exact ⟨inner, hframes.trans hinner⟩
  · exact ⟨g :: inner, by rw [hframes, hinner]; rfl⟩
  · rw [hinner] at hframes
    cases inner with
    | nil =>
      have hbase : fs = s'.frames := (List.cons_eq_cons.1 hframes).2
      rw [hbase] at hdeep
      exact absurd hdeep (lt_irrefl _)
    | cons g' inner => exact ⟨inner, (List.cons_eq_cons.1 hframes).2.symm⟩

/-! ## Below a call of execute -/

variable (P) in
/-- The program that was started from `m`, with the frame `f`, runs or waits, and
the control block of its caller is as it was in `m`. -/
structure Below (m : Machine) (f : Frame) (s : Machine) : Prop where
  nested : P.Nested s.kernel.toTables s.frames
  frames : ∃ inner, s.frames = inner ++ f :: m.frames
  pcb : s.kernel.pcb (pcbAddr (runningPid m.frames)) = m.kernel.pcb (pcbAddr (runningPid m.frames))

/-- The running program is not the caller. -/
theorem Below.running_ne {m s : Machine} {f : Frame} (h : P.Below m f s) (hm : m.frames ≠ []) :
    runningPid m.frames < s.kernel.currProcess := by
  obtain ⟨inner, hinner⟩ := h.frames
  have hsorted := h.nested.chain.pairwise
  rw [h.nested.current]
  obtain ⟨g, gs, hg⟩ := List.exists_cons_of_ne_nil hm
  rw [hinner, hg] at hsorted ⊢
  cases inner with
  | nil =>
    rw [List.nil_append, List.map_cons, List.pairwise_cons] at hsorted
    exact hsorted.1 g.pid (List.mem_map_of_mem List.mem_cons_self)
  | cons e es =>
    rw [List.cons_append, List.map_cons, List.pairwise_cons] at hsorted
    refine hsorted.1 g.pid (List.mem_map_of_mem ?_)
    exact List.mem_append_right es (List.mem_cons_of_mem f List.mem_cons_self)

theorem Below.caller_bound {m s : Machine} {f : Frame} (h : P.Below m f s)
    (hm : m.frames ≠ []) : runningPid m.frames < numMaxProcesses :=
  UInt32.lt_trans (h.running_ne hm) h.nested.running_bound

/-- Whatever a program below the call does, the caller's control block stays. -/
theorem Below.pcb_step {m s s' : Machine} {f : Frame} {e : Event} (h : P.Below m f s)
    (hm : m.frames ≠ []) (hs : P.step s e = some s') :
    s'.kernel.pcb (pcbAddr (runningPid m.frames))
      = m.kernel.pcb (pcbAddr (runningPid m.frames)) := by
  rw [← h.pcb]
  rcases P.step_effect hs with ⟨-, -, htables⟩ | ⟨regs, h0, hroom, heffect⟩
  · rw [htables]
  · have hsf : s.frames ≠ [] := by
      obtain ⟨inner, hinner⟩ := h.frames
      rw [hinner]
      exact List.append_ne_nil_of_right_ne_nil _ (List.cons_ne_nil _ _)
    refine heffect.pcb_of_ne (a := pcbAddr (runningPid m.frames)) ?_ fun i free => ?_
    · rw [h.nested.currentPcb hsf h0 hroom]
      exact pcbAddr_ne (h.caller_bound hm) h.nested.running_bound
        (UInt32.ne_of_lt (h.running_ne hm))
    · obtain ⟨hi, -, -⟩ := firstInactive_eq_some free
      have hlt : s.kernel.currProcess < i := by
        rw [h.nested.current]
        exact (h.nested.enter regs).running_lt_free hsf free
      exact pcbAddr_ne (h.caller_bound hm) hi
        (UInt32.ne_of_lt (UInt32.lt_trans (h.running_ne hm) hlt))

/-- **One step below the call stays below it**, as long as the program started is
not halted. -/
theorem below_step {m s s' : Machine} {f : Frame} {e : Event} (hm : m.frames ≠ [])
    (hdeep : m.frames.length < s'.frames.length) (h : P.Below m f s)
    (hs : P.step s e = some s') : P.Below m f s' :=
  ⟨nested_step h.nested hs, inner_step h.nested hdeep h.frames hs, h.pcb_step hm hs⟩

/-- The program that was started is below the call. -/
theorem below_started {m m₁ : Machine} {command : UInt32} {regs : Regs} (hm : P.Reachable m)
    (hlive : m.frames ≠ []) (hexec : P.step m (.call (.execute command) regs) = some m₁)
    (hstarted : m₁.frames.length = m.frames.length + 1) : ∃ i,
      firstInactive m.kernel.pidArray = some i ∧ m₁.frames
        = ⟨(m.enter regs).esp, (m.enter regs).ebp, i⟩ :: m.frames ∧
      P.Below m ⟨(m.enter regs).esp, (m.enter regs).ebp, i⟩ m₁ := by
  have hn := nested_reachable hm
  obtain ⟨-, -, hcall⟩ := P.call_of_step hexec
  obtain ⟨i, arg, free, htables, hframes⟩ := (P.call_effect hcall).push (hn.enter regs) hstarted
  refine ⟨i, free, hframes, nested_step hn hexec, ⟨[], hframes⟩, ?_⟩
  obtain ⟨hi, -, -⟩ := firstInactive_eq_some free
  have hlt : runningPid m.frames < i := (hn.enter regs).running_lt_free hlive free
  have hne := pcbAddr_ne (UInt32.lt_trans hlt hi) hi (UInt32.ne_of_lt hlt)
  rw [htables, P.startTables_eq]
  dsimp only
  rw [Function.update_of_ne hne]
  rfl

/-! ## Call and return -/

/-- `halt` goes back to the innermost call of `execute`. -/
theorem step_halt {s : Machine} {f : Frame} {fs : List Frame} {regs : Regs}
    (hn : P.Nested s.kernel.toTables s.frames) (hfs : s.frames = f :: fs)
    (h0 : 0 < regs.depth) (hroom : regs.depth ≤ stackRoom) (status : UInt8) :
    ∃ s', P.step s (.call (.halt status) regs) = some s' ∧ s'.frames = fs ∧
      s'.eax = status.toUInt32 ∧ s'.kernel.pcb = s.kernel.pcb ∧
      s'.kernel.esp = f.esp ∧ s'.kernel.ebp = f.ebp := by
  have hne : s.frames ≠ [] := by rw [hfs]; exact List.cons_ne_nil _ _
  have hn' := hn.enter regs
  rw [hfs] at hn'
  have hresume := hn'.resume_eq
  have hcurr : (m : Kernel) → m = s.enter regs → m.currProcess = f.pid := by
    rintro _ rfl
    exact hn'.current
  cases hn'.chain with
  | cons _ _ _ _ esp ebp ret =>
    rw [← hcurr _ rfl] at esp ebp ret
    have hhalt : CheetOS.halt status (s.enter regs) =
        .ok { execRetAddr := P.endOfExecute, parentEbp := f.ebp, parentEsp := f.esp,
              status := status }
          { s.enter regs with toTables := (s.enter regs).toTables.halt } := by
      unfold CheetOS.halt
      rw [get_bind_run, modify_bind_run, pure_run, esp, ebp, ret]
    rw [esp, ebp] at hresume
    rw [P.step_call h0 hroom]
    unfold call
    dsimp only
    rw [if_neg hne, hhalt]
    dsimp only
    unfold returnToExecute
    rw [if_pos rfl, hfs]
    dsimp only
    rw [hresume]
    refine ⟨_, rfl, rfl, rfl, ?_, rfl, rfl⟩
    dsimp only
    rw [Tables.halt_eq]
    rfl

/-- Whatever was done in between, the child of a call of `execute` runs behind the frame that
the call has pushed. -/
theorem child_below {m m₁ m₂ : Machine} {command : UInt32} {regs : Regs} {es : List Event}
    (hm : P.Reachable m) (hlive : m.frames ≠ [])
    (hexec : P.step m (.call (.execute command) regs) = some m₁)
    (hstarted : m₁.frames.length = m.frames.length + 1)
    (hrun : Run.run P.step m₁ es = some m₂)
    (hbelow : Run.Along P.step (fun s => m.frames.length < s.frames.length) m₁ es)
    (hown : m₂.frames.length = m.frames.length + 1) :
    ∃ i, P.Below m ⟨(m.enter regs).esp, (m.enter regs).ebp, i⟩ m₂ ∧
      m₂.frames = ⟨(m.enter regs).esp, (m.enter regs).ebp, i⟩ :: m.frames := by
  -- the child is the new innermost frame
  obtain ⟨i, -, -, hfirst⟩ := below_started hm hlive hexec hstarted
  have hlast : P.Below m ⟨(m.enter regs).esp, (m.enter regs).ebp, i⟩ m₂ := by
    refine (Run.along_run (J := P.Below m _) ?_ hbelow hfirst hrun).1
    intro s e t _ hdeep hs hstep
    exact below_step hlive hdeep hs hstep
  refine ⟨i, hlast, ?_⟩
  obtain ⟨inner, hinner⟩ := hlast.frames
  rw [hinner, List.length_append, List.length_cons] at hown
  have hnil : inner = [] := List.length_eq_zero_iff.1 (by omega)
  rw [hinner, hnil, List.nil_append]

/-- The child halts, and its caller is as it was. -/
theorem child_halts {m m₂ : Machine} {f : Frame} {regs' : Regs} (hm : P.Reachable m)
    (hlive : m.frames ≠ []) (hlast : P.Below m f m₂) (hframes₂ : m₂.frames = f :: m.frames)
    (h0 : 0 < regs'.depth) (hroom : regs'.depth ≤ stackRoom) (status : UInt8) :
    ∃ m₃, P.step m₂ (.call (.halt status) regs') = some m₃ ∧
      m₃.frames = m.frames ∧ m₃.eax = status.toUInt32 ∧
      m₃.kernel.currProcess = m.kernel.currProcess ∧
      m₃.kernel.pageDirectory 32 = m.kernel.pageDirectory 32 ∧
      m₃.kernel.esp0 = m.kernel.esp0 ∧
      m₃.kernel.pcb (pcbAddr m.kernel.currProcess)
        = m.kernel.pcb (pcbAddr m.kernel.currProcess) ∧
      m₃.kernel.esp = f.esp ∧ m₃.kernel.ebp = f.ebp := by
  have hn := nested_reachable hm
  obtain ⟨m₃, hstep, hfs₃, heax, hpcb₃, hesp, hebp⟩ :=
    step_halt hlast.nested hframes₂ h0 hroom status
  have hn₃ : P.Nested m₃.kernel.toTables m.frames := hfs₃ ▸ nested_step hlast.nested hstep
  refine ⟨m₃, hstep, hfs₃, heax, ?_, ?_, ?_, ?_, hesp, hebp⟩
  · rw [hn₃.current, hn.current]
  · rw [hn₃.page hlive, hn.page hlive]
  · rw [hn₃.stack hlive, hn.stack hlive]
  · rw [hpcb₃, hn.current]
    exact hlast.pcb

/-- **A successful `execute` is a call, and the child's `halt` its return.**  For
every program `m` that starts a child, and every run in which only the child and
its own descendants make calls, the child's `halt` puts the caller back: the
result of `execute` is the status, and the process number, the user page, the TSS
and the whole control block of the caller are as they were. -/
theorem execute_halt_returns (P : Platform) {m m₁ m₂ : Machine} {command : UInt32}
    {regs regs' : Regs} {es : List Event} (hm : P.Reachable m) (hlive : m.frames ≠ [])
    (hexec : P.step m (.call (.execute command) regs) = some m₁)
    (hstarted : m₁.frames.length = m.frames.length + 1)
    (hrun : Run.run P.step m₁ es = some m₂)
    (hbelow : Run.Along P.step (fun s => m.frames.length < s.frames.length) m₁ es)
    (hown : m₂.frames.length = m.frames.length + 1)
    (h0 : 0 < regs'.depth) (hroom : regs'.depth ≤ stackRoom) (status : UInt8) :
    ∃ m₃, P.step m₂ (.call (.halt status) regs') = some m₃ ∧
      m₃.frames = m.frames ∧
      m₃.eax = status.toUInt32 ∧ m₃.eax < 256 ∧
      m₃.kernel.currProcess = m.kernel.currProcess ∧
      m₃.kernel.pageDirectory 32 = m.kernel.pageDirectory 32 ∧
      m₃.kernel.esp0 = m.kernel.esp0 ∧
      m₃.kernel.pcb (pcbAddr m.kernel.currProcess)
        = m.kernel.pcb (pcbAddr m.kernel.currProcess) ∧
      m₃.kernel.esp = (m.enter regs).esp ∧ m₃.kernel.ebp = (m.enter regs).ebp := by
  obtain ⟨i, hlast, hframes₂⟩ := child_below hm hlive hexec hstarted hrun hbelow hown
  obtain ⟨m₃, hstep, hframes, heax, hrest⟩ :=
    child_halts hm hlive hlast hframes₂ h0 hroom status
  refine ⟨m₃, hstep, hframes, heax, ?_, hrest⟩
  rw [heax, UInt32.lt_iff_toNat_lt, UInt8.toNat_toUInt32]
  exact status.toNat_lt

/-- A program starts a second one, which starts a third one and waits for it; when
the second one halts with 255, the first one goes on. -/
theorem execute_halt_returns_nested :
    ∃ m m₁ m₂ m₃, Run.run samplePlatform.step sampleBoot
        [.call (.execute 0x500000) ⟨64, 0x7FFFF0⟩] = some m ∧
      samplePlatform.step m (.call (.execute 0x500000) ⟨64, 0x7FBFF0⟩) = some m₁ ∧
      Run.run samplePlatform.step m₁ [.call (.execute 0x500000) ⟨64, 0x7F9FF0⟩,
        .call (.halt 7) ⟨64, 0x7F7FF0⟩] = some m₂ ∧
      samplePlatform.step m₂ (.call (.halt 255) ⟨64, 0x7F9FF0⟩) = some m₃ ∧
      m₃.frames = m.frames ∧ m₃.eax = 255 ∧
      m₃.kernel.pcb (pcbAddr m.kernel.currProcess)
        = m.kernel.pcb (pcbAddr m.kernel.currProcess) := by
  have hrun : (Run.run samplePlatform.step sampleBoot
      [.call (.execute 0x500000) ⟨64, 0x7FFFF0⟩]).any (fun m => decide (m.frames ≠ []) &&
        (samplePlatform.step m (.call (.execute 0x500000) ⟨64, 0x7FBFF0⟩)).any fun m₁ =>
          decide (m₁.frames.length = m.frames.length + 1) &&
          decide (Run.Along samplePlatform.step (fun s => m.frames.length < s.frames.length) m₁
            [.call (.execute 0x500000) ⟨64, 0x7F9FF0⟩, .call (.halt 7) ⟨64, 0x7F7FF0⟩]) &&
          (Run.run samplePlatform.step m₁ [.call (.execute 0x500000) ⟨64, 0x7F9FF0⟩,
            .call (.halt 7) ⟨64, 0x7F7FF0⟩]).any fun m₂ =>
              decide (m₂.frames.length = m.frames.length + 1)) = true := by
    decide +kernel
  simp only [Option.any_eq_true, Bool.and_eq_true, decide_eq_true_eq] at hrun
  obtain ⟨m, hm, hlive, m₁, hexec, ⟨hstarted, hbelow⟩, m₂, hm₂, hown⟩ := hrun
  have hreach : samplePlatform.Reachable m := ⟨_, _, boot_bootMachine _ _, hm⟩
  obtain ⟨m₃, hstep, hframes, heax, -, -, -, -, hpcb, -, -⟩ :=
    execute_halt_returns samplePlatform hreach hlive hexec hstarted hm₂ hbelow hown
      (show 0 < (⟨64, 0x7F9FF0⟩ : Regs).depth by decide) (by decide) 255
  exact ⟨m, m₁, m₂, m₃, hm, hexec, hm₂, hstep, hframes, heax, hpcb⟩

end Platform

end CheetOS
