import CheetOS.KernelEntry

/-!
# Interrupt handlers (`interr.S`)

`key_handler` and `rtc_handler` save the registers, call the routine of their device and
`send_eoi`, and return.  `interrupt_resumes` says that such an interrupt, in a program or in
the kernel itself, leaves no trace in the registers: the interrupted code goes on with the
memory the two routines have left.
-/

namespace CheetOS

open ProtectedMode

variable {E : Env} {s c c' : Cpu} {n : UInt8} {routine irq sendEoi stop : UInt32}

/-- What `pusha` pushes, last word first. -/
def pushedRegisters (s : Cpu) (esp : UInt32) : List UInt32 :=
  [s.edi, s.esi, s.ebp, esp, s.ebx, s.edx, s.ecx, s.eax]

/-- What is on the stack of a handler when it has saved the registers, last word first. -/
def handlerWords (E : Env) (s : Cpu) : List UInt32 :=
  pushedRegisters s (E.entryEsp s - UInt32.ofNat (4 * (returnFrame s s.eip).length)) ++
    returnFrame s s.eip

theorem handlerWords_length (E : Env) (s : Cpu) :
    (handlerWords E s).length = 8 + (returnFrame s s.eip).length := by
  rw [handlerWords, List.length_append]
  rfl

/-- The bytes of stack that an interrupt uses around its routines: 20 for the processor, 32
for the registers, 4 for the number of the interrupt line and 4 for a return address. -/
abbrev interruptRoom : ℕ := 60

variable (E s) in
/-- The routine at `f` is called in a handler that has interrupted `s`, with the words `args`
as its arguments and `mem` as the memory the handler has worked on. -/
structure CalledInHandler (f : UInt32) (args : List UInt32) (mem : UInt32 → UInt8) (c : Cpu) :
    Prop where
  eip : c.eip = f
  arguments : Stacked c.mem (c.esp + 4) args
  mem : SameBut (E.entryEsp s - 60) interruptRoom mem c.mem

/-- A routine of `send_eoi` has returned: the registers come back. -/
theorem runs_resume {r : Cpu} {m : UInt32} (hcode : E.Code m [.addImm 4 .esp, .popa, .iret] stop)
    (heip : r.eip = m) (hcpl : r.cpl = 0) (hsegments : OwnSegments E s) (hes : r.es = s.es)
    (hds : r.ds = s.ds) (hfs : r.fs = s.fs) (hgs : r.gs = s.gs) (hss : r.ss = E.entrySs s)
    (hesp : r.esp + 4 = E.entryEsp s - UInt32.ofNat (4 * (handlerWords E s).length))
    (hstack : Stacked r.mem (r.esp + 4) (handlerWords E s)) :
    E.Runs r { s with mem := r.mem } := by
  obtain ⟨m₁, hadd, m₂, hpopa, m₃, hiret, -⟩ := hcode
  have hpops : E.Code m [.addImm 4 .esp, .popa] m₂ := ⟨m₁, hadd, m₂, hpopa, rfl⟩
  have hrun := runs_code hpops rfl heip
  rw [handlerWords, stacked_append] at hstack
  obtain ⟨⟨h0, h4, h8, -, h16, h20, h24, h28, -⟩, hframe⟩ := hstack
  rw [show UInt32.ofNat (4 * (pushedRegisters s _).length) = 32 from rfl, UInt32.add_assoc]
    at hframe
  simp only [UInt32.add_assoc, UInt32.reduceAdd] at h0 h4 h8 h16 h20 h24 h28
  have hpopped : ∃ e, r.after [.addImm 4 .esp, .popa] = { s with
      esp := r.esp + 36
      cs := r.cs
      ss := r.ss
      eip := r.eip
      eflags := e
      mem := r.mem } := by
    refine ⟨(r.after [.addImm 4 .esp, .popa]).eflags, ?_⟩
    simp only [Cpu.after, List.foldl, Instr.effect, Cpu.get, Cpu.set, Cpu.status, Cpu.setFlags,
      Cpu.drop, UInt32.add_assoc, UInt32.reduceAdd, h0, h4, h8, h16, h20, h24, h28, hes, hds, hfs,
      hgs]
  obtain ⟨e, hafter⟩ := hpopped
  have hinner : s.cpl = 0 → r.ss = s.ss ∧ r.esp + 36 + 12 = s.esp := by
    intro hlevel
    have hspace : r.esp + 4 = s.esp - 44 := by
      rw [hesp, handlerWords_length, Env.entryEsp, returnFrame, if_pos hlevel, if_pos hlevel]
      rfl
    refine ⟨?_, ?_⟩
    · rw [hss, Env.entrySs, if_pos hlevel]
    · grind
  have hback := iret_inside (s := s) (r := (r.after [.addImm 4 .esp, .popa]).goto m₂)
    (by rw [hafter]; exact hframe) (by rw [hafter]; exact hcpl) hsegments (by rw [hafter]; rfl)
    (by rw [hafter]; rfl) (by rw [hafter]; rfl) (by rw [hafter]; rfl) (by rw [hafter]; exact hinner)
  refine hrun.trans ((runs_instr hiret).trans ?_)
  rw [E.exec_iret, hback, hafter]
  exact Relation.ReflTransGen.refl

/-- **An interrupt leaves no trace in the registers**, wherever it comes.  The routine of the
device and then `send_eoi`, with the number of the line, are called with interrupts off; when
they have returned, the interrupted code goes on with its registers, segments and flags as
they were and the memory the routines have left.  The handler itself writes to the 60 bytes
below the top of the stack it uses. -/
theorem interrupt_resumes (hgate : (E.gate n).interrupt = true)
    (hcode : E.Code (E.gate n).offset (interruptHandler routine irq sendEoi) stop)
    (hsegments : OwnSegments E s) :
    ∃ c, E.Runs (E.deliver n s.eip s) c ∧ CalledInHandler E s routine [] s.mem c ∧
      c.interrupts = false ∧
      ∀ c', Returned 0 (4 * (handlerWords E s).length) c c' → SameSegments c c' →
        ∃ e, E.Runs c' e ∧ CalledInHandler E s sendEoi [irq] c'.mem e ∧
          ∀ e', Returned 1 (4 * (handlerWords E s).length) e e' → SameSegments e e' →
            E.Runs e' { s with mem := e'.mem } := by
  obtain ⟨m₁, hpusha, m₂, hroutine, m₃, hirq, m₄, heoi, hrest⟩ := hcode
  have hframe := returnFrame_length s s.eip
  have hlength := handlerWords_length E s
  -- the registers are saved and the routine of the device is called
  have hsave : E.Runs (E.deliver n s.eip s) (E.inside n s m₁ (handlerWords E s)) := by
    rw [deliver_eq]
    have hstep := runs_instr (s := E.inside n s (E.gate n).offset (returnFrame s s.eip)) hpusha
    rw [exec_straight rfl] at hstep
    have hpushed := inside_pushAll (E := E) n s (E.gate n).offset (returnFrame s s.eip)
      (pushedRegisters s (E.entryEsp s - UInt32.ofNat (4 * (returnFrame s s.eip).length)))
    rw [handlerWords, ← inside_goto n s (E.gate n).offset m₁, ← hpushed]
    exact hstep
  have hcall : E.Runs (E.inside n s m₁ (handlerWords E s))
      (E.inside n s routine (m₂ :: handlerWords E s)) := by
    have hstep := runs_instr (s := E.inside n s m₁ (handlerWords E s)) hroutine
    rw [E.exec_call, inside_push, inside_goto] at hstep
    exact hstep
  obtain ⟨htop, hwords⟩ := stacked_inside (E := E) n s routine (m₂ :: handlerWords E s)
    (by rw [List.length_cons]; omega)
  have hmem := sameBut_inside (E := E) (k := 60) n s routine (m₂ :: handlerWords E s)
    (by rw [List.length_cons]; omega) (by decide)
  refine ⟨_, hsave.trans hcall, ⟨rfl, trivial, hmem⟩, interrupts_inside hgate s _ _, ?_⟩
  intro c' hret hsame
  have hkept := hret.stacked (le_refl _) (by omega) hwords
  have hesp : c'.esp = E.entryEsp s - UInt32.ofNat (4 * (handlerWords E s).length) := by
    rw [hret.esp]
    exact sub_ofNat_succ_add (E.entryEsp s) (handlerWords E s).length
  have hlevel : c'.cpl = 0 := by
    rw [Cpu.cpl, hret.cs]
    exact cpl_inside n s routine _
  rw [show UInt32.ofNat (4 * 0) = 0 from rfl, UInt32.add_zero] at hkept
  -- the number of the line is pushed and `send_eoi` is called
  have heoi' : E.Runs c' (((c'.push irq).push m₄).goto sendEoi) := by
    have hpush := runs_instr (s := c') (by rw [hret.eip, Cpu.top, htop]; exact hirq)
    rw [exec_straight rfl] at hpush
    have hstep := runs_instr (s := (c'.push irq).goto m₃) heoi
    rw [E.exec_call] at hstep
    exact hpush.trans hstep
  have hstack := Stacked.pushed [irq, m₄] _ (by simp; omega) hkept
  have hdown : c'.esp - UInt32.ofNat (4 * [irq, m₄].length) = c'.esp - 4 - 4 :=
    (sub_ofNat_succ c'.esp 1).symm
  have hsame₂ := sameBut_pushed c'.esp [irq, m₄] c'.mem (by simp)
  rw [hesp, sub_ofNat_sub_ofNat, ← hesp] at hsame₂
  rw [hdown] at hstack
  obtain ⟨⟨hback, hargs⟩, hsaved⟩ := stacked_append.1 hstack
  generalize he : ((c'.push irq).push m₄).goto sendEoi = e at heoi'
  have hmem' : e.mem = pushed c'.esp [irq, m₄] c'.mem := by
    rw [← he]
    rfl
  have hesp' : e.esp = c'.esp - 4 - 4 := by
    rw [← he]
    rfl
  rw [← hmem', ← hesp'] at hargs hsaved hback
  rw [← hmem'] at hsame₂
  refine ⟨e, heoi', ⟨?_, hargs, ?_⟩, ?_⟩
  · rw [← he]
    rfl
  · exact hsame₂.extend (by simp; omega) (by simp; omega) (by decide)
  intro e' hret' hsame'
  have hresumed := hret'.stacked (le_refl _) (by omega) hsaved
  have hsegments' : SameSegments (E.inside n s routine (m₂ :: handlerWords E s)) e' := by
    refine (hsame.trans ?_).trans hsame'
    rw [← he]
    exact ⟨rfl, rfl, rfl, rfl, rfl⟩
  obtain ⟨hes, hds, hfs, hgs, hss⟩ := hsegments'
  refine runs_resume hrest (by rw [hret'.eip, Cpu.top, hback]) ?_ hsegments hes hds hfs hgs hss ?_
    hresumed
  · rw [Cpu.cpl, hret'.cs, ← he]
    exact hlevel
  · rw [hret'.esp, hesp', UInt32.sub_add_cancel, UInt32.sub_add_cancel, hesp]

/-- A key in a program. -/
theorem interrupt_resumes_key : ∃ mem',
    sampleKernel.Runs (sampleKernel.deliver 0x21 0x6666 (sampleUser 0x6666 8 []))
      { sampleUser 0x6666 8 [] with mem := mem' } := by
  have hcode : sampleKernel.Code (sampleKernel.gate 0x21).offset (interruptHandler 0x2101 1 0x2103)
      0x1034 := by
    decide +kernel
  obtain ⟨c, hrun, hc, -, hret⟩ := interrupt_resumes (s := sampleUser 0x6666 8 []) (by decide)
    hcode ⟨by decide, by decide, by decide, by decide⟩
  obtain ⟨e, hrun', he, hret'⟩ := hret _ (returned_returnSeven 0 _ c) ⟨rfl, rfl, rfl, rfl, rfl⟩
  have hback := hret' _ (returned_returnSeven 1 _ e) ⟨rfl, rfl, rfl, rfl, rfl⟩
  have hfirst := runs_returnSeven hc.eip (by decide)
  have hsecond := runs_returnSeven he.eip (by decide)
  exact ⟨e.mem, (((hrun.trans hfirst).trans hrun').trans hsecond).trans hback⟩

end CheetOS
