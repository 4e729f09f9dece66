import CheetOS.InterruptHandlers
import CheetOS.Lib.BitField

/-!
# Into a program and out of it (`interr.S`)

`context_switch` enters a program, and `return_to_execute` goes back into the call of
`execute` that has started it.  `execute_halt_resumes` follows a program from the `int 0x80`
of its parent's `execute` to the instruction behind it.
-/

namespace CheetOS

open ProtectedMode

variable {E : Env} {s : Cpu} {a b ret entry top : UInt32}

theorem storeWord_storeWord (p w v : UInt32) (mem : UInt32 → UInt8) :
    storeWord p w (storeWord p v mem) = storeWord p w mem := by
  funext a
  rw [storeWord, storeWord, storeWord]
  split
  · rfl
  · rfl

/-- `context_switch(entry, top)` is called. -/
structure AtContextSwitch (E : Env) (s : Cpu) (entry top : UInt32) : Prop where
  code : ∃ b, E.Code s.eip contextSwitch b
  level : s.cpl = 0
  arguments : Stacked s.mem (s.esp + 4) [entry, top]

/-- The flags a program starts with. -/
def entryFlags (s : Cpu) : UInt32 := (s.eflags &&& 0xFCFFFF) ||| 0x200

/-- A program is entered. -/
def entered (E : Env) (s : Cpu) (entry top : UInt32) : Cpu where
  eax := entryFlags s
  ecx := entry
  edx := top
  ebx := s.ebx
  esp := top
  ebp := s.ebp
  esi := s.esi
  edi := s.edi
  es := E.visible 3 s.es
  ds := E.visible 3 s.ds
  fs := E.visible 3 s.fs
  gs := E.visible 3 s.gs
  cs := userCs
  ss := userDs
  eip := entry
  eflags := entryFlags s
  mem := pushed s.esp [userDs.toUInt32, top, entryFlags s, userCs.toUInt32, entry] s.mem

/-- The stack `context_switch` builds for `iret`. -/
theorem after_pushProgram (hentry : loadWord s.mem (s.esp + 4) = entry)
    (htop : loadWord s.mem (s.esp + 8) = top) :
    ∃ e, s.after pushProgram = { s with
      eax := entryFlags s
      ecx := entry
      edx := top
      esp := s.esp - 4 - 4 - 4 - 4 - 4
      eflags := e
      mem := (entered E s entry top).mem } := by
  refine ⟨(s.after pushProgram).eflags, ?_⟩
  simp only [Cpu.after, pushProgram, List.foldl, Instr.effect, Cpu.get, Cpu.set, Cpu.push,
    Cpu.status, Cpu.setFlags, Cpu.drop, Cpu.top, hentry, htop, loadWord_storeWord,
    UInt32.sub_add_cancel, storeWord_storeWord, entered, pushed, entryFlags]

/-- **`context_switch`** enters the program at level 3, with interrupts on. -/
theorem runs_context_switch (hs : AtContextSwitch E s entry top) :
    E.Runs s (entered E s entry top) := by
  obtain ⟨⟨b, hcode⟩, hlevel, hentry, htop, -⟩ := hs
  obtain ⟨m, hpushes, m', hiret, -⟩ := code_append.1 hcode
  rw [UInt32.add_assoc] at htop
  obtain ⟨e, hafter⟩ := after_pushProgram (E := E) hentry htop
  have hrun := runs_code hpushes rfl rfl
  have hdown : s.esp - UInt32.ofNat (4 * 5) = s.esp - 4 - 4 - 4 - 4 - 4 := by
    simp only [← sub_ofNat_succ]
    exact UInt32.sub_zero _
  have hnil : Stacked s.mem s.esp [] := trivial
  have hframe := hnil.pushed [userDs.toUInt32, top, entryFlags s, userCs.toUInt32, entry] []
    (by simp)
  have hstack : Stacked ((s.after pushProgram).goto m).mem ((s.after pushProgram).goto m).esp
      [entry, userCs.toUInt32, entryFlags s, top, userDs.toUInt32] := by
    rw [hafter, ← hdown]
    exact hframe
  have hcpl : ((s.after pushProgram).goto m).cpl = 0 := by
    rw [hafter]
    exact hlevel
  have houter : userCs &&& 3 ≠ ((s.after pushProgram).goto m).cpl := by
    rw [hcpl]
    decide
  refine hrun.trans ((runs_instr hiret).trans ?_)
  rw [E.exec_iret, iret_outer hstack houter, hafter, show userCs &&& 3 = 3 by decide]
  exact Relation.ReflTransGen.refl

/-- `return_to_execute(address, ebp, esp, status)` is called. -/
structure AtReturnToExecute (E : Env) (s : Cpu) (address ebp esp : UInt32) (status : UInt8) :
    Prop where
  code : ∃ b, E.Code s.eip returnToExecute b
  arguments : Stacked s.mem (s.esp + 4) [address, ebp, esp]
  status : s.mem (s.esp + 16) = status

/-- **`return_to_execute`** jumps into the frame of `execute`, with the status as a number
below 256 in `eax`. -/
theorem runs_return_to_execute {address ebp esp : UInt32} {status : UInt8}
    (hs : AtReturnToExecute E s address ebp esp status) :
    ∃ e, E.Runs s { s with
      eax := status.toUInt32
      ebx := address
      ebp := ebp
      esp := esp
      eip := address
      eflags := e } := by
  obtain ⟨⟨b, hcode⟩, ⟨h4, h8, h12, -⟩, hstatus⟩ := hs
  simp only [UInt32.add_assoc, UInt32.reduceAdd] at h8 h12
  obtain ⟨m, hfront, m', hjmp, -⟩ := code_append.1
    (show E.Code s.eip ([.load 8 .esp .ebp, .load 4 .esp .ebx, .clear .eax, .loadAl 16 .esp,
      .load 12 .esp .esp] ++ [.jmpReg .ebx]) b from hcode)
  have hrun := (runs_code hfront rfl rfl).trans (runs_instr hjmp)
  generalize hq : (s.after [.load 8 .esp .ebp, .load 4 .esp .ebx, .clear .eax, .loadAl 16 .esp,
    .load 12 .esp .esp]).goto m = q at hrun
  simp only [Cpu.after, List.foldl, Instr.effect, Cpu.get, Cpu.set, Cpu.status, Cpu.setFlags, h4,
    h8, h12, hstatus, UInt32.zero_and, UInt32.zero_or] at hq
  refine ⟨q.eflags, ?_⟩
  rw [← hq] at hrun ⊢
  exact hrun

theorem interrupts_entered (E : Env) (s : Cpu) (entry top : UInt32) :
    (entered E s entry top).interrupts = true := by
  have hflag : entryFlags s &&& 0x200 = 0x200 :=
    UInt32.toBitVec_inj.1 (BitField.or_and_self (s.eflags &&& 0xFCFFFF).toBitVec 0x200)
  rw [Cpu.interrupts, entered, hflag]
  decide

/-- **A program from its parent's `execute` to its `halt`.**  The parent's system call
reaches `execute`; where `execute` calls `context_switch`, the program is entered, at level 3
and with interrupts on; its call of `halt` reaches `halt`; and where `halt` calls
`return_to_execute`, the frame of `execute` is entered again, with the status in `eax`.  When
`execute` returns it, the parent goes on with its registers as they were and the status in
`eax`. -/
theorem execute_halt_resumes {next : UInt32} (K : HandlerCode E) (hs : AtSystemCall E s next)
    (hn : s.eax = 2) (htable : Stacked s.mem K.jumpTable K.calls.jumpTable)
    (hapart : Apart K.jumpTable 44 (E.esp0 s.mem - 92) callRoom) :
    ∃ c, E.Runs s c ∧ Called E s K.calls.execute c ∧
      ∀ d entry top, E.Runs c d → AtContextSwitch E d entry top →
        E.Runs c (entered E d entry top) ∧ (entered E d entry top).interrupts = true ∧
        ∀ v next', E.Runs (entered E d entry top) v → AtSystemCall E v next' → v.eax = 1 →
          Stacked v.mem K.jumpTable K.calls.jumpTable →
          Apart K.jumpTable 44 (E.esp0 v.mem - 92) callRoom →
          ∃ h, E.Runs v h ∧ Called E v K.calls.halt h ∧
            ∀ r address ebp esp status, E.Runs h r →
              AtReturnToExecute E r address ebp esp status →
              ∃ q, E.Runs r q ∧ q.eip = address ∧ q.ebp = ebp ∧ q.esp = esp ∧ q.cs = r.cs ∧
                q.mem = r.mem ∧ q.eax = status.toUInt32 ∧
                ∀ c', E.Runs q c' → c'.eax = q.eax → Returned 6 64 c c' →
                  E.Runs s { s with eax := status.toUInt32, eip := next, mem := c'.mem } := by
  obtain ⟨c, hexecute, hc, hback⟩ := runs_call (f := K.calls.execute) K hs (by rw [hn]; decide)
    (by rw [hn]; rfl) htable hapart
  refine ⟨c, hexecute, hc, fun d entry top hd hswitch => ?_⟩
  have hentered := hd.trans (runs_context_switch hswitch)
  refine ⟨hentered, interrupts_entered E d entry top, ?_⟩
  intro v next' hv hcall hhalt htable' hapart'
  obtain ⟨h, hreach, hcalled, -⟩ := runs_call (f := K.calls.halt) K hcall (by rw [hhalt]; decide)
    (by rw [hhalt]; rfl) htable' hapart'
  refine ⟨h, hreach, hcalled, fun r address ebp esp status hr hreturn => ?_⟩
  obtain ⟨e, hjump⟩ := runs_return_to_execute hreturn
  refine ⟨_, hjump, rfl, rfl, rfl, rfl, rfl, rfl, fun c' hend heax hret => ?_⟩
  have hresult := hback c' hret
  rw [heax] at hresult
  exact hexecute.trans (hentered.trans (hv.trans (hreach.trans (hr.trans (hjump.trans
    (hend.trans hresult))))))

/-! ### A sample run

`startProgram` enters `ece391_halt` at `0x104C`; everything that is written until
`haltProgram` has returned to `0x200B` stays below the parent's frame at `0x7FA4`. -/

section Sample

variable {c h : Cpu}

theorem atContextSwitch_startProgram (hcs : c.cs = kernelCs) :
    AtContextSwitch sampleKernel (startProgram c) 0x104C 0x6000 := by
  have hcode : sampleKernel.Code 0x103B contextSwitch 0x1046 := by decide +kernel
  have hnil : Stacked (storeWord 0x4004 0x7000 c.mem) c.esp [] := trivial
  have hstack := hnil.pushed [0x6000, 0x104C, 0x2222] [] (by simp)
  refine ⟨⟨_, hcode⟩, ?_, ?_⟩
  · rw [Cpu.cpl, startProgram, Cpu.pushAll_eq, Cpu.goto, hcs]
    decide
  · rw [startProgram, Cpu.pushAll_eq]
    exact hstack.2

theorem mem_startProgram (hesp : c.esp = 0x7FA4) :
    SameBut 0x4004 0x3FA0 c.mem (entered sampleKernel (startProgram c) 0x104C 0x6000).mem ∧
      Stacked (entered sampleKernel (startProgram c) 0x104C 0x6000).mem 0x4004 [0x7000] := by
  have hmem : (startProgram c).mem
      = pushed 0x7FA4 [0x6000, 0x104C, 0x2222] (storeWord 0x4004 0x7000 c.mem) := by
    rw [startProgram, Cpu.pushAll_eq, ← hesp]
    rfl
  have hdown : (startProgram c).esp = 0x7F98 := by
    rw [startProgram, Cpu.pushAll_eq, ← show (0x7FA4 : UInt32) - 12 = 0x7F98 by decide, ← hesp]
    rfl
  have hstore := sameBut_storeWord 0x4004 0x7000 c.mem
  have hcall := sameBut_pushed 0x7FA4 [0x6000, 0x104C, 0x2222] (storeWord 0x4004 0x7000 c.mem)
    (by decide)
  have hframe : SameBut 0x7F84 20 (startProgram c).mem
      (entered sampleKernel (startProgram c) 0x104C 0x6000).mem := by
    have hpushed := sameBut_pushed 0x7F98 [userDs.toUInt32, 0x6000, entryFlags (startProgram c),
      userCs.toUInt32, 0x104C] (startProgram c).mem (by simp)
    rw [← hdown] at hpushed
    simpa [hdown, entered] using hpushed
  rw [← hmem] at hcall
  have htss : Stacked (storeWord 0x4004 0x7000 c.mem) 0x4004 [0x7000] :=
    ⟨loadWord_storeWord _ _ _, trivial⟩
  constructor
  · exact ((hstore.within (by decide) (by decide) (by decide)).trans
      (hcall.within (by decide) (by decide) (by decide))).trans
      (hframe.within (by decide) (by decide) (by decide))
  · have hpushed := htss.sameBut (by simp) hcall (apart_of_le (by decide) (by decide))
    exact hpushed.sameBut (by simp) hframe (apart_of_le (by decide) (by decide))

/-- The child's call of `halt`. -/
theorem runs_halt (hesp : c.esp = 0x7FA4) : ∃ v next,
    sampleKernel.Runs (entered sampleKernel (startProgram c) 0x104C 0x6000) v ∧
    AtSystemCall sampleKernel v next ∧ v.eax = 1 ∧ SameBut 0x4004 0x3FA0 c.mem v.mem ∧
    sampleKernel.esp0 v.mem = 0x7000 := by
  obtain ⟨hsame, htss⟩ := mem_startProgram hesp
  generalize he : entered sampleKernel (startProgram c) 0x104C 0x6000 = e at hsame htss ⊢
  have hcode : sampleKernel.Code 0x104C (doCall 1) 0x1054 := by decide +kernel
  have hdown : e.esp = 0x6000 := by
    rw [← he]
    rfl
  have hlevel : e.cpl = 3 := by
    rw [Cpu.cpl, show e.cs = userCs by rw [← he]; rfl]
    decide
  have hsegments : OwnSegments sampleKernel e := by
    constructor
    all_goals
      rw [hlevel, ← he]
      exact visible_visible _ _ _
  obtain ⟨m, next, last, hint, -, -, hrun⟩ := runs_wrapper (s := e) hcode (by rw [← he]; rfl)
    ⟨rfl, rfl, rfl, rfl, trivial⟩
  have hstore := sameBut_storeWord (e.esp - 4) e.ebx e.mem
  have hword := htss.sameBut (by simp) hstore
    (apart_of_le (by rw [hdown]; decide) (by rw [hdown]; decide))
  refine ⟨_, next, hrun, ⟨hint, hlevel, hsegments.es, hsegments.ds, hsegments.fs, hsegments.gs⟩,
    rfl, hsame.trans (hstore.within ?_ ?_ (by decide)), hword.1⟩
  all_goals
    rw [hdown]
    decide

theorem mem_haltProgram (hesp : h.esp = 0x6FA4) :
    SameBut 0x4004 0x3FA0 h.mem (haltProgram h).mem ∧
      AtReturnToExecute sampleKernel (haltProgram h) 0x200B 0 0x7FA4 7 := by
  have hmem : (haltProgram h).mem = pushed 0x6FA4 [7, 0x7FA4, 0, 0x200B, 0x2222] h.mem := by
    rw [haltProgram, Cpu.pushAll_eq, ← hesp]
    rfl
  have hdown : (haltProgram h).esp = 0x6F90 := by
    rw [haltProgram, Cpu.pushAll_eq, ← show (0x6FA4 : UInt32) - 20 = 0x6F90 by decide, ← hesp]
    rfl
  have hsame := sameBut_pushed 0x6FA4 [7, 0x7FA4, 0, 0x200B, 0x2222] h.mem (by decide)
  have hnil : Stacked h.mem 0x6FA4 [] := trivial
  have hstack := hnil.pushed [7, 0x7FA4, 0, 0x200B, 0x2222] [] (by simp)
  have hcode : sampleKernel.Code 0x1046 returnToExecute 0x104C := by decide +kernel
  rw [← hmem] at hsame hstack
  refine ⟨hsame.within (by decide) (by decide) (by decide), ⟨_, hcode⟩, ?_, ?_⟩
  · rw [hdown]
    exact ⟨hstack.2.1, hstack.2.2.1, hstack.2.2.2.1, trivial⟩
  · rw [hdown, hmem]
    simp [pushed, storeWord]

end Sample

/-- A program that halts at once with the status 7. -/
theorem execute_halt_resumes_started : ∃ u mem', sampleKernel.Runs (sampleUser 0x102A 2 []) u ∧
    u.eip = 0x104C ∧ u.esp = 0x6000 ∧ u.cs = userCs ∧ u.interrupts = true ∧
    sampleKernel.Runs (sampleUser 0x102A 2 [])
      { sampleUser 0x102A 2 [] with eax := 7, eip := 0x102B, mem := mem' } := by
  have hentry : AtSystemCall sampleKernel (sampleUser 0x102A 2 []) 0x102B :=
    ⟨by decide +kernel, by decide, ⟨by decide, by decide, by decide, by decide⟩⟩
  have htable : Stacked (sampleMemory []) 0x3000 sampleCalls.jumpTable := by decide +kernel
  obtain ⟨c, hrun, hc, hstart⟩ := execute_halt_resumes sampleHandler hentry (by decide)
    htable (apart_of_le (by decide +kernel) (by decide +kernel))
  have hesp : c.esp = 0x7FA4 := hc.esp.trans (by decide +kernel)
  obtain ⟨hentered, hinterrupts, hchild⟩ := hstart _ _ _ (runs_startProgram hc.eip)
    (atContextSwitch_startProgram hc.cs)
  obtain ⟨v, next, hv, hcall, hnumber, hsame, htss⟩ := runs_halt hesp
  have hvtable : Stacked v.mem 0x3000 sampleCalls.jumpTable := by
    have hctable := htable.sameBut (by decide) hc.mem
      (apart_of_le (by decide +kernel) (by decide +kernel))
    exact hctable.sameBut (by decide) hsame (apart_of_le (by decide) (by decide))
  obtain ⟨h, hreach, hh, hreturn⟩ := hchild v next hv hcall hnumber hvtable
    (apart_of_le (by rw [htss]; decide) (by rw [htss]; decide))
  have hhesp : h.esp = 0x6FA4 := by
    rw [hh.esp, htss]
    decide
  obtain ⟨hhalt, hjump⟩ := mem_haltProgram hhesp
  obtain ⟨q, hq, heip, -, hqesp, hcs, hmem, heax, hback⟩ :=
    hreturn _ _ _ _ _ (runs_haltProgram hh.eip) hjump
  have hall : SameBut 0x4004 0x3FA0 c.mem q.mem := by
    have hkept := hh.mem
    rw [htss] at hkept
    rw [hmem]
    exact (hsame.trans (hkept.within (by decide) (by decide) (by decide))).trans hhalt
  have hreturned : Returned 6 64 c (returnSeven q) := by
    have hword : Apart 0x4004 0x3FA0 0x7FA4 4 := apart_of_le (by decide) (by decide)
    have hsaved : Apart 0x4004 0x3FA0 0x7FC0 64 := apart_of_le (by decide) (by decide)
    refine ⟨?_, ?_, ?_, fun a ha => hall a (hsaved.symm a ?_)⟩
    · rw [returnSeven, Cpu.top, Cpu.top, hqesp, hesp]
      exact loadWord_congr fun a ha => hall a (hword.symm a ha)
    · rw [returnSeven, hqesp, hesp]
    · rw [returnSeven, hcs, haltProgram, Cpu.pushAll_eq, Cpu.goto, hh.cs, hc.cs]
    · rw [hesp] at ha
      exact ha
  exact ⟨_, (returnSeven q).mem, hrun.trans hentered, rfl, rfl, rfl, hinterrupts,
    hback _ (runs_returnSeven heip (by decide)) heax.symm hreturned⟩

end CheetOS
