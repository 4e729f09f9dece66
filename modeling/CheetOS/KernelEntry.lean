import CheetOS.Lib.ProtectedMode

/-!
# Into the kernel and back (`interr.S`, `ece391syscall.S`)

The assembly code around the C code of the kernel, and the wrappers user programs call.  The
C code is known by what a call of it keeps, `Returned`.

* `system_call_returns` says which routine a system call reaches, with which arguments, and
  that the program goes on with its registers as they were but for the result;
* `call_wrapper_returns` says the same for a C call of a wrapper in a user program.
-/

namespace CheetOS

open ProtectedMode

/-! ## The code -/

/-- `KERNEL_CS`. -/
abbrev kernelCs : UInt16 := 0x10

/-- `USER_CS`. -/
abbrev userCs : UInt16 := 0x23

/-- `USER_DS`. -/
abbrev userDs : UInt16 := 0x2B

/-- `system_call_handler`, the pushes. -/
def saveRegisters : List Instr :=
  [.pushSeg .gs, .pushSeg .fs, .pushSeg .es, .pushSeg .ds, .push .ebx, .push .ecx, .push .edx,
   .push .esi, .push .edi, .push .ebp, .pushf,
   .push .ebp, .push .edi, .push .esi, .push .edx, .push .ecx, .push .ebx]

/-- `system_call_handler`, what follows up to the label `invalid`. -/
def dispatchCall (jumpTable invalid restore : UInt32) : List Instr :=
  [.cmpImm 1 .eax, .jl invalid, .cmpImm 10 .eax, .jg invalid, .callTable jumpTable .eax,
   .jmp restore]

/-- From the label `invalid` on. -/
def invalidCall : List Instr := [.movImm 0xFFFFFFFF .eax]

/-- From the label `restore` on, up to `IRET`. -/
def restoreRegisters : List Instr :=
  [.addImm 24 .esp, .popf, .pop .ebp, .pop .edi, .pop .esi, .pop .edx, .pop .ecx, .pop .ebx,
   .popSeg .ds, .popSeg .es, .popSeg .fs, .popSeg .gs]

/-- `DO_CALL`. -/
def doCall (number : UInt32) : List Instr :=
  [.push .ebx, .movImm number .eax, .load 8 .esp .ebx, .load 12 .esp .ecx, .load 16 .esp .edx,
   .int 0x80, .pop .ebx, .ret]

/-- The handler of an interrupt: the routine of its device and `send_eoi` are called. -/
def interruptHandler (routine irq sendEoi : UInt32) : List Instr :=
  [.pusha, .call routine, .pushImm irq, .call sendEoi, .addImm 4 .esp, .popa, .iret]

/-- `rtc_handler`. -/
def rtcHandler (rtcInterruptHandler sendEoi : UInt32) : List Instr :=
  interruptHandler rtcInterruptHandler 8 sendEoi

/-- `key_handler`. -/
def keyHandler (handleCharpress sendEoi : UInt32) : List Instr :=
  interruptHandler handleCharpress 1 sendEoi

/-- `context_switch`, up to `IRET`. -/
def pushProgram : List Instr :=
  [.load 4 .esp .ecx, .load 8 .esp .edx, .pushImm userDs.toUInt32, .push .edx, .pushf, .pop .eax,
   .orImm 0x200 .eax, .push .eax, .pushImm userCs.toUInt32, .push .ecx]

/-- `context_switch`. -/
def contextSwitch : List Instr := pushProgram ++ [.iret]

/-- `return_to_execute`. -/
def returnToExecute : List Instr :=
  [.load 8 .esp .ebp, .load 4 .esp .ebx, .clear .eax, .loadAl 16 .esp, .load 12 .esp .esp,
   .jmpReg .ebx]

/-- The addresses of the system calls, in the order of `system_call_jump_table`, which begins
with a zero. -/
structure SystemCalls where
  halt : UInt32
  execute : UInt32
  read : UInt32
  write : UInt32
  «open» : UInt32
  close : UInt32
  getargs : UInt32
  vidmap : UInt32
  setHandler : UInt32
  sigreturn : UInt32

/-- `system_call_jump_table`. -/
def SystemCalls.jumpTable (c : SystemCalls) : List UInt32 :=
  [0, c.halt, c.execute, c.read, c.write, c.open, c.close, c.getargs, c.vidmap, c.setHandler,
   c.sigreturn]

/-- The handler is in memory, and gate `0x80` leads to it. -/
structure HandlerCode (E : Env) where
  calls : SystemCalls
  jumpTable : UInt32
  handler : UInt32
  invalid : UInt32
  restore : UInt32
  stop : UInt32
  handler_code : E.Code handler (saveRegisters ++ dispatchCall jumpTable invalid restore) invalid
  invalid_code : E.Code invalid invalidCall restore
  restore_code : E.Code restore (restoreRegisters ++ [.iret]) stop
  gate : E.gate 0x80 = ⟨handler, kernelCs, 3, true, true⟩

/-- A routine that does nothing but return 7. -/
def returnSeven (s : Cpu) : Cpu :=
  { s with
    eax := 7
    esp := s.esp + 4
    eip := s.top }

theorem returned_returnSeven (n room : ℕ) (s : Cpu) : Returned n room s (returnSeven s) where
  eip := rfl
  esp := rfl
  cs := rfl
  stack := fun _ _ => rfl

/-- An `execute`: the kernel stack of the new program is below `0x7000`, and
`context_switch(0x104C, 0x6000)` is called. -/
def startProgram (s : Cpu) : Cpu :=
  ({ s with mem := storeWord 0x4004 0x7000 s.mem }.pushAll [0x6000, 0x104C, 0x2222]).goto 0x103B

/-- A `halt`: it calls `return_to_execute(0x200B, 0, 0x7FA4, 7)`. -/
def haltProgram (s : Cpu) : Cpu := (s.pushAll [7, 0x7FA4, 0, 0x200B, 0x2222]).goto 0x1046

/-- The code of a sample from `0x1000` on, with its routines from `0x2000` on; the first one
is `halt` and the second one `execute`. -/
def sampleKernel : Env where
  code := listing 0x1000 (saveRegisters ++ dispatchCall 0x3000 0x1017 0x1018 ++ invalidCall ++
    restoreRegisters ++ [.iret] ++ doCall 3 ++ keyHandler 0x2101 0x2103 ++
    rtcHandler 0x2102 0x2103 ++ contextSwitch ++ returnToExecute ++ doCall 1)
  routine := fun a =>
    if a = 0x2001 then some fun s s' => s' = haltProgram s
    else if a = 0x2002 then some fun s s' => s' = startProgram s
    else if a.toNat / 0x1000 = 2 then some fun s s' => s' = returnSeven s
    else none
  gate := fun n =>
    if n = 0x80 then ⟨0x1000, kernelCs, 3, true, true⟩
    else if n = 0x21 then ⟨0x102D, kernelCs, 0, true, true⟩
    else ⟨0x1034, kernelCs, 0, n = 0x28, true⟩
  tss := 0x4000
  dpl := fun selector => if selector = userDs then 3 else 0

theorem runs_returnSeven {c : Cpu} {f : UInt32} (heip : c.eip = f)
    (hf : f.toNat / 0x1000 = 2 ∧ f ≠ 0x2001 ∧ f ≠ 0x2002) :
    sampleKernel.Runs c (returnSeven c) := by
  refine runs_routine (R := fun s s' => s' = returnSeven s) ?_ rfl
  rw [heip]
  exact (if_neg hf.2.1).trans ((if_neg hf.2.2).trans (if_pos hf.1))

theorem runs_startProgram {c : Cpu} (heip : c.eip = 0x2002) :
    sampleKernel.Runs c (startProgram c) :=
  runs_routine (R := fun s s' => s' = startProgram s) (by rw [heip]; rfl) rfl

theorem runs_haltProgram {c : Cpu} (heip : c.eip = 0x2001) :
    sampleKernel.Runs c (haltProgram c) :=
  runs_routine (R := fun s s' => s' = haltProgram s) (by rw [heip]; rfl) rfl

def sampleCalls : SystemCalls :=
  ⟨0x2001, 0x2002, 0x2003, 0x2004, 0x2005, 0x2006, 0x2007, 0x2008, 0x2009, 0x200A⟩

/-- The handler of the sample. -/
def sampleHandler : HandlerCode sampleKernel where
  calls := sampleCalls
  jumpTable := 0x3000
  handler := 0x1000
  invalid := 0x1017
  restore := 0x1018
  stop := 0x1025
  handler_code := by decide +kernel
  invalid_code := by decide +kernel
  restore_code := by decide +kernel
  gate := by decide

/-- The memory of the sample: the jump table, the stack for level 0 at `0x8000`, and the
words `ws` from `0x6000` on. -/
def sampleMemory (ws : List UInt32) : UInt32 → UInt8 :=
  pushed (0x6000 + UInt32.ofNat (4 * ws.length)) ws.reverse
    (pushed 0x302C sampleCalls.jumpTable.reverse (pushed 0x400C [0x18, 0x8000] fun _ => 0))

/-- A program of the sample is at the address `eip`, with `ws` on its stack. -/
def sampleUser (eip eax : UInt32) (ws : List UInt32) : Cpu where
  eax := eax
  ecx := 1
  edx := 2
  ebx := 3
  esp := 0x6000
  ebp := 4
  esi := 5
  edi := 6
  es := userDs
  ds := userDs
  fs := 0
  gs := 0
  cs := userCs
  ss := userDs
  eip := eip
  eflags := 0x202
  mem := sampleMemory ws

/-- A user program is about to make a system call. -/
structure AtSystemCall (E : Env) (s : Cpu) (next : UInt32) : Prop where
  code : E.code s.eip = some (.int 0x80, next)
  level : s.cpl = 3
  segments : OwnSegments E s

/-- What the handler saves, last word first; `flags` is what `pushfl` pushes. -/
def savedRegisters (s : Cpu) (flags : UInt32) : List UInt32 :=
  [flags, s.ebp, s.edi, s.esi, s.edx, s.ecx, s.ebx, s.ds.toUInt32, s.es.toUInt32,
   s.fs.toUInt32, s.gs.toUInt32]

/-- The arguments of the routine, with what the source pushes to keep it from user programs. -/
def callArguments (s : Cpu) : List UInt32 := [s.ebx, s.ecx, s.edx, s.esi, s.edi, s.ebp]

/-! ## The system call handler -/

section SystemCall

variable {E : Env} (K : HandlerCode E) {s r : Cpu} {next flags : UInt32}

/-- The pops. -/
theorem after_restoreRegisters
    (hstack : Stacked r.mem (r.esp + 24) (savedRegisters s flags ++ returnFrame s next)) :
    ∃ e, r.after restoreRegisters = { s with
      eax := r.eax
      esp := r.esp + 68
      cs := r.cs
      ss := r.ss
      eip := r.eip
      eflags := e
      mem := r.mem } := by
  obtain ⟨⟨h0, h1, h2, h3, h4, h5, h6, h7, h8, h9, h10, -⟩, -⟩ := stacked_append.1 hstack
  refine ⟨(r.after restoreRegisters).eflags, ?_⟩
  simp only [Cpu.after, restoreRegisters, List.foldl, Instr.effect, Cpu.get, Cpu.set, Cpu.setSeg,
    Cpu.status, Cpu.setFlags, Cpu.drop, Cpu.top, h0, h1, h2, h3, h4, h5, h6, h7, h8, h9, h10,
    UInt16.toUInt16_toUInt32]
  simp only [UInt32.add_assoc, UInt32.reduceAdd]

theorem AtSystemCall.cpl_ne (hs : AtSystemCall E s next) : s.cpl ≠ 0 := by
  rw [hs.level]
  decide

/-- **From the label `restore` on** the program gets back what was saved. -/
theorem runs_restore (hs : AtSystemCall E s next) (heip : r.eip = K.restore) (hcs : r.cpl = 0)
    (hstack : Stacked r.mem (r.esp + 24) (savedRegisters s flags ++ returnFrame s next)) :
    E.Runs r { s with eax := r.eax, eip := next, mem := r.mem } := by
  obtain ⟨m, hpops, iret, hiret, -⟩ := code_append.1 K.restore_code
  have hrun := runs_code (s := r) hpops rfl heip
  obtain ⟨e, hafter⟩ := after_restoreRegisters hstack
  have hframe := (stacked_append.1 hstack).2
  rw [UInt32.add_assoc] at hframe
  have hback := iret_inside (s := s) (r := (r.after restoreRegisters).goto m)
    (by rw [hafter]; exact hframe) (by rw [hafter]; exact hcs) hs.segments (by rw [hafter]; rfl)
    (by rw [hafter]; rfl) (by rw [hafter]; rfl) (by rw [hafter]; rfl)
    fun hinner => absurd hinner hs.cpl_ne
  refine hrun.trans ((runs_instr hiret).trans ?_)
  rw [E.exec_iret, hback, hafter]
  exact Relation.ReflTransGen.refl

/-- What `pushfl` pushes: IF and the flags above it were cleared on the way in. -/
def handlerFlags (s : Cpu) : UInt32 := (s.eflags &&& ~~~0x34300) &&& 0xFCFFFF

/-- The stack of a system call when the handler has pushed everything, last word first. -/
def handlerStack (s : Cpu) (next : UInt32) : List UInt32 :=
  callArguments s ++ savedRegisters s (handlerFlags s) ++ returnFrame s next

theorem handlerStack_length (s : Cpu) (next : UInt32) : (handlerStack s next).length ≤ 22 := by
  have hframe := returnFrame_length s next
  simp [handlerStack, callArguments, savedRegisters]
  omega

/-- The processor enters the handler. -/
theorem runs_entry (hs : AtSystemCall E s next) :
    E.Runs s (E.inside 0x80 s K.handler (returnFrame s next)) := by
  have hdeliver : E.exec (.int 0x80) next s = E.inside 0x80 s K.handler (returnFrame s next) := by
    rw [E.exec_int, Env.trap, deliver_eq, K.gate, hs.level]
    rfl
  have hentry := runs_instr hs.code
  rw [hdeliver] at hentry
  exact hentry

/-- The handler saves the registers. -/
theorem runs_pushes (hs : AtSystemCall E s next) : ∃ m,
    E.Code m (dispatchCall K.jumpTable K.invalid K.restore) K.invalid ∧
    E.Runs s (E.inside 0x80 s m (handlerStack s next)) := by
  obtain ⟨m, hpushes, hrest⟩ := code_append.1 K.handler_code
  refine ⟨m, hrest, (runs_entry K hs).trans ?_⟩
  have hflags : (E.inside 0x80 s K.handler (returnFrame s next)).eflags &&& 0xFCFFFF
      = handlerFlags s := by
    rw [Env.inside, K.gate]
    rfl
  have hrun := runs_code (s := E.inside 0x80 s K.handler (returnFrame s next)) hpushes rfl rfl
  rw [after_pushes (callArguments s ++ savedRegisters s (handlerFlags s)).reverse
    (by rw [← hflags]; rfl), inside_pushAll, inside_goto] at hrun
  exact hrun

/-- The two comparisons, which are signed, let the numbers from 1 to 10 through. -/
theorem number_bounds (n : UInt32) :
    ¬n.toInt32 < 1 ∧ ¬10 < n.toInt32 ↔ 1 ≤ n.toNat ∧ n.toNat ≤ 10 := by
  have hn := n.toNat_lt
  have hint : n.toInt32.toInt = if 2 * n.toNat < 2 ^ 32 then (n.toNat : ℤ)
      else (n.toNat : ℤ) - (2 ^ 32 : ℕ) := BitVec.toInt_eq_toNat_cond n.toInt32.toBitVec
  rw [Int32.lt_iff_toInt_lt, Int32.lt_iff_toInt_lt, hint]
  simp only [Int32.reduceToInt]
  split
  all_goals omega

/-- The bytes of the kernel stack that a system call uses around its routine: 20 for the
processor, 44 for the registers, 24 for the arguments and 4 for the return address. -/
abbrev callRoom : ℕ := 92

variable (E s) in
/-- The routine at `f` is entered for the system call of `s`. -/
structure Called (f : UInt32) (c : Cpu) : Prop where
  eip : c.eip = f
  arguments : Stacked c.mem (c.esp + 4) (callArguments s)
  esp : c.esp = E.esp0 s.mem - 92
  ss : c.ss = E.ss0 s.mem
  cs : c.cs = kernelCs
  /-- IF is clear. -/
  masked : c.interrupts = false
  mem : SameBut (E.esp0 s.mem - 92) callRoom s.mem c.mem

theorem AtSystemCall.entryEsp (hs : AtSystemCall E s next) : E.entryEsp s = E.esp0 s.mem :=
  if_neg hs.cpl_ne

theorem AtSystemCall.entrySs (hs : AtSystemCall E s next) : E.entrySs s = E.ss0 s.mem :=
  if_neg hs.cpl_ne

theorem AtSystemCall.sameBut (hs : AtSystemCall E s next) (m : UInt32) {ws : List UInt32}
    (hws : ws.length ≤ 23) :
    SameBut (E.esp0 s.mem - 92) callRoom s.mem (E.inside 0x80 s m ws).mem := by
  have hsame := sameBut_inside (E := E) (k := 92) 0x80 s m ws (by omega) (by decide)
  rw [hs.entryEsp] at hsame
  exact hsame

/-- The handler gives the registers back, with the stack as it was after the pushes. -/
theorem runs_restored (K : HandlerCode E) (hs : AtSystemCall E s next) (m : UInt32)
    (hmem : r.mem = (E.inside 0x80 s m (handlerStack s next)).mem)
    (hesp : r.esp = (E.inside 0x80 s m (handlerStack s next)).esp)
    (heip : r.eip = K.restore) (hcs : r.cpl = 0) :
    E.Runs r { s with eax := r.eax, eip := next, mem := r.mem } := by
  have hlength := handlerStack_length s next
  have hstack := stacked_inside (E := E) 0x80 s m (handlerStack s next) (by omega)
  rw [← hmem, ← hesp, handlerStack, List.append_assoc, stacked_append] at hstack
  exact runs_restore K hs heip hcs hstack.2

/-- The number of the system call is compared with 1 and 10. -/
theorem runs_comparisons (hs : AtSystemCall E s next) : ∃ m after last,
    E.code m = some (.callTable K.jumpTable .eax, after) ∧
    E.code after = some (.jmp K.restore, last) ∧
    ∃ c : Cpu, E.Runs s c ∧ c.interrupts = false ∧
      c = (E.inside 0x80 s (if 1 ≤ s.eax.toNat ∧ s.eax.toNat ≤ 10 then m else K.invalid)
        (handlerStack s next)).setFlags c.eflags := by
  obtain ⟨m, ⟨m₁, hcmp₁, m₂, hjl, m₃, hcmp₂, m₄, hjg, m₅, hcall, m₆, hjmp, -⟩, hpushes⟩ :=
    runs_pushes K hs
  -- the state at an address after each of the comparisons
  let low (a : UInt32) := (E.inside 0x80 s a (handlerStack s next)).status (.sub s.eax 1)
  let high (a : UInt32) := (low a).status (.sub s.eax 10)
  have hlowGoto (a b : UInt32) : (low a).goto b = low b := by
    rw [← Cpu.status_goto, inside_goto]
  have hhighGoto (a b : UInt32) : (high a).goto b = high b := by
    rw [← Cpu.status_goto, hlowGoto]
  have hless (a : UInt32) : (low a).less = decide (s.eax.toInt32 < 1) := by
    rw [Cpu.less_status, Status.less_sub, show (1 : UInt32).toInt32 = 1 by decide]
  have hgreater (a : UInt32) : (!(high a).zero && !(high a).less) = decide (10 < s.eax.toInt32) := by
    rw [Cpu.less_status, Cpu.zero_status, Status.less_sub, Status.zf_sub, Status.greater,
      show (10 : UInt32).toInt32 = 10 by decide]
  have hlow : E.Runs s (low (if s.eax.toInt32 < 1 then K.invalid else m₂)) := by
    have hcmp : E.Runs (E.inside 0x80 s m (handlerStack s next)) (low m₁) :=
      runs_instr (s := E.inside 0x80 s m (handlerStack s next)) hcmp₁
    have hjump := runs_instr (s := low m₁) hjl
    rw [E.exec_jl, hless, hlowGoto] at hjump
    simp only [decide_eq_true_eq] at hjump
    exact (hpushes.trans hcmp).trans hjump
  have hhigh : E.Runs (low m₂) (high (if 10 < s.eax.toInt32 then K.invalid else m₄)) := by
    have hcmp := runs_instr (s := low m₂) hcmp₂
    rw [E.exec_cmpImm, hlowGoto] at hcmp
    have hjump := runs_instr (s := high m₃) hjg
    rw [E.exec_jg, hgreater, hhighGoto] at hjump
    simp only [decide_eq_true_eq] at hjump
    exact hcmp.trans hjump
  have hmasked (a : UInt32) : (E.inside 0x80 s a (handlerStack s next)).interrupts = false :=
    interrupts_inside (by rw [K.gate]) s a _
  have hlowMasked (a : UInt32) : (low a).interrupts = false := by
    rw [Cpu.interrupts_status, hmasked]
  have hhighMasked (a : UInt32) : (high a).interrupts = false := by
    rw [Cpu.interrupts_status, hlowMasked]
  have hvalid := number_bounds s.eax
  refine ⟨m₄, m₅, m₆, hcall, hjmp, ?_⟩
  by_cases hone : s.eax.toInt32 < 1
  · rw [if_pos hone] at hlow
    refine ⟨_, hlow, hlowMasked _, ?_⟩
    rw [if_neg fun h => (hvalid.2 h).1 hone]
    rfl
  rw [if_neg hone] at hlow
  by_cases hten : 10 < s.eax.toInt32
  · rw [if_pos hten] at hhigh
    refine ⟨_, hlow.trans hhigh, hhighMasked _, ?_⟩
    rw [if_neg fun h => (hvalid.2 h).2 hten]
    rfl
  · rw [if_neg hten] at hhigh
    refine ⟨_, hlow.trans hhigh, hhighMasked _, ?_⟩
    rw [if_pos (hvalid.1 ⟨hone, hten⟩)]
    rfl

/-- A number that is not one of a system call. -/
theorem runs_invalid (K : HandlerCode E) (hs : AtSystemCall E s next)
    (hn : ¬(1 ≤ s.eax.toNat ∧ s.eax.toNat ≤ 10)) :
    ∃ mem', SameBut (E.esp0 s.mem - 92) callRoom s.mem mem' ∧
      E.Runs s { s with eax := 0xFFFFFFFF, eip := next, mem := mem' } := by
  obtain ⟨m, after, last, -, -, c, hrun, -, hc⟩ := runs_comparisons K hs
  rw [if_neg hn] at hc
  have hmov := runs_code (s := c) K.invalid_code rfl (by rw [hc]; rfl)
  have hrest := runs_restored (r := (c.after invalidCall).goto K.restore) K hs K.invalid
    (by rw [hc]; rfl) (by rw [hc]; rfl) rfl
    (by rw [hc]; exact cpl_inside 0x80 s K.restore (handlerStack s next))
  refine ⟨c.mem, ?_, (hrun.trans hmov).trans hrest⟩
  rw [hc]
  exact hs.sameBut K.invalid (Nat.le_succ_of_le (handlerStack_length s next))

/-- The routine of a system call is called. -/
theorem runs_call (hs : AtSystemCall E s next) (hlow : 1 ≤ s.eax.toNat) {f : UInt32}
    (hf : K.calls.jumpTable[s.eax.toNat]? = some f)
    (htable : Stacked s.mem K.jumpTable K.calls.jumpTable)
    (hapart : Apart K.jumpTable 44 (E.esp0 s.mem - 92) callRoom) :
    ∃ c, E.Runs s c ∧ Called E s f c ∧
      ∀ c', Returned 6 64 c c' → E.Runs c' { s with eax := c'.eax, eip := next, mem := c'.mem } := by
  obtain ⟨m, after, last, hcall, hjmp, c, hrun, hmasked, hc⟩ := runs_comparisons K hs
  have hten : s.eax.toNat ≤ 10 := Nat.le_of_lt_succ (List.getElem?_eq_some_iff.1 hf).1
  rw [if_pos ⟨hlow, hten⟩] at hc
  have hentry := runs_instr (s := c) (by rw [hc]; exact hcall)
  have hword : loadWord c.mem (K.jumpTable + 4 * c.get .eax) = f := by
    have hsame : Stacked c.mem K.jumpTable K.calls.jumpTable := by
      rw [hc]
      have hkept := hs.sameBut m (Nat.le_succ_of_le (handlerStack_length s next))
      exact htable.sameBut (show 44 ≤ 4294967296 by decide) hkept hapart
    have hget := hsame.get hf
    rw [UInt32.ofNat_toNat] at hget
    rw [hc]
    rw [hc] at hget
    exact hget
  rw [E.exec_callTable, hword] at hentry
  generalize hd : (c.push after).goto f = d at hentry
  have hstate : d = (E.inside 0x80 s f (after :: handlerStack s next)).setFlags c.eflags := by
    rw [← inside_goto 0x80 s m, ← inside_push, ← hd]
    nth_rewrite 1 [hc]
    rfl
  have hlength : (after :: handlerStack s next).length = 23 := by
    rw [handlerStack, returnFrame, if_neg hs.cpl_ne]
    rfl
  have hstack := stacked_inside (E := E) 0x80 s f (after :: handlerStack s next)
    (by rw [hlength]; decide)
  have hparts : after :: handlerStack s next
      = [after] ++ callArguments s ++ (savedRegisters s (handlerFlags s) ++ returnFrame s next) := by
    rw [List.append_assoc, ← List.append_assoc (callArguments s)]
    rfl
  rw [hparts, stacked_append, stacked_append, ← hparts] at hstack
  obtain ⟨⟨⟨htop, -⟩, hargs⟩, hsaved⟩ := hstack
  have hmem : d.mem = (E.inside 0x80 s f (after :: handlerStack s next)).mem := by
    rw [hstate]
    rfl
  have hesp : d.esp = (E.inside 0x80 s f (after :: handlerStack s next)).esp := by
    rw [hstate]
    rfl
  have hcs : d.cs = kernelCs := by
    rw [hstate]
    have hselector : (E.gate 0x80).selector &&& 0xFFFC = kernelCs := by
      rw [K.gate]
      exact show kernelCs &&& 0xFFFC = kernelCs by decide
    exact hselector
  rw [← hmem, ← hesp] at htop hargs hsaved
  refine ⟨d, hrun.trans hentry, ⟨?_, hargs, ?_, ?_, hcs, ?_, ?_⟩, fun c' hret => ?_⟩
  · rw [hstate]
    rfl
  · rw [hesp, Env.inside, hlength, hs.entryEsp]
    rfl
  · rw [hstate, ← hs.entrySs]
    rfl
  · rw [← hd, ← hmasked]
    rfl
  · rw [hmem]
    exact hs.sameBut f hlength.le
  · have hback := runs_instr (s := c') (by rw [hret.eip, Cpu.top, htop]; exact hjmp)
    rw [E.exec_jmp] at hback
    have hframe := returnFrame_length s next
    have hlevel : (c'.goto K.restore).cpl = 0 := by
      rw [show (c'.goto K.restore).cpl = c'.cs &&& 3 from rfl, hret.cs, hcs]
      decide
    exact hback.trans (runs_restore (r := c'.goto K.restore) K hs rfl hlevel
      (hret.stacked (by rw [List.length_append]; simp [savedRegisters]; omega) (by decide) hsaved))

/-- **A system call** with a number from 1 to 10 reaches the routine of its number, with the
program's registers as arguments and interrupts off; when the routine returns, the program
goes on behind its instruction with every register, segment and flag as it was, but for the
result.  Any other number gives -1, and nothing but the words on the kernel stack changes. -/
theorem system_call_returns (K : HandlerCode E) (hs : AtSystemCall E s next)
    (htable : Stacked s.mem K.jumpTable K.calls.jumpTable)
    (hapart : Apart K.jumpTable 44 (E.esp0 s.mem - 92) callRoom) :
    (¬(1 ≤ s.eax.toNat ∧ s.eax.toNat ≤ 10) →
      ∃ mem', SameBut (E.esp0 s.mem - 92) callRoom s.mem mem' ∧
        E.Runs s { s with eax := 0xFFFFFFFF, eip := next, mem := mem' }) ∧
    ∀ f, 1 ≤ s.eax.toNat → K.calls.jumpTable[s.eax.toNat]? = some f →
      ∃ c, E.Runs s c ∧ Called E s f c ∧
        ∀ c', Returned 6 64 c c' → E.Runs c' { s with eax := c'.eax, eip := next, mem := c'.mem } := by
  constructor
  · intro hn
    exact runs_invalid K hs hn
  · intro f hlow hf
    exact runs_call K hs hlow hf htable hapart

/-- A `read` that returns 7. -/
theorem system_call_returns_read : ∃ mem',
    sampleKernel.Runs (sampleUser 0x102A 3 [])
      { sampleUser 0x102A 3 [] with eax := 7, eip := 0x102B, mem := mem' } := by
  have hentry : AtSystemCall sampleKernel (sampleUser 0x102A 3 []) 0x102B :=
    ⟨by decide +kernel, by decide, ⟨by decide, by decide, by decide, by decide⟩⟩
  have hcall := system_call_returns sampleHandler hentry (by decide +kernel)
    (apart_of_le (by decide +kernel) (by decide +kernel))
  obtain ⟨c, hrun, hc, hret⟩ := hcall.2 0x2003 (by decide) (by decide)
  have hroutine := runs_returnSeven hc.eip (by decide)
  exact ⟨c.mem, (hrun.trans hroutine).trans (hret _ (returned_returnSeven 6 64 c))⟩

end SystemCall


/-! ## The wrappers of user programs -/

section Wrapper

variable {E : Env} {s : Cpu} {w m stop number ret a b c f : UInt32}

/-- The state in which a wrapper called with `a`, `b` and `c` makes its system call. -/
def wrapped (s : Cpu) (m number a b c : UInt32) : Cpu :=
  { s with
    eax := number
    ebx := a
    ecx := b
    edx := c
    esp := s.esp - 4
    eip := m
    mem := storeWord (s.esp - 4) s.ebx s.mem }

/-- A wrapper up to its system call. -/
theorem runs_wrapper (hcode : E.Code w (doCall number) stop) (heip : s.eip = w)
    (hstack : Stacked s.mem s.esp [ret, a, b, c]) : ∃ m next last,
    E.code m = some (.int 0x80, next) ∧ E.Code next [.pop .ebx] last ∧
    E.code last = some (.ret, stop) ∧ E.Runs s (wrapped s m number a b c) := by
  obtain ⟨m, hfront, next, hint, hback⟩ := code_append.1
    (show E.Code w ([.push .ebx, .movImm number .eax, .load 8 .esp .ebx, .load 12 .esp .ecx,
      .load 16 .esp .edx] ++ [.int 0x80, .pop .ebx, .ret]) stop from hcode)
  obtain ⟨last, hpop, stop', hret, rfl⟩ := hback
  refine ⟨m, next, last, hint, ⟨last, hpop, rfl⟩, hret, ?_⟩
  have hrun := runs_code hfront rfl heip
  have hwords := Stacked.pushed [s.ebx] [ret, a, b, c] (by simp) hstack
  rw [show UInt32.ofNat (4 * [s.ebx].length) = 4 from rfl] at hwords
  obtain ⟨-, -, h8, h12, h16, -⟩ := hwords
  simp only [UInt32.add_assoc, UInt32.reduceAdd] at h8 h12 h16
  have hstate : s.after [.push .ebx, .movImm number .eax, .load 8 .esp .ebx, .load 12 .esp .ecx,
      .load 16 .esp .edx] = (wrapped s s.eip number a b c) := by
    rw [wrapped, ← h8, ← h12, ← h16]
    rfl
  rw [hstate] at hrun
  exact hrun

/-- **A C call of a wrapper** reaches the routine of its number with the arguments of the
call; when the routine returns and has left the stack of the program alone, the call returns
its result, with the callee-saved registers, the segments and the flags as they were. -/
theorem call_wrapper_returns (K : HandlerCode E) (hcode : E.Code w (doCall number) stop)
    (heip : s.eip = w) (hlevel : s.cpl = 3) (hsegments : OwnSegments E s)
    (hstack : Stacked s.mem s.esp [ret, a, b, c]) (hlow : 1 ≤ number.toNat)
    (hf : K.calls.jumpTable[number.toNat]? = some f)
    (htable : Stacked (storeWord (s.esp - 4) s.ebx s.mem) K.jumpTable K.calls.jumpTable)
    (hapart : Apart K.jumpTable 44 (E.esp0 (storeWord (s.esp - 4) s.ebx s.mem) - 92) callRoom)
    (happ : Apart (s.esp - 4) 8 (E.esp0 (storeWord (s.esp - 4) s.ebx s.mem) - 92) callRoom) :
    ∃ m d, E.Runs s d ∧ Called E (wrapped s m number a b c) f d ∧
      ∀ d', Returned 6 64 d d' → (∀ x, (x - (s.esp - 4)).toNat < 8 → d'.mem x = d.mem x) →
        E.Runs d' { s with
          eax := d'.eax
          ecx := b
          edx := c
          eip := ret
          esp := s.esp + 4
          mem := d'.mem } := by
  obtain ⟨m, next, last, hint, hpop, hret, hrun⟩ := runs_wrapper hcode heip hstack
  have hs : AtSystemCall E (wrapped s m number a b c) next :=
    ⟨hint, hlevel, hsegments.es, hsegments.ds, hsegments.fs, hsegments.gs⟩
  obtain ⟨d, hcall, hd, hback⟩ := runs_call K hs hlow hf htable hapart
  refine ⟨m, d, hrun.trans hcall, hd, fun d' hreturn hkept => ?_⟩
  have hwords : Stacked d'.mem (s.esp - 4) [s.ebx, ret] := by
    have hpushed := Stacked.pushed [s.ebx] [ret] (by simp) ⟨hstack.1, trivial⟩
    have hentered : Stacked d.mem (s.esp - 4) [s.ebx, ret] :=
      hpushed.sameBut (by simp) hd.mem happ
    exact hentered.congr (by simp) hkept
  obtain ⟨hebx, hadr, -⟩ := hwords
  rw [UInt32.sub_add_cancel] at hadr
  have htail := runs_code (s := { wrapped s m number a b c with
    eax := d'.eax
    eip := next
    mem := d'.mem }) hpop rfl rfl
  have hpopped : ({ wrapped s m number a b c with
      eax := d'.eax
      eip := next
      mem := d'.mem } : Cpu).after [.pop .ebx] = { s with
      eax := d'.eax
      ecx := b
      edx := c
      eip := next
      mem := d'.mem } := by
    rw [← hebx]
    simp only [Cpu.after, wrapped, List.foldl, Instr.effect, Cpu.set, Cpu.drop, Cpu.top,
      UInt32.sub_add_cancel]
  have hleave := runs_instr (s := ({ s with
      eax := d'.eax
      ecx := b
      edx := c
      eip := next
      mem := d'.mem } : Cpu).goto last) hret
  rw [hpopped] at htail
  refine (hback d' hreturn).trans (htail.trans ?_)
  rw [E.exec_ret] at hleave
  simp only [Cpu.goto, Cpu.drop, Cpu.top, hadr] at hleave
  exact hleave

/-- `ece391_read(1, 2, 3)`, which returns 7. -/
theorem call_wrapper_returns_read : ∃ mem',
    sampleKernel.Runs (sampleUser 0x1025 0 [0x9999, 1, 2, 3])
      { sampleUser 0x1025 0 [0x9999, 1, 2, 3] with
        eax := 7
        ecx := 2
        edx := 3
        eip := 0x9999
        esp := 0x6004
        mem := mem' } := by
  have hcode : sampleKernel.Code 0x1025 (doCall 3) 0x102D := by decide +kernel
  have hstack : Stacked (sampleMemory [0x9999, 1, 2, 3]) 0x6000 [0x9999, 1, 2, 3] := by
    decide +kernel
  have hf : sampleCalls.jumpTable[(3 : UInt32).toNat]? = some 0x2003 := by decide
  obtain ⟨m, d, hrun, hd, hret⟩ := call_wrapper_returns
    (s := sampleUser 0x1025 0 [0x9999, 1, 2, 3]) sampleHandler hcode rfl (by decide)
    ⟨by decide, by decide, by decide, by decide⟩ hstack (by decide) hf (by decide +kernel)
    (apart_of_le (by decide +kernel) (by decide +kernel))
    (apart_of_le (by decide +kernel) (by decide +kernel))
  have hroutine := runs_returnSeven hd.eip (by decide)
  exact ⟨d.mem, (hrun.trans hroutine).trans
    (hret _ (returned_returnSeven 6 64 d) fun _ _ => rfl)⟩

end Wrapper

end CheetOS
