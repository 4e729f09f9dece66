import CheetOS.Effects

/-!
# The chain of processes

The programs started and not yet halted form a chain, each started by the one
before it.  The kernel keeps the chain in four places: `pid_array`, the parent
fields of the process control blocks, the directory entry of the user page and
the stack pointer of the TSS.

* `Chain` and `Nested` are the invariant that ties them together;
* `nested_step`, `nested_reachable` say that it holds in every state;
* `processTable_invariant` draws the conclusions for the process table, with the
  memory the processes own.
-/

namespace CheetOS

/-! ## Process numbers -/

theorem pid_cases {p : UInt32} (h : p < numMaxProcesses) :
    p = 0 ∨ p = 1 ∨ p = 2 ∨ p = 3 ∨ p = 4 ∨ p = 5 := by
  simp only [UInt32.lt_iff_toNat_lt, ← UInt32.toNat_inj] at h ⊢
  simp only [numMaxProcesses, UInt32.reduceToNat] at h ⊢
  omega

theorem toNat_pcbAddr {p : UInt32} (h : p < numMaxProcesses) :
    (pcbAddr p).toNat = 0x7FC000 - p.toNat * 0x2000 := by
  rcases pid_cases h with rfl | rfl | rfl | rfl | rfl | rfl <;> decide

theorem toNat_kernelStack {p : UInt32} (h : p < numMaxProcesses) :
    (kernelStack p).toNat = (pcbAddr p).toNat + 0x1FFC := by
  rcases pid_cases h with rfl | rfl | rfl | rfl | rfl | rfl <;> decide

theorem toNat_userPage {p : UInt32} (h : p < numMaxProcesses) :
    (userPage p).toNat = 0x800000 + p.toNat * 0x400000 := by
  rcases pid_cases h with rfl | rfl | rfl | rfl | rfl | rfl <;> decide

theorem toNat_lt_six {p : UInt32} (h : p < numMaxProcesses) : p.toNat < 6 :=
  UInt32.lt_iff_toNat_lt.1 h

theorem pcbAddr_ne {p q : UInt32} (hp : p < numMaxProcesses) (hq : q < numMaxProcesses)
    (hne : p ≠ q) : pcbAddr p ≠ pcbAddr q := by
  intro heq
  have h := congrArg UInt32.toNat heq
  rw [toNat_pcbAddr hp, toNat_pcbAddr hq] at h
  have h1 := toNat_lt_six hp
  have h2 := toNat_lt_six hq
  exact hne (UInt32.toNat_inj.1 (by omega))

/-- The process control block that a system call finds from its stack pointer is
the one of the process whose kernel stack it runs on. -/
theorem kernelStack_mask {p depth : UInt32} (hp : p < numMaxProcesses) (h0 : 0 < depth)
    (hroom : depth ≤ stackRoom) : (kernelStack p - depth) &&& ~~~0x1FFF = pcbAddr p := by
  have hstack := toNat_kernelStack hp
  have h1 : depth.toNat ≤ 0x1ED8 := UInt32.le_iff_toNat_le.1 hroom
  have h2 : 0 < depth.toNat := UInt32.lt_iff_toNat_lt.1 h0
  have hsub : (kernelStack p - depth).toNat = (kernelStack p).toNat - depth.toNat :=
    UInt32.toNat_sub_of_le _ _ (UInt32.le_iff_toNat_le.2 (by omega))
  refine Paging.and_not_of_lt (k := 13) rfl ?_ ?_ ?_
  · rcases pid_cases hp with rfl | rfl | rfl | rfl | rfl | rfl <;> decide
  · omega
  · omega

/-! ## The invariant -/

/-- The process number `execute` and `halt` leave in `curr_process`. -/
def runningPid : List Frame → UInt32
  | [] => 0
  | f :: _ => f.pid

namespace Platform

variable (P : Platform)

/-- The waiting calls of `execute` and the tables agree: every process number up
to that of a live process is taken, and its control block names the frame its
`halt` goes back to. -/
inductive Chain (t : Tables) : List Frame → Prop
  | nil : Chain t []
  | cons {f : Frame} {fs : List Frame} (bound : f.pid < numMaxProcesses)
      (active : ∀ i ≤ f.pid, t.pidArray i = progActive)
      (above : ∀ g ∈ fs, g.pid < f.pid)
      (parent : (t.pcb (pcbAddr f.pid)).parentNum = runningPid fs)
      (esp : (t.pcb (pcbAddr f.pid)).parentEsp = f.esp)
      (ebp : (t.pcb (pcbAddr f.pid)).parentEbp = f.ebp)
      (ret : (t.pcb (pcbAddr f.pid)).execRetAddr = P.endOfExecute)
      (rest : Chain t fs) : Chain t (f :: fs)

/-- The process table, the directory entry of the user page and the TSS all belong
to the innermost process of a chain. -/
structure Nested (t : Tables) (fs : List Frame) : Prop where
  bits : ∀ i < numMaxProcesses, t.pidArray i = progNotActive ∨ t.pidArray i = progActive
  chain : P.Chain t fs
  current : t.currProcess = runningPid fs
  page : fs ≠ [] → t.pageDirectory 32 = userEntry (runningPid fs)
  stack : fs ≠ [] → t.esp0 = kernelStack (runningPid fs)

variable {P}

theorem Chain.bound_of_mem {t : Tables} {fs : List Frame} (h : P.Chain t fs) :
    ∀ f ∈ fs, f.pid < numMaxProcesses := by
  induction h with
  | nil => intro f hf; cases hf
  | cons bound _ _ _ _ _ _ _ ih =>
    intro f hf
    rcases List.mem_cons.1 hf with rfl | hf
    · exact bound
    · exact ih f hf

theorem Chain.active_of_mem {t : Tables} {fs : List Frame} (h : P.Chain t fs) :
    ∀ f ∈ fs, ∀ i ≤ f.pid, t.pidArray i = progActive := by
  induction h with
  | nil => intro f hf; cases hf
  | cons _ active _ _ _ _ _ _ ih =>
    intro f hf
    rcases List.mem_cons.1 hf with rfl | hf
    · exact active
    · exact ih f hf

/-- A chain only depends on the process numbers up to its own and on the parent
fields of its own control blocks. -/
theorem Chain.transfer {t t' : Tables} {fs : List Frame} (h : P.Chain t fs)
    (hactive : ∀ f ∈ fs, ∀ i ≤ f.pid, t'.pidArray i = progActive)
    (hpcb : ∀ f ∈ fs, ∃ files,
      t'.pcb (pcbAddr f.pid) = { t.pcb (pcbAddr f.pid) with fileArray := files }) :
    P.Chain t' fs := by
  induction h with
  | nil => exact Chain.nil
  | @cons f fs bound _ above parent esp ebp ret _ ih =>
    obtain ⟨files, hf⟩ := hpcb f List.mem_cons_self
    refine Chain.cons bound (hactive f List.mem_cons_self) above ?_ ?_ ?_ ?_ (ih ?_ ?_)
    · rw [hf]
      exact parent
    · rw [hf]
      exact esp
    · rw [hf]
      exact ebp
    · rw [hf]
      exact ret
    · intro g hg
      exact hactive g (List.mem_cons_of_mem f hg)
    · intro g hg
      exact hpcb g (List.mem_cons_of_mem f hg)

/-- The current process has one of the six numbers. -/
theorem Nested.running_bound {t : Tables} {fs : List Frame} (h : P.Nested t fs) :
    t.currProcess < numMaxProcesses := by
  rw [h.current]
  cases hfs : fs with
  | nil => decide
  | cons f gs => exact h.chain.bound_of_mem f (hfs ▸ List.mem_cons_self)

/-- The user page is that of the current process. -/
theorem Nested.userPage {t : Tables} {fs : List Frame} (h : P.Nested t fs) (hlive : fs ≠ []) :
    t.pageDirectory 32 = userEntry t.currProcess := by
  rw [h.page hlive, h.current]

/-- Where the stack pointer stands when the kernel is entered does not matter. -/
theorem Nested.enter {m : Machine} (h : P.Nested m.kernel.toTables m.frames) (regs : Regs) :
    P.Nested (m.enter regs).toTables m.frames where
  bits := h.bits
  chain := h.chain.transfer h.chain.active_of_mem fun _ _ => ⟨_, rfl⟩
  current := h.current
  page := h.page
  stack := h.stack

/-- A system call finds the process control block of the running process. -/
theorem Nested.currentPcb {m : Machine} (h : P.Nested m.kernel.toTables m.frames)
    (hfs : m.frames ≠ []) {regs : Regs} (h0 : 0 < regs.depth) (hroom : regs.depth ≤ stackRoom) :
    currentPcbAddr (m.enter regs).toTables = pcbAddr m.kernel.currProcess := by
  show (m.stackTop - regs.depth) &&& ~~~0x1FFF = _
  unfold Machine.stackTop
  rw [if_neg hfs, h.stack hfs, ← h.current]
  exact kernelStack_mask h.running_bound h0 hroom

/-! ## Its preservation -/

/-- A descriptor does not matter. -/
theorem Nested.setFile {t : Tables} {fs : List Frame} (h : P.Nested t fs)
    (i : Fin numMaxOpenFiles) (f : FileDesc) : P.Nested (t.setFile i f) fs where
  bits := h.bits
  chain := h.chain.transfer h.chain.active_of_mem fun _ _ => t.pcb_setFile i f _
  current := h.current
  page := h.page
  stack := h.stack

/-- The process number `execute` takes is free, and above every live one. -/
theorem Nested.lt_free {t : Tables} {fs : List Frame} (h : P.Nested t fs) {i : UInt32}
    (free : firstInactive t.pidArray = some i) : ∀ f ∈ fs, f.pid < i := by
  intro f hf
  have hinactive : t.pidArray i = progNotActive := (firstInactive_eq_some free).2.1
  by_contra hle
  have hactive := h.chain.active_of_mem f hf i (UInt32.not_lt.1 hle)
  rw [hinactive] at hactive
  exact absurd hactive (by decide)

/-- It is above that of the running program. -/
theorem Nested.running_lt_free {t : Tables} {fs : List Frame} (h : P.Nested t fs) (hlive : fs ≠ [])
    {i : UInt32} (free : firstInactive t.pidArray = some i) : runningPid fs < i := by
  cases fs with
  | nil => exact absurd rfl hlive
  | cons f fs => exact h.lt_free free f List.mem_cons_self

theorem bits_update {pidArray : UInt32 → UInt8} {i : UInt32} {b : UInt8}
    (hb : b = progNotActive ∨ b = progActive)
    (h : ∀ j < numMaxProcesses, pidArray j = progNotActive ∨ pidArray j = progActive) :
    ∀ j < numMaxProcesses, Function.update pidArray i b j = progNotActive
      ∨ Function.update pidArray i b j = progActive := by
  intro j hj
  by_cases hji : j = i
  · subst hji
    simpa using hb
  · simpa [Function.update_of_ne hji] using h j hj

/-- A load that fails leaves the chain as it is. -/
theorem Nested.leak {t : Tables} {fs : List Frame} (h : P.Nested t fs) {i : UInt32}
    (free : firstInactive t.pidArray = some i) : P.Nested (t.leak i) fs := by
  rw [t.leak_eq]
  refine ⟨bits_update (Or.inr rfl) h.bits, ?_, h.current, fun _ => ?_, h.stack⟩
  · refine h.chain.transfer (fun f hf j hj => ?_) fun f _ => ⟨_, rfl⟩
    have hji : j ≠ i := by
      rintro rfl
      exact absurd (h.lt_free free f hf) (UInt32.not_lt.2 hj)
    dsimp only
    rw [Function.update_of_ne hji]
    exact h.chain.active_of_mem f hf j hj
  · dsimp only
    rw [Function.update_self, h.current]

/-- A program that starts is the new end of the chain. -/
theorem Nested.start {t : Tables} {fs : List Frame} (h : P.Nested t fs) {i : UInt32}
    (free : firstInactive t.pidArray = some i) (arg : List UInt8) :
    P.Nested (P.startTables t i arg) (⟨t.esp, t.ebp, i⟩ :: fs) := by
  obtain ⟨hi, -, hbelow⟩ := firstInactive_eq_some free
  have hactive : ∀ j ≤ i, Function.update t.pidArray i progActive j = progActive := by
    intro j hj
    by_cases hji : j = i
    · subst hji
      exact Function.update_self ..
    · have hlt : j < i := UInt32.lt_of_le_of_ne hj hji
      rw [Function.update_of_ne hji]
      exact (h.bits j (UInt32.lt_trans hlt hi)).resolve_left (hbelow j hlt)
  rw [P.startTables_eq]
  refine ⟨bits_update (Or.inr rfl) h.bits, Chain.cons hi hactive (h.lt_free free) ?_ ?_ ?_ ?_ ?_,
    rfl, fun _ => ?_, fun _ => rfl⟩
  · dsimp only
    rw [Function.update_self]
    exact h.current
  · dsimp only
    rw [Function.update_self]
    rfl
  · dsimp only
    rw [Function.update_self]
    rfl
  · dsimp only
    rw [Function.update_self]
    rfl
  · refine h.chain.transfer (fun f hf j hj => ?_) fun f hf => ?_
    · exact hactive j (UInt32.le_trans hj (UInt32.le_of_lt (h.lt_free free f hf)))
    · have hne : pcbAddr f.pid ≠ pcbAddr i :=
        pcbAddr_ne (h.chain.bound_of_mem f hf) hi (UInt32.ne_of_lt (h.lt_free free f hf))
      refine ⟨(t.pcb (pcbAddr f.pid)).fileArray, ?_⟩
      dsimp only
      rw [Function.update_of_ne hne]
  · dsimp only
    rw [Function.update_self]
    rfl

/-- The frame `halt` goes back to is the innermost one. -/
theorem Nested.resume_eq {t : Tables} {f : Frame} {fs : List Frame} (h : P.Nested t (f :: fs)) :
    Machine.resume (f :: fs) (t.pcb (pcbAddr t.currProcess)).parentEsp
      (t.pcb (pcbAddr t.currProcess)).parentEbp = some fs := by
  have hcurr : t.currProcess = f.pid := h.current
  cases h.chain with
  | cons _ _ _ _ esp ebp =>
    rw [hcurr, esp, ebp]
    simp [Machine.resume]

theorem Nested.resumed {t : Tables} {fs fs' : List Frame} (h : P.Nested t fs) (running : fs ≠ [])
    (resumed : Machine.resume fs (t.pcb (pcbAddr t.currProcess)).parentEsp
      (t.pcb (pcbAddr t.currProcess)).parentEbp = some fs') : ∃ f, fs = f :: fs' := by
  obtain ⟨f, gs, rfl⟩ := List.exists_cons_of_ne_nil running
  rw [h.resume_eq] at resumed
  cases resumed
  exact ⟨f, rfl⟩

/-- `halt` takes the innermost process off the chain. -/
theorem Nested.halt {t : Tables} {f : Frame} {fs : List Frame} (h : P.Nested t (f :: fs))
    (esp ebp : UInt32) : P.Nested { t.halt with esp := esp, ebp := ebp } fs := by
  have hcurr : t.currProcess = f.pid := h.current
  cases h.chain with
  | cons bound active above parent _ _ _ rest =>
    have hparent : (t.pcb (pcbAddr t.currProcess)).parentNum = runningPid fs := by
      rw [hcurr, parent]
    rw [t.halt_eq]
    refine ⟨bits_update (Or.inl rfl) h.bits, ?_, hparent, fun _ => ?_, fun _ => ?_⟩
    · refine rest.transfer (fun g hg j hj => ?_) fun g _ => ⟨_, rfl⟩
      have hjc : j ≠ t.currProcess := by
        rw [hcurr]
        exact UInt32.ne_of_lt (UInt32.lt_of_le_of_lt hj (above g hg))
      dsimp only
      rw [Function.update_of_ne hjc]
      exact rest.active_of_mem g hg j hj
    · dsimp only
      rw [Function.update_self, hparent]
    · dsimp only
      rw [hparent]

/-- Every effect keeps the chain. -/
theorem Effect.nested {v : Prop} {t t' : Tables} {fs fs' : List Frame} (h : P.Effect v t fs t' fs')
    (hn : P.Nested t fs) : P.Nested t' fs' := by
  cases h with
  | same => exact hn
  | opened _ name idx d _ => exact hn.setFile idx _
  | closed _ fd _ _ => exact hn.setFile (slot fd) _
  | moved _ fd _ pos => exact hn.setFile (slot fd) _
  | video _ _ =>
    exact ⟨hn.bits, hn.chain.transfer hn.chain.active_of_mem fun _ _ => ⟨_, rfl⟩, hn.current,
      hn.page, hn.stack⟩
  | leaked i free => exact hn.leak free
  | started i free arg => exact hn.start free arg
  | halted running fs' ret resumed =>
    obtain ⟨f, rfl⟩ := hn.resumed running resumed
    exact hn.halt _ _

/-- An effect leaves the calls that wait, adds one, or takes the innermost one off. -/
theorem Effect.frames_cases {v : Prop} {t t' : Tables} {fs fs' : List Frame} (h : P.Effect v t fs t' fs')
    (hn : P.Nested t fs) : fs' = fs ∨ (∃ f, fs' = f :: fs) ∨ ∃ f, fs = f :: fs' := by
  cases h with
  | same | opened | closed | moved | video | leaked => exact Or.inl rfl
  | started i free arg => exact Or.inr (Or.inl ⟨_, rfl⟩)
  | halted running fs' ret resumed => exact Or.inr (Or.inr (hn.resumed running resumed))

/-- The only effect that adds a call is that of starting a program. -/
theorem Effect.push {v : Prop} {t t' : Tables} {fs fs' : List Frame} (h : P.Effect v t fs t' fs')
    (hn : P.Nested t fs) (hlen : fs'.length = fs.length + 1) :
    ∃ i arg, firstInactive t.pidArray = some i ∧ t' = P.startTables t i arg ∧
      fs' = ⟨t.esp, t.ebp, i⟩ :: fs := by
  rcases h.frames_cases hn with heq | ⟨f, heq⟩ | ⟨f, heq⟩
  · rw [heq] at hlen
    omega
  · cases h with
    | started i free arg => exact ⟨i, arg, free, rfl, rfl⟩
    | same | opened | closed | moved | video | leaked =>
      exact absurd heq (List.cons_ne_self f fs).symm
    | halted running _ ret resumed =>
      have hback := congrArg List.length heq
      obtain ⟨g, rfl⟩ := hn.resumed running resumed
      simp only [List.length_cons] at hback
      omega
  · rw [heq, List.length_cons] at hlen
    omega

/-- **One step keeps the chain.** -/
theorem nested_step {m m' : Machine} {e : Event} (hn : P.Nested m.kernel.toTables m.frames)
    (h : P.step m e = some m') : P.Nested m'.kernel.toTables m'.frames := by
  rcases P.step_effect h with ⟨-, hframes, htables⟩ | ⟨regs, -, -, heffect⟩
  · rw [hframes, htables]
    exact hn
  · exact heffect.nested (hn.enter regs)

/-- A step leaves the calls that wait, adds one, or takes the innermost one off. -/
theorem step_frames {m m' : Machine} {e : Event} (hn : P.Nested m.kernel.toTables m.frames)
    (h : P.step m e = some m') :
    m'.frames = m.frames ∨ (∃ f, m'.frames = f :: m.frames) ∨ ∃ f, m.frames = f :: m'.frames := by
  rcases P.step_effect h with ⟨-, hframes, -⟩ | ⟨regs, -, -, heffect⟩
  · exact Or.inl hframes
  · exact heffect.frames_cases (hn.enter regs)

theorem nested_boot {m : Machine} (h : P.Boot m) : P.Nested m.kernel.toTables m.frames := by
  rw [h.frames]
  refine ⟨fun i hi => Or.inl (h.pidArray i hi), Chain.nil, h.currProcess, ?_, ?_⟩
  · intro hne
    exact absurd rfl hne
  · intro hne
    exact absurd rfl hne

/-- The chain holds in every state. -/
theorem nested_reachable {m : Machine} (h : P.Reachable m) :
    P.Nested m.kernel.toTables m.frames := by
  obtain ⟨m₀, es, hboot, hrun⟩ := h
  exact Run.invariant_run (I := fun m => P.Nested m.kernel.toTables m.frames)
    (fun _ _ _ hn hs => nested_step hn hs) (nested_boot hboot) hrun

variable (P)

/-! ## What the processes own -/

/-- The 4 MB of physical memory of a process. -/
def pageBytes (pid : UInt32) : Set ℕ :=
  Set.Ico (userPage pid).toNat ((userPage pid).toNat + 0x400000)

/-- `sizeof(pcb_t)`. -/
abbrev sizeofPcb : ℕ := 292

/-- The process control block of a process. -/
def pcbBytes (pid : UInt32) : Set ℕ :=
  Set.Ico (pcbAddr pid).toNat ((pcbAddr pid).toNat + sizeofPcb)

/-- The kernel stack of a process, below the word at its top. -/
def stackBytes (pid : UInt32) : Set ℕ :=
  Set.Ico ((pcbAddr pid).toNat + sizeofPcb) (kernelStack pid).toNat

theorem disjoint_pageBytes {p q : UInt32} (hp : p < numMaxProcesses) (hq : q < numMaxProcesses)
    (hne : p ≠ q) : Disjoint (pageBytes p) (pageBytes q) := by
  have h1 : p.toNat ≠ q.toNat := fun h => hne (UInt32.toNat_inj.1 h)
  rw [Set.disjoint_left]
  rintro a ⟨hap, hap'⟩ ⟨haq, haq'⟩
  rw [toNat_userPage hp] at hap hap'
  rw [toNat_userPage hq] at haq haq'
  omega

theorem disjoint_kernelBytes {p q : UInt32} (hp : p < numMaxProcesses)
    (hq : q < numMaxProcesses) (hne : p ≠ q) :
    Disjoint (pcbBytes p ∪ stackBytes p) (pcbBytes q ∪ stackBytes q) := by
  have h1 : p.toNat ≠ q.toNat := fun h => hne (UInt32.toNat_inj.1 h)
  have h2 := toNat_lt_six hp
  have h3 := toNat_lt_six hq
  have hblock : ∀ {r : UInt32}, r < numMaxProcesses → ∀ a ∈ pcbBytes r ∪ stackBytes r,
      0x7FC000 - r.toNat * 0x2000 ≤ a ∧ a < 0x7FC000 - r.toNat * 0x2000 + 0x1FFC := by
    intro r hr a ha
    have hstack := toNat_kernelStack hr
    have hsize : sizeofPcb = 292 := rfl
    rw [toNat_pcbAddr hr] at hstack
    rcases ha with ⟨h, h'⟩ | ⟨h, h'⟩
    · rw [toNat_pcbAddr hr] at h h'
      omega
    · rw [toNat_pcbAddr hr] at h
      omega
  rw [Set.disjoint_left]
  intro a hap haq
  have hp' := hblock hp a hap
  have hq' := hblock hq a haq
  omega

/-! ## The process table -/

theorem Chain.pairwise {t : Tables} {fs : List Frame} (h : P.Chain t fs) :
    (fs.map Frame.pid).Pairwise fun child parent => parent < child := by
  induction h with
  | nil => exact List.Pairwise.nil
  | cons _ _ above _ _ _ _ _ ih =>
    refine List.Pairwise.cons ?_ ih
    intro p hp
    obtain ⟨g, hg, rfl⟩ := List.mem_map.1 hp
    exact above g hg

theorem Chain.parentNum {t : Tables} {fs : List Frame} (h : P.Chain t fs) :
    ∀ inner child parent outer, fs.map Frame.pid = inner ++ child :: parent :: outer →
      (t.pcb (pcbAddr child)).parentNum = parent := by
  induction h with
  | nil =>
    intro inner child parent outer heq
    cases inner <;> cases heq
  | @cons f fs _ _ _ parent' _ _ _ _ ih =>
    intro inner child parent outer heq
    cases inner with
    | nil =>
      obtain ⟨rfl, hrest⟩ := List.cons_eq_cons.1 heq
      rw [parent']
      cases fs with
      | nil => cases hrest
      | cons g gs => exact (List.cons_eq_cons.1 hrest).1
    | cons p inner => exact ih inner child parent outer (List.cons_eq_cons.1 heq).2

/-- **The process table.**  In every state, the programs started and not yet
halted have different process numbers, all of them active and each larger than
that of its parent; `curr_process`, the user page and the TSS are those of the
innermost one, and the parent numbers in the control blocks follow the chain.  So
no two of them share a page, a control block or a kernel stack. -/
theorem processTable_invariant {m : Machine} (h : P.Reachable m) :
    m.live.Nodup ∧
    m.live.Pairwise (fun child parent => parent < child) ∧
    (∀ pid ∈ m.live, pid < numMaxProcesses ∧ m.kernel.pidArray pid = progActive) ∧
    (∀ pid outer, m.live = pid :: outer →
      m.kernel.currProcess = pid ∧
      m.kernel.pageDirectory 32 = (0x800000 + pid * 0x400000) ||| 0x87 ∧
      m.kernel.esp0 = 0x800000 - (pid + 1) * 0x2000 - 4) ∧
    (∀ inner child parent outer, m.live = inner ++ child :: parent :: outer →
      (m.kernel.pcb (pcbAddr child)).parentNum = parent) ∧
    m.live.Pairwise (fun p q => Disjoint (pageBytes p) (pageBytes q) ∧
      Disjoint (pcbBytes p ∪ stackBytes p) (pcbBytes q ∪ stackBytes q)) := by
  have hn := nested_reachable h
  have hsorted := hn.chain.pairwise
  have hbound : ∀ pid ∈ m.live, pid < numMaxProcesses := by
    intro pid hpid
    obtain ⟨f, hf, rfl⟩ := List.mem_map.1 hpid
    exact hn.chain.bound_of_mem f hf
  refine ⟨?_, hsorted, ?_, ?_, hn.chain.parentNum, ?_⟩
  · exact hsorted.imp fun hlt => (UInt32.ne_of_lt hlt).symm
  · intro pid hpid
    refine ⟨hbound pid hpid, ?_⟩
    obtain ⟨f, hf, rfl⟩ := List.mem_map.1 hpid
    exact hn.chain.active_of_mem f hf f.pid (UInt32.le_refl _)
  · intro pid outer hlive
    obtain ⟨f, fs, hfs, rfl, -⟩ := List.map_eq_cons_iff.1 hlive
    have hrunning : runningPid m.frames = f.pid := by rw [hfs]; rfl
    have hne : m.frames ≠ [] := by rw [hfs]; exact List.cons_ne_nil f fs
    refine ⟨?_, ?_, ?_⟩
    · rw [hn.current, hrunning]
    · rw [hn.page hne, hrunning]
      rfl
    · rw [hn.stack hne, hrunning]
      rfl
  · refine (List.Pairwise.and_mem.1 hsorted).imp ?_
    rintro p q ⟨hp, hq, hlt⟩
    have hne : p ≠ q := (UInt32.ne_of_lt hlt).symm
    exact ⟨disjoint_pageBytes (hbound p hp) (hbound q hq) hne,
      disjoint_kernelBytes (hbound p hp) (hbound q hq) hne⟩

/-- Two programs run, the second one started by the first. -/
theorem processTable_invariant_twoPrograms :
    ∃ m, Run.run samplePlatform.step sampleBoot twoPrograms = some m ∧ m.live = [1, 0] ∧
      (m.kernel.pcb (pcbAddr 1)).parentNum = 0 := by
  have hlive : (Run.run samplePlatform.step sampleBoot twoPrograms).map Machine.live
      = some [1, 0] := by decide +kernel
  obtain ⟨m, hm, hpids⟩ := Option.map_eq_some_iff.1 hlive
  have hreach : samplePlatform.Reachable m := ⟨_, _, boot_bootMachine _ _, hm⟩
  have hall := samplePlatform.processTable_invariant hreach
  exact ⟨m, hm, hpids, hall.2.2.2.2.1 [] 1 0 [] hpids⟩

end Platform

end CheetOS
