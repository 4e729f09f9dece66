import CheetOS.WaitingMemory

/-!
# What execute does to its command

The command of `execute` is a `const` pointer, and `strtok` writes to it through a cast.

* `parse_mem` and `parse_cuts` — the tokenizer leaves the string alone if no space is behind
  its first word, and cuts it there if one is;
* `OwnString` is a string in the caller's memory, `Outcome` each way a call of `execute` can
  end: it fails, or the program it starts halts;
* `command_kept` — the caller finds its command as it was exactly if no space is behind the
  first word.
-/

namespace CheetOS

open Exec Words
open Platform (delim)

namespace Platform

variable {P : Platform}

/-! ## What the tokenizer writes -/

variable (P) in
/-- There is a space behind the first word. -/
def SpaceBehind (k : Kernel) (command : UInt32) : Prop :=
  ∃ n w, FirstToken (P.bytesAt k command) n w delim

/-- There are no arguments to join when the tokenizer is done. -/
theorem joinArgs_nothing {room : ℕ} {buffer buffer' : ℕ → UInt8} {k k' : Kernel} (hlast : k.last = 0)
    (h : P.joinArgs room buffer k = .ok buffer' k') : k' = k := by
  unfold joinArgs at h
  obtain ⟨token, k₁, hnext, hloop⟩ := bind_eq_ok.1 h
  obtain ⟨rfl, rfl⟩ := strtok_nothing hlast hnext
  have hdone : P.joinLoop room addressSpace 0 (Function.update buffer 0 0) 0 k₁
      = .ok (Function.update buffer 0 0) k₁ := by
    show P.joinLoop room (4294967295 + 1) 0 _ 0 k₁ = _
    rw [joinLoop, if_pos rfl]
    rfl
  rw [hdone] at hloop
  cases hloop
  rfl

/-- A command of one word is looked up without a change to memory, and then done with. -/
theorem findProgram_alone {command : UInt32} {k k' : Kernel} {found : Option Dentry}
    (hcommand : command ≠ 0) (hnone : ¬P.SpaceBehind k command)
    (h : P.findProgram command k = .ok found k') : k'.mem = k.mem ∧ k'.last = 0 := by
  obtain ⟨token, hstrtok, -⟩ := findProgram_ok h
  rcases strtok_ok (if_neg hcommand).symm hstrtok with ⟨h0, -, -⟩ | ⟨-, -, rfl, -⟩ |
    ⟨-, m, w, c, htoken, -, ⟨-, rfl⟩ | ⟨rfl, -⟩⟩
  · exact absurd h0 hcommand
  · exact ⟨rfl, rfl⟩
  · exact ⟨rfl, rfl⟩
  · exact absurd ⟨m, w, htoken⟩ hnone

/-- **A command of one word is not written to.** -/
theorem parse_mem {command : UInt32} {k k' : Kernel} {s : List UInt8}
    {parsed : Option (Dentry × (ℕ → UInt8))} (hspace : P.Space k.toTables)
    (hs : Holds (P.bytesAt k command) s) (hnone : ¬P.SpaceBehind k command)
    (h : P.parse command k = .ok parsed k') : k'.mem = k.mem := by
  have hcommand : command ≠ 0 := ne_zero_of_holds hspace hs
  rcases parse_cases h with ⟨-, found, hfind, -⟩ | ⟨d, buffer, k₁, -, hfind, -, hjoin⟩
  · exact (findProgram_alone hcommand hnone hfind).1
  · obtain ⟨hmem, hlast⟩ := findProgram_alone hcommand hnone hfind
    rw [joinArgs_nothing hlast hjoin, hmem]

/-- A byte that is zero. -/
def StaysZero (a : UInt32) (k k' : Kernel) : Prop := k.mem a = 0 → k'.mem a = 0

/-- `strtok` writes nothing but zeros. -/
theorem staysZero_strtok (P : Platform) (a s : UInt32) : Keeps (StaysZero a) (P.strtok s) := by
  intro k r k' h hzero
  rcases strtok_ok rfl h with ⟨-, -, rfl⟩ | ⟨-, -, rfl, -⟩ | ⟨-, m, w, c, -, -, hend⟩
  · exact hzero
  · exact hzero
  · rcases hend with ⟨-, rfl⟩ | ⟨-, a', -, -, rfl⟩
    · exact hzero
    · show Function.update k.mem a' 0 a = 0
      rw [Function.update_apply]
      split
      · rfl
      · exact hzero

/-- The look-up puts a zero over the space behind the first word. -/
theorem findProgram_cuts {command a : UInt32} {k k' : Kernel} {n : ℕ} {w : List UInt8}
    {found : Option Dentry} (hcommand : command ≠ 0)
    (hfirst : FirstToken (P.bytesAt k command) n w delim)
    (ha : P.translate k.toTables .supervisor .write (command + UInt32.ofNat (n + w.length)) = some a)
    (h : P.findProgram command k = .ok found k') : k'.mem a = 0 := by
  obtain ⟨token, hstrtok, -⟩ := findProgram_ok h
  rcases strtok_ok (if_neg hcommand).symm hstrtok with ⟨h0, -, -⟩ | ⟨-, -, -, m, hskip, hstop⟩ |
    ⟨-, m, w', c, htoken, -, hend⟩
  · exact absurd h0 hcommand
  · exact absurd hstop (hfirst.not_blank hskip)
  · obtain ⟨rfl, rfl, rfl⟩ := hfirst.inj htoken
    rcases hend with ⟨h0, -⟩ | ⟨-, a', htr, -, rfl⟩
    · exact absurd h0 (by decide)
    · rw [ha] at htr
      obtain rfl := Option.some.inj htr
      exact Function.update_self a 0 k.mem

/-- **A command is cut behind its first word**, if there is a space. -/
theorem parse_cuts {command a : UInt32} {k k' : Kernel} {n : ℕ} {w : List UInt8}
    {parsed : Option (Dentry × (ℕ → UInt8))} (hspace : P.Space k.toTables)
    (hfirst : FirstToken (P.bytesAt k command) n w delim)
    (ha : P.translate k.toTables .supervisor .write (command + UInt32.ofNat (n + w.length)) = some a)
    (h : P.parse command k = .ok parsed k') : k'.mem a = 0 := by
  have hcommand : command ≠ 0 := start_ne_zero hspace hfirst
  rcases parse_cases h with ⟨-, found, hfind, -⟩ | ⟨d, buffer, k₁, -, hfind, -, hjoin⟩
  · exact findProgram_cuts hcommand hfirst ha hfind
  · have hjoins := P.keeps_joinArgs (fun _ h => h) (fun _ _ _ hab hbc h => hbc (hab h))
      (staysZero_strtok P a) bufferSize
    exact hjoins _ hjoin (findProgram_cuts hcommand hfirst ha hfind)

/-- What `execute` does to the bytes that it does not load anything to. -/
theorem execute_buffer {command : UInt32} {k k' : Kernel} {r : ExecResult}
    (hspace : P.Space k.toTables) (hcursor : k.toScreen.InBounds)
    (h : P.execute command k = .ok r k') :
    ∃ parsed k₁, P.parse command k = .ok parsed k₁ ∧ ∀ a : UInt32, 0x400000 ≤ a.toNat →
      (∀ i, firstInactive k.pidArray = some i → a.toNat ∉ pageBytes i) → k'.mem a = k₁.mem a := by
  obtain ⟨parsed, k₁, hparse, hrest⟩ := execute_parsed h
  refine ⟨parsed, k₁, hparse, fun a ha hout => ?_⟩
  rcases hrest with ⟨-, -, rfl⟩ | ⟨d, buffer, -, hlaunch⟩
  · rfl
  · have htables : k₁.toTables = k.toTables := quiet_parse command hparse
    refine (launch_mem (htables ▸ hspace) (cursor_parse command hparse hcursor) hlaunch).2 a ha ?_
    rw [htables]
    exact hout

/-! ## The memory of the caller -/

variable (P) in
/-- The memory of the caller: for `entry` the kernel's page but what the kernel keeps its own
variables in, for a program its page. -/
def OwnAddress (fs : List Frame) (va : UInt32) : Prop :=
  if fs = [] then 0x400000 ≤ va ∧ va < 0x800000 ∧ P.kernelData va = false
  else 0x08000000 ≤ va ∧ va < 0x08400000

variable (P) in
/-- The first `n + 1` bytes at `command` are the caller's. -/
def OwnString (fs : List Frame) (command : UInt32) (n : ℕ) : Prop :=
  ∀ i ≤ n, P.OwnAddress fs (command + UInt32.ofNat i)

instance (fs : List Frame) (va : UInt32) : Decidable (P.OwnAddress fs va) :=
  inferInstanceAs (Decidable (if fs = [] then 0x400000 ≤ va ∧ va < 0x800000 ∧
    P.kernelData va = false else 0x08000000 ≤ va ∧ va < 0x08400000))

instance (fs : List Frame) (command : UInt32) (n : ℕ) : Decidable (P.OwnString fs command n) :=
  inferInstanceAs (Decidable (∀ i ≤ n, P.OwnAddress fs (command + UInt32.ofNat i)))

/-- Where the memory of the caller is. -/
def place (fs : List Frame) (va : UInt32) : UInt32 :=
  if fs = [] then va else userPage (runningPid fs) + (va - 0x08000000)

theorem translate_own {m : Machine} (hm : P.Reachable m) (regs : Regs) (w : Paging.Access)
    {va : UInt32} (h : P.OwnAddress m.frames va) :
    P.translate (m.enter regs).toTables .supervisor w va = some (place m.frames va) := by
  have hspace := space_enter hm regs
  unfold OwnAddress at h
  unfold place
  by_cases hfs : m.frames = []
  · rw [if_pos hfs] at h
    obtain ⟨v, hmapped⟩ := hspace.mapped
    rw [translate_kernel hmapped w h.1 h.2.1, if_pos hfs]
  · have hn := nested_reachable hm
    rw [if_neg hfs] at h
    have hpage : (m.enter regs).pageDirectory 32 = userEntry m.kernel.currProcess := hn.userPage hfs
    rw [translate_user_page hn.running_bound hpage .supervisor w h.1 h.2, if_neg hfs, hn.current]

/-- The kernel keeps nothing there. -/
theorem kernelData_place {m : Machine} (hm : P.Reachable m) {va : UInt32}
    (h : P.OwnAddress m.frames va) : P.kernelData (place m.frames va) = false := by
  unfold OwnAddress at h
  unfold place
  by_cases hfs : m.frames = []
  · rw [if_pos hfs] at h ⊢
    exact h.2.2
  · rw [if_neg hfs] at h ⊢
    have hn := nested_reachable hm
    exact kernelData_user_page (hn.current ▸ hn.running_bound) h.1 h.2

theorem load_own {m : Machine} (hm : P.Reachable m) (regs : Regs) {va : UInt32}
    (h : P.OwnAddress m.frames va) :
    P.load (m.enter regs) va = some (m.kernel.mem (place m.frames va)) :=
  load_eq_some.2 ⟨_, translate_own hm regs .read h, kernelData_place hm h, rfl⟩

theorem place_mem_page {fs : List Frame} (hbound : runningPid fs < numMaxProcesses)
    (hlive : fs ≠ []) {va : UInt32} (h : P.OwnAddress fs va) :
    (place fs va).toNat ∈ pageBytes (runningPid fs) := by
  unfold OwnAddress at h
  unfold place
  rw [if_neg hlive] at h ⊢
  have hhi := UInt32.lt_iff_toNat_lt.1 h.2
  simp only [UInt32.reduceToNat] at hhi
  show (userPage (runningPid fs) + (va - 0x08000000)).toNat ∈ Set.Ico _ _
  rw [toNat_user hbound h.1 h.2, Set.mem_Ico]
  omega

/-- The caller's memory is above the screen, and no process that is started gets it. -/
theorem place_apart {m : Machine} (hm : P.Reachable m) {va : UInt32} (h : P.OwnAddress m.frames va) :
    0x400000 ≤ (place m.frames va).toNat ∧
      ∀ i, firstInactive m.kernel.pidArray = some i → (place m.frames va).toNat ∉ pageBytes i := by
  by_cases hfs : m.frames = []
  · unfold OwnAddress at h
    rw [if_pos hfs] at h
    have hlo := UInt32.le_iff_toNat_le.1 h.1
    have hhi := UInt32.lt_iff_toNat_lt.1 h.2.1
    unfold place
    rw [if_pos hfs]
    refine ⟨hlo, fun i hi hin => ?_⟩
    have hge := pageBytes_ge (firstInactive_eq_some hi).1 hin
    simp only [UInt32.reduceToNat] at hhi
    omega
  · have hn := nested_reachable hm
    have hbound : runningPid m.frames < numMaxProcesses := hn.current ▸ hn.running_bound
    have hpage := place_mem_page hbound hfs h
    have hge := pageBytes_ge hbound hpage
    refine ⟨by omega, fun i hi hin => ?_⟩
    have hne := UInt32.ne_of_lt (hn.running_lt_free hfs hi)
    exact Set.disjoint_left.1 (disjoint_pageBytes hbound (firstInactive_eq_some hi).1 hne) hpage hin

/-! ## Coming back to the caller -/

variable (P) in
/-- The call of `execute` in the state `m` comes back in the state `m'`. -/
inductive Outcome (m : Machine) (command : UInt32) (regs : Regs) (n : ℕ) : Machine → Prop
  /-- It fails. -/
  | returned {m' : Machine} (exec : P.step m (.call (.execute command) regs) = some m')
      (frames : m'.frames = m.frames) : Outcome m command regs n m'
  /-- The program it starts halts.  In the kernel's page, which is not protected from the
  system calls that programs make, the string must not have been written to by one. -/
  | completed {m₁ m₂ m' : Machine} {es : List Event} {status : UInt8} {regs' : Regs}
      (exec : P.step m (.call (.execute command) regs) = some m₁)
      (started : m₁.frames.length = m.frames.length + 1)
      (run : Run.run P.step m₁ es = some m₂)
      (along : Run.Along P.step (fun s => m.frames.length < s.frames.length) m₁ es)
      (untouched : m.frames = [] → ∀ i ≤ n, m₂.kernel.mem (command + UInt32.ofNat i)
        = m₁.kernel.mem (command + UInt32.ofNat i))
      (halt : P.step m₂ (.call (.halt status) regs') = some m')
      (frames : m'.frames = m.frames) : Outcome m command regs n m'

theorem Outcome.frames_eq {m m' : Machine} {command : UInt32} {regs : Regs} {n : ℕ}
    (h : P.Outcome m command regs n m') : m'.frames = m.frames := by
  cases h with
  | returned _ frames => exact frames
  | completed _ _ _ _ _ _ frames => exact frames

theorem Outcome.reachable {m m' : Machine} {command : UInt32} {regs : Regs} {n : ℕ}
    (h : P.Outcome m command regs n m') (hm : P.Reachable m) : P.Reachable m' := by
  cases h with
  | returned exec _ => exact hm.step exec
  | completed exec _ run _ _ halt _ => exact ((hm.step exec).run run).step halt

/-- **The caller finds its command as the tokenizer left it.** -/
theorem Outcome.mem {m m' : Machine} {command : UInt32} {regs : Regs} {n : ℕ}
    (h : P.Outcome m command regs n m') (hm : P.Reachable m)
    (hcursor : m.kernel.toScreen.InBounds) (hown : P.OwnString m.frames command n) :
    ∃ parsed k₁, P.parse command (m.enter regs) = .ok parsed k₁ ∧ ∀ i ≤ n,
      m'.kernel.mem (place m.frames (command + UInt32.ofNat i))
        = k₁.mem (place m.frames (command + UInt32.ofNat i)) := by
  have hspace := space_enter hm regs
  -- until `execute` returns or starts the program
  have hexec : ∀ {m₁}, P.step m (.call (.execute command) regs) = some m₁ →
      ∃ parsed k₁, P.parse command (m.enter regs) = .ok parsed k₁ ∧ ∀ i ≤ n,
        m₁.kernel.mem (place m.frames (command + UInt32.ofNat i))
          = k₁.mem (place m.frames (command + UInt32.ofNat i)) := by
    intro m₁ h
    obtain ⟨r, hrun, -⟩ := P.execute_of_step h
    obtain ⟨parsed, k₁, hparse, hmem⟩ := execute_buffer hspace hcursor hrun
    refine ⟨parsed, k₁, hparse, fun i hi => ?_⟩
    obtain ⟨hlow, hapart⟩ := place_apart hm (hown i hi)
    exact hmem _ hlow hapart
  cases h with
  | returned exec _ => exact hexec exec
  | @completed m₁ m₂ _ es status regs' exec started run along untouched halt _ =>
    obtain ⟨parsed, k₁, hparse, hmem⟩ := hexec exec
    refine ⟨parsed, k₁, hparse, fun i hi => ?_⟩
    have hhalt : m'.kernel.mem = m₂.kernel.mem :=
      congrArg (fun t : Store => t.mem) (P.halt_of_step halt).2
    rw [hhalt, ← hmem i hi]
    by_cases hfs : m.frames = []
    · unfold place
      rw [if_pos hfs]
      exact untouched hfs i hi
    · obtain ⟨j, -, -, hbelow⟩ := below_started hm hfs exec started
      have hn := nested_reachable hm
      exact (waiting_memory_run hfs hbelow (hm.step exec) (cursor_step hm hcursor exec) run along).2.2 _
        (place_mem_page (hn.current ▸ hn.running_bound) hfs (hown i hi))

/-! ## The command afterwards -/

variable (P) in
/-- In the state `m'` the command is what it was in the state `m`, the string `s`. -/
structure Kept (m m' : Machine) (command : UInt32) (s : List UInt8) : Prop where
  /-- The buffer. -/
  bytes : ∀ i ≤ s.length, P.load m'.kernel (command + UInt32.ofNat i)
    = P.load m.kernel (command + UInt32.ofNat i)
  /-- What it asks for, the file and the arguments, when it is executed again. -/
  again : ∀ regs parsed k', P.parse command (m'.enter regs) = .ok parsed k' → P.Derives s parsed

/-- The cursor stays on the screen. -/
theorem cursor_reachable {m m' : Machine} {es : List Event} (hm : P.Reachable m)
    (hcursor : m.kernel.toScreen.InBounds) (hrun : Run.run P.step m es = some m') :
    m'.kernel.toScreen.InBounds := by
  have hall := Run.invariant_run (I := fun s => P.Reachable s ∧ s.kernel.toScreen.InBounds) ?_
    ⟨hm, hcursor⟩ hrun
  · exact hall.2
  · rintro s e t ⟨hs, hc⟩ hstep
    exact ⟨hs.step hstep, cursor_step hs hc hstep⟩

/-- The cursor is on the screen all along. -/
theorem cursor_run {m₀ m : Machine} {es : List Event} (hboot : P.Boot m₀)
    (hcursor : m₀.kernel.toScreen.InBounds) (hrun : Run.run P.step m₀ es = some m) :
    m.kernel.toScreen.InBounds :=
  cursor_reachable ⟨m₀, [], hboot, Run.run_nil _ m₀⟩ hcursor hrun

/-- **A call of `execute` leaves its command alone exactly if no space is behind the first
word of it.**  Otherwise the arguments are cut off. -/
theorem command_kept (P : Platform) {m₀ m m' : Machine} {es : List Event} {regs : Regs}
    {command : UInt32} {s : List UInt8} (hboot : P.Boot m₀)
    (hcursor : m₀.kernel.toScreen.InBounds) (hrun : Run.run P.step m₀ es = some m)
    (hs : Holds (P.bytesAt (m.enter regs) command) s) (hown : P.OwnString m.frames command s.length)
    (hout : P.Outcome m command regs s.length m') :
    P.Kept m m' command s ↔ ¬P.SpaceBehind (m.enter regs) command := by
  have hm : P.Reachable m := ⟨m₀, es, hboot, hrun⟩
  have hspace := space_enter hm regs
  have hm' := hout.reachable hm
  have hown' : P.OwnString m'.frames command s.length := by
    rw [hout.frames_eq]
    exact hown
  obtain ⟨parsed, k₁, hparse, hmem⟩ := hout.mem hm (cursor_run hboot hcursor hrun) hown
  -- the bytes of the command before and after
  have hbefore : ∀ i ≤ s.length, P.load m.kernel (command + UInt32.ofNat i)
      = some (m.kernel.mem (place m.frames (command + UInt32.ofNat i))) :=
    fun i hi => load_own hm regs (hown i hi)
  have hafter : ∀ i ≤ s.length, P.load m'.kernel (command + UInt32.ofNat i)
      = some (k₁.mem (place m.frames (command + UInt32.ofNat i))) := by
    intro i hi
    have hload := load_own hm' regs (hown' i hi)
    rw [hout.frames_eq, hmem i hi] at hload
    exact hload
  constructor
  · rintro hkept ⟨n, w, hfirst⟩
    have hlt := hfirst.lt_length hs
    have hcut := parse_cuts hspace hfirst (translate_own hm regs .write (hown _ hlt.le)) hparse
    have hsame := hkept.bytes _ hlt.le
    rw [hafter _ hlt.le, hcut, hbefore _ hlt.le] at hsame
    have hdelim : P.load m.kernel (command + UInt32.ofNat (n + w.length)) = some delim :=
      hfirst.stop
    rw [hbefore _ hlt.le, ← hsame] at hdelim
    exact absurd hdelim (by decide)
  · intro hnone
    have hbytes : ∀ i ≤ s.length, P.load m'.kernel (command + UInt32.ofNat i)
        = P.load m.kernel (command + UInt32.ofNat i) := by
      intro i hi
      rw [hafter i hi, parse_mem hspace hs hnone hparse, hbefore i hi]
      rfl
    refine ⟨hbytes, fun regs' parsed' k' hparse' => ?_⟩
    have hspace' := space_enter hm' regs'
    exact parse_derives hspace' (hs.congr hbytes) hparse'

theorem not_spaceBehind {k : Kernel} {command : UInt32} {s : List UInt8}
    (h : Holds (P.bytesAt k command) s) (hs : delim ∉ s) : ¬P.SpaceBehind k command := by
  rintro ⟨n, w, htoken⟩
  exact hs (htoken.delim_mem h)

theorem inBounds_bootMachine (P : Platform) (strings : List (UInt32 × List UInt8)) :
    (bootMachine P strings).kernel.toScreen.InBounds :=
  ⟨show (0 : Int32) ≤ 0 by decide, show (0 : Int32) < 80 by decide,
    show (0 : Int32) ≤ 0 by decide, show (0 : Int32) < 25 by decide⟩

/-- A shell without arguments is started and halts. -/
theorem command_kept_sh :
    ∃ m m', Run.run samplePlatform.step sampleBoot
        [.call (.execute 0x500100) ⟨64, 0x7FFFF0⟩] = some m ∧
      samplePlatform.step m (.call (.halt 0) ⟨64, 0⟩) = some m' ∧
      samplePlatform.Kept sampleBoot m' 0x500100 [0x73, 0x68] := by
  have hrun : (samplePlatform.step sampleBoot (.call (.execute 0x500100) ⟨64, 0x7FFFF0⟩)).any
      (fun m : Machine => decide (m.frames.length = 1) &&
        (samplePlatform.step m (.call (.halt 0) ⟨64, 0⟩)).any
          fun m' : Machine => decide (m'.frames = [])) = true := by
    decide +kernel
  simp only [Option.any_eq_true, Bool.and_eq_true, decide_eq_true_eq] at hrun
  obtain ⟨m, hexec, hstarted, m', hhalt, hframes⟩ := hrun
  have hstring : cstr (samplePlatform.bytesAt (sampleBoot.enter ⟨64, 0x7FFFF0⟩) 0x500100)
      = some [0x73, 0x68] := by
    decide +kernel
  have hholds := (cstr_eq_some.1 hstring).2
  refine ⟨m, m', Run.run_one.2 hexec, hhalt, ?_⟩
  refine (command_kept samplePlatform (boot_bootMachine _ _)
    (inBounds_bootMachine _ _) (Run.run_nil _ sampleBoot) hholds ?_ ?_).2
      (not_spaceBehind hholds (by decide))
  · decide
  · exact .completed hexec hstarted (Run.run_nil _ m) (by rw [Run.Along, hstarted]; decide)
      (fun _ _ _ => rfl) hhalt hframes

/-- When a shell with arguments has halted, `entry` has lost the arguments: the second time,
the command asks for a shell without any. -/
theorem command_cut :
    ∃ m m', Run.run samplePlatform.step sampleBoot
        [.call (.execute 0x500000) ⟨64, 0x7FFFF0⟩] = some m ∧
      samplePlatform.step m (.call (.halt 0) ⟨64, 0⟩) = some m' ∧
      samplePlatform.Outcome sampleBoot 0x500000 ⟨64, 0x7FFFF0⟩ 7 m' ∧
      cstr (samplePlatform.bytesAt sampleBoot.kernel 0x500000)
        = some [0x73, 0x68, 0x20, 0x61, 0x20, 0x20, 0x62] ∧
      cstr (samplePlatform.bytesAt m'.kernel 0x500000) = some [0x73, 0x68] ∧
      ¬samplePlatform.Kept sampleBoot m' 0x500000 [0x73, 0x68, 0x20, 0x61, 0x20, 0x20, 0x62] := by
  have hrun : (samplePlatform.step sampleBoot (.call (.execute 0x500000) ⟨64, 0x7FFFF0⟩)).any
      (fun m : Machine => decide (m.frames.length = 1) &&
        (samplePlatform.step m (.call (.halt 0) ⟨64, 0⟩)).any
          fun m' : Machine => decide (m'.frames = []) &&
            decide (cstr (samplePlatform.bytesAt m'.kernel 0x500000) = some [0x73, 0x68])) = true := by
    decide +kernel
  simp only [Option.any_eq_true, Bool.and_eq_true, decide_eq_true_eq] at hrun
  obtain ⟨m, hexec, hstarted, m', hhalt, hframes, hcut⟩ := hrun
  have hwhole : cstr (samplePlatform.bytesAt sampleBoot.kernel 0x500000)
      = some [0x73, 0x68, 0x20, 0x61, 0x20, 0x20, 0x62] := by
    decide +kernel
  refine ⟨m, m', Run.run_one.2 hexec, hhalt, ?_, hwhole, hcut,
    fun hkept => ?_⟩
  · exact .completed hexec hstarted (Run.run_nil _ m) (by rw [Run.Along, hstarted]; decide)
      (fun _ _ _ => rfl) hhalt hframes
  · have hsame := (cstr_eq_some.1 hwhole).2.congr hkept.bytes
    exact absurd (hsame.inj (cstr_eq_some.1 hcut).2) (by decide)

end Platform

end CheetOS
