import CheetOS.Sequential
import CheetOS.Arguments
import CheetOS.LineEcho
import CheetOS.PointerWrites
import CheetOS.Lib.ByteMemory

/-!
# Programs (`ece391syscall.S`, `ece391support.c`)

What the programs in C are made of: their memory accesses, the wrappers of the system calls,
and the support library.  A program is a computation on a `Machine`; its loops end after at
most as many rounds as there are addresses, or it never ends.

* `View` is what a program sees of the machine: the screen, its page, its descriptors and its
  arguments.  `Shows` says that the machine shows this to the running program.
* `Does v x a v'` says that the computation `x` ends with `a` and takes the view `v` to `v'`,
  while the program stays the one that runs (`Ran`).  The `does_*` lemmas are the rules for
  it; those for the system calls say what a call of the kernel does to the view.
-/

namespace CheetOS

open Exec ByteMemory TextWindow

/-- What comes from outside: the registers each system call of a program is made with, and
what happens while it waits. -/
structure World where
  regs : ℕ → Regs
  input : ℕ → Input
  depth_pos : ∀ n, 0 < (regs n).depth
  depth_le : ∀ n, (regs n).depth ≤ stackRoom

/-- A running program: the machine, and how many system calls were made. -/
structure User where
  machine : Machine
  calls : ℕ

/-- A piece of a program; `none` if it never ends. -/
abbrev U := StateT User Option

namespace Platform

variable (P : Platform) (W : World)

/-! ## The instructions -/

/-- A program reads a byte. -/
def loadUser (va : UInt32) : U UInt8 := fun u =>
  (P.translate u.machine.kernel.toTables .user .read va).map fun a =>
    (u.machine.kernel.mem a, u)

/-- A program writes a byte. -/
def storeUser (va : UInt32) (b : UInt8) : U Unit := fun u =>
  (P.step u.machine (.store va b)).map fun m => ((), { u with machine := m })

/-- A program makes a system call. -/
def sys (c : Input → Call) : U Int32 := fun u =>
  (P.step u.machine (.call (c (W.input u.calls)) (W.regs u.calls))).map fun m =>
    (m.eax.toInt32, { machine := m, calls := u.calls + 1 })

/-! ## ece391syscall.S -/

/-- `ece391_read`. -/
def ece391Read (fd : Int32) (buf : UInt32) (nbytes : Int32) : U Int32 :=
  P.sys W fun input => .plain (.read fd buf nbytes input)

/-- `ece391_write`. -/
def ece391Write (fd : Int32) (buf : UInt32) (nbytes : Int32) : U Int32 :=
  P.sys W fun _ => .plain (.write fd buf nbytes)

/-- `ece391_open`. -/
def ece391Open (filename : UInt32) : U Int32 := P.sys W fun _ => .plain (.open filename)

/-- `ece391_close`. -/
def ece391Close (fd : Int32) : U Int32 := P.sys W fun _ => .plain (.close fd)

/-- `ece391_getargs`. -/
def ece391Getargs (buf : UInt32) (nbytes : Int32) : U Int32 :=
  P.sys W fun _ => .plain (.getargs buf nbytes)

/-- `_start`: `main`, and then `ece391_halt` with its result. -/
def start (main : U Int32) : U Unit := do
  let status ← main
  let _ ← P.sys W fun _ => .halt status.toUInt32.toUInt8

/-! ## ece391support.c -/

/-- The loop of `ece391_strlen`. -/
def strlenLoop : ℕ → UInt32 → UInt32 → U UInt32
  | 0, _, _ => fun _ => none
  | n + 1, s, len => do
    let c ← P.loadUser s
    if c = 0 then return len
    else strlenLoop n (s + 1) (len + 1)

/-- `ece391_strlen`. -/
def ece391Strlen (s : UInt32) : U UInt32 := P.strlenLoop addressSpace s 0

/-- The loop of `ece391_strcpy`. -/
def strcpyLoop : ℕ → UInt32 → UInt32 → U Unit
  | 0, _, _ => fun _ => none
  | n + 1, dst, src => do
    let c ← P.loadUser src
    P.storeUser dst c
    if c = 0 then return ()
    else strcpyLoop n (dst + 1) (src + 1)

/-- `ece391_strcpy`. -/
def ece391Strcpy (dst src : UInt32) : U Unit := P.strcpyLoop addressSpace dst src

/-- `ece391_fdputs`. -/
def ece391Fdputs (fd : Int32) (s : UInt32) : U Unit := do
  let len ← P.ece391Strlen s
  let _ ← P.ece391Write W fd s len.toInt32

/-- The loop of `ece391_strncmp`. -/
def strncmpLoop : ℕ → UInt32 → UInt32 → UInt32 → U Int32
  | 0, _, _, _ => fun _ => none
  | k + 1, s1, s2, n => do
    let c1 ← P.loadUser s1
    let c2 ← P.loadUser s2
    if c1 = c2 then
      if c1 = 0 then return 0
      else if n - 1 = 0 then return 0
      else strncmpLoop k (s1 + 1) (s2 + 1) (n - 1)
    else return c1.toUInt32.toInt32 - c2.toUInt32.toInt32

/-- `ece391_strncmp`. -/
def ece391Strncmp (s1 s2 n : UInt32) : U Int32 :=
  if n = 0 then return 0 else P.strncmpLoop addressSpace s1 s2 n

end Platform

/-! ## What a program sees -/

/-- The page of the running program, by user addresses. -/
def userMem (m : Machine) : UInt32 → UInt8 := fun va =>
  if va - 0x08000000 < 0x00400000 then
    m.kernel.mem (Platform.userBase m.kernel.toTables + (va - 0x08000000))
  else 0

/-- What a program sees of the machine. -/
structure View where
  window : Window (UInt8 × UInt8)
  mem : UInt32 → UInt8
  files : FileArray
  args : List UInt8

namespace View

/-- After a text was printed. -/
def print (v : View) (text : List UInt8) : View :=
  { v with window := text.foldl putcWindow v.window }

/-- After bytes were written. -/
def put (v : View) (p : UInt32) (l : List UInt8) : View := { v with mem := write p l v.mem }

/-- With another descriptor in a slot. -/
def setFile (v : View) (i : Fin numMaxOpenFiles) (f : FileDesc) : View :=
  { v with files := Function.update v.files i f }

theorem window_print (v : View) (text : List UInt8) :
    (v.print text).window = text.foldl putcWindow v.window := rfl

@[simp] theorem mem_print (v : View) (text : List UInt8) : (v.print text).mem = v.mem := rfl

@[simp] theorem files_print (v : View) (text : List UInt8) : (v.print text).files = v.files := rfl

@[simp] theorem args_print (v : View) (text : List UInt8) : (v.print text).args = v.args := rfl

@[simp] theorem mem_put (v : View) (p : UInt32) (l : List UInt8) :
    (v.put p l).mem = write p l v.mem := rfl

@[simp] theorem files_put (v : View) (p : UInt32) (l : List UInt8) :
    (v.put p l).files = v.files := rfl

@[simp] theorem args_put (v : View) (p : UInt32) (l : List UInt8) :
    (v.put p l).args = v.args := rfl

@[simp] theorem mem_setFile (v : View) (i : Fin numMaxOpenFiles) (f : FileDesc) :
    (v.setFile i f).mem = v.mem := rfl

@[simp] theorem args_setFile (v : View) (i : Fin numMaxOpenFiles) (f : FileDesc) :
    (v.setFile i f).args = v.args := rfl

@[simp] theorem files_setFile (v : View) (i : Fin numMaxOpenFiles) (f : FileDesc) :
    (v.setFile i f).files = Function.update v.files i f := rfl

theorem files_setFile_self (v : View) (i : Fin numMaxOpenFiles) (f : FileDesc) :
    (v.setFile i f).files i = f := Function.update_self ..

@[simp] theorem print_nil (v : View) : v.print [] = v := rfl

theorem print_print (v : View) (s t : List UInt8) : (v.print s).print t = v.print (s ++ t) := by
  simp only [print, List.foldl_append]

end View

/-- The `n` bytes from `buf` on are in the user page. -/
def PageBlock (buf : UInt32) (n : ℕ) : Prop :=
  0x08000000 ≤ buf.toNat ∧ buf.toNat + n ≤ 0x08400000

theorem PageBlock.mem {buf : UInt32} {n i : ℕ} (h : PageBlock buf n) (hi : i < n) :
    InUserPage (buf + UInt32.ofNat i) := by
  obtain ⟨hlo, hhi⟩ := h
  have hnat : (buf + UInt32.ofNat i).toNat = buf.toNat + i := Word32.toNat_add_ofNat (by omega)
  unfold InUserPage
  rw [UInt32.le_iff_toNat_le, UInt32.lt_iff_toNat_lt, hnat]
  simp only [UInt32.reduceToNat]
  omega

theorem PageBlock.head {buf : UInt32} {n : ℕ} (h : PageBlock buf n) (hn : 0 < n) :
    InUserPage buf := by
  have hzero := h.mem hn
  rwa [Word32.add_ofNat_zero] at hzero

/-- A buffer in the page is not at zero. -/
theorem PageBlock.ne_zero {buf : UInt32} {n : ℕ} (h : PageBlock buf n) : buf ≠ 0 := by
  rintro rfl
  exact absurd h.1 (by decide)

theorem PageBlock.mono {buf : UInt32} {n k : ℕ} (h : PageBlock buf n) (hk : k ≤ n) :
    PageBlock buf k := by
  obtain ⟨hlo, hhi⟩ := h
  exact ⟨hlo, by omega⟩

theorem PageBlock.shift {buf : UInt32} {n k : ℕ} (h : PageBlock buf (k + n)) :
    PageBlock (buf + UInt32.ofNat k) n := by
  obtain ⟨hlo, hhi⟩ := h
  have hnat : (buf + UInt32.ofNat k).toNat = buf.toNat + k := Word32.toNat_add_ofNat (by omega)
  unfold PageBlock
  omega

theorem offset_lt_iff_inUserPage {va : UInt32} :
    va - 0x08000000 < 0x00400000 ↔ InUserPage va := by
  have hsub := UInt32.toNat_sub va 0x08000000
  have hlt := va.toNat_lt
  unfold InUserPage
  rw [UInt32.lt_iff_toNat_lt, UInt32.le_iff_toNat_le, UInt32.lt_iff_toNat_lt]
  simp only [UInt32.reduceToNat] at hsub ⊢
  omega

namespace Platform

variable {P : Platform} {W : World}

variable (P) in
/-- The machine shows the view `v` to the running program, which was started with the frame
`f` on top of `F`. -/
structure Shows (f : Frame) (F : List Frame) (v : View) (m : Machine) : Prop where
  reachable : P.Reachable m
  frames : m.frames = f :: F
  views : m.kernel.toScreen.Views v.window
  pos_lt : v.window.pos < 2000
  mem : userMem m = v.mem
  files : m.files = v.files
  args : P.HasArgs F f v.args m
  length_args : v.args.length < terminalBufferSize

theorem pos_foldl_putcWindow_lt {w : Window (UInt8 × UInt8)} (h : w.pos < 2000)
    (text : List UInt8) : (text.foldl putcWindow w).pos < 2000 := by
  induction text generalizing w with
  | nil => exact h
  | cons c text ih => exact ih (pos_putcWindow_lt h c)

theorem mem_puts_of_not_inVideo {s : Screen} (h : s.InBounds) (text : List UInt8) {a : UInt32}
    (ha : ¬Screen.InVideo a) : (s.puts text).mem a = s.mem a := by
  induction text generalizing s with
  | nil => rfl
  | cons c text ih => exact (ih (h.run (.putc c))).trans (mem_putc_of_not_inVideo h c ha)

section Shows

variable {f : Frame} {F : List Frame} {v : View} {m : Machine}

theorem Shows.live (h : P.Shows f F v m) : m.frames ≠ [] := by
  rw [h.frames]
  exact List.cons_ne_nil _ _

theorem Shows.running (h : P.Shows f F v m) : Running P m :=
  running_reachable h.reachable h.live

theorem Shows.space (h : P.Shows f F v m) : P.Space m.kernel.toTables :=
  space_reachable h.reachable

/-- The user page of the running program. -/
theorem Shows.page (h : P.Shows f F v m) : ∃ pid < numMaxProcesses,
    m.kernel.pageDirectory 32 = userEntry pid ∧ userBase m.kernel.toTables = userPage pid := by
  have hn := h.running.nested
  have hpage := hn.userPage h.live
  exact ⟨_, hn.running_bound, hpage, userBase_of_page hn.running_bound hpage⟩

theorem Shows.translate (h : P.Shows f F v m) (mode : Paging.Mode) (w : Paging.Access)
    {va : UInt32} (hva : InUserPage va) : P.translate m.kernel.toTables mode w va
      = some (userBase m.kernel.toTables + (va - 0x08000000)) := by
  obtain ⟨pid, hpid, hpage, hbase⟩ := h.page
  rw [hbase]
  exact translate_user_page hpid hpage mode w hva.1 hva.2

theorem Shows.kernelData (h : P.Shows f F v m) {va : UInt32} (hva : InUserPage va) :
    P.kernelData (userBase m.kernel.toTables + (va - 0x08000000)) = false := by
  obtain ⟨pid, hpid, -, hbase⟩ := h.page
  rw [hbase]
  exact kernelData_user_page hpid hva.1 hva.2

/-- The user page is not part of the screen. -/
theorem Shows.not_inVideo (h : P.Shows f F v m) {va : UInt32} (hva : InUserPage va) :
    ¬Screen.InVideo (userBase m.kernel.toTables + (va - 0x08000000)) := by
  obtain ⟨pid, hpid, -, hbase⟩ := h.page
  have hpage := toNat_userPage hpid
  have hnat := toNat_user hpid hva.1 hva.2
  have hvideo : video.toNat = 753664 := rfl
  rw [hbase]
  unfold Screen.InVideo
  omega

theorem Shows.mem_eq (h : P.Shows f F v m) {va : UInt32} (hva : InUserPage va) :
    v.mem va = m.kernel.mem (userBase m.kernel.toTables + (va - 0x08000000)) := by
  rw [← h.mem, userMem, if_pos (offset_lt_iff_inUserPage.2 hva)]

/-- The kernel reads what the program sees. -/
theorem Shows.load (h : P.Shows f F v m) {va : UInt32} (hva : InUserPage va) :
    P.load m.kernel va = some (v.mem va) := by
  rw [load_of_translate (h.translate _ _ hva), h.mem_eq hva, h.kernelData hva]
  rfl

/-- A later state of the same program. -/
theorem Shows.next (h : P.Shows f F v m) {m' : Machine} {e : Event} {v' : View}
    (hs : P.step m e = some m') (hframes : m'.frames = m.frames)
    (hviews : m'.kernel.toScreen.Views v'.window) (hpos : v'.window.pos < 2000)
    (hmem : userMem m' = v'.mem) (hfiles : m'.files = v'.files) (hargs : v'.args = v.args) :
    P.Shows f F v' m' where
  reachable := h.reachable.step hs
  frames := by rw [hframes, h.frames]
  views := hviews
  pos_lt := hpos
  mem := hmem
  files := hfiles
  args := by
    rw [hargs]
    refine hasArgs_step ?_ h.args hs
    rw [hframes, h.frames]
    exact Nat.lt_succ_self _
  length_args := by
    rw [hargs]
    exact h.length_args

/-- The page only depends on its directory entry and its memory. -/
theorem userMem_congr {m' : Machine}
    (hdir : m'.kernel.pageDirectory 32 = m.kernel.pageDirectory 32)
    (hmem : ∀ va, InUserPage va → m'.kernel.mem (userBase m.kernel.toTables + (va - 0x08000000))
      = m.kernel.mem (userBase m.kernel.toTables + (va - 0x08000000))) :
    userMem m' = userMem m := by
  have hbase : userBase m'.kernel.toTables = userBase m.kernel.toTables := by
    rw [userBase, userBase, hdir]
  funext va
  rw [userMem, userMem, hbase]
  by_cases hva : va - 0x08000000 < 0x00400000
  · rw [if_pos hva, if_pos hva, hmem va (offset_lt_iff_inUserPage.1 hva)]
  · rw [if_neg hva, if_neg hva]

/-- A byte of the page is changed. -/
theorem userMem_update {m' : Machine} {va : UInt32} (hva : InUserPage va) {c : UInt8}
    (hdir : m'.kernel.pageDirectory = m.kernel.pageDirectory)
    (hmem : m'.kernel.mem = Function.update m.kernel.mem
      (userBase m.kernel.toTables + (va - 0x08000000)) c) :
    userMem m' = Function.update (userMem m) va c := by
  have hbase : userBase m'.kernel.toTables = userBase m.kernel.toTables := by
    rw [userBase, userBase, hdir]
  funext vb
  rw [userMem, Function.update_apply, userMem, hbase, hmem, Function.update_apply]
  simp only [UInt32.add_right_inj, UInt32.sub_left_inj]
  by_cases hvb : vb - 0x08000000 < 0x00400000
  · rw [if_pos hvb, if_pos hvb]
  · rw [if_neg hvb, if_neg hvb, if_neg]
    rintro rfl
    exact hvb (offset_lt_iff_inUserPage.2 hva)

/-- A system call that prints. -/
theorem Shows.printed (h : P.Shows f F v m) {m' : Machine} {c : PlainCall} {regs : Regs}
    (hs : P.step m (.call (.plain c) regs) = some m') {text : List UInt8}
    (hk : m'.kernel = { m.enter regs with toScreen := m.kernel.toScreen.puts text }) :
    P.Shows f F (v.print text) m' := by
  obtain ⟨-, -, -, hframes, -⟩ := P.plain_of_step hs
  have hviews := Screen.puts_views h.views h.pos_lt text
  have hpos : (v.print text).window.pos < 2000 := pos_foldl_putcWindow_lt h.pos_lt text
  refine h.next hs hframes ?_ hpos ?_ ?_ rfl
  · rw [hk]
    exact hviews
  · rw [View.mem_print, ← h.mem]
    refine userMem_congr (by rw [hk]; rfl) fun va hva => ?_
    rw [hk]
    exact mem_puts_of_not_inVideo (h.views.inBounds h.pos_lt) text (h.not_inVideo hva)
  · rw [View.files_print, ← h.files]
    exact files_same (by rw [hk])

/-- The descriptors the kernel looks at. -/
theorem Shows.fileArray_enter (h : P.Shows f F v m) (W : World) (n : ℕ) :
    (m.enter (W.regs n)).fileArray = v.files := by
  rw [h.running.fileArray_enter (W.depth_pos n) (W.depth_le n), h.files]

/-- Standard input and output are the terminal. -/
theorem Shows.terminal (h : P.Shows f F v m) {i : Fin numMaxOpenFiles} (hi : i.val < 2) :
    (v.files i).flags = fileOccup ∧ (v.files i).fileOpsTablePtr = P.terminalOps := by
  rw [← h.files]
  exact (filesOk_running h.reachable h.live).terminal i hi

end Shows

/-! ## Computations -/

variable (P) in
/-- The machine goes from one state to another, and the program stays the one that runs. -/
def Ran (fs : List Frame) : Machine → Machine → Prop :=
  Relation.ReflTransGen fun s t => s.frames = fs ∧ t.frames = fs ∧ ∃ e, P.step s e = some t

/-- The events on the way. -/
theorem Ran.events {fs : List Frame} {m m' : Machine} (h : P.Ran fs m m') (hm : m.frames = fs)
    {n : ℕ} (hn : n < fs.length) : ∃ es, Run.run P.step m es = some m' ∧
      Run.Along P.step (fun s => n < s.frames.length) m es := by
  induction h with
  | refl =>
    refine ⟨[], Run.run_nil _ m, ?_⟩
    show n < m.frames.length
    rw [hm]
    exact hn
  | tail _ hstep ih =>
    obtain ⟨es, hrun, halong⟩ := ih
    obtain ⟨-, hframes, e, he⟩ := hstep
    refine ⟨es ++ [e], Run.run_concat_eq_some.2 ⟨_, hrun, he⟩,
      (Run.along_concat hrun he).2 ⟨halong, ?_⟩⟩
    rw [hframes]
    exact hn

variable (P) in
/-- The computation `x` ends with `a` and takes the view `v` to `v'`. -/
def Does (f : Frame) (F : List Frame) {α : Type} (v : View) (x : U α) (a : α) (v' : View) :
    Prop :=
  ∀ ⦃u : User⦄, P.Shows f F v u.machine → ∃ u', x u = some (a, u') ∧
    P.Shows f F v' u'.machine ∧ P.Ran (f :: F) u.machine u'.machine

/-- A block of memory is stored where it is mapped to. -/
theorem storeBytes_physical {va p : UInt32} {bs : List UInt8} {k : Kernel}
    (hlen : bs.length ≤ 4294967296)
    (h : ∀ i < bs.length, P.translate k.toTables .supervisor .write (va + UInt32.ofNat i)
      = some (p + UInt32.ofNat i) ∧ P.kernelData (p + UInt32.ofNat i) = false) :
    P.storeBytes va bs k = .ok () { k with mem := write p bs k.mem } := by
  induction bs generalizing va p k with
  | nil => rw [write_nil]; rfl
  | cons b bs ih =>
    rw [List.length_cons] at hlen h
    obtain ⟨htr, hdata⟩ := h 0 (Nat.succ_pos _)
    rw [Word32.add_ofNat_zero, Word32.add_ofNat_zero] at htr
    rw [Word32.add_ofNat_zero] at hdata
    have hrest : P.storeBytes (va + 1) bs { k with mem := Function.update k.mem p b }
        = .ok () { k with mem := write (p + 1) bs (Function.update k.mem p b) } :=
      ih (by omega) fun i hi => ?_
    · rw [Platform.storeBytes, bind_of_ok (P.storeByte_run htr hdata b), hrest,
        write_cons b hlen]
    · rw [Word32.add_one_add_ofNat, Word32.add_one_add_ofNat]
      exact h (i + 1) (Nat.succ_lt_succ hi)

/-- Only the video memory counts for the screen. -/
theorem views_congr {s : Screen} {w : Window (UInt8 × UInt8)} (h : s.Views w)
    {mem : UInt32 → UInt8} (hmem : ∀ a, Screen.InVideo a → mem a = s.mem a) :
    Screen.Views { s with mem := mem } w := by
  refine ⟨h.x_eq, h.y_eq, fun i hi => ?_⟩
  rw [← h.look_eq i hi]
  exact Prod.ext (hmem _ (Screen.inVideo_offset (show 2 * i < 4000 by omega)))
    (hmem _ (Screen.inVideo_offset (show 2 * i + 1 < 4000 by omega)))

section Does

variable {f : Frame} {F : List Frame} {v v' v'' : View} {α β : Type} {a : α} {b : β}

theorem does_pure (v : View) (a : α) : P.Does f F v (pure a) a v := by
  intro u h
  exact ⟨u, rfl, h, .refl⟩

theorem Does.bind {x : U α} {g : α → U β} (hx : P.Does f F v x a v')
    (hg : P.Does f F v' (g a) b v'') : P.Does f F v (x >>= g) b v'' := by
  intro u h
  obtain ⟨u₁, hu₁, h₁, hran₁⟩ := hx h
  obtain ⟨u₂, hu₂, h₂, hran₂⟩ := hg h₁
  refine ⟨u₂, ?_, h₂, hran₁.trans hran₂⟩
  show (x u).bind (fun p => g p.1 p.2) = _
  rw [hu₁]
  exact hu₂

/-- A byte of the page is read. -/
theorem does_load {va : UInt32} (hva : InUserPage va) :
    P.Does f F v (P.loadUser va) (v.mem va) v := by
  intro u h
  refine ⟨u, ?_, h, .refl⟩
  rw [loadUser, h.translate _ _ hva, Option.map_some, ← h.mem_eq hva]

/-- A byte of the page is written. -/
theorem does_store {va : UInt32} (hva : InUserPage va) (c : UInt8) :
    P.Does f F v (P.storeUser va c) () (v.put va [c]) := by
  intro u h
  have htr := h.translate .user .write hva
  generalize ha : userBase u.machine.kernel.toTables + (va - 0x08000000) = a at htr
  obtain ⟨m', hs, hframes, hk⟩ : ∃ m', P.step u.machine (.store va c) = some m' ∧
      m'.frames = u.machine.frames ∧
      m'.kernel = { u.machine.kernel with mem := Function.update u.machine.kernel.mem a c } := by
    rw [step, if_neg h.live, htr]
    exact ⟨_, rfl, rfl, rfl⟩
  refine ⟨{ u with machine := m' }, ?_, h.next hs hframes ?_ h.pos_lt ?_ ?_ rfl,
    .single ⟨h.frames, hframes.trans h.frames, _, hs⟩⟩
  · rw [storeUser, hs]
    rfl
  · rw [hk]
    exact views_update h.views (ha ▸ h.not_inVideo hva) c
  · rw [View.mem_put, write_singleton, ← h.mem]
    exact userMem_update hva (by rw [hk]) (by rw [hk, ha])
  · rw [View.files_put, ← h.files]
    exact files_store hs

/-- A system call of the kernel that returns `r`. -/
theorem does_sys {c : Input → PlainCall} {r : Int32}
    (hcall : ∀ ⦃m : Machine⦄ (W : World) (n : ℕ), P.Shows f F v m → ∃ k,
      P.plain (c (W.input n)) (m.enter (W.regs n)) = .ok r k ∧
      ∀ m', m'.frames = m.frames → m'.kernel = k →
        P.step m (.call (.plain (c (W.input n))) (W.regs n)) = some m' → P.Shows f F v' m') :
    P.Does f F v (P.sys W fun input => .plain (c input)) r v' := by
  intro u h
  obtain ⟨k, hk, hnext⟩ := hcall W u.calls h
  have hs := P.step_of_plain h.live (W.depth_pos u.calls) (W.depth_le u.calls) hk
  refine ⟨⟨_, u.calls + 1⟩, ?_, hnext _ ?_ ?_ hs, .single ⟨h.frames, h.frames, _, hs⟩⟩
  · rw [sys, hs, Option.map_some, Int32.toInt32_toUInt32]
  · rfl
  · rfl

end Does

end Platform

end CheetOS
