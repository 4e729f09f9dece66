import CheetOS.Descriptors
import CheetOS.Machine

/-!
# What an event does to the tables

`Effect t fs t' fs'` lists everything a system call can do to the process and
page tables and to the calls of `execute` that wait: one constructor for each
way out of a system call that changes them.  `step_effect` says that every step
of the machine is one of them, so that an invariant of the tables is checked
against the constructors only.
-/

namespace CheetOS

open Exec

/-! ## execute -/

theorem firstInactive_eq_some {pidArray : UInt32 → UInt8} {i : UInt32}
    (h : firstInactive pidArray = some i) :
    i < numMaxProcesses ∧ pidArray i = progNotActive ∧ ∀ j < i, pidArray j ≠ progNotActive := by
  obtain ⟨hi, as, bs, hsplit, has⟩ := List.find?_eq_some_iff_append.1 h
  have hmem : i ∈ ([0, 1, 2, 3, 4, 5] : List UInt32) := List.mem_of_find?_eq_some h
  have hlt : i < numMaxProcesses := by
    fin_cases hmem <;> decide
  refine ⟨hlt, of_decide_eq_true hi, fun j hj hzero => ?_⟩
  -- what is smaller stands before it in the list
  have hj6 : j ∈ ([0, 1, 2, 3, 4, 5] : List UInt32) := by
    have h1 := UInt32.lt_iff_toNat_lt.1 hj
    have h2 := UInt32.lt_iff_toNat_lt.1 hlt
    simp only [numMaxProcesses, List.mem_cons, ← UInt32.toNat_inj, List.not_mem_nil, or_false,
      UInt32.reduceToNat] at h2 ⊢
    omega
  have hsorted : ([0, 1, 2, 3, 4, 5] : List UInt32).Pairwise (· < ·) := by decide
  rw [hsplit] at hj6 hsorted
  rcases List.mem_append.1 hj6 with hj' | hj'
  · have := has j hj'
    simp [hzero] at this
  · rcases List.mem_cons.1 hj' with rfl | hj''
    · exact absurd hj (UInt32.lt_irrefl j)
    · have hij : i < j :=
        (List.pairwise_cons.1 (List.pairwise_append.1 hsorted).2.1).1 j hj''
      exact absurd (UInt32.lt_trans hj hij) (UInt32.lt_irrefl j)

/-- The tables once `execute` took a process number and mapped its page. -/
def Tables.take (t : Tables) (i : UInt32) : Tables :=
  { t with pidArray := Function.update t.pidArray i progActive }.updatePageDirectory
    c128MB (userPage i) userPde4MBBase

/-- The tables after a load that failed: the page of the caller is mapped again. -/
def Tables.leak (t : Tables) (i : UInt32) : Tables :=
  (t.take i).updatePageDirectory c128MB (userPage t.currProcess) userPde4MBBase

/-- The tables when the new program starts. -/
def Platform.startTables (P : Platform) (t : Tables) (i : UInt32) (arg : List UInt8) : Tables :=
  P.enterTables (t.take i) i arg

/-- `page_directory[32]` for a process. -/
def userEntry (pid : UInt32) : UInt32 := userPage pid ||| 0x87

namespace Tables

variable (t : Tables) (i : UInt32)

/-- `execute` and `halt` only ever write entry 32 of the directory. -/
theorem updatePageDirectory_user :
    t.updatePageDirectory c128MB (userPage i) userPde4MBBase
      = { t with pageDirectory := Function.update t.pageDirectory 32 (userEntry i) } := by
  have hindex : c128MB >>> 22 = 32 := by decide
  have hflags : userPde4MBBase.toUInt32 = 0x87 := by decide
  unfold updatePageDirectory userEntry
  rw [hindex, hflags]

theorem take_eq :
    t.take i =
      { t with
        pidArray := Function.update t.pidArray i progActive
        pageDirectory := Function.update t.pageDirectory 32 (userEntry i) } := by
  unfold take
  rw [updatePageDirectory_user]

theorem take_user : (t.take i).pageDirectory 32 = userEntry i := by
  rw [take_eq]
  dsimp only
  rw [Function.update_self]

theorem leak_eq :
    t.leak i =
      { t with
        pidArray := Function.update t.pidArray i progActive
        pageDirectory := Function.update t.pageDirectory 32 (userEntry t.currProcess) } := by
  unfold leak
  rw [updatePageDirectory_user, take_eq]
  simp

theorem halt_eq :
    t.halt =
      let parent := (t.pcb (pcbAddr t.currProcess)).parentNum
      { t with
        pageDirectory := Function.update t.pageDirectory 32 (userEntry parent)
        esp0 := kernelStack parent
        pidArray := Function.update t.pidArray t.currProcess progNotActive
        currProcess := parent } := by
  unfold halt
  simp only [updatePageDirectory_user]

end Tables

theorem Platform.startTables_eq (P : Platform) (t : Tables) (i : UInt32) (arg : List UInt8) :
    P.startTables t i arg =
      { t with
        pidArray := Function.update t.pidArray i progActive
        currProcess := i
        pcb := Function.update t.pcb (pcbAddr i) (P.newPcb t (t.pcb (pcbAddr i)) arg)
        esp0 := kernelStack i
        pageDirectory := Function.update t.pageDirectory 32 (userEntry i) } := by
  unfold startTables enterTables
  rw [Tables.take_eq]
  simp only [Function.update_idem]
  rfl

theorem quiet_puts (l : List UInt8) : Keeps Quiet (puts l) := keeps_modify fun _ => rfl

namespace Platform

variable (P : Platform)

/-- Reading memory changes nothing at all. -/
theorem loadByte_kernel {va : UInt32} {k k' : Kernel} {b : UInt8}
    (h : P.loadByte va k = .ok b k') : k' = k := by
  unfold loadByte at h
  rw [get_bind_run] at h
  exact (orUnread_eq_ok.1 h).2.symm

theorem loadWord_kernel {va : UInt32} {k k' : Kernel} {w : UInt32}
    (h : P.loadWord va k = .ok w k') : k' = k := by
  unfold loadWord at h
  obtain ⟨b0, k₀, h0, h⟩ := bind_eq_ok.1 h
  obtain ⟨b1, k₁, h1, h⟩ := bind_eq_ok.1 h
  obtain ⟨b2, k₂, h2, h⟩ := bind_eq_ok.1 h
  obtain ⟨b3, k₃, h3, h⟩ := bind_eq_ok.1 h
  rw [← (pure_eq_ok.1 h).2, P.loadByte_kernel h3, P.loadByte_kernel h2, P.loadByte_kernel h1,
    P.loadByte_kernel h0]

section Parsing

variable {R : Kernel → Kernel → Prop} (hr : ∀ k, R k k) (ht : ∀ a b c, R a b → R b c → R a c)

include hr

theorem keeps_strcpyFilename (filename : List UInt8) : Keeps R (strcpyFilename filename) :=
  keeps_ite (keeps_pure hr _) (keeps_throw _)

theorem keeps_memcpyBuffer (room : ℕ) (buffer : ℕ → UInt8) (ptr : ℕ) (bytes : List UInt8) :
    Keeps R (memcpyBuffer room buffer ptr bytes) := keeps_ite (keeps_pure hr _) (keeps_throw _)

include ht

/-- The first routine of `execute` does to the state what `strtok` does. -/
theorem keeps_findProgram (hstrtok : ∀ s, Keeps R (P.strtok s)) (command : UInt32) :
    Keeps R (P.findProgram command) := by
  refine keeps_bind ht (hstrtok command) fun token => keeps_ite (keeps_pure hr _) ?_
  refine keeps_bind ht (P.keeps_readString hr ht token) fun filename =>
    keeps_ite (keeps_pure hr _) ?_
  refine keeps_bind ht (keeps_strcpyFilename hr filename) fun _ => ?_
  refine keeps_bind ht (keeps_orUnread hr _) fun o => ?_
  cases o with
  | none => exact keeps_pure hr _
  | some dentry => exact keeps_ite (keeps_pure hr _) (keeps_pure hr _)

theorem keeps_joinLoop (hstrtok : ∀ s, Keeps R (P.strtok s)) (room n : ℕ) (token : UInt32)
    (buffer : ℕ → UInt8) (ptr : ℕ) : Keeps R (P.joinLoop room n token buffer ptr) := by
  induction n generalizing token buffer ptr with
  | zero => exact keeps_throw _
  | succ n ih =>
    have happend : ∀ buffer ptr, Keeps R (do
        let string ← P.readString token
        let buffer ← memcpyBuffer room buffer ptr (string ++ [0])
        let token ← P.strtok 0
        P.joinLoop room n token buffer (ptr + string.length)) := by
      intro buffer ptr
      refine keeps_bind ht (P.keeps_readString hr ht token) fun string => ?_
      refine keeps_bind ht (keeps_memcpyBuffer hr _ _ _ _) fun buffer => ?_
      exact keeps_bind ht (hstrtok 0) fun token => ih _ _ _
    refine keeps_ite (keeps_pure hr _) (keeps_ite ?_ ?_)
    · exact keeps_bind ht (keeps_memcpyBuffer hr _ _ _ _) fun buffer => happend buffer _
    · exact keeps_bind ht (keeps_pure hr _) fun buffer => happend buffer _

theorem keeps_joinArgs (hstrtok : ∀ s, Keeps R (P.strtok s)) (room : ℕ) (buffer : ℕ → UInt8) :
    Keeps R (P.joinArgs room buffer) :=
  keeps_bind ht (hstrtok 0) fun token => P.keeps_joinLoop hr ht hstrtok room _ token _ 0

end Parsing

theorem quiet_findProgram (command : UInt32) : Keeps Quiet (P.findProgram command) :=
  P.keeps_findProgram Quiet.refl Quiet.trans P.quiet_strtok command

theorem quiet_joinArgs (room : ℕ) (buffer : ℕ → UInt8) : Keeps Quiet (P.joinArgs room buffer) :=
  P.keeps_joinArgs Quiet.refl Quiet.trans P.quiet_strtok room buffer

/-- The bytes a load stores, and whether it fails. -/
def loadedBytes (inode : UInt32) : List UInt8 :=
  (readData P.fs inode 0 (flength P.fs inode).toUInt32).2

/-- `read_data` does not deliver as many bytes as `execute` asks for. -/
def LoadShort (inode : UInt32) : Prop :=
  (readData P.fs inode 0 (flength P.fs inode).toUInt32).1.toUInt32
    ≠ (flength P.fs inode).toUInt32

instance (inode : UInt32) : Decidable (P.LoadShort inode) :=
  inferInstanceAs (Decidable (_ ≠ _))

/-- There is no free process number. -/
theorem getNextProcessNumber_full {k : Kernel} (h : firstInactive k.pidArray = none) :
    getNextProcessNumber k = .ok 0xFFFFFFFF k := by
  unfold getNextProcessNumber
  rw [get_bind_run, h]
  rfl

/-- The first free one is taken. -/
theorem getNextProcessNumber_taken {k : Kernel} {i : UInt32}
    (h : firstInactive k.pidArray = some i) : i ≠ 0xFFFFFFFF ∧ getNextProcessNumber k
      = .ok i { k with pidArray := Function.update k.pidArray i progActive } := by
  refine ⟨?_, ?_⟩
  · rintro rfl
    exact absurd (firstInactive_eq_some h).1 (by decide)
  · unfold getNextProcessNumber
    rw [get_bind_run, h]
    rfl

/-- The exit without a free process number. -/
theorem launch_full {inode : UInt32} {buffer : ℕ → UInt8} {k : Kernel}
    (h : firstInactive k.pidArray = none) :
    P.launch inode buffer k = (do
      puts tableFullMessage
      return .returned 256 : K ExecResult) k := by
  unfold launch
  rw [bind_of_ok (getNextProcessNumber_full h), if_pos rfl]

/-- With a free process number, the page of the new process is mapped and the file loaded. -/
theorem launch_taken {inode : UInt32} {buffer : ℕ → UInt8} {k : Kernel} {i : UInt32}
    (h : firstInactive k.pidArray = some i) :
    P.launch inode buffer k = (do
      P.storeBytes programImage (P.loadedBytes inode)
      if P.LoadShort inode then
        let k ← get
        updatePageDirectory c128MB (userPage k.currProcess) userPde4MBBase
        return .returned (-1)
      else
        match Bytes.stringAt bufferSize buffer with
        | none => throw .undefined
        | some arg =>
          P.enterProcess i arg
          let entryPoint ← P.loadWord (programImage + 24)
          return .started entryPoint : K ExecResult)
      { k with toTables := k.toTables.take i } := by
  obtain ⟨hne, hnext⟩ := getNextProcessNumber_taken h
  unfold launch
  rw [bind_of_ok hnext, if_neg hne]
  unfold updatePageDirectory
  rw [modify_bind_run]
  rfl

/-- The exits of the second half of `execute`. -/
theorem launch_cases {inode : UInt32} {buffer : ℕ → UInt8} {k k' : Kernel} {r : ExecResult}
    (h : P.launch inode buffer k = .ok r k') :
    (firstInactive k.pidArray = none ∧ r = .returned 256 ∧ k'.toTables = k.toTables) ∨
    ∃ i k₁, firstInactive k.pidArray = some i ∧
      P.storeBytes programImage (P.loadedBytes inode) { k with toTables := k.toTables.take i }
        = .ok () k₁ ∧ k'.toStore = k₁.toStore ∧
      ((P.LoadShort inode ∧ r = .returned (-1) ∧ k'.toTables = k.toTables.leak i) ∨
       ∃ entryPoint arg, ¬P.LoadShort inode ∧ r = .started entryPoint ∧
        Bytes.stringAt bufferSize buffer = some arg ∧ k'.toTables = P.startTables k.toTables i arg ∧
        P.loadWord (programImage + 24) k' = .ok entryPoint k') := by
  cases hi : firstInactive k.pidArray with
  | none =>
    rw [P.launch_full hi] at h
    obtain ⟨⟨⟩, k₂, hputs, h⟩ := bind_eq_ok.1 h
    obtain ⟨rfl, rfl⟩ := pure_eq_ok.1 h
    exact Or.inl ⟨rfl, rfl, quiet_puts _ hputs⟩
  | some i =>
    rw [P.launch_taken hi] at h
    obtain ⟨⟨⟩, k₂, hload, h⟩ := bind_eq_ok.1 h
    have htake : k₂.toTables = k.toTables.take i := P.quiet_storeBytes _ _ hload
    refine Or.inr ⟨i, k₂, rfl, hload, ?_⟩
    by_cases hshort : P.LoadShort inode
    · rw [if_pos hshort, get_bind_run] at h
      obtain ⟨⟨⟩, k₃, hback, h⟩ := bind_eq_ok.1 h
      obtain ⟨rfl, rfl⟩ := pure_eq_ok.1 h
      rw [← modify_eq_ok.1 hback]
      refine ⟨rfl, Or.inl ⟨hshort, rfl, ?_⟩⟩
      show k₂.toTables.updatePageDirectory _ _ _ = _
      rw [htake]
      rfl
    · rw [if_neg hshort] at h
      cases harg : Bytes.stringAt bufferSize buffer with
      | none => simp [harg] at h
      | some arg =>
        simp only [harg] at h
        obtain ⟨⟨⟩, k₃, henter, h⟩ := bind_eq_ok.1 h
        obtain ⟨entryPoint, k₄, hword, h⟩ := bind_eq_ok.1 h
        obtain ⟨rfl, rfl⟩ := pure_eq_ok.1 h
        obtain rfl := P.loadWord_kernel hword
        rw [← modify_eq_ok.1 henter] at hword ⊢
        refine ⟨rfl, Or.inr ⟨entryPoint, arg, hshort, rfl, rfl, ?_, hword⟩⟩
        show P.enterTables k₂.toTables i arg = _
        rw [htake]
        rfl

/-- What `execute` found out before it called the second half. -/
theorem execute_cases {command : UInt32} {k k' : Kernel} {r : ExecResult}
    (h : P.execute command k = .ok r k') :
    (r = .returned (-1) ∧ k'.toTables = k.toTables ∧ ∃ found,
      P.findProgram command k = .ok found k' ∧
      ∀ dentry ∈ found, P.isExecutable dentry.inodeNum = false) ∨
    ∃ dentry k₁ buffer k₂, P.findProgram command k = .ok (some dentry) k₁ ∧
      P.isExecutable dentry.inodeNum = true ∧
      P.joinArgs bufferSize (Bytes.writeAt (fun _ => 0) 0 (readData P.fs dentry.inodeNum 0 4).2) k₁
        = .ok buffer k₂ ∧
      k₂.toTables = k.toTables ∧ P.launch dentry.inodeNum buffer k₂ = .ok r k' := by
  unfold execute at h
  obtain ⟨found, k₁, hfind, h⟩ := bind_eq_ok.1 h
  have hquiet₁ : k₁.toTables = k.toTables := P.quiet_findProgram _ hfind
  cases found with
  | none =>
    obtain ⟨rfl, rfl⟩ := pure_eq_ok.1 h
    exact Or.inl ⟨rfl, hquiet₁, none, hfind, by simp⟩
  | some dentry =>
    dsimp only at h
    split_ifs at h with hexec
    · obtain ⟨rfl, rfl⟩ := pure_eq_ok.1 h
      exact Or.inl ⟨rfl, hquiet₁, some dentry, hfind, by simpa using hexec⟩
    · obtain ⟨buffer, k₂, hjoin, h⟩ := bind_eq_ok.1 h
      have hquiet₂ : k₂.toTables = k.toTables := Eq.trans (P.quiet_joinArgs _ _ hjoin) hquiet₁
      exact Or.inr ⟨dentry, k₁, buffer, k₂, hfind, by simpa using hexec, hjoin, hquiet₂, h⟩

theorem quiet_getargs (buf : UInt32) (nbytes : Int32) : Keeps Quiet (P.getargs buf nbytes) := by
  refine keeps_ite (quiet_pure _) (quiet_bind quiet_get fun k => keeps_ite (quiet_pure _)
    (keeps_ite (quiet_pure _) ?_))
  split
  · exact keeps_throw _
  · exact quiet_bind (P.quiet_storeBytes _ _) fun _ => quiet_pure _

/-- The exits of `vidmap`. -/
theorem vidmap_cases {screenStart : UInt32} {k k' : Kernel} {r : Int32}
    (h : P.vidmap screenStart k = .ok r k') :
    (r = -1 ∧ k' = k) ∨ (r = 0 ∧ k'.toTables = P.mapVideo k.toTables) := by
  unfold vidmap at h
  split_ifs at h with hrange
  · cases h
    exact Or.inl ⟨rfl, rfl⟩
  · obtain ⟨⟨⟩, k₁, hstore, h⟩ := bind_eq_ok.1 h
    rw [modify_bind_run] at h
    obtain ⟨⟨⟩, k₂, hstore', h⟩ := bind_eq_ok.1 h
    obtain ⟨rfl, rfl⟩ := pure_eq_ok.1 h
    refine Or.inr ⟨rfl, Eq.trans (P.quiet_storeBytes _ _ hstore') ?_⟩
    show P.mapVideo k₁.toTables = _
    rw [P.quiet_storeBytes _ _ hstore]

/-! ## The effects -/

end Platform

def PlainCall.isVidmap : PlainCall → Bool
  | .vidmap _ => true
  | _ => false

/-- The event is a call of `vidmap`, and it returned `0`. -/
def Vidmapped (e : Event) (m' : Machine) : Prop :=
  match e with
  | .call (.plain c) _ => c.isVidmap ∧ m'.eax = 0
  | _ => False

namespace Platform

variable (P : Platform)

/-- What one event does: `t` are the tables when the kernel is entered and `fs`
the calls that wait then, `t'` and `fs'` are those when a program runs again.  The
event is a `vidmap` that returns `0` if `v` holds. -/
inductive Effect (v : Prop) (t : Tables) (fs : List Frame) : Tables → List Frame → Prop
  /-- Nothing: the call failed, or its effect is elsewhere. -/
  | same : Effect v t fs t fs
  /-- `open` returned a descriptor. -/
  | opened (running : fs ≠ []) (name : CharPtr) (idx : Fin numMaxOpenFiles) (d : Dentry)
      (found : P.openResult t.fileArray name = some (some (idx, d))) :
      Effect v t fs (t.setFile idx (P.opened d (t.fileArray idx))) fs
  /-- `close` freed a slot. -/
  | closed (running : fs ≠ []) (fd : Int32) (used : Opened t.fileArray fd) (user : 2 ≤ fd) :
      Effect v t fs (t.setFile (slot fd) blank) fs
  /-- `read` moved a position. -/
  | moved (running : fs ≠ []) (fd : Int32) (used : Opened t.fileArray fd) (pos : UInt32) :
      Effect v t fs (t.setFile (slot fd) ((t.fileArray (slot fd)).moveTo pos)) fs
  /-- `vidmap` mapped the screen. -/
  | video (running : fs ≠ []) (called : v) : Effect v t fs (P.mapVideo t) fs
  /-- `execute` took a process number and could not load the file. -/
  | leaked (i : UInt32) (free : firstInactive t.pidArray = some i) : Effect v t fs (t.leak i) fs
  /-- `execute` started a program. -/
  | started (i : UInt32) (free : firstInactive t.pidArray = some i) (arg : List UInt8) :
      Effect v t fs (P.startTables t i arg) (⟨t.esp, t.ebp, i⟩ :: fs)
  /-- `halt` jumped back into a call of `execute`. -/
  | halted (running : fs ≠ []) (fs' : List Frame)
      (ret : (t.pcb (pcbAddr t.currProcess)).execRetAddr = P.endOfExecute)
      (resumed : Machine.resume fs (t.pcb (pcbAddr t.currProcess)).parentEsp
        (t.pcb (pcbAddr t.currProcess)).parentEbp = some fs') :
      Effect v t fs
        { t.halt with
          esp := (t.pcb (pcbAddr t.currProcess)).parentEsp
          ebp := (t.pcb (pcbAddr t.currProcess)).parentEbp } fs'

/-- The effects of the system calls that return. -/
theorem plain_effect {c : PlainCall} {k k' : Kernel} {r : Int32} {fs : List Frame}
    (hfs : fs ≠ []) (h : P.plain c k = .ok r k') :
    P.Effect (c.isVidmap ∧ r = 0) k.toTables fs k'.toTables fs := by
  cases c with
  | read fd buf nbytes input =>
    rcases P.sysRead_tables h with htables | ⟨hused, pos, htables⟩
    · rw [htables]
      exact Effect.same
    · rw [htables]
      exact Effect.moved hfs fd hused pos
  | write fd buf nbytes =>
    rw [P.quiet_sysWrite fd buf nbytes h]
    exact Effect.same
  | «open» filename =>
    rcases P.sysOpen_cases h with ⟨-, -, rfl⟩ | ⟨idx, d, hfound, -, htables, -⟩
    · exact Effect.same
    · rw [htables]
      exact Effect.opened hfs _ idx d hfound
  | close fd =>
    rcases P.sysClose_cases h with rfl | ⟨hopened, h2, htables⟩
    · exact Effect.same
    · rw [htables]
      exact Effect.closed hfs fd hopened h2
  | getargs buf nbytes =>
    rw [P.quiet_getargs buf nbytes h]
    exact Effect.same
  | vidmap screenStart =>
    rcases P.vidmap_cases h with ⟨-, rfl⟩ | ⟨hr, htables⟩
    · exact Effect.same
    · rw [htables]
      exact Effect.video hfs ⟨rfl, hr⟩

theorem toUInt32_eq_zero {r : Int32} : r.toUInt32 = 0 ↔ r = 0 := by
  constructor
  · intro h
    have hback := congrArg UInt32.toInt32 h
    rwa [Int32.toInt32_toUInt32] at hback
  · rintro rfl
    rfl

/-- `execute` takes a process number and keeps it, or starts a program with it, or neither. -/
theorem execute_effect {command : UInt32} {k k' : Kernel} {r : ExecResult} (fs : List Frame)
    (h : P.execute command k = .ok r k') :
    (∃ ret, r = .returned ret ∧ P.Effect False k.toTables fs k'.toTables fs) ∨
    ∃ entryPoint, r = .started entryPoint ∧
      P.Effect False k.toTables fs k'.toTables (⟨k.esp, k.ebp, k'.currProcess⟩ :: fs) := by
  rcases P.execute_cases h with ⟨rfl, htables, -⟩ | ⟨dentry, k₁, buffer, k₂, -, -, -, hk₂, hlaunch⟩
  · rw [htables]
    exact Or.inl ⟨_, rfl, Effect.same⟩
  · rw [← hk₂]
    rcases P.launch_cases hlaunch with ⟨-, rfl, htables⟩ | ⟨i, k₁, hi, -, -,
      ⟨-, rfl, htables⟩ | ⟨entryPoint, arg, -, rfl, -, htables, -⟩⟩
    · rw [htables]
      exact Or.inl ⟨_, rfl, Effect.same⟩
    · rw [htables]
      exact Or.inl ⟨_, rfl, Effect.leaked i hi⟩
    · refine Or.inr ⟨entryPoint, rfl, ?_⟩
      rw [htables]
      exact Effect.started i hi arg

/-! ## The system calls -/

/-- A system call that returns. -/
theorem plain_of_call {m m' : Machine} {c : PlainCall} {regs : Regs}
    (h : P.call m (.plain c) regs = some m') :
    m.frames ≠ [] ∧ m'.frames = m.frames ∧
      ∃ r, P.plain c (m.enter regs) = .ok r m'.kernel ∧ m'.eax = r.toUInt32 := by
  unfold call at h
  dsimp only at h
  split_ifs at h with hfs
  cases hrun : P.plain c (m.enter regs) with
  | error e k => simp [hrun] at h
  | ok r k =>
    simp only [hrun, Option.some.injEq] at h
    subst h
    exact ⟨hfs, rfl, r, rfl, rfl⟩

theorem execute_of_call {m m' : Machine} {command : UInt32} {regs : Regs}
    (h : P.call m (.execute command) regs = some m') :
    ∃ r, P.execute command (m.enter regs) = .ok r m'.kernel ∧
      ((∃ ret, r = .returned ret ∧ m'.frames = m.frames ∧ m'.eax = ret.toUInt32) ∨
       (r = .started m'.entry ∧ m'.frames =
          ⟨(m.enter regs).esp, (m.enter regs).ebp, m'.kernel.currProcess⟩ :: m.frames)) := by
  unfold call at h
  dsimp only at h
  cases hrun : P.execute command (m.enter regs) with
  | error e k => simp [hrun] at h
  | ok r k =>
    cases r with
    | returned ret =>
      simp only [hrun, Option.some.injEq] at h
      subst h
      exact ⟨_, rfl, Or.inl ⟨ret, rfl, rfl, rfl⟩⟩
    | started entryPoint =>
      simp only [hrun, Option.some.injEq] at h
      subst h
      exact ⟨_, rfl, Or.inr ⟨rfl, rfl⟩⟩

/-- `halt` does not touch memory or devices. -/
theorem halt_of_call {m m' : Machine} {status : UInt8} {regs : Regs}
    (h : P.call m (.halt status) regs = some m') :
    m.frames ≠ [] ∧ m'.kernel.toStore = m.kernel.toStore ∧
      P.Effect False (m.enter regs).toTables m.frames m'.kernel.toTables m'.frames := by
  unfold call at h
  dsimp only at h
  split_ifs at h with hfs
  unfold CheetOS.halt at h
  rw [get_bind_run, modify_bind_run, pure_run] at h
  dsimp only at h
  unfold returnToExecute at h
  split_ifs at h with hret
  dsimp only at h hret
  split at h
  · cases h
  · rename_i fs' hresume
    cases h
    exact ⟨hfs, rfl, Effect.halted hfs fs' hret hresume⟩

/-- Every system call is one of the effects. -/
theorem call_effect {m m' : Machine} {c : Call} {regs : Regs} (h : P.call m c regs = some m') :
    P.Effect (Vidmapped (.call c regs) m') (m.enter regs).toTables m.frames
      m'.kernel.toTables m'.frames := by
  cases c with
  | plain c =>
    obtain ⟨hfs, hframes, r, hrun, heax⟩ := P.plain_of_call h
    have heffect := P.plain_effect hfs hrun
    rw [hframes]
    rwa [← toUInt32_eq_zero, ← heax] at heffect
  | execute command =>
    obtain ⟨r, hrun, hend⟩ := P.execute_of_call h
    have hvideo : Vidmapped (.call (.execute command) regs) m' = False := rfl
    rw [hvideo]
    rcases P.execute_effect m.frames hrun with ⟨ret, rfl, heffect⟩ | ⟨entryPoint, rfl, heffect⟩
    · rcases hend with ⟨-, -, hframes, -⟩ | ⟨hr, -⟩
      · rw [hframes]
        exact heffect
      · cases hr
    · rcases hend with ⟨ret, hr, -⟩ | ⟨-, hframes⟩
      · cases hr
      · rw [hframes]
        exact heffect
  | halt status => exact (P.halt_of_call h).2.2

theorem call_of_step {m m' : Machine} {c : Call} {regs : Regs}
    (h : P.step m (.call c regs) = some m') :
    0 < regs.depth ∧ regs.depth ≤ stackRoom ∧ P.call m c regs = some m' := by
  unfold step at h
  dsimp only at h
  split_ifs at h with hregs
  exact ⟨hregs.1, hregs.2, h⟩

/-- A step that is a call of `execute`. -/
theorem execute_of_step {m m' : Machine} {command : UInt32} {regs : Regs}
    (h : P.step m (.call (.execute command) regs) = some m') :
    ∃ r, P.execute command (m.enter regs) = .ok r m'.kernel ∧
      ((∃ ret, r = .returned ret ∧ m'.frames = m.frames ∧ m'.eax = ret.toUInt32) ∨
       (r = .started m'.entry ∧ m'.frames =
          ⟨(m.enter regs).esp, (m.enter regs).ebp, m'.kernel.currProcess⟩ :: m.frames)) := by
  obtain ⟨-, -, hcall⟩ := P.call_of_step h
  exact P.execute_of_call hcall

/-- A step that is a write of the running program: a byte of memory changes. -/
theorem machine_of_store {m m' : Machine} {va : UInt32} {b : UInt8}
    (h : P.step m (.store va b) = some m') :
    m.frames ≠ [] ∧ ∃ a, P.translate m.kernel.toTables .user .write va = some a ∧
      m' = { m with kernel := { m.kernel with mem := Function.update m.kernel.mem a b } } := by
  unfold step at h
  dsimp only at h
  split_ifs at h with hfs
  cases htarget : P.translate m.kernel.toTables .user .write va with
  | none => simp [htarget] at h
  | some a =>
    simp only [htarget, Option.some.injEq] at h
    exact ⟨hfs, a, rfl, h.symm⟩

/-- What such a step leaves alone. -/
theorem store_of_step {m m' : Machine} {va : UInt32} {b : UInt8}
    (h : P.step m (.store va b) = some m') :
    m.frames ≠ [] ∧ m'.frames = m.frames ∧ m'.kernel.toTables = m.kernel.toTables ∧
      ∃ a, P.translate m.kernel.toTables .user .write va = some a ∧
        m'.kernel.mem = Function.update m.kernel.mem a b := by
  obtain ⟨hfs, a, htarget, rfl⟩ := P.machine_of_store h
  exact ⟨hfs, rfl, rfl, a, htarget, rfl⟩

/-- A step that is a system call which returns. -/
theorem plain_of_step {m m' : Machine} {c : PlainCall} {regs : Regs}
    (h : P.step m (.call (.plain c) regs) = some m') :
    0 < regs.depth ∧ regs.depth ≤ stackRoom ∧ m.frames ≠ [] ∧ m'.frames = m.frames ∧
      ∃ r, P.plain c (m.enter regs) = .ok r m'.kernel ∧ m'.eax = r.toUInt32 := by
  obtain ⟨h0, hroom, hcall⟩ := P.call_of_step h
  exact ⟨h0, hroom, P.plain_of_call hcall⟩

/-- A step that is a `halt`: it does not touch memory or devices. -/
theorem halt_of_step {m m' : Machine} {status : UInt8} {regs : Regs}
    (h : P.step m (.call (.halt status) regs) = some m') :
    m.frames ≠ [] ∧ m'.kernel.toStore = m.kernel.toStore := by
  obtain ⟨-, -, hcall⟩ := P.call_of_step h
  obtain ⟨hfs, hstore, -⟩ := P.halt_of_call hcall
  exact ⟨hfs, hstore⟩

/-- A call with room for its stack is a step. -/
theorem step_call {m : Machine} {regs : Regs} (h0 : 0 < regs.depth)
    (hroom : regs.depth ≤ stackRoom) (c : Call) :
    P.step m (.call c regs) = P.call m c regs := if_pos ⟨h0, hroom⟩

/-- A system call that returns is a step. -/
theorem step_of_plain {m : Machine} {c : PlainCall} {regs : Regs} {r : Int32} {k : Kernel}
    (hlive : m.frames ≠ []) (h0 : 0 < regs.depth) (hroom : regs.depth ≤ stackRoom)
    (h : P.plain c (m.enter regs) = .ok r k) :
    P.step m (.call (.plain c) regs) = some { m with kernel := k, eax := r.toUInt32 } := by
  rw [P.step_call h0 hroom]
  unfold call
  dsimp only
  rw [if_neg hlive, h]

/-- A call of `execute` that fails is a step. -/
theorem step_of_returned {m : Machine} {command : UInt32} {regs : Regs} {ret : Int32}
    {k : Kernel} (h0 : 0 < regs.depth) (hroom : regs.depth ≤ stackRoom)
    (h : P.execute command (m.enter regs) = .ok (.returned ret) k) :
    P.step m (.call (.execute command) regs)
      = some { m with kernel := k, eax := ret.toUInt32 } := by
  rw [P.step_call h0 hroom]
  unfold call
  dsimp only
  rw [h]

/-- Every step of the machine is one of the effects. -/
theorem step_effect {m m' : Machine} {e : Event} (h : P.step m e = some m') :
    (m.frames ≠ [] ∧ m'.frames = m.frames ∧ m'.kernel.toTables = m.kernel.toTables) ∨
    ∃ regs : Regs, 0 < regs.depth ∧ regs.depth ≤ stackRoom ∧
      P.Effect (Vidmapped e m') (m.enter regs).toTables m.frames m'.kernel.toTables
        m'.frames := by
  cases e with
  | store va b =>
    obtain ⟨hfs, hframes, htables, -⟩ := P.store_of_step h
    exact Or.inl ⟨hfs, hframes, htables⟩
  | call c regs =>
    obtain ⟨h0, hroom, hcall⟩ := P.call_of_step h
    exact Or.inr ⟨regs, h0, hroom, P.call_effect hcall⟩

end Platform

end CheetOS
