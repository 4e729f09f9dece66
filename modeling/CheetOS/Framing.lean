import CheetOS.Memory

/-!
# What a system call leaves alone

The routines behind the system calls are made of a few steps: a byte that is stored, a
character that is printed, a descriptor that is set.

* `Framed R` says that the steps respect a relation between states, `Framed.plain` that
  every system call which returns respects it then;
* `framed_last` — the `last` of `strtok` stays.
-/

namespace CheetOS

open Exec

namespace Platform

variable {P : Platform}

variable (P) in
/-- The steps of the kernel's routines, but for those of `execute` and `halt`, respect `R`. -/
structure Framed (R : Kernel → Kernel → Prop) : Prop where
  refl : ∀ k, R k k
  trans : ∀ a b c, R a b → R b c → R a c
  store : ∀ va b, Keeps R (P.storeByte va b)
  putc : ∀ c, Keeps R (putc c)
  clear : Keeps R clear
  setFile : ∀ i f, Keeps R (setFile i f)
  mapVideo : ∀ k, R k { k with toTables := P.mapVideo k.toTables }
  devices : ∀ k pic rtc, R k { k with pic := pic, rtc := rtc }

namespace Framed

variable {R : Kernel → Kernel → Prop}

theorem pure (h : P.Framed R) {α : Type} (a : α) : Keeps R (Pure.pure a : K α) :=
  keeps_pure h.refl a

theorem bind (h : P.Framed R) {α β : Type} {x : K α} {f : α → K β} (hx : Keeps R x)
    (hf : ∀ a, Keeps R (f a)) : Keeps R (x >>= f) := keeps_bind h.trans hx hf

theorem get (h : P.Framed R) : Keeps R (MonadState.get : K Kernel) := keeps_get h.refl

theorem orUnread (h : P.Framed R) {α : Type} (o : Option α) : Keeps R (orUnread o) :=
  keeps_orUnread h.refl o

theorem getFileArray (h : P.Framed R) : Keeps R getFileArray := h.bind h.get fun _ => h.pure _

theorem loadByte (h : P.Framed R) (va : UInt32) : Keeps R (P.loadByte va) :=
  h.bind h.get fun _ => h.orUnread _

theorem storeBytes (h : P.Framed R) (va : UInt32) (bs : List UInt8) :
    Keeps R (P.storeBytes va bs) := by
  induction bs generalizing va with
  | nil => exact h.pure ()
  | cons b bs ih => exact h.bind (h.store va b) fun _ => ih (va + 1)

theorem loadWord (h : P.Framed R) (va : UInt32) : Keeps R (P.loadWord va) :=
  h.bind (h.loadByte _) fun _ => h.bind (h.loadByte _) fun _ => h.bind (h.loadByte _) fun _ =>
    h.bind (h.loadByte _) fun _ => h.pure _

/-! ## Terminal -/

theorem getline (h : P.Framed R) (buf : UInt32) (max : Int32) (keys : List UInt8) (lp : UInt32) :
    Keeps R (P.getline buf max keys lp) := by
  induction keys generalizing lp with
  | nil => exact keeps_throw _
  | cons key keys ih =>
    unfold Platform.getline
    refine keeps_ite ?_ (keeps_ite (keeps_ite ?_ (ih lp)) (keeps_ite ?_ (keeps_ite (ih lp)
      (keeps_ite ?_ (ih lp)))))
    · exact h.bind (h.store lp 0) fun _ => h.bind (h.putc 0x0A) fun _ => h.pure _
    · exact h.bind (h.putc 0x08) fun _ => ih (lp - 1)
    · exact h.bind h.clear fun _ => ih buf
    · exact h.bind (h.store lp _) fun _ => h.bind (h.putc _) fun _ => ih (lp + 1)

theorem terminalRead (h : P.Framed R) (fd : Int32) (buffer numChars : UInt32) (input : Input) :
    Keeps R (P.terminalRead fd buffer numChars input) :=
  keeps_ite (h.pure _) (keeps_ite (h.pure _) (h.getline _ _ _ _))

theorem writeLoop (h : P.Framed R) (buffer : UInt32) (n : ℕ) (idx : UInt32) :
    Keeps R (P.writeLoop buffer n idx) := by
  induction n generalizing idx with
  | zero => exact h.pure idx
  | succ n ih =>
    refine h.bind (h.loadByte _) fun c => keeps_ite (h.pure idx) ?_
    exact h.bind (h.putc c) fun _ => ih (idx + 1)

theorem terminalWrite (h : P.Framed R) (fd : Int32) (buffer numChars : UInt32) :
    Keeps R (P.terminalWrite fd buffer numChars) := by
  refine keeps_ite (h.pure _) (keeps_ite (h.pure _) (keeps_ite (h.pure _) ?_))
  exact h.bind (h.writeLoop buffer _ 0) fun _ => h.pure _

/-! ## Clock -/

theorem rtcOpen (h : P.Framed R) : Keeps R rtcOpen :=
  h.bind (keeps_modify fun k => h.devices k _ _) fun _ => h.pure _

theorem rtcWrite (h : P.Framed R) (buf : UInt32) (nbytes : Int32) :
    Keeps R (P.rtcWrite buf nbytes) := by
  refine h.bind (h.loadWord buf) fun _ => h.bind h.get fun k => ?_
  exact h.bind (keeps_modify fun k => h.devices k k.pic _) fun _ => h.pure _

theorem rtcRead (h : P.Framed R) (buf : UInt32) (nbytes : Int32) (input : Input) :
    Keeps R (rtcRead buf nbytes input) := by
  refine h.bind h.get fun k => keeps_ite ?_ (keeps_throw _)
  exact h.bind (keeps_modify fun k => h.devices k k.pic _) fun _ => h.pure _

/-! ## Regular files and directories -/

theorem fileOpen (h : P.Framed R) (filename : CharPtr) : Keeps R (P.fileOpen filename) := by
  refine h.bind h.getFileArray fun fileArray => ?_
  cases filename with
  | none => exact h.pure _
  | some s =>
    refine h.bind (h.orUnread _) fun len => keeps_ite (h.pure _) ?_
    refine h.bind (h.orUnread _) fun found => ?_
    cases found with
    | none => exact h.pure _
    | some d =>
      dsimp only
      cases firstAvail fileArray with
      | none => exact h.pure _
      | some idx =>
        refine keeps_ite ?_ (keeps_ite ?_ (keeps_ite ?_ (h.pure _)))
        · exact h.bind (h.setFile _ _) fun _ => h.pure _
        · exact h.bind (h.setFile _ _) fun _ => h.pure _
        · exact h.bind (h.setFile _ _) fun _ => h.bind h.rtcOpen fun _ => h.pure _

theorem fileClose (h : P.Framed R) (fd : Int32) : Keeps R (fileClose fd) := by
  refine h.bind h.getFileArray fun _ => keeps_ite (h.pure _) (keeps_ite (h.pure _) ?_)
  exact h.bind (h.setFile _ _) fun _ => h.pure _

theorem fileRead (h : P.Framed R) (fd : Int32) (buf : UInt32) (nbytes : Int32) :
    Keeps R (P.fileRead fd buf nbytes) := by
  refine h.bind h.getFileArray fun _ => keeps_ite (h.pure _) ?_
  exact h.bind (h.storeBytes buf _) fun _ => h.bind (h.setFile _ _) fun _ => h.pure _

theorem directoryOpen (h : P.Framed R) (filename : CharPtr) :
    Keeps R (P.directoryOpen filename) := by
  refine h.bind (h.orUnread _) fun found => ?_
  cases found with
  | none => exact h.pure _
  | some d => exact keeps_ite (h.pure _) (h.fileOpen filename)

theorem directoryRead (h : P.Framed R) (fd : Int32) (buf : UInt32) (nbytes : Int32) :
    Keeps R (P.directoryRead fd buf nbytes) := by
  refine h.bind h.getFileArray fun fileArray => ?_
  dsimp only
  cases readDentryByIndex P.fs (fileArray (slot fd)).filePosition with
  | none => exact h.pure _
  | some d =>
    exact h.bind (h.setFile _ _) fun _ => h.bind (h.storeBytes buf _) fun _ => h.pure _

/-! ## The system calls -/

theorem sysOpen (h : P.Framed R) (filename : UInt32) : Keeps R (P.sysOpen filename) := by
  refine h.bind h.get fun k => h.bind (h.orUnread _) fun found => ?_
  cases found with
  | none => exact h.pure _
  | some d =>
    refine keeps_ite (h.directoryOpen _) (keeps_ite ?_ (keeps_ite (h.fileOpen _) (h.pure _)))
    exact h.bind (h.fileOpen _) fun _ => keeps_ite (h.pure _) (h.fileOpen _)

theorem sysClose (h : P.Framed R) (fd : Int32) : Keeps R (P.sysClose fd) := by
  refine h.bind h.getFileArray fun _ => keeps_ite (h.pure _) (keeps_ite (h.pure _) ?_)
  refine keeps_ite (h.pure _) (keeps_ite (h.fileClose fd) (keeps_ite (h.fileClose fd) ?_))
  exact keeps_ite (h.pure _) (keeps_throw _)

theorem sysRead (h : P.Framed R) (fd : Int32) (buf : UInt32) (nbytes : Int32) (input : Input) :
    Keeps R (P.sysRead fd buf nbytes input) := by
  refine h.bind h.getFileArray fun _ => keeps_ite (h.pure _) (keeps_ite (h.pure _) ?_)
  refine keeps_ite (h.terminalRead _ _ _ _) (keeps_ite (h.fileRead _ _ _) ?_)
  exact keeps_ite (h.directoryRead _ _ _) (keeps_ite (h.rtcRead _ _ _) (keeps_throw _))

theorem sysWrite (h : P.Framed R) (fd : Int32) (buf : UInt32) (nbytes : Int32) :
    Keeps R (P.sysWrite fd buf nbytes) := by
  refine h.bind h.getFileArray fun _ => keeps_ite (h.pure _) (keeps_ite (h.pure _) ?_)
  refine keeps_ite (h.terminalWrite _ _ _) (keeps_ite (h.pure _) (keeps_ite (h.pure _) ?_))
  exact keeps_ite (h.rtcWrite _ _) (keeps_throw _)

theorem getargs (h : P.Framed R) (buf : UInt32) (nbytes : Int32) :
    Keeps R (P.getargs buf nbytes) := by
  refine keeps_ite (h.pure _) (h.bind h.get fun k => keeps_ite (h.pure _)
    (keeps_ite (h.pure _) ?_))
  cases Bytes.stringAt terminalBufferSize (k.pcb (currentPcbAddr k.toTables)).arg with
  | none => exact keeps_throw _
  | some arg => exact h.bind (h.storeBytes buf _) fun _ => h.pure _

theorem vidmap (h : P.Framed R) (screenStart : UInt32) : Keeps R (P.vidmap screenStart) := by
  refine keeps_ite (h.pure _) (h.bind (h.storeBytes _ _) fun _ => ?_)
  exact h.bind (keeps_modify h.mapVideo) fun _ => h.bind (h.storeBytes _ _) fun _ => h.pure _

/-- **A system call that returns does no more than its steps.** -/
theorem plain (h : P.Framed R) (c : PlainCall) : Keeps R (P.plain c) := by
  cases c with
  | read fd buf nbytes input => exact h.sysRead fd buf nbytes input
  | write fd buf nbytes => exact h.sysWrite fd buf nbytes
  | «open» filename => exact h.sysOpen filename
  | close fd => exact h.sysClose fd
  | getargs buf nbytes => exact h.getargs buf nbytes
  | vidmap screenStart => exact h.vidmap screenStart

end Framed

/-! ## The place of strtok -/

variable (P) in
theorem framed_last : P.Framed fun k k' => k'.last = k.last where
  refl := fun _ => rfl
  trans := fun _ _ _ hab hbc => hbc.trans hab
  store := by
    intro va b k u k' h
    obtain ⟨a, -, -, rfl⟩ := P.storeByte_cases h
    rfl
  putc := fun _ => keeps_modify fun _ => rfl
  clear := keeps_modify fun _ => rfl
  setFile := fun _ _ => keeps_modify fun _ => rfl
  mapVideo := fun _ => rfl
  devices := fun _ _ _ => rfl

end Platform

end CheetOS
