import CheetOS.State

/-!
# String routines (`lib.c`)

A `const char*` that is only read is given by its bytes, `none` where they cannot be
read; the null pointer is `none` instead of a byte function.  `strtok`
writes into its argument and is a routine of the kernel.

Loops over a string are bounded by the size of the address space: a loop that
has gone round it once never ends.
-/

namespace CheetOS

/-- A string pointer: `NULL`, or the bytes from it on. -/
abbrev CharPtr := Option (ℕ → Option UInt8)

/-- The number of addresses. -/
def addressSpace : ℕ := 4294967296

/-- The bytes before the first zero, from index `i` on, looking at `n` of them. -/
def cstrFrom (s : ℕ → Option UInt8) : ℕ → ℕ → Option (List UInt8)
  | 0, _ => none
  | n + 1, i =>
    match s i with
    | none => none
    | some c => if c = 0 then some [] else (cstrFrom s n (i + 1)).map (c :: ·)

/-- The string at a pointer: what `strcpy` copies. -/
def cstr (s : ℕ → Option UInt8) : Option (List UInt8) := cstrFrom s addressSpace 0

/-- `strlen`. -/
def strlen (s : ℕ → Option UInt8) : Option ℕ := (cstr s).map List.length

/-- The loop of `strncmp`, `n` bytes before its bound. -/
def strncmpFrom (s1 : ℕ → Option UInt8) (s2 : ℕ → UInt8) : ℕ → ℕ → Option Int32
  | 0, _ => some 0
  | n + 1, i =>
    match s1 i with
    | none => none
    | some c =>
      if c ≠ s2 i ∨ c = 0 then some (c.toInt8.toInt32 - (s2 i).toInt8.toInt32)
      else strncmpFrom s1 s2 n (i + 1)

/-- `strncmp(s1, s2, n)`. -/
def strncmp (s1 : ℕ → Option UInt8) (s2 : ℕ → UInt8) (n : ℕ) : Option Int32 :=
  strncmpFrom s1 s2 n 0

/-- The bytes of a string held by the kernel itself. -/
def ofList (l : List UInt8) : ℕ → Option UInt8 := fun i => some (l.getD i 0)

namespace Platform

variable (P : Platform)

/-- The bytes at an address. -/
def bytesAt (k : Kernel) (p : UInt32) : ℕ → Option UInt8 :=
  fun i => P.load k (p + UInt32.ofNat i)

/-- A string pointer that a program passed. -/
def charPtr (k : Kernel) (p : UInt32) : CharPtr :=
  if p = 0 then none else some (P.bytesAt k p)

/-- Read the string at an address. -/
def readString (p : UInt32) : K (List UInt8) := do
  let k ← get
  orUnread (cstr (P.bytesAt k p))

/-! ## strtok -/

/-- The delimiters `execute` splits at: `" "`. -/
abbrev delim : UInt8 := 0x20

/-- The second loop of `strtok`: find the end of the token that begins at `tok`,
from `s` on. -/
def strtokScan (tok : UInt32) : ℕ → UInt32 → K UInt32
  | 0, _ => throw .waiting
  | n + 1, s => do
    let c ← P.loadByte s
    if c = 0 then do
      modify fun k => { k with last := 0 }
      return tok
    else if c = delim then do
      P.storeByte s 0
      modify fun k => { k with last := s + 1 }
      return tok
    else strtokScan tok n (s + 1)

/-- The first loop of `strtok`: skip leading delimiters, from `s` on. -/
def strtokSkip : ℕ → UInt32 → K UInt32
  | 0, _ => throw .waiting
  | n + 1, s => do
    let c ← P.loadByte s
    if c = delim then strtokSkip n (s + 1)
    else if c = 0 then do
      modify fun k => { k with last := 0 }
      return 0
    else P.strtokScan s addressSpace (s + 1)

/-- `strtok(s, " ")`; `NULL` is `0`. -/
def strtok (s : UInt32) : K UInt32 := do
  let k ← get
  let s := if s = 0 then k.last else s
  if s = 0 then return 0
  P.strtokSkip addressSpace s

end Platform

/-! ## What the string routines leave alone -/

open Exec

theorem quiet_setLast (p : UInt32) :
    Keeps Quiet (modify fun k => { k with last := p } : K PUnit) := keeps_modify fun _ => rfl

namespace Platform

variable (P : Platform)

theorem keeps_readString {R : Kernel → Kernel → Prop} (hr : ∀ k, R k k)
    (ht : ∀ a b c, R a b → R b c → R a c) (p : UInt32) : Keeps R (P.readString p) :=
  keeps_bind ht (keeps_get hr) fun _ => keeps_orUnread hr _

theorem quiet_strtokScan (tok : UInt32) (n : ℕ) (s : UInt32) :
    Keeps Quiet (P.strtokScan tok n s) := by
  induction n generalizing s with
  | zero => exact keeps_throw _
  | succ n ih =>
    refine quiet_bind (P.quiet_loadByte s) fun c => keeps_ite ?_ (keeps_ite ?_ (ih (s + 1)))
    · exact quiet_bind (quiet_setLast 0) fun _ => quiet_pure tok
    · refine quiet_bind (P.quiet_storeByte s 0) fun _ => ?_
      exact quiet_bind (quiet_setLast (s + 1)) fun _ => quiet_pure tok

theorem quiet_strtokSkip (n : ℕ) (s : UInt32) : Keeps Quiet (P.strtokSkip n s) := by
  induction n generalizing s with
  | zero => exact keeps_throw _
  | succ n ih =>
    refine quiet_bind (P.quiet_loadByte s) fun c => keeps_ite (ih (s + 1)) (keeps_ite ?_ ?_)
    · exact quiet_bind (quiet_setLast 0) fun _ => quiet_pure 0
    · exact P.quiet_strtokScan s addressSpace (s + 1)

theorem quiet_strtok (s : UInt32) : Keeps Quiet (P.strtok s) :=
  quiet_bind quiet_get fun _ => keeps_ite (quiet_pure 0) (P.quiet_strtokSkip _ _)

end Platform

end CheetOS
