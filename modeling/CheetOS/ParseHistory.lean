import CheetOS.FailedExecute
import CheetOS.Framing

/-!
# What execute remembers of earlier commands

`strtok` keeps its place in the static variable `last`, and a call of `execute` that gives a
command up leaves it there.

* `parse` is the part of `execute` that looks at the command, `execute_parsed` cuts a call in
  two there, and `Derives` is what it should make of a string;
* `last_execute` says which commands leave `last` set, `last_step` that nothing else does;
* `parsing_forgets` — every command is parsed by itself in every state of a run exactly if
  no call has left words behind.
-/

namespace CheetOS

open Exec Words
open Platform (delim)

namespace Platform

variable {P : Platform}

/-! ## What execute derives from its argument -/

variable (P) in
/-- `execute`, lines 206-240: the program and the arguments that a command asks for, `none`
for the result `-1`. -/
def parse (command : UInt32) : K (Option (Dentry × (ℕ → UInt8))) := do
  match ← P.findProgram command with
  | none => return none
  | some dentry =>
    if P.isExecutable dentry.inodeNum = false then return none
    else
      let header := (readData P.fs dentry.inodeNum 0 4).2
      let buffer ← P.joinArgs bufferSize (Bytes.writeAt (fun _ => 0) 0 header)
      return some (dentry, buffer)

/-- `execute` is that and the load. -/
theorem execute_eq_parse (P : Platform) (command : UInt32) : P.execute command = (do
    match ← P.parse command with
    | none => return .returned (-1)
    | some (dentry, buffer) => P.launch dentry.inodeNum buffer) := by
  unfold execute parse
  rw [bind_assoc]
  congr 1
  funext found
  cases found with
  | none => rfl
  | some dentry =>
    dsimp only
    split_ifs
    · rfl
    · rw [bind_assoc]
      rfl

/-- What `execute` found out, and then what it did. -/
theorem execute_parsed {command : UInt32} {k k' : Kernel} {r : ExecResult}
    (h : P.execute command k = .ok r k') : ∃ parsed k₁, P.parse command k = .ok parsed k₁ ∧
      ((parsed = none ∧ r = .returned (-1) ∧ k' = k₁) ∨
       ∃ d buffer, parsed = some (d, buffer) ∧ P.launch d.inodeNum buffer k₁ = .ok r k') := by
  rw [execute_eq_parse] at h
  obtain ⟨parsed, k₁, hparse, h⟩ := bind_eq_ok.1 h
  refine ⟨parsed, k₁, hparse, ?_⟩
  cases parsed with
  | none =>
    obtain ⟨rfl, rfl⟩ := pure_eq_ok.1 h
    exact Or.inl ⟨rfl, rfl, rfl⟩
  | some found => exact Or.inr ⟨found.1, found.2, rfl, h⟩

/-- Up to the load `execute` does to the state what `strtok` does. -/
theorem keeps_parse {R : Kernel → Kernel → Prop} (hr : ∀ k, R k k)
    (ht : ∀ a b c, R a b → R b c → R a c) (hstrtok : ∀ s, Keeps R (P.strtok s))
    (command : UInt32) : Keeps R (P.parse command) := by
  refine keeps_bind ht (P.keeps_findProgram hr ht hstrtok command) fun found => ?_
  cases found with
  | none => exact keeps_pure hr _
  | some d =>
    refine keeps_ite (keeps_pure hr _) ?_
    exact keeps_bind ht (P.keeps_joinArgs hr ht hstrtok _ _) fun buffer => keeps_pure hr _

theorem quiet_parse (command : UInt32) : Keeps Quiet (P.parse command) :=
  keeps_parse Quiet.refl Quiet.trans P.quiet_strtok command

variable (P) in
/-- What the bytes of a command ask for. -/
def verdict (s : List UInt8) : Option (Dentry × List UInt8) :=
  match words delim s with
  | [] => none
  | token :: tokens =>
    match programNamed P.fs token with
    | none => none
    | some d =>
      if P.isExecutable d.inodeNum then some (d, [delim].intercalate tokens) else none

variable (P) in
/-- `parsed` is what the command `s` asks for. -/
def Derives (s : List UInt8) : Option (Dentry × (ℕ → UInt8)) → Prop
  | none => P.verdict s = none
  | some (d, buffer) => ∃ args, P.verdict s = some (d, args) ∧ Holds (fun i => some (buffer i)) args

theorem parse_cases {command : UInt32} {k k' : Kernel} {parsed : Option (Dentry × (ℕ → UInt8))}
    (h : P.parse command k = .ok parsed k') :
    (parsed = none ∧ ∃ found, P.findProgram command k = .ok found k' ∧
      ∀ d ∈ found, P.isExecutable d.inodeNum = false) ∨
    ∃ d buffer k₁, parsed = some (d, buffer) ∧ P.findProgram command k = .ok (some d) k₁ ∧
      P.isExecutable d.inodeNum = true ∧
      P.joinArgs bufferSize (Bytes.writeAt (fun _ => 0) 0 (readData P.fs d.inodeNum 0 4).2) k₁
        = .ok buffer k' := by
  unfold parse at h
  obtain ⟨found, k₁, hfind, h⟩ := bind_eq_ok.1 h
  cases found with
  | none =>
    obtain ⟨rfl, rfl⟩ := pure_eq_ok.1 h
    exact Or.inl ⟨rfl, none, hfind, by simp⟩
  | some d =>
    dsimp only at h
    split_ifs at h with hexecutable
    · obtain ⟨rfl, rfl⟩ := pure_eq_ok.1 h
      exact Or.inl ⟨rfl, some d, hfind, by simpa using hexecutable⟩
    · obtain ⟨buffer, k₂, hjoin, h⟩ := bind_eq_ok.1 h
      obtain ⟨rfl, rfl⟩ := pure_eq_ok.1 h
      exact Or.inr ⟨d, buffer, k₁, rfl, hfind, by simpa using hexecutable, hjoin⟩

theorem parse_none {command : UInt32} {k k' : Kernel} (h : P.parse command k = .ok none k') :
    ∃ found, P.findProgram command k = .ok found k' ∧
      ∀ d ∈ found, P.isExecutable d.inodeNum = false := by
  rcases parse_cases h with ⟨-, hfound⟩ | ⟨d, buffer, k₁, hsome, -⟩
  · exact hfound
  · cases hsome

theorem parse_some {command : UInt32} {k k' : Kernel} {d : Dentry} {buffer : ℕ → UInt8}
    (h : P.parse command k = .ok (some (d, buffer)) k') :
    ∃ k₁, P.findProgram command k = .ok (some d) k₁ ∧ P.isExecutable d.inodeNum = true ∧
      P.joinArgs bufferSize (Bytes.writeAt (fun _ => 0) 0 (readData P.fs d.inodeNum 0 4).2) k₁
        = .ok buffer k' := by
  rcases parse_cases h with ⟨hnone, -⟩ | ⟨d', buffer', k₁, hsome, hfound⟩
  · cases hnone
  · cases hsome
    exact ⟨k₁, hfound⟩

/-- **A string is parsed by itself**, whatever `last` is. -/
theorem parse_derives {command : UInt32} {k k' : Kernel} {s : List UInt8}
    {parsed : Option (Dentry × (ℕ → UInt8))} (hspace : P.Space k.toTables)
    (hs : Holds (P.bytesAt k command) s) (h : P.parse command k = .ok parsed k') :
    P.Derives s parsed := by
  have hcommand : command ≠ 0 := ne_zero_of_holds hspace hs
  -- the first word
  have hfirst : ∀ {found k₁}, P.findProgram command k = .ok found k₁ →
      (words delim s = [] ∧ found = none) ∨
      ∃ token tokens, words delim s = token :: tokens ∧ found = programNamed P.fs token ∧
        k₁.toTables = k.toTables ∧ P.Pending k₁ k₁.last tokens := by
    intro found k₁ hfind
    obtain ⟨p, hstrtok, hfound⟩ := findProgram_ok hfind
    rcases strtok_pending hspace (if_neg hcommand).symm (Or.inr ⟨hcommand, s, hs, rfl⟩) hstrtok with
      ⟨rfl, hnil⟩ | ⟨token, tokens, hwords, hp, htoken, hrest⟩
    · rcases hfound with ⟨-, hnone⟩ | ⟨hne, -⟩
      · exact Or.inl ⟨hnil, hnone⟩
      · exact absurd rfl hne
    · rcases hfound with ⟨h0, -⟩ | ⟨-, w, hw, hnamed⟩
      · exact absurd h0 hp
      · obtain rfl := hw.inj htoken
        exact Or.inr ⟨w, tokens, hwords, hnamed, P.quiet_strtok command hstrtok, hrest⟩
  rcases parse_cases h with ⟨rfl, found, hfind, hnot⟩ | ⟨d, buffer, k₁, rfl, hfind, hexecutable, hjoin⟩
  · show P.verdict s = none
    unfold verdict
    rcases hfirst hfind with ⟨hnil, -⟩ | ⟨token, tokens, hwords, rfl, -, -⟩
    · rw [hnil]
    · rw [hwords]
      dsimp only
      cases hd : programNamed P.fs token with
      | none => rfl
      | some d =>
        have hfalse := hnot d hd
        simp [hfalse]
  · rcases hfirst hfind with ⟨-, hnone⟩ | ⟨token, tokens, hwords, hnamed, htables, hrest⟩
    · cases hnone
    · have hne : ∀ w ∈ tokens, w ≠ [] := by
        intro w hw
        exact (mem_words (d := delim) (l := s) (hwords ▸ List.mem_cons_of_mem token hw)).1
      refine ⟨[delim].intercalate tokens, ?_, joinArgs_ok (htables ▸ hspace) hrest hne hjoin⟩
      unfold verdict
      rw [hwords]
      dsimp only
      rw [← hnamed]
      exact if_pos hexecutable

/-! ## What is left of a command -/

/-- `strtok` forgets a string when it has come to its end. -/
theorem strtok_last {p r : UInt32} {k k' : Kernel} (hspace : P.Space k.toTables)
    (h : P.strtok p k = .ok r k') (hr : r = 0) : k'.last = 0 := by
  rcases strtok_ok rfl h with ⟨h0, -, rfl⟩ | ⟨-, -, rfl, -⟩ | ⟨-, m, w, c, htoken, rfl, -⟩
  · split_ifs at h0 with hp
    · exact h0
    · exact absurd h0 hp
  · rfl
  · exact absurd hr (ne_zero_of_firstToken hspace htoken)

/-- The loop over the arguments only stops at the end of the string. -/
theorem joinLoop_last {room n : ℕ} {token : UInt32} {buffer buffer' : ℕ → UInt8} {ptr : ℕ}
    {k k' : Kernel} (hspace : P.Space k.toTables) (htoken : token = 0 → k.last = 0)
    (h : P.joinLoop room n token buffer ptr k = .ok buffer' k') : k'.last = 0 := by
  induction n generalizing token buffer ptr k with
  | zero => exact (throw_eq_ok.1 h).elim
  | succ n ih =>
    by_cases h0 : token = 0
    · rw [joinLoop, if_pos h0] at h
      obtain ⟨-, rfl⟩ := pure_eq_ok.1 h
      exact htoken h0
    · rw [joinLoop_succ h0] at h
      obtain ⟨b, k₁, hsep, hmore⟩ := bind_eq_ok.1 h
      obtain ⟨string, k₂, hread, hmore⟩ := bind_eq_ok.1 hmore
      obtain ⟨b', k₃, hcopy, hmore⟩ := bind_eq_ok.1 hmore
      obtain ⟨token', k₄, hnext, hloop⟩ := bind_eq_ok.1 hmore
      obtain rfl : k₁ = k := by
        split_ifs at hsep
        · exact (memcpyBuffer_ok hsep).2
        · exact (pure_eq_ok.1 hsep).2.symm
      obtain ⟨-, rfl⟩ := readString_ok hread
      obtain ⟨-, rfl⟩ := memcpyBuffer_ok hcopy
      have htables₄ : k₄.toTables = k₃.toTables := P.quiet_strtok 0 hnext
      exact ih (htables₄ ▸ hspace) (strtok_last hspace hnext) hloop

theorem joinArgs_last {room : ℕ} {buffer buffer' : ℕ → UInt8} {k k' : Kernel}
    (hspace : P.Space k.toTables) (h : P.joinArgs room buffer k = .ok buffer' k') : k'.last = 0 := by
  unfold joinArgs at h
  obtain ⟨token, k₁, hnext, h⟩ := bind_eq_ok.1 h
  have htables : k₁.toTables = k.toTables := P.quiet_strtok 0 hnext
  exact joinLoop_last (htables ▸ hspace) (strtok_last hspace hnext) h

theorem parse_last {command : UInt32} {k k' : Kernel} {d : Dentry} {buffer : ℕ → UInt8}
    (hspace : P.Space k.toTables) (h : P.parse command k = .ok (some (d, buffer)) k') :
    k'.last = 0 := by
  obtain ⟨k₁, hfind, -, hjoin⟩ := parse_some h
  have htables : k₁.toTables = k.toTables := P.quiet_findProgram command hfind
  exact joinArgs_last (htables ▸ hspace) hjoin

/-- The load does not touch it. -/
theorem launch_last {inode : UInt32} {buffer : ℕ → UInt8} {k k' : Kernel} {r : ExecResult}
    (h : P.launch inode buffer k = .ok r k') : k'.last = k.last := by
  rcases P.launch_cases h with ⟨hfull, -, -⟩ | ⟨i, k₁, -, hstore, hstay, -⟩
  · rw [P.launch_full hfull] at h
    obtain ⟨⟨⟩, k₁, hputs, h⟩ := bind_eq_ok.1 h
    obtain ⟨-, rfl⟩ := pure_eq_ok.1 h
    rw [← modify_eq_ok.1 hputs]
  · rw [show k'.last = k₁.last from congrArg Store.last hstay, (storeBytes_rest hstore).2]

variable (P) in
/-- The first word of the command has a space behind it and is not the name of an executable
file. -/
def LeavesWords (k : Kernel) (command : UInt32) : Prop :=
  ∃ n w, FirstToken (P.bytesAt k command) n w delim ∧
    ∀ d, programNamed P.fs w = some d → P.isExecutable d.inodeNum = false

/-- There is no word at null. -/
theorem start_ne_zero {k : Kernel} (hspace : P.Space k.toTables) {s : UInt32} {n : ℕ}
    {w : List UInt8} {c : UInt8} (h : FirstToken (P.bytesAt k s) n w c) : s ≠ 0 := by
  have hfirst : ∃ b, P.bytesAt k s 0 = some b := by
    cases n with
    | zero => exact ⟨_, Nat.zero_add 0 ▸ h.bytes 0 (List.length_pos_of_ne_nil h.ne)⟩
    | succ n => exact ⟨_, h.skip 0 (Nat.succ_pos n)⟩
  obtain ⟨b, hb⟩ := hfirst
  rw [bytesAt_zero] at hb
  exact ne_zero_of_load hspace hb

/-- As long as `last` is set `strtok` moves it. -/
theorem strtok_moves {r : UInt32} {k k' : Kernel} (hspace : P.Space k.toTables)
    (hlast : k.last ≠ 0) (h : P.strtok 0 k = .ok r k') : k'.last ≠ k.last := by
  rcases strtok_ok (if_pos rfl).symm h with ⟨h0, -, -⟩ | ⟨-, -, rfl, -⟩ |
    ⟨-, n, w, c, htoken, -, ⟨-, rfl⟩ | ⟨-, a, -, -, rfl⟩⟩
  · exact absurd h0 hlast
  · exact hlast.symm
  · exact hlast.symm
  · intro hsame
    have hmoved : k.last + UInt32.ofNat (n + w.length) + 1 = k.last := hsame
    have hone : k.last + UInt32.ofNat (n + w.length + 1) = k.last :=
      (Word32.add_ofNat_add_ofNat k.last (n + w.length) 1).symm.trans hmoved
    have hzero : k.last + UInt32.ofNat (n + w.length + 1) = k.last + UInt32.ofNat 0 := by
      rw [hone, Word32.add_ofNat_zero]
    have hsize := size_of_firstToken hspace htoken
    exact absurd (Word32.add_ofNat_inj (by omega) (by omega) hzero) (Nat.succ_ne_zero _)

/-- A command that is given up leaves nothing behind if it has no words that could be left. -/
theorem last_given_up {command : UInt32} {k k' : Kernel} (hspace : P.Space k.toTables)
    (hlast : k.last = 0) (h : P.parse command k = .ok none k') :
    k'.last = 0 ↔ ¬P.LeavesWords k command := by
  obtain ⟨found, hfind, hnot⟩ := parse_none h
  obtain ⟨token, hstrtok, hfound⟩ := findProgram_ok hfind
  rcases strtok_ok rfl hstrtok with ⟨h0, -, rfl⟩ | ⟨-, -, rfl, m, hskip, hstop⟩ |
    ⟨h0, m, w, c, htoken, rfl, hend⟩
  · refine iff_of_true hlast ?_
    rintro ⟨n, w, htoken, -⟩
    rw [if_neg (start_ne_zero hspace htoken)] at h0
    exact start_ne_zero hspace htoken h0
  · refine iff_of_true rfl ?_
    rintro ⟨n, w, htoken, -⟩
    rw [if_neg (start_ne_zero hspace htoken)] at hskip hstop
    exact htoken.not_blank hskip hstop
  · have hcommand : command ≠ 0 := by
      rintro rfl
      rw [if_pos rfl] at h0
      exact h0 hlast
    rw [if_neg hcommand] at htoken hend hfound
    rcases hfound with ⟨hnull, -⟩ | ⟨-, w', hw', rfl⟩
    · exact absurd hnull (ne_zero_of_firstToken hspace htoken)
    obtain rfl := hw'.inj (hend.holds hspace htoken)
    rcases htoken.ends with rfl | rfl
    · -- nothing is behind the word
      refine iff_of_true ?_ ?_
      · rcases hend with ⟨-, rfl⟩ | ⟨h0', -⟩
        · rfl
        · exact absurd h0' (by decide)
      · rintro ⟨n, w, htoken', -⟩
        exact absurd (htoken.inj htoken').2.2 (by decide)
    · exact iff_of_false (hend.last_ne_zero hspace) (not_not.2 ⟨m, w', htoken, hnot⟩)

/-- The first word of a command that is not given up names an executable file. -/
theorem not_leavesWords_of_parse {command : UInt32} {k k' : Kernel} {d : Dentry} {buffer : ℕ → UInt8}
    (hspace : P.Space k.toTables) (h : P.parse command k = .ok (some (d, buffer)) k') :
    ¬P.LeavesWords k command := by
  obtain ⟨k₀, hfind, hexecutable, -⟩ := parse_some h
  rintro ⟨n, w, htoken, hnot⟩
  have hname : P.CommandName k command w := by
    unfold CommandName
    rw [if_neg (start_ne_zero hspace htoken)]
    exact ⟨start_ne_zero hspace htoken, n, delim, htoken⟩
  rcases findProgram_named hspace hfind with ⟨hnone, -⟩ | ⟨w', hname', hd⟩
  · cases hnone
  · obtain rfl := hname.inj hname'
    rw [hnot d hd.symm] at hexecutable
    cases hexecutable

/-- **A call of `execute` leaves words behind** if it gives up a command that has some. -/
theorem last_execute {command : UInt32} {k k' : Kernel} {r : ExecResult}
    (hspace : P.Space k.toTables) (hlast : k.last = 0) (h : P.execute command k = .ok r k') :
    k'.last = 0 ↔ ¬P.LeavesWords k command := by
  obtain ⟨parsed, k₁, hparse, ⟨rfl, -, rfl⟩ | ⟨d, buffer, rfl, hlaunch⟩⟩ := execute_parsed h
  · exact last_given_up hspace hlast hparse
  · -- the arguments were read to the end
    refine iff_of_true ?_ (not_leavesWords_of_parse hspace hparse)
    rw [launch_last hlaunch]
    exact parse_last hspace hparse

/-! ## Over a run -/

/-- `execute` on null does nothing but return `-1`. -/
def NullRefused (P : Platform) (m : Machine) : Prop :=
  ∀ regs : Regs, 0 < regs.depth → regs.depth ≤ stackRoom →
    P.step m (.call (.execute 0) regs)
      = some { m with kernel := m.enter regs, eax := (-1 : Int32).toUInt32 }

variable (P) in
/-- In the state `m` every command is parsed by itself. -/
structure Forgetful (m : Machine) : Prop where
  /-- A string. -/
  derived : ∀ regs command s parsed k', Holds (P.bytesAt (m.enter regs) command) s →
    P.parse command (m.enter regs) = .ok parsed k' → P.Derives s parsed
  /-- No string. -/
  null : P.NullRefused m

/-- `execute` on null does nothing if there is nothing left, and only then. -/
theorem nullRefused_iff {m : Machine} (hm : P.Reachable m) :
    P.NullRefused m ↔ m.kernel.last = 0 := by
  have hspace := space_enter hm
  constructor
  · intro h
    have hstep := h ⟨64, 0⟩ (by decide) (by decide)
    obtain ⟨r, hrun, -⟩ := P.execute_of_step hstep
    by_contra hlast
    obtain ⟨parsed, k₁, hparse, ⟨rfl, -, hk⟩ | ⟨d, buffer, rfl, hlaunch⟩⟩ := execute_parsed hrun
    · obtain ⟨found, hfind, -⟩ := parse_none hparse
      obtain ⟨token, hstrtok, -⟩ := findProgram_ok hfind
      refine strtok_moves (hspace ⟨64, 0⟩) hlast hstrtok ?_
      rw [← hk]
    · have hkeep := launch_last hlaunch
      rw [parse_last (hspace ⟨64, 0⟩) hparse] at hkeep
      exact hlast hkeep
  · intro hlast regs h0 hroom
    have hstrtok : P.strtok 0 (m.enter regs) = .ok 0 (m.enter regs) := by
      unfold strtok
      have hnone : (m.enter regs).last = 0 := hlast
      rw [get_bind_run, if_pos rfl, if_pos hnone]
      rfl
    have hfind : P.findProgram 0 (m.enter regs) = .ok none (m.enter regs) := by
      unfold findProgram
      rw [bind_of_ok hstrtok, if_pos rfl]
      rfl
    have hrun : P.execute 0 (m.enter regs) = .ok (.returned (-1)) (m.enter regs) := by
      unfold execute
      rw [bind_of_ok hfind]
      rfl
    exact P.step_of_returned h0 hroom hrun

theorem forgetful_iff {m : Machine} (hm : P.Reachable m) : P.Forgetful m ↔ m.kernel.last = 0 := by
  rw [← nullRefused_iff hm]
  refine ⟨Forgetful.null, fun h => ⟨fun regs command s parsed k' hs hparse => ?_, h⟩⟩
  have hspace := space_enter hm regs
  exact parse_derives hspace hs hparse

/-- The event is no call of `execute` that leaves words behind. -/
def Finishes (P : Platform) (m : Machine) (e : Event) : Prop :=
  ∀ command regs, e = .call (.execute command) regs → ¬P.LeavesWords (m.enter regs) command

/-- Nothing but `execute` touches `last`. -/
theorem last_step {m m' : Machine} {e : Event} (hm : P.Reachable m) (hlast : m.kernel.last = 0)
    (h : P.step m e = some m') : m'.kernel.last = 0 ↔ P.Finishes m e := by
  have hother : m'.kernel.last = m.kernel.last → (∀ command regs, e ≠ .call (.execute command) regs) →
      (m'.kernel.last = 0 ↔ P.Finishes m e) := by
    intro hsame hne
    rw [hsame]
    exact iff_of_true hlast fun command regs heq => absurd heq (hne command regs)
  cases e with
  | store va b =>
    obtain ⟨-, a, -, rfl⟩ := P.machine_of_store h
    exact hother rfl (by simp)
  | call c regs =>
    cases c with
    | plain c =>
      obtain ⟨-, -, -, -, r, hrun, -⟩ := P.plain_of_step h
      have hkeep : m'.kernel.last = (m.enter regs).last := (framed_last P).plain c hrun
      exact hother hkeep (by simp)
    | halt status => exact hother (congrArg Store.last (P.halt_of_step h).2) (by simp)
    | execute command =>
      obtain ⟨r, hrun, -⟩ := P.execute_of_step h
      have hspace := space_enter hm regs
      have hnone : (m.enter regs).last = 0 := hlast
      rw [last_execute hspace hnone hrun]
      constructor
      · intro hnot command' regs' heq
        cases heq
        exact hnot
      · intro hall
        exact hall command regs rfl

/-- **Every command is parsed by itself in every state of a run exactly if no call of `execute`
on the way leaves words behind.**  `last` is a static variable and begins zeroed. -/
theorem parsing_forgets (P : Platform) {m₀ m : Machine} {es : List Event} (hboot : P.Boot m₀)
    (hlast : m₀.kernel.last = 0) (hrun : Run.run P.step m₀ es = some m) :
    Run.Along P.step P.Forgetful m₀ es ↔ Run.Steps P.step (fun s e _ => P.Finishes s e) m₀ es := by
  -- the end of the run goes along
  have hall : (Run.Along P.step P.Forgetful m₀ es → m.kernel.last = 0) ∧
      (Run.Along P.step P.Forgetful m₀ es ↔
        Run.Steps P.step (fun s e _ => P.Finishes s e) m₀ es) := by
    induction es using List.reverseRecOn generalizing m with
    | nil =>
      cases hrun
      refine ⟨fun _ => hlast, iff_of_true ?_ trivial⟩
      exact (forgetful_iff ⟨m₀, [], hboot, rfl⟩).2 hlast
    | append_singleton es e ih =>
      obtain ⟨t, ht, hstep⟩ := Run.run_concat_eq_some.1 hrun
      obtain ⟨hbefore, hiff⟩ := ih ht
      have hone : Run.Steps P.step (fun s e _ => P.Finishes s e) t [e] ↔ P.Finishes t e := by
        simp [Run.Steps, hstep]
      have hm : P.Reachable m := ⟨m₀, _, hboot, hrun⟩
      rw [Run.along_concat ht hstep, Run.steps_append ht, hone, ← hiff, forgetful_iff hm]
      refine ⟨And.right, and_congr_right fun halong => ?_⟩
      exact last_step ⟨m₀, es, hboot, ht⟩ (hbefore halong) hstep
  exact hall.2

/-- A command of one word is read to its end. -/
theorem not_leavesWords {k : Kernel} {command : UInt32} {s : List UInt8}
    (h : Holds (P.bytesAt k command) s) (hs : delim ∉ s) : ¬P.LeavesWords k command := by
  rintro ⟨n, w, htoken, -⟩
  exact hs (htoken.delim_mem h)

/-- A machine whose shell can ask for `x sh`. -/
def historyBoot : Machine :=
  bootMachine samplePlatform [(0x500000, [0x73, 0x68]), (0x500100, [0x78, 0x20, 0x73, 0x68])]

/-- The shell is started. -/
theorem parsing_forgets_sh :
    ∃ m, Run.run samplePlatform.step historyBoot [.call (.execute 0x500000) ⟨64, 0x7FFFF0⟩]
        = some m ∧
      Run.Along samplePlatform.step samplePlatform.Forgetful historyBoot
        [.call (.execute 0x500000) ⟨64, 0x7FFFF0⟩] := by
  have hrun : (Run.run samplePlatform.step historyBoot
      [.call (.execute 0x500000) ⟨64, 0x7FFFF0⟩]).isSome = true := by
    decide +kernel
  obtain ⟨m, hm⟩ := Option.isSome_iff_exists.1 hrun
  have hstring : cstr (samplePlatform.bytesAt (historyBoot.enter ⟨64, 0x7FFFF0⟩) 0x500000)
      = some [0x73, 0x68] := by
    decide +kernel
  refine ⟨m, hm, (parsing_forgets samplePlatform (boot_bootMachine _ _) rfl hm).2 ?_⟩
  refine fun t _ => ⟨fun command regs heq => ?_, trivial⟩
  cases heq
  exact not_leavesWords (cstr_eq_some.1 hstring).2 (by decide)

/-- After `x sh` has been refused, `execute` on null starts `sh`. -/
theorem parsing_remembers :
    ∃ m m', Run.run samplePlatform.step historyBoot
        [.call (.execute 0x500000) ⟨64, 0x7FFFF0⟩, .call (.execute 0x500100) ⟨64, 0⟩] = some m ∧
      samplePlatform.step m (.call (.execute 0) ⟨64, 0⟩) = some m' ∧
      m'.frames.length = m.frames.length + 1 ∧ ¬samplePlatform.Forgetful m := by
  have hrun : (Run.run samplePlatform.step historyBoot
      [.call (.execute 0x500000) ⟨64, 0x7FFFF0⟩, .call (.execute 0x500100) ⟨64, 0⟩]).any
        (fun m : Machine => (samplePlatform.step m (.call (.execute 0) ⟨64, 0⟩)).any
          fun m' => decide (m'.frames.length = m.frames.length + 1)) = true := by
    decide +kernel
  simp only [Option.any_eq_true, decide_eq_true_eq] at hrun
  obtain ⟨m, hm, m', hm', hstarted⟩ := hrun
  refine ⟨m, m', hm, hm', hstarted, fun h => ?_⟩
  rw [h.null ⟨64, 0⟩ (by decide) (by decide)] at hm'
  obtain rfl := Option.some.inj hm'
  exact absurd hstarted (Nat.ne_of_lt (Nat.lt_succ_self _))

end Platform

end CheetOS
