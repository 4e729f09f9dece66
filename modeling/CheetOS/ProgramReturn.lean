import CheetOS.CommandBuffer
import CheetOS.UserCommands

/-!
# Programs that run programs

A program that has `execute` run another one, as the shell does, and waits for it.

* `Shows.executed` — `execute` leaves the page of the caller alone for a command of one word;
* `Shows.untouched` — while the program runs nobody writes to that page;
* `Shows.returned` — the caller's descriptors and arguments after the program has halted;
* `program_returns` — all of it together, for every program.
-/

namespace CheetOS

open Exec ByteMemory TextWindow Words

namespace Platform

section Caller

variable {P : Platform} {f : Frame} {F : List Frame} {v : View} {m m₁ : Machine}
  {command : UInt32} {regs : Regs} {s : List UInt8}

/-- `execute` leaves the page of its caller alone when the command is one word. -/
theorem Shows.executed (h : P.Shows f F v m) (hs : StringAt v.mem command s) (hone : delim ∉ s)
    (hexec : P.step m (.call (.execute command) regs) = some m₁) {va : UInt32}
    (hva : P.OwnAddress m.frames va) :
    m₁.kernel.mem (place m.frames va) = m.kernel.mem (place m.frames va) := by
  obtain ⟨r, hrun, -⟩ := P.execute_of_step hexec
  have hspace := space_enter h.reachable regs
  have hcursor : (m.enter regs).toScreen.InBounds := h.views.inBounds h.pos_lt
  have hholds := hs.holds h regs
  obtain ⟨parsed, k₁, hparse, hmem⟩ := execute_buffer hspace hcursor hrun
  obtain ⟨hlow, hapart⟩ := place_apart h.reachable hva
  have hkept := parse_mem hspace hholds (not_spaceBehind hholds hone) hparse
  exact (hmem _ hlow hapart).trans (congrFun hkept _)

/-- The page of the caller, by physical addresses. -/
theorem Shows.userMem_eq (h : P.Shows f F v m) {m' : Machine}
    (hdir : m'.kernel.pageDirectory 32 = m.kernel.pageDirectory 32) {va : UInt32}
    (hva : P.OwnAddress m.frames va) : userMem m' va = m'.kernel.mem (place m.frames va) := by
  have hn := nested_reachable h.reachable
  have hbase : userBase m'.kernel.toTables = userPage (runningPid m.frames) := by
    rw [userBase, hdir, ← hn.current]
    exact userBase_of_page hn.running_bound (hn.userPage h.live)
  unfold OwnAddress at hva
  rw [if_neg h.live] at hva
  rw [userMem, if_pos (offset_lt_iff_inUserPage.2 hva), hbase, place, if_neg h.live]

/-- While the program it started runs nobody writes to the page of the caller. -/
theorem Shows.untouched (h : P.Shows f F v m)
    (hexec : P.step m (.call (.execute command) regs) = some m₁)
    (hstarted : m₁.frames.length = m.frames.length + 1) {es : List Event} {m₂ m₃ : Machine}
    (hrun : Run.run P.step m₁ es = some m₂)
    (halong : Run.Along P.step (fun s => m.frames.length < s.frames.length) m₁ es)
    {regs' : Regs} {status : UInt8} (hhalt : P.step m₂ (.call (.halt status) regs') = some m₃)
    {va : UInt32} (hva : P.OwnAddress m.frames va) :
    m₃.kernel.mem (place m.frames va) = m₁.kernel.mem (place m.frames va) := by
  obtain ⟨j, -, -, hbelow⟩ := below_started h.reachable h.live hexec hstarted
  have hn := nested_reachable h.reachable
  have hcursor := cursor_step h.reachable (h.views.inBounds h.pos_lt) hexec
  have hwait := (waiting_memory_run h.live hbelow (h.reachable.step hexec) hcursor hrun halong).2.2
  have hmem : m₃.kernel.mem = m₂.kernel.mem :=
    congrArg (fun t : Store => t.mem) (P.halt_of_step hhalt).2
  rw [hmem]
  exact hwait _ (place_mem_page (hn.current ▸ hn.running_bound) h.live hva)

/-- **The caller goes on** after the program it started has halted. -/
theorem Shows.returned (h : P.Shows f F v m)
    (hexec : P.step m (.call (.execute command) regs) = some m₁)
    (hstarted : m₁.frames.length = m.frames.length + 1) {es : List Event} {m₂ m₃ : Machine}
    (hrun : Run.run P.step m₁ es = some m₂)
    (halong : Run.Along P.step (fun s => m.frames.length < s.frames.length) m₁ es)
    (hown : m₂.frames.length = m.frames.length + 1) {regs' : Regs} (h0 : 0 < regs'.depth)
    (hroom : regs'.depth ≤ stackRoom) {status : UInt8}
    (hhalt : P.step m₂ (.call (.halt status) regs') = some m₃) {w : Window (UInt8 × UInt8)}
    (hviews : m₃.kernel.toScreen.Views w) (hpos : w.pos < 2000) :
    P.Shows f F { v with window := w, mem := userMem m₃ } m₃ ∧
      m₃.kernel.pageDirectory 32 = m.kernel.pageDirectory 32 := by
  obtain ⟨i, hlast, hframes₂⟩ :=
    child_below h.reachable h.live hexec hstarted hrun halong hown
  obtain ⟨m', hstep, hframes, -, hcurr, hdir, -, hpcb, -, -⟩ :=
    child_halts h.reachable h.live hlast hframes₂ h0 hroom status
  obtain rfl := Option.some.inj (hhalt.symm.trans hstep)
  have hpid : m.kernel.currProcess = f.pid := by
    rw [(nested_reachable h.reachable).current, h.frames]
    rfl
  have hreachable := ((h.reachable.step hexec).run hrun).step hhalt
  refine ⟨⟨hreachable, hframes.trans h.frames, hviews, hpos, rfl, ?_, ?_, h.length_args⟩, hdir⟩
  · show (m₃.kernel.pcb (pcbAddr m₃.kernel.currProcess)).fileArray = v.files
    rw [hcurr, hpcb]
    exact h.files
  · rw [hpid] at hpcb
    refine ⟨nested_reachable hreachable, ⟨[], hframes.trans h.frames⟩, ?_, ?_⟩
    · rw [hpcb]
      exact h.args.arg
    · rw [hpcb]
      exact h.args.count

end Caller

/-- **A program is run by a program.**  Whatever the program `main` is that the command starts,
one that reads the keyboard or runs programs itself too: where it ends with a result, its
caller goes on with the low byte of that, with its descriptors and its arguments as they were
and with the screen that the program left.  Its page is as `execute` left it, which writes to
a command of several words, and not to one of one word. -/
theorem program_returns (P : Platform) (W : World) {f : Frame} {F : List Frame} {v : View}
    {m m₁ : Machine} {command : UInt32} {regs : Regs} {s : List UInt8} {main : U Int32}
    {status : Int32} {u₁ : User} {es : List Event} (h : P.Shows f F v m)
    (hs : StringAt v.mem command s)
    (hexec : P.step m (.call (.execute command) regs) = some m₁)
    (hstarted : m₁.frames.length = m.frames.length + 1)
    (hmain : main ⟨m₁, 0⟩ = some (status, u₁)) (hrun : Run.run P.step m₁ es = some u₁.machine)
    (halong : Run.Along P.step (fun t => m.frames.length < t.frames.length) m₁ es)
    (hown : u₁.machine.frames.length = m.frames.length + 1) :
    ∃ u, P.start W main ⟨m₁, 0⟩ = some ((), u) ∧
      u.machine.eax = status.toUInt32.toUInt8.toUInt32 ∧
      u.machine.kernel.toScreen = u₁.machine.kernel.toScreen ∧
      P.Shows f F { v with window := u₁.machine.kernel.toScreen.window, mem := userMem u.machine }
        u.machine ∧
      (∀ va, InUserPage va →
        userMem u.machine va = m₁.kernel.mem (place m.frames va)) ∧
      (delim ∉ s → userMem u.machine = v.mem) := by
  have hcursor₁ := cursor_step h.reachable (h.views.inBounds h.pos_lt) hexec
  have hcursor := cursor_reachable (h.reachable.step hexec) hcursor₁ hrun
  obtain ⟨hviews, hpos⟩ := hcursor.window_views
  have h0 := W.depth_pos u₁.calls
  have hroom := W.depth_le u₁.calls
  obtain ⟨i, hlast, hframes₂⟩ :=
    child_below h.reachable h.live hexec hstarted hrun halong hown
  obtain ⟨m₃, hhalt, -, heax, -⟩ :=
    child_halts h.reachable h.live hlast hframes₂ h0 hroom status.toUInt32.toUInt8
  have hscreen : m₃.kernel.toScreen = u₁.machine.kernel.toScreen :=
    congrArg Store.toScreen (P.halt_of_step hhalt).2
  obtain ⟨hagain, hdir⟩ := h.returned hexec hstarted hrun halong hown h0 hroom hhalt
    (hscreen ▸ hviews) hpos
  have howned {va : UInt32} (hva : InUserPage va) : P.OwnAddress m.frames va := by
    unfold OwnAddress
    rw [if_neg h.live]
    exact hva
  have hpage {va : UInt32} (hva : InUserPage va) :
      userMem m₃ va = m₁.kernel.mem (place m.frames va) := by
    rw [h.userMem_eq hdir (howned hva), h.untouched hexec hstarted hrun halong hhalt (howned hva)]
  refine ⟨⟨m₃, u₁.calls + 1⟩, start_of_main hmain hhalt, heax, hscreen, hagain,
    fun va hva => hpage hva, fun hone => ?_⟩
  rw [← h.mem]
  funext va
  by_cases hva : InUserPage va
  · rw [hpage hva, h.executed hs hone hexec (howned hva), h.userMem_eq rfl (howned hva)]
  · rw [userMem, userMem, if_neg fun hlt => hva (offset_lt_iff_inUserPage.1 hlt),
      if_neg fun hlt => hva (offset_lt_iff_inUserPage.1 hlt)]

/-! ## A sample -/

/-- A machine with the command `sh` in the kernel's page and in that of the first program, and
with the string literals of `ls` in the page of the second. -/
def nestedBoot : Machine :=
  bootMachine samplePlatform ((0x500000, bytes "sh") :: (0x800100, bytes "sh") ::
    lsStrings.map fun s => (sampleLiterals lsStrings s - 0x7400000, bytes s))

/-- The sample runs `sh`, which runs `sh` again. -/
theorem nestedBoot_started :
    ∃ m m₁, samplePlatform.step nestedBoot (.call (.execute 0x500000) ⟨64, 0x7FFFF0⟩) = some m ∧
      samplePlatform.step m (.call (.execute 0x8000100) ⟨64, 0x7FBFF0⟩) = some m₁ ∧
      m.frames.length = 1 ∧ m₁.frames.length = 2 ∧
      Stands (userMem m) 0x8000100 (bytes "sh" ++ [0]) ∧
      ∀ s ∈ lsStrings, Stands (userMem m₁) (sampleLiterals lsStrings s) (bytes s ++ [0]) := by
  have h : (samplePlatform.step nestedBoot (.call (.execute 0x500000) ⟨64, 0x7FFFF0⟩)).any
      (fun m => decide (m.frames.length = 1) &&
        decide (Stands (userMem m) 0x8000100 (bytes "sh" ++ [0])) &&
        (samplePlatform.step m (.call (.execute 0x8000100) ⟨64, 0x7FBFF0⟩)).any fun m₁ =>
          decide (m₁.frames.length = 2) && lsStrings.all fun s =>
            decide (Stands (userMem m₁) (sampleLiterals lsStrings s) (bytes s ++ [0]))) = true := by
    decide +kernel
  simp only [Option.any_eq_true, Bool.and_eq_true, decide_eq_true_eq, List.all_eq_true] at h
  obtain ⟨m, hm, ⟨hframes, hcommand⟩, m₁, hm₁, hframes₁, hstands⟩ := h
  exact ⟨m, m₁, hm, hm₁, hframes, hframes₁, hcommand, hstands⟩

/-- A program runs `ls`. -/
theorem program_returns_ls :
    ∃ (m m₁ : Machine) (f : Frame) (v : View) (u₁ u : User),
      samplePlatform.step nestedBoot (.call (.execute 0x500000) ⟨64, 0x7FFFF0⟩) = some m ∧
      samplePlatform.step m (.call (.execute 0x8000100) ⟨64, 0x7FBFF0⟩) = some m₁ ∧
      samplePlatform.Shows f [] v m ∧
      samplePlatform.start sampleWorld (samplePlatform.ls sampleWorld (sampleLiterals lsStrings)
        0x8010000) ⟨m₁, 0⟩ = some ((), u) ∧
      u.machine.eax = 0 ∧
      u.machine.kernel.toScreen = u₁.machine.kernel.toScreen ∧
      samplePlatform.Shows f [] { v with window := u₁.machine.kernel.toScreen.window } u.machine := by
  obtain ⟨m, m₁, hm, hm₁, hframes, hframes₁, hcommand, hstands⟩ := nestedBoot_started
  have hboot : samplePlatform.Reachable nestedBoot := ⟨_, [], boot_bootMachine _ _, rfl⟩
  have hstring : cstr (samplePlatform.bytesAt nestedBoot.kernel 0x500000) = some (bytes "sh") := by
    decide +kernel
  obtain ⟨f, hshows⟩ := shows_started hboot hstring hm hframes
    (cursor_step hboot (inBounds_bootMachine _ _) hm)
  have hname : StringAt (userMem m) 0x8000100 (bytes "sh") :=
    ⟨⟨by decide, by decide +kernel⟩, hcommand, by decide +kernel⟩
  have hstarted : m₁.frames.length = m.frames.length + 1 := by rw [hframes, hframes₁]
  have hcursor := cursor_step hshows.reachable (hshows.views.inBounds hshows.pos_lt) hm₁
  have hcommand' : cstr (samplePlatform.bytesAt m.kernel 0x8000100) = some (bytes "sh") :=
    cstr_eq_some.2 ⟨by decide +kernel, hname.holds hshows ⟨64, 0⟩⟩
  obtain ⟨f', hshows₁⟩ := shows_started hshows.reachable hcommand' hm₁ hstarted hcursor
  -- what `ls` does
  obtain ⟨v', hdoes, hwindow⟩ := does_ls (W := sampleWorld) (f := f') (F := m.frames)
    (v := ⟨m₁.kernel.toScreen.window, userMem m₁, samplePlatform.initFileArray,
      [delim].intercalate (words delim (bytes "sh")).tail⟩)
    (ready_sample 0x8010000 (by decide) (by decide) (by decide +kernel) hstands) rfl
    listing_sample firstNamed_dot (by decide +kernel)
  obtain ⟨u₁, hmain, hshows₂, hran⟩ := hdoes (u := ⟨m₁, 0⟩) hshows₁
  obtain ⟨es, hrun, halong⟩ := hran.events hshows₁.frames (Nat.lt_succ_self m.frames.length)
  obtain ⟨u, hstart, heax, hscreen, hagain, -, hpage⟩ := program_returns samplePlatform sampleWorld
    hshows hname hm₁ hstarted hmain hrun halong (by rw [hshows₂.frames, List.length_cons])
  rw [hpage (by decide +kernel)] at hagain
  exact ⟨m, m₁, f, _, u₁, u, hm, hm₁, hshows, hstart, heax, hscreen, hagain⟩

end Platform

end CheetOS
