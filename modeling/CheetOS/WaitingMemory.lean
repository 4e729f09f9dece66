import CheetOS.CallReturn
import CheetOS.ParseHistory
import CheetOS.TextScreen

/-!
# The memory of a program that waits

While a program waits for the one it started, nothing is written to its 4 MB of physical
memory: not by the programs below it, and not by the kernel for them.

* `Aside` says that a routine keeps away from a page, `framed_aside` that all system calls
  which return do so, `aside_strtok` that the tokenizer does;
* `launch_mem` is what the load does to the rest of memory;
* `waiting_memory_step` and `waiting_memory_run` carry it through a run.
-/

namespace CheetOS

open Exec

namespace Platform

variable {P : Platform}

/-! ## Away from a page -/

theorem lt_of_inVideo {a : UInt32} (h : Screen.InVideo a) : a.toNat < 0x400000 := by
  have hvideo : video.toNat = 753664 := rfl
  have hend := h.2
  omega

theorem pageBytes_ge {pid : UInt32} (hpid : pid < numMaxProcesses) {a : ℕ}
    (ha : a ∈ pageBytes pid) : 0x800000 ≤ a := by
  have hbase := ha.1
  rw [toNat_userPage hpid] at hbase
  omega

/-- Kernel code with the page of one process mapped does not reach that of another. -/
theorem translate_notMem_page {t : Tables} (hs : P.Space t) {pid : UInt32}
    (hpid : pid < numMaxProcesses) (hne : userBase t ≠ userPage pid) {w : Paging.Access}
    {va a : UInt32} (h : P.translate t .supervisor w va = some a) : a.toNat ∉ pageBytes pid := by
  intro ha
  have hge := pageBytes_ge hpid ha
  rcases translate_supervisor_cases hs h with h | h | ⟨hlo, hhi, hbase, ha'⟩ | h
  · omega
  · omega
  · rcases hs.user with habsent | ⟨pid', hpid', hpage⟩
    · unfold userBase at hbase
      rw [habsent] at hbase
      simp at hbase
    · have huser := userBase_of_page hpid' hpage
      have hpids : pid' ≠ pid := by
        rintro rfl
        exact hne huser
      refine Set.disjoint_left.1 (disjoint_pageBytes hpid' hpid hpids) ?_ ha
      rw [huser] at ha'
      exact ⟨by omega, by omega⟩
  · omega

variable (P) in
/-- If the page of `pid` is not mapped and the cursor is on the screen, then this stays so
and the page is not written. -/
def Aside (pid : UInt32) (k k' : Kernel) : Prop :=
  P.Space k.toTables → userBase k.toTables ≠ userPage pid → k.toScreen.InBounds →
    P.Space k'.toTables ∧ userBase k'.toTables ≠ userPage pid ∧ k'.toScreen.InBounds ∧
      ∀ a : UInt32, a.toNat ∈ pageBytes pid → k'.mem a = k.mem a

theorem Aside.refl (pid : UInt32) (k : Kernel) : P.Aside pid k k :=
  fun hs hne hcursor => ⟨hs, hne, hcursor, fun _ _ => rfl⟩

theorem Aside.trans (pid : UInt32) (a b c : Kernel) (hab : P.Aside pid a b)
    (hbc : P.Aside pid b c) : P.Aside pid a c := by
  intro hs hne hcursor
  obtain ⟨hs', hne', hcursor', hmem⟩ := hab hs hne hcursor
  obtain ⟨hs'', hne'', hcursor'', hmem'⟩ := hbc hs' hne' hcursor'
  exact ⟨hs'', hne'', hcursor'', fun x hx => (hmem' x hx).trans (hmem x hx)⟩

/-- A byte that is stored somewhere else. -/
theorem aside_update {pid : UInt32} (hpid : pid < numMaxProcesses) {k k' : Kernel} {w : Paging.Access}
    {va a : UInt32} {b : UInt8} (htr : P.translate k.toTables .supervisor w va = some a)
    (htables : k'.toTables = k.toTables) (hx : k'.screenX = k.screenX) (hy : k'.screenY = k.screenY)
    (hmem : k'.mem = Function.update k.mem a b) : P.Aside pid k k' := by
  intro hs hne hcursor
  have hout := translate_notMem_page hs hpid hne htr
  rw [htables]
  refine ⟨hs, hne, ⟨?_, ?_, ?_, ?_⟩, fun x hx => ?_⟩
  · rw [hx]
    exact hcursor.x_nonneg
  · rw [hx]
    exact hcursor.x_lt
  · rw [hy]
    exact hcursor.y_nonneg
  · rw [hy]
    exact hcursor.y_lt
  · rw [hmem]
    refine Function.update_of_ne ?_ b k.mem
    rintro rfl
    exact hout hx

/-- A call that writes to the screen. -/
theorem aside_screen {pid : UInt32} (hpid : pid < numMaxProcesses) (k : Kernel) (op : Screen.Op) :
    P.Aside pid k { k with toScreen := k.toScreen.run op } := by
  intro hs hne hcursor
  refine ⟨hs, hne, hcursor.run op, fun a ha => ?_⟩
  have hout : ¬k.toScreen.Writes op a := by
    intro hwrites
    have hlow := lt_of_inVideo (hcursor.inVideo hwrites)
    have hhigh := pageBytes_ge hpid ha
    omega
  cases op with
  | putc c => exact Screen.mem_putc hout
  | clear => exact Screen.mem_clear hout

/-- **The system calls that return keep away from a page that is not mapped.** -/
theorem framed_aside {pid : UInt32} (hpid : pid < numMaxProcesses) : P.Framed (P.Aside pid) where
  refl := Aside.refl pid
  trans := Aside.trans pid
  store := by
    intro va b k u k' h
    obtain ⟨a, htr, -, rfl⟩ := P.storeByte_cases h
    exact aside_update hpid htr rfl rfl rfl rfl
  putc := fun c => keeps_modify fun k => aside_screen hpid k (.putc c)
  clear := keeps_modify fun k => aside_screen hpid k .clear
  setFile := by
    intro i f
    refine keeps_modify fun k hs hne hcursor => ?_
    exact ⟨hs.congr rfl rfl rfl, hne, hcursor, fun _ _ => rfl⟩
  mapVideo := by
    intro k hs hne hcursor
    obtain ⟨v, hm⟩ := hs.mapped
    have hpage : (P.mapVideo k.toTables).pageDirectory 32 = k.pageDirectory 32 := by
      rw [pageDirectory_mapVideo, Function.update_of_ne (by decide)]
    refine ⟨⟨⟨True, hm.mapVideo⟩, ?_⟩, ?_, hcursor, fun _ _ => rfl⟩
    · rw [hpage]
      exact hs.user
    · unfold userBase
      rw [hpage]
      exact hne
  devices := fun k pic rtc hs hne hcursor => ⟨hs, hne, hcursor, fun _ _ => rfl⟩

theorem aside_strtok {pid : UInt32} (hpid : pid < numMaxProcesses) (s : UInt32) :
    Keeps (P.Aside pid) (P.strtok s) := by
  intro k r k' h
  rcases strtok_ok rfl h with ⟨-, -, rfl⟩ | ⟨-, -, rfl, -⟩ | ⟨-, m, w, c, -, -, hend⟩
  · exact Aside.refl pid k'
  · exact fun hs hne hcursor => ⟨hs, hne, hcursor, fun _ _ => rfl⟩
  · rcases hend with ⟨-, rfl⟩ | ⟨-, a, htr, -, rfl⟩
    · exact fun hs hne hcursor => ⟨hs, hne, hcursor, fun _ _ => rfl⟩
    · exact aside_update hpid htr rfl rfl rfl rfl

/-! ## The cursor -/

variable (P) in
/-- The cursor stays on the screen. -/
theorem framed_cursor : P.Framed fun k k' => k.toScreen.InBounds → k'.toScreen.InBounds where
  refl := fun _ h => h
  trans := fun _ _ _ hab hbc h => hbc (hab h)
  store := by
    intro va b k u k' h hcursor
    obtain ⟨a, -, -, rfl⟩ := P.storeByte_cases h
    exact ⟨hcursor.x_nonneg, hcursor.x_lt, hcursor.y_nonneg, hcursor.y_lt⟩
  putc := fun c => keeps_modify fun k hcursor => hcursor.run (.putc c)
  clear := keeps_modify fun k hcursor => hcursor.run .clear
  setFile := fun _ _ => keeps_modify fun _ h => h
  mapVideo := fun _ h => h
  devices := fun _ _ _ h => h

variable (P) in
theorem cursor_strtok (s : UInt32) :
    Keeps (fun k k' => k.toScreen.InBounds → k'.toScreen.InBounds) (P.strtok s) := by
  intro k r k' h hcursor
  rcases strtok_ok rfl h with ⟨-, -, rfl⟩ | ⟨-, -, rfl, -⟩ | ⟨-, m, w, c, -, -, hend⟩
  · exact hcursor
  · exact hcursor
  · rcases hend with ⟨-, rfl⟩ | ⟨-, a, -, -, rfl⟩
    · exact hcursor
    · exact ⟨hcursor.x_nonneg, hcursor.x_lt, hcursor.y_nonneg, hcursor.y_lt⟩

theorem cursor_parse (command : UInt32) :
    Keeps (fun k k' => k.toScreen.InBounds → k'.toScreen.InBounds) (P.parse command) :=
  keeps_parse (framed_cursor P).refl (framed_cursor P).trans (cursor_strtok P) command

/-! ## The load -/

/-- A text that is printed. -/
theorem mem_puts {s : Screen} (l : List UInt8) (hcursor : s.InBounds) :
    (s.puts l).InBounds ∧ ∀ a : UInt32, 0x400000 ≤ a.toNat → (s.puts l).mem a = s.mem a := by
  induction l generalizing s with
  | nil => exact ⟨hcursor, fun _ _ => rfl⟩
  | cons c l ih =>
    obtain ⟨hafter, hmem⟩ := ih (hcursor.run (.putc c))
    refine ⟨hafter, fun a ha => (hmem a ha).trans (Screen.mem_putc fun hwrites => ?_)⟩
    have hlow := lt_of_inVideo (Screen.inVideo_of_putcWrites hcursor hwrites)
    omega

/-- The load writes to the page of the new process and to the screen. -/
theorem launch_mem {inode : UInt32} {buffer : ℕ → UInt8} {k k' : Kernel} {r : ExecResult}
    (hs : P.Space k.toTables) (hcursor : k.toScreen.InBounds)
    (h : P.launch inode buffer k = .ok r k') :
    k'.toScreen.InBounds ∧ ∀ a : UInt32, 0x400000 ≤ a.toNat →
      (∀ i, firstInactive k.pidArray = some i → a.toNat ∉ pageBytes i) → k'.mem a = k.mem a := by
  rcases P.launch_cases h with ⟨hfull, -, -⟩ | ⟨i, k₁, hi, hstore, hstay, -⟩
  · rw [P.launch_full hfull] at h
    obtain ⟨⟨⟩, k₁, hputs, h⟩ := bind_eq_ok.1 h
    obtain ⟨-, rfl⟩ := pure_eq_ok.1 h
    rw [← modify_eq_ok.1 hputs]
    obtain ⟨hafter, hmem⟩ := mem_puts tableFullMessage hcursor
    exact ⟨hafter, fun a ha _ => hmem a ha⟩
  · have hscreen : k'.toScreen = k₁.toScreen := congrArg Store.toScreen hstay
    rw [hscreen]
    refine ⟨(framed_cursor P).storeBytes _ _ hstore hcursor, fun a ha hout => ?_⟩
    have hlt := (firstInactive_eq_some hi).1
    have hspace : P.Space ({ k with toTables := k.toTables.take i } : Kernel).toTables := hs.take hlt
    have huser : userBase (k.toTables.take i) = userPage i := userBase_of_page hlt (Tables.take_user ..)
    have hlength := storeBytes_length hspace hstore
    refine storeBytes_frame hstore fun j hj htr => ?_
    have hva := toNat_programImage (lt_of_lt_of_le hj hlength)
    rcases translate_supervisor_cases hspace htr with h | h | ⟨hlo, hhi, hbase, ha'⟩ | h
    · omega
    · omega
    · rw [huser] at ha'
      exact hout i hi ⟨by omega, by omega⟩
    · omega

/-- `execute` keeps away from the page of a process that is active and not mapped. -/
theorem execute_mem {command pid : UInt32} {k k' : Kernel} {r : ExecResult}
    (hpid : pid < numMaxProcesses) (hs : P.Space k.toTables)
    (hne : userBase k.toTables ≠ userPage pid) (hcursor : k.toScreen.InBounds)
    (hactive : ∀ i, firstInactive k.pidArray = some i → i ≠ pid)
    (h : P.execute command k = .ok r k') {a : UInt32} (ha : a.toNat ∈ pageBytes pid) :
    k'.mem a = k.mem a := by
  obtain ⟨parsed, k₁, hparse, hrest⟩ := execute_parsed h
  obtain ⟨hs₁, -, hcursor₁, hmem⟩ := keeps_parse (Aside.refl pid) (Aside.trans pid)
    (aside_strtok hpid) command hparse hs hne hcursor
  rcases hrest with ⟨-, -, rfl⟩ | ⟨d, buffer, -, hlaunch⟩
  · exact hmem a ha
  · have hge := pageBytes_ge hpid ha
    have htables : k₁.toTables = k.toTables := quiet_parse command hparse
    rw [(launch_mem hs₁ hcursor₁ hlaunch).2 a (by omega) ?_, hmem a ha]
    intro i hi hin
    rw [htables] at hi
    exact Set.disjoint_left.1 (disjoint_pageBytes (firstInactive_eq_some hi).1 hpid (hactive i hi))
      hin ha

/-! ## Over a run -/

/-- The cursor is on the screen in every state. -/
theorem cursor_step {m m' : Machine} {e : Event} (hm : P.Reachable m)
    (hcursor : m.kernel.toScreen.InBounds) (h : P.step m e = some m') :
    m'.kernel.toScreen.InBounds := by
  cases e with
  | store va b =>
    obtain ⟨-, a, -, rfl⟩ := P.machine_of_store h
    exact ⟨hcursor.x_nonneg, hcursor.x_lt, hcursor.y_nonneg, hcursor.y_lt⟩
  | call c regs =>
    have henter : (m.enter regs).toScreen.InBounds := hcursor
    have hspace := space_enter hm regs
    cases c with
    | plain c =>
      obtain ⟨-, -, -, -, r, hrun, -⟩ := P.plain_of_step h
      exact (framed_cursor P).plain c hrun henter
    | halt status =>
      rw [congrArg Store.toScreen (P.halt_of_step h).2]
      exact hcursor
    | execute command =>
      obtain ⟨r, hrun, -⟩ := P.execute_of_step h
      obtain ⟨parsed, k₁, hparse, hrest⟩ := execute_parsed hrun
      have hafter := cursor_parse command hparse henter
      rcases hrest with ⟨-, -, hk⟩ | ⟨d, buffer, -, hlaunch⟩
      · rw [hk]
        exact hafter
      · have htables : k₁.toTables = (m.enter regs).toTables := quiet_parse command hparse
        exact (launch_mem (htables ▸ hspace) hafter hlaunch).1

theorem userPage_ne {p q : UInt32} (hp : p < numMaxProcesses) (hq : q < numMaxProcesses)
    (hne : p ≠ q) : userPage p ≠ userPage q := by
  intro heq
  have hnat := congrArg UInt32.toNat heq
  rw [toNat_userPage hp, toNat_userPage hq] at hnat
  exact hne (UInt32.toNat_inj.1 (by omega))

/-- **No step below a call of `execute` writes to the memory of the program that made it.** -/
theorem waiting_memory_step {m s s' : Machine} {f : Frame} {e : Event} (hlive : m.frames ≠ [])
    (hbelow : P.Below m f s) (hs : P.Reachable s) (hcursor : s.kernel.toScreen.InBounds)
    (h : P.step s e = some s') {a : UInt32} (ha : a.toNat ∈ pageBytes (runningPid m.frames)) :
    s'.kernel.mem a = s.kernel.mem a := by
  have hpid := hbelow.caller_bound hlive
  have hsf : s.frames ≠ [] := by
    obtain ⟨inner, hinner⟩ := hbelow.frames
    rw [hinner]
    exact List.append_ne_nil_of_right_ne_nil _ (List.cons_ne_nil _ _)
  have hn := hbelow.nested
  have hne : userBase s.kernel.toTables ≠ userPage (runningPid m.frames) := by
    rw [userBase_of_page hn.running_bound (hn.userPage hsf)]
    exact userPage_ne hn.running_bound hpid (UInt32.ne_of_lt (hbelow.running_ne hlive)).symm
  have hspace := space_reachable hs
  cases e with
  | store va b =>
    obtain ⟨-, -, -, a', htr, hmem⟩ := P.store_of_step h
    rw [hmem]
    refine Function.update_of_ne ?_ b s.kernel.mem
    rintro rfl
    exact translate_notMem_page hspace hpid hne (Paging.translate_supervisor htr) ha
  | call c regs =>
    have hspace' : P.Space (s.enter regs).toTables := hspace.congr rfl rfl rfl
    cases c with
    | plain c =>
      obtain ⟨-, -, -, -, r, hrun, -⟩ := P.plain_of_step h
      exact ((framed_aside hpid).plain c hrun hspace' hne hcursor).2.2.2 a ha
    | halt status => rw [congrArg (fun t : Store => t.mem) (P.halt_of_step h).2]
    | execute command =>
      obtain ⟨r, hrun, -⟩ := P.execute_of_step h
      refine execute_mem hpid hspace' hne hcursor (fun i hi heq => ?_) hrun ha
      have hlt : s.kernel.currProcess < i := by
        rw [hn.current]
        exact (hn.enter regs).running_lt_free hsf hi
      rw [heq] at hlt
      exact absurd (UInt32.lt_trans hlt (hbelow.running_ne hlive)) (UInt32.lt_irrefl _)

/-- **While a program waits nothing is written to its memory.** -/
theorem waiting_memory_run {m m₁ m₂ : Machine} {f : Frame} {es : List Event}
    (hlive : m.frames ≠ []) (hbelow : P.Below m f m₁) (hm₁ : P.Reachable m₁)
    (hcursor : m₁.kernel.toScreen.InBounds) (hrun : Run.run P.step m₁ es = some m₂)
    (halong : Run.Along P.step (fun s => m.frames.length < s.frames.length) m₁ es) :
    P.Below m f m₂ ∧ m₂.kernel.toScreen.InBounds ∧
      ∀ a : UInt32, a.toNat ∈ pageBytes (runningPid m.frames) →
        m₂.kernel.mem a = m₁.kernel.mem a := by
  have hall := Run.along_run (J := fun s => P.Reachable s ∧ P.Below m f s ∧
      s.kernel.toScreen.InBounds ∧ ∀ a : UInt32, a.toNat ∈ pageBytes (runningPid m.frames) →
        s.kernel.mem a = m₁.kernel.mem a) ?_ halong ⟨hm₁, hbelow, hcursor, fun _ _ => rfl⟩ hrun
  · exact hall.1.2
  · rintro s e t - hdeep ⟨hs, hb, hc, hmem⟩ hstep
    refine ⟨hs.step hstep, below_step hlive hdeep hb hstep, cursor_step hs hc hstep, fun a ha => ?_⟩
    rw [waiting_memory_step hlive hb hs hc hstep ha, hmem a ha]

end Platform

end CheetOS
