import CheetOS.Overrun

/-!
# Who has the screen mapped

`vidmap` fills one entry of the only page directory there is, and neither `execute`
nor `halt` looks at it: once it is present it stays so, for every program that runs
from then on.

* `OwnVidmap` says that the program that runs asked for the mapping itself;
* `Handover` lists the calls after which another program runs;
* `screen_step` says how the entry changes, `clean_concat` what one more step
  does, and `video_mapping_kept` which runs never show the screen to a program
  that did not ask for it, as long as no `execute` overruns its buffer.
-/

namespace CheetOS

open Exec

/-- `page_directory[33]` is present. -/
def ScreenPresent (t : Tables) : Prop := Paging.present (t.pageDirectory 33) = true

instance (t : Tables) : Decidable (ScreenPresent t) :=
  inferInstanceAs (Decidable (Paging.present (t.pageDirectory 33) = true))

namespace Platform

variable (P : Platform)

/-- The program that runs in `m`, the end of a run, made a call of `vidmap` that
returned `0` since it was started: the call was made with the same programs
waiting, and none of them went on since then. -/
def OwnVidmap (m₀ : Machine) (es : List Event) (m : Machine) : Prop :=
  ∃ es₁ e es₂ m₁ m₂, es = es₁ ++ e :: es₂ ∧ Run.run P.step m₀ es₁ = some m₁ ∧
    P.step m₁ e = some m₂ ∧ Vidmapped e m₂ ∧ m₂.frames = m.frames ∧
    Run.Along P.step (fun s => m.frames.length ≤ s.frames.length) m₂ es₂

/-- If a program runs and `page_directory[33]` is present, it asked for that. -/
def Clean (m₀ : Machine) (es : List Event) (m : Machine) : Prop :=
  m.frames ≠ [] → ScreenPresent m.kernel.toTables → P.OwnVidmap m₀ es m

/-- The calls after which another program runs: an `execute` that starts a program,
and a `halt` of a program that was started by another one. -/
def Handover (m : Machine) : Event → Prop
  | .call (.execute command) regs =>
      ∃ entryPoint k, P.execute command (m.enter regs) = .ok (.started entryPoint) k
  | .call (.halt _) _ => 2 ≤ m.frames.length
  | _ => False

/-- The step is not a handover with the screen mapped. -/
def Contained (m : Machine) (e : Event) (_ : Machine) : Prop :=
  ScreenPresent m.kernel.toTables → ¬P.Handover m e

variable {P}

/-! ## The entry of the directory -/

theorem Mapped.screenPresent_iff {v : Prop} {t : Tables} (h : P.Mapped v t) :
    ScreenPresent t ↔ v := by
  unfold ScreenPresent
  by_cases hv : v
  · obtain ⟨hdir, -⟩ := h.shown hv
    obtain ⟨hpresent, -⟩ := table_flags (f := 7) P.videoPages_aligned (by decide)
    rw [hdir, hpresent]
    exact ⟨fun _ => hv, fun _ => by decide⟩
  · rw [h.hidden hv]
    exact ⟨fun hpresent => absurd hpresent (by decide), fun hv' => absurd hv' hv⟩

/-- **The entry is set by `vidmap` and never cleared.** -/
theorem screen_step {m u : Machine} {e : Event} (hm : P.Reachable m) (h : P.step m e = some u) :
    ScreenPresent u.kernel.toTables ↔ ScreenPresent m.kernel.toTables ∨ Vidmapped e u := by
  obtain ⟨m₀, es, hboot, hrun⟩ := hm
  have hmapped := mapped_run (mapped_boot hboot) hrun
  rw [(mapped_step hmapped h).screenPresent_iff, hmapped.screenPresent_iff]

theorem frames_of_vidmapped {m u : Machine} {e : Event} (h : P.step m e = some u)
    (hv : Vidmapped e u) : u.frames = m.frames := by
  obtain ⟨screenStart, regs, rfl, -⟩ := plain_of_vidmapped hv
  obtain ⟨-, -, -, hframes, -⟩ := P.plain_of_step h
  exact hframes

/-- After a handover another program runs, and after no other step. -/
theorem handover_iff {m u : Machine} {e : Event} (hm : P.Reachable m)
    (h : P.step m e = some u) : P.Handover m e ↔ u.frames ≠ m.frames ∧ u.frames ≠ [] := by
  cases e with
  | store va b =>
    obtain ⟨-, hframes, -⟩ := P.store_of_step h
    exact ⟨False.elim, fun hne => hne.1 hframes⟩
  | call c regs =>
    cases c with
    | plain c =>
      obtain ⟨-, -, -, hframes, -⟩ := P.plain_of_step h
      exact ⟨False.elim, fun hne => hne.1 hframes⟩
    | execute command =>
      obtain ⟨r, hrun, ⟨ret, rfl, hframes, -⟩ | ⟨rfl, hframes⟩⟩ := P.execute_of_step h
      · refine ⟨?_, fun hne => absurd hframes hne.1⟩
        rintro ⟨entryPoint, k, hstart⟩
        rw [hrun] at hstart
        cases hstart
      · rw [hframes]
        exact ⟨fun _ => ⟨List.cons_ne_self _ _, List.cons_ne_nil _ _⟩, fun _ => ⟨_, _, hrun⟩⟩
    | halt status =>
      obtain ⟨h0, hroom, hcall⟩ := P.call_of_step h
      obtain ⟨f, fs, hfs⟩ : ∃ f fs, m.frames = f :: fs := by
        refine List.exists_cons_of_ne_nil ?_
        intro hnil
        unfold call at hcall
        simp [hnil] at hcall
      obtain ⟨u', hu', hframes, -⟩ :=
        step_halt (nested_reachable hm) hfs h0 hroom status
      obtain rfl : u' = u := Option.some.inj (hu'.symm.trans h)
      show 2 ≤ m.frames.length ↔ _
      rw [hframes, hfs, List.length_cons]
      constructor
      · intro hlen
        refine ⟨(List.cons_ne_self f fs).symm, List.length_pos_iff.1 ?_⟩
        omega
      · rintro ⟨-, hne⟩
        have hpos := List.length_pos_iff.2 hne
        omega

/-! ## One more step -/

/-- What a program asked for stays its own as long as it runs. -/
theorem OwnVidmap.concat {m₀ m u : Machine} {es : List Event} {e : Event}
    (hrun : Run.run P.step m₀ es = some m) (h : P.step m e = some u)
    (hown : P.OwnVidmap m₀ es m) (hframes : u.frames = m.frames) :
    P.OwnVidmap m₀ (es ++ [e]) u := by
  obtain ⟨es₁, d, es₂, m₁, m₂, rfl, hm₁, hd, hv, hm₂, halong⟩ := hown
  rw [Run.run_append, hm₁] at hrun
  obtain ⟨m₂', hd', hrest⟩ := Run.run_cons_eq_some.1 hrun
  obtain rfl : m₂' = m₂ := Option.some.inj (hd'.symm.trans hd)
  refine ⟨es₁, d, es₂ ++ [e], m₁, m₂', by simp, hm₁, hd, hv, hm₂.trans hframes.symm, ?_⟩
  rw [hframes, Run.along_concat hrest h, hframes]
  exact ⟨halong, le_refl _⟩

/-- As long as no step hands over, the program that mapped the screen runs or
nothing does. -/
theorem contained_run {s t : Machine} {es : List Event} {fs : List Frame} (hs : P.Reachable s)
    (hpresent : ScreenPresent s.kernel.toTables) (hfs : s.frames = fs)
    (hkeep : Run.Steps P.step P.Contained s es) (h : Run.run P.step s es = some t) :
    t.frames = fs ∨ t.frames = [] := by
  have hall := Run.steps_run (J := fun s => P.Reachable s ∧ ScreenPresent s.kernel.toTables ∧
    (s.frames = fs ∨ s.frames = [])) ?_ hkeep ⟨hs, hpresent, Or.inl hfs⟩ h
  · exact hall.2.2
  · rintro s e t hcont ⟨hreach, hpresent, hframes⟩ hstep
    refine ⟨hreach.step hstep, (screen_step hreach hstep).2 (Or.inl hpresent), ?_⟩
    by_cases hnil : t.frames = []
    · exact Or.inr hnil
    · have hsame : t.frames = s.frames := by
        by_contra hne
        exact hcont hpresent ((handover_iff hreach hstep).2 ⟨hne, hnil⟩)
      rwa [hsame]

/-- After a handover with the screen mapped, the program that runs did not ask for it. -/
theorem not_own_of_handover {m₀ m u : Machine} {es : List Event} {e : Event}
    (hm₀ : P.Reachable m₀) (hrun : Run.run P.step m₀ es = some m) (h : P.step m e = some u)
    (hkeep : Run.Steps P.step P.Contained m₀ es) (hhand : P.Handover m e) :
    ¬P.OwnVidmap m₀ (es ++ [e]) u := by
  obtain ⟨hne, hlive⟩ := (handover_iff (hm₀.run hrun) h).1 hhand
  rintro ⟨es₁, d, es₂, m₁, m₂, heq, hm₁, hd, hv, hm₂, halong⟩
  have hm₂reach : P.Reachable m₂ :=
    hm₀.run (Run.run_concat_eq_some.2 ⟨m₁, hm₁, hd⟩)
  have hscreen : ScreenPresent m₂.kernel.toTables :=
    (screen_step (hm₀.run hm₁) hd).2 (Or.inr hv)
  rcases List.eq_nil_or_concat es₂ with rfl | ⟨es₃, e', rfl⟩
  · -- the handover itself is no `vidmap`
    obtain ⟨rfl, hde⟩ := List.append_inj' heq rfl
    obtain rfl : e = d := (List.cons.inj hde).1
    obtain rfl : m₁ = m := Option.some.inj (hm₁.symm.trans hrun)
    obtain rfl : m₂ = u := Option.some.inj (hd.symm.trans h)
    exact hne (frames_of_vidmapped h hv)
  · -- between the call of `vidmap` and the handover the same program ran
    rw [List.concat_eq_append, ← List.cons_append, ← List.append_assoc] at heq
    obtain ⟨rfl, hee⟩ := List.append_inj' heq rfl
    obtain rfl : e = e' := (List.cons.inj hee).1
    rw [Run.run_append, hm₁] at hrun
    obtain ⟨m₂', hd', hrest⟩ := Run.run_cons_eq_some.1 hrun
    obtain rfl : m₂' = m₂ := Option.some.inj (hd'.symm.trans hd)
    have hkeep₂ : Run.Steps P.step P.Contained m₂' es₃ :=
      (((Run.steps_append hm₁).1 hkeep).2 m₂' hd).2
    rw [List.concat_eq_append, Run.along_concat hrest h] at halong
    rcases contained_run hm₂reach hscreen hm₂ hkeep₂ hrest with hframes | hframes
    · exact hne hframes.symm
    · have hlast := (Run.along_run (J := fun _ => True) (fun _ _ _ _ _ _ _ => trivial) halong.1
        trivial hrest).2
      rw [hframes] at hlast
      exact hlive (List.length_eq_zero_iff.1 (Nat.le_zero.1 hlast))

/-- Steps with the screen hidden are no handover of it. -/
theorem contained_of_hidden {m : Machine} {es : List Event}
    (h : Run.Steps P.step (fun s _ _ => ¬ScreenPresent s.kernel.toTables) m es) :
    Run.Steps P.step P.Contained m es :=
  h.mono fun _ _ _ hhidden hpresent => absurd hpresent hhidden

/-- **One more step.** -/
theorem clean_concat {m₀ m u : Machine} {es : List Event} {e : Event} (hm₀ : P.Reachable m₀)
    (hrun : Run.run P.step m₀ es = some m) (h : P.step m e = some u)
    (hkeep : Run.Steps P.step P.Contained m₀ es) (hclean : P.Clean m₀ es m) :
    P.Clean m₀ (es ++ [e]) u ↔ P.Contained m e u := by
  have hm : P.Reachable m := hm₀.run hrun
  have hscreen := screen_step hm h
  constructor
  · intro hcleanu hpresent hhand
    obtain ⟨-, hlive⟩ := (handover_iff hm h).1 hhand
    exact not_own_of_handover hm₀ hrun h hkeep hhand
      (hcleanu hlive (hscreen.2 (Or.inl hpresent)))
  · intro hcont hlive hpresent
    by_cases hv : Vidmapped e u
    · exact ⟨es, e, [], m, u, rfl, hrun, h, hv, rfl, le_refl _⟩
    · have hpresentm : ScreenPresent m.kernel.toTables :=
        (hscreen.1 hpresent).resolve_right hv
      have hframes : u.frames = m.frames := by
        by_contra hne
        exact hcont hpresentm ((handover_iff hm h).2 ⟨hne, hlive⟩)
      refine OwnVidmap.concat hrun h (hclean ?_ hpresentm) hframes
      rwa [← hframes]

/-! ## Every run -/

/-- **The mapping stays with the program that asked for it** in every state of a run
if and only if no step of the run hands over with `page_directory[33]` present. -/
theorem screen_kept (P : Platform) {m₀ m : Machine} {es : List Event} (hboot : P.Boot m₀)
    (hrun : Run.run P.step m₀ es = some m) :
    (∀ es₁ m₁, es₁ <+: es → Run.run P.step m₀ es₁ = some m₁ → P.Clean m₀ es₁ m₁) ↔
      Run.Steps P.step P.Contained m₀ es := by
  have hm₀ : P.Reachable m₀ := ⟨m₀, [], hboot, rfl⟩
  induction es using List.reverseRecOn generalizing m with
  | nil =>
    refine ⟨fun _ => trivial, ?_⟩
    intro _ es₁ m₁ hpre hm₁ hlive
    obtain rfl := List.prefix_nil.1 hpre
    cases hm₁
    exact absurd hboot.frames hlive
  | append_singleton es e ih =>
    obtain ⟨t, ht, hstep⟩ := Run.run_concat_eq_some.1 hrun
    have hlast : Run.Steps P.step P.Contained t [e] ↔ P.Contained t e m := by
      simp [Run.Steps, hstep]
    rw [Run.steps_append ht, hlast]
    refine Iff.trans ?_ (and_congr_left' (ih ht))
    constructor
    · intro hall
      have hbefore : ∀ es₁ m₁, es₁ <+: es → Run.run P.step m₀ es₁ = some m₁ → P.Clean m₀ es₁ m₁ :=
        fun es₁ m₁ hpre => hall es₁ m₁ (hpre.trans (List.prefix_append es [e]))
      refine ⟨hbefore, ?_⟩
      rw [← clean_concat hm₀ ht hstep ((ih ht).1 hbefore) (hbefore es t List.prefix_rfl ht)]
      exact hall _ m List.prefix_rfl hrun
    · rintro ⟨hbefore, hcont⟩ es₁ m₁ hpre hm₁
      rcases List.prefix_concat_iff.1 hpre with rfl | hpre
      · obtain rfl : m₁ = m := Option.some.inj (hm₁.symm.trans hrun)
        exact (clean_concat hm₀ ht hstep ((ih ht).1 hbefore)
          (hbefore es t List.prefix_rfl ht)).2 hcont
      · exact hbefore es₁ m₁ hpre hm₁

/-- **The screen is only mapped for programs that asked for it exactly if no step of the run
hands over the processor while it is mapped**, in a run in which no call of `execute` overruns
its buffer. -/
theorem video_mapping_kept (P : Platform) {m₀ m : Machine} {es : List Event} (hboot : P.Boot m₀)
    (hrun : Run.run P.stepOver m₀ es = some m)
    (hfits : Run.Steps P.stepOver (fun s e _ => P.Fits s e) m₀ es) :
    Run.run P.step m₀ es = some m ∧
    ((∀ es₁ m₁, es₁ <+: es → Run.run P.step m₀ es₁ = some m₁ → P.Clean m₀ es₁ m₁) ↔
      Run.Steps P.step P.Contained m₀ es) := by
  have hinside : Run.run P.step m₀ es = some m :=
    (run_iff ⟨m₀, [], hboot, rfl⟩).2 ⟨hrun, hfits⟩
  exact ⟨hinside, screen_kept P hboot hinside⟩

/-- A program maps the screen and halts. -/
theorem video_mapping_kept_sample :
    ∃ m, Run.run samplePlatform.step sampleBoot
        [.call (.execute 0x500000) ⟨64, 0x7FFFF0⟩,
         .call (.plain (.vidmap 0x8050000)) ⟨64, 0x7FBFF0⟩,
         .call (.halt 0) ⟨64, 0x7FBFF0⟩] = some m ∧
      ∀ es₁ m₁, es₁ <+: [.call (.execute 0x500000) ⟨64, 0x7FFFF0⟩,
          .call (.plain (.vidmap 0x8050000)) ⟨64, 0x7FBFF0⟩, .call (.halt 0) ⟨64, 0x7FBFF0⟩] →
        Run.run samplePlatform.step sampleBoot es₁ = some m₁ →
        samplePlatform.Clean sampleBoot es₁ m₁ := by
  have hrun : (Run.run samplePlatform.step sampleBoot
      [.call (.execute 0x500000) ⟨64, 0x7FFFF0⟩,
       .call (.plain (.vidmap 0x8050000)) ⟨64, 0x7FBFF0⟩]).any (fun m₁ =>
        decide (m₁.frames.length = 1) &&
        (samplePlatform.step m₁ (.call (.halt 0) ⟨64, 0x7FBFF0⟩)).isSome) = true := by
    decide +kernel
  have hhidden : Run.Steps samplePlatform.step (fun s _ _ => ¬ScreenPresent s.kernel.toTables)
      sampleBoot [.call (.execute 0x500000) ⟨64, 0x7FFFF0⟩,
        .call (.plain (.vidmap 0x8050000)) ⟨64, 0x7FBFF0⟩] := by
    decide +kernel
  simp only [Option.any_eq_true, Bool.and_eq_true, decide_eq_true_eq, Option.isSome_iff_exists]
    at hrun
  obtain ⟨m₁, hm₁, hlen, m, hm⟩ := hrun
  have hall := Run.run_concat_eq_some.2 ⟨m₁, hm₁, hm⟩
  have hboot : samplePlatform.Boot sampleBoot := boot_bootMachine _ _
  obtain ⟨hover, hfits⟩ := (run_iff ⟨_, [], hboot, rfl⟩).1 hall
  refine ⟨m, hall, (video_mapping_kept samplePlatform hboot hover hfits).2.2 ?_⟩
  refine (Run.steps_append hm₁).2 ⟨contained_of_hidden hhidden, ?_⟩
  intro t _
  refine ⟨fun _ hhand => ?_, trivial⟩
  have htwo : 2 ≤ m₁.frames.length := hhand
  omega

/-- A program maps the screen and starts another one, which never calls `vidmap`;
and a program whose child mapped the screen goes on after the child has halted. -/
theorem video_mapping_leaks :
    (∃ m, Run.run samplePlatform.step sampleBoot
        [.call (.execute 0x500000) ⟨64, 0x7FFFF0⟩,
         .call (.plain (.vidmap 0x8050000)) ⟨64, 0x7FBFF0⟩,
         .call (.execute 0x500000) ⟨64, 0x7FBFF0⟩] = some m ∧
      m.frames ≠ [] ∧ ScreenPresent m.kernel.toTables ∧
      ¬samplePlatform.OwnVidmap sampleBoot
        [.call (.execute 0x500000) ⟨64, 0x7FFFF0⟩,
         .call (.plain (.vidmap 0x8050000)) ⟨64, 0x7FBFF0⟩,
         .call (.execute 0x500000) ⟨64, 0x7FBFF0⟩] m) ∧
    ∃ m, Run.run samplePlatform.step sampleBoot
        [.call (.execute 0x500000) ⟨64, 0x7FFFF0⟩, .call (.execute 0x500000) ⟨64, 0x7FBFF0⟩,
         .call (.plain (.vidmap 0x8050000)) ⟨64, 0x7F9FF0⟩,
         .call (.halt 0) ⟨64, 0x7F9FF0⟩] = some m ∧
      m.frames ≠ [] ∧ ScreenPresent m.kernel.toTables ∧
      ¬samplePlatform.OwnVidmap sampleBoot
        [.call (.execute 0x500000) ⟨64, 0x7FFFF0⟩, .call (.execute 0x500000) ⟨64, 0x7FBFF0⟩,
         .call (.plain (.vidmap 0x8050000)) ⟨64, 0x7F9FF0⟩,
         .call (.halt 0) ⟨64, 0x7F9FF0⟩] m := by
  have hboot : samplePlatform.Reachable sampleBoot := ⟨_, [], boot_bootMachine _ _, rfl⟩
  -- a handover at the end of a run that kept the screen hidden so far
  have hleak : ∀ (es : List Event) (e : Event),
      Run.Steps samplePlatform.step (fun s _ _ => ¬ScreenPresent s.kernel.toTables) sampleBoot es →
      ((Run.run samplePlatform.step sampleBoot es).any fun m₁ =>
        (samplePlatform.step m₁ e).any fun m => decide (m.frames ≠ m₁.frames) &&
          decide (m.frames ≠ []) && decide (ScreenPresent m.kernel.toTables)) = true →
      ∃ m, Run.run samplePlatform.step sampleBoot (es ++ [e]) = some m ∧ m.frames ≠ [] ∧
        ScreenPresent m.kernel.toTables ∧ ¬samplePlatform.OwnVidmap sampleBoot (es ++ [e]) m := by
    intro es e hhidden hrun
    simp only [Option.any_eq_true, Bool.and_eq_true, decide_eq_true_eq] at hrun
    obtain ⟨m₁, hm₁, m, hm, ⟨hne, hlive⟩, hpresent⟩ := hrun
    refine ⟨m, Run.run_concat_eq_some.2 ⟨m₁, hm₁, hm⟩, hlive, hpresent, ?_⟩
    exact not_own_of_handover hboot hm₁ hm (contained_of_hidden hhidden)
      ((handover_iff (hboot.run hm₁) hm).2 ⟨hne, hlive⟩)
  constructor
  · exact hleak [.call (.execute 0x500000) ⟨64, 0x7FFFF0⟩,
      .call (.plain (.vidmap 0x8050000)) ⟨64, 0x7FBFF0⟩] _ (by decide +kernel)
      (by decide +kernel)
  · exact hleak [.call (.execute 0x500000) ⟨64, 0x7FFFF0⟩,
      .call (.execute 0x500000) ⟨64, 0x7FBFF0⟩,
      .call (.plain (.vidmap 0x8050000)) ⟨64, 0x7F9FF0⟩] _ (by decide +kernel)
      (by decide +kernel)

end Platform

end CheetOS
