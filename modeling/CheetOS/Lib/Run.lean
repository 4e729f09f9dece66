import Mathlib

/-!
# Runs of a partial step function

A machine is a state and a step function `step : σ → ε → Option σ`; `none` means
that the machine stops on that event.  `run step s es` plays a list of events.

* `run_append`, `run_concat` cut a run in two;
* `invariant_run` is the induction rule: what one step preserves, a run preserves;
* `Along step p s es` says that `p` holds in every state of a run, its end
  included, and `along_run` is the induction rule for what holds on the way;
* `Steps step p s es` says that `p` holds of every step of a run, and `steps_run`
  is the induction rule for it;
* `run_iff_steps` compares the runs of a machine with those of one that stops more often.
-/

namespace Run

variable {σ ε : Type} (step : σ → ε → Option σ)

/-- Play a list of events. -/
def run (s : σ) (es : List ε) : Option σ := es.foldlM step s

@[simp] theorem run_nil (s : σ) : run step s [] = some s := rfl

theorem run_cons (s : σ) (e : ε) (es : List ε) :
    run step s (e :: es) = (step s e).bind fun t => run step t es := by
  simp [run, List.foldlM_cons]

variable {step}

theorem run_cons_eq_some {s t : σ} {e : ε} {es : List ε} :
    run step s (e :: es) = some t ↔ ∃ u, step s e = some u ∧ run step u es = some t := by
  rw [run_cons, Option.bind_eq_some_iff]

theorem run_one {s t : σ} {e : ε} : run step s [e] = some t ↔ step s e = some t := by
  simp [run_cons]

theorem run_append (s : σ) (es fs : List ε) :
    run step s (es ++ fs) = (run step s es).bind fun t => run step t fs := by
  simp [run, List.foldlM_append]

theorem run_concat_eq_some {s t : σ} {es : List ε} {e : ε} :
    run step s (es ++ [e]) = some t ↔ ∃ u, run step s es = some u ∧ step u e = some t := by
  rw [run_append, Option.bind_eq_some_iff]
  simp [run_cons]

/-- **The invariant rule.**  What holds at the start and is preserved by every
step holds at the end of every run. -/
theorem invariant_run {I : σ → Prop} (hstep : ∀ s e t, I s → step s e = some t → I t)
    {s t : σ} {es : List ε} (hs : I s) (h : run step s es = some t) : I t := by
  induction es generalizing s with
  | nil =>
    cases h
    exact hs
  | cons e es ih =>
    obtain ⟨u, hu, hrest⟩ := run_cons_eq_some.1 h
    exact ih (hstep s e u hs hu) hrest

/-- Every state of the run of `es` from `s`, the first and the last included,
satisfies `p`. -/
def Along (step : σ → ε → Option σ) (p : σ → Prop) : σ → List ε → Prop
  | s, [] => p s
  | s, e :: es => p s ∧ ∀ t, step s e = some t → Along step p t es

instance Along.decidable (step : σ → ε → Option σ) (p : σ → Prop) [DecidablePred p] :
    ∀ s es, Decidable (Along step p s es)
  | s, [] => inferInstanceAs (Decidable (p s))
  | s, e :: es =>
    match h : step s e with
    | none => decidable_of_iff (p s) (by simp [Along, h])
    | some t =>
      have := Along.decidable step p t es
      decidable_of_iff (p s ∧ Along step p t es) (by simp [Along, h])

theorem Along.head {p : σ → Prop} {s : σ} {es : List ε} (h : Along step p s es) : p s := by
  cases es with
  | nil => exact h
  | cons e es => exact h.1

/-- **The rule for what holds on the way.**  If every step between two states
that satisfy `p` preserves `J`, then `J` is preserved by every run that stays
in `p`. -/
theorem along_run {p J : σ → Prop}
    (hstep : ∀ s e t, p s → p t → J s → step s e = some t → J t)
    {s t : σ} {es : List ε} (hp : Along step p s es) (hs : J s)
    (h : run step s es = some t) : J t ∧ p t := by
  induction es generalizing s with
  | nil =>
    cases h
    exact ⟨hs, hp⟩
  | cons e es ih =>
    obtain ⟨u, hu, hrest⟩ := run_cons_eq_some.1 h
    have hpu : Along step p u es := hp.2 u hu
    exact ih hpu (hstep s e u hp.1 hpu.head hs hu) hrest

/-- A run with one more event. -/
theorem along_concat {p : σ → Prop} {s t u : σ} {es : List ε} {e : ε}
    (h : run step s es = some t) (hu : step t e = some u) :
    Along step p s (es ++ [e]) ↔ Along step p s es ∧ p u := by
  induction es generalizing s with
  | nil =>
    cases h
    simp [Along, hu]
  | cons d es ih =>
    obtain ⟨v, hv, hrest⟩ := run_cons_eq_some.1 h
    simp only [List.cons_append, Along, hv, Option.some.injEq, forall_eq', ih hrest, and_assoc]

/-- Every step of the run of `es` from `s` satisfies `p`. -/
def Steps (step : σ → ε → Option σ) (p : σ → ε → σ → Prop) : σ → List ε → Prop
  | _, [] => True
  | s, e :: es => ∀ t, step s e = some t → p s e t ∧ Steps step p t es

instance Steps.decidable (step : σ → ε → Option σ) (p : σ → ε → σ → Prop)
    [∀ s e t, Decidable (p s e t)] : ∀ s es, Decidable (Steps step p s es)
  | _, [] => inferInstanceAs (Decidable True)
  | s, e :: es =>
    match h : step s e with
    | none => decidable_of_iff True (by simp [Steps, h])
    | some t =>
      have := Steps.decidable step p t es
      decidable_of_iff (p s e t ∧ Steps step p t es) (by simp [Steps, h])

theorem Steps.mono {p q : σ → ε → σ → Prop} (hpq : ∀ s e t, p s e t → q s e t) {s : σ}
    {es : List ε} (h : Steps step p s es) : Steps step q s es := by
  induction es generalizing s with
  | nil => trivial
  | cons e es ih =>
    intro t ht
    obtain ⟨hp, hrest⟩ := h t ht
    exact ⟨hpq s e t hp, ih hrest⟩

theorem steps_append {p : σ → ε → σ → Prop} {s t : σ} {es fs : List ε}
    (h : run step s es = some t) :
    Steps step p s (es ++ fs) ↔ Steps step p s es ∧ Steps step p t fs := by
  induction es generalizing s with
  | nil =>
    cases h
    simp [Steps]
  | cons e es ih =>
    obtain ⟨u, hu, hrest⟩ := run_cons_eq_some.1 h
    simp only [List.cons_append, Steps, hu, Option.some.injEq, forall_eq', ih hrest, and_assoc]

/-- **The rule for steps that satisfy a condition.** -/
theorem steps_run {p : σ → ε → σ → Prop} {J : σ → Prop}
    (hstep : ∀ s e t, p s e t → J s → step s e = some t → J t)
    {s t : σ} {es : List ε} (hp : Steps step p s es) (hs : J s)
    (h : run step s es = some t) : J t := by
  induction es generalizing s with
  | nil =>
    cases h
    exact hs
  | cons e es ih =>
    obtain ⟨u, hu, hrest⟩ := run_cons_eq_some.1 h
    obtain ⟨hpu, hpes⟩ := hp u hu
    exact ih hpes (hstep s e u hpu hs hu) hrest

/-- **Two machines.**  If the steps of one are those of the other that satisfy a condition,
its runs are the runs of the other whose steps all satisfy it. -/
theorem run_iff_steps {less : σ → ε → Option σ} {I : σ → Prop} {p : σ → ε → σ → Prop}
    (hkeep : ∀ s e t, I s → less s e = some t → I t)
    (hstep : ∀ s e t, I s → (less s e = some t ↔ step s e = some t ∧ p s e t))
    {s t : σ} {es : List ε} (hs : I s) :
    run less s es = some t ↔ run step s es = some t ∧ Steps step p s es := by
  induction es generalizing s with
  | nil => simp [Steps]
  | cons e es ih =>
    rw [run_cons_eq_some, run_cons_eq_some]
    constructor
    · rintro ⟨u, hu, hrest⟩
      obtain ⟨hu', hp⟩ := (hstep s e u hs).1 hu
      obtain ⟨hrest', hps⟩ := (ih (hkeep s e u hs hu)).1 hrest
      refine ⟨⟨u, hu', hrest'⟩, fun v hv => ?_⟩
      obtain rfl := Option.some.inj (hu'.symm.trans hv)
      exact ⟨hp, hps⟩
    · rintro ⟨⟨u, hu', hrest'⟩, hall⟩
      obtain ⟨hp, hps⟩ := hall u hu'
      have hu := (hstep s e u hs).2 ⟨hu', hp⟩
      exact ⟨u, hu, (ih (hkeep s e u hs hu)).2 ⟨hrest', hps⟩⟩

end Run
