import Mathlib

/-!
# State-and-stop computations

A routine of a small kernel either ends normally, with a value and a new state,
or it never gives control back: it faults, it reaches undefined behaviour, or it
spins.  `EStateM ε σ` is the monad of such routines, an error `ε` being the
reason why control never comes back.

This file collects the rules the proofs need about it, for any state and any
reason:

* `bind_eq_ok`, `pure_eq_ok`, ... take a normal end of a composite routine apart, and
  `ends` tests one on concrete values;
* `bind_of_ok` runs a composite routine forwards, `bind_run_congr` compares two;
* `Keeps R x` says that every normal end of `x` is `R`-related to its beginning,
  and the `keeps_*` rules prove it from the shape of `x`, for a relation that
  is reflexive and transitive.
-/

namespace Exec

variable {ε σ α β : Type}

/-! ## Taking a normal end apart -/

theorem bind_eq_ok {x : EStateM ε σ α} {f : α → EStateM ε σ β} {s s'' : σ} {b : β} :
    (x >>= f) s = .ok b s'' ↔ ∃ a s', x s = .ok a s' ∧ f a s' = .ok b s'' := by
  show EStateM.bind x f s = _ ↔ _
  unfold EStateM.bind
  cases hx : x s with
  | ok a s' =>
    constructor
    · intro h
      exact ⟨a, s', rfl, h⟩
    · rintro ⟨a', t, heq, h⟩
      cases heq
      exact h
  | error e s' => simp

@[simp] theorem pure_eq_ok {a b : α} {s s' : σ} :
    (pure a : EStateM ε σ α) s = .ok b s' ↔ a = b ∧ s = s' := by
  show EStateM.Result.ok a s = .ok b s' ↔ _
  simp

@[simp] theorem get_eq_ok {s a s' : σ} :
    (get : EStateM ε σ σ) s = .ok a s' ↔ s = a ∧ s = s' := by
  show EStateM.Result.ok s s = .ok a s' ↔ _
  simp

@[simp] theorem modify_eq_ok {f : σ → σ} {s s' : σ} {u : PUnit} :
    (modify f : EStateM ε σ PUnit) s = .ok u s' ↔ f s = s' := by
  show EStateM.Result.ok _ (f s) = .ok u s' ↔ _
  simp

@[simp] theorem throw_eq_ok {e : ε} {s s' : σ} {a : α} :
    (throw e : EStateM ε σ α) s = .ok a s' ↔ False := by
  show EStateM.Result.error e s = .ok a s' ↔ _
  simp

/-- A test of a normal end: its value and its state meet `p`. -/
def ends (p : α → σ → Bool) : EStateM.Result ε σ α → Bool
  | .ok a s => p a s
  | .error _ _ => false

theorem ends_iff {p : α → σ → Bool} {r : EStateM.Result ε σ α} :
    ends p r = true ↔ ∃ a s, r = .ok a s ∧ p a s = true := by
  cases r with
  | ok a s =>
    constructor
    · intro h
      exact ⟨a, s, rfl, h⟩
    · rintro ⟨b, t, heq, h⟩
      cases heq
      exact h
  | error e s => simp [ends]

/-! ## Running forwards -/

theorem bind_of_ok {x : EStateM ε σ α} {s s' : σ} {a : α} (h : x s = .ok a s')
    (f : α → EStateM ε σ β) : (x >>= f) s = f a s' := by
  show EStateM.bind x f s = _
  rw [EStateM.bind, h]

theorem bind_of_error {x : EStateM ε σ α} {s s' : σ} {e : ε} (h : x s = .error e s')
    (f : α → EStateM ε σ β) : (x >>= f) s = .error e s' := by
  show EStateM.bind x f s = _
  rw [EStateM.bind, h]

/-- Two composite routines run alike if their parts do. -/
theorem bind_run_congr {x y : EStateM ε σ α} {f g : α → EStateM ε σ β} {s : σ} (hx : x s = y s)
    (hf : ∀ a s', y s = .ok a s' → f a s' = g a s') : (x >>= f) s = (y >>= g) s := by
  cases hy : y s with
  | ok a s' => rw [bind_of_ok (hx.trans hy), bind_of_ok hy, hf a s' hy]
  | error e s' => rw [bind_of_error (hx.trans hy), bind_of_error hy]

@[simp] theorem pure_run (a : α) (s : σ) : (pure a : EStateM ε σ α) s = .ok a s := rfl

@[simp] theorem get_bind_run (f : σ → EStateM ε σ β) (s : σ) : (get >>= f) s = f s s := rfl

@[simp] theorem modify_run (f : σ → σ) (s : σ) :
    (modify f : EStateM ε σ PUnit) s = .ok ⟨⟩ (f s) := rfl

@[simp] theorem modify_bind_run (g : σ → σ) (f : PUnit → EStateM ε σ β) (s : σ) :
    (modify g >>= f) s = f ⟨⟩ (g s) := rfl

@[simp] theorem throw_run (e : ε) (s : σ) : (throw e : EStateM ε σ α) s = .error e s := rfl

/-! ## Frame conditions -/

/-- Every normal end of `x` is related to the state `x` began in. -/
def Keeps (R : σ → σ → Prop) (x : EStateM ε σ α) : Prop :=
  ∀ ⦃s a s'⦄, x s = .ok a s' → R s s'

section Keeps

variable {R : σ → σ → Prop}

theorem keeps_pure (hr : ∀ s, R s s) (a : α) : Keeps R (pure a : EStateM ε σ α) := by
  intro s b s' h
  obtain ⟨-, rfl⟩ := pure_eq_ok.1 h
  exact hr s

theorem keeps_get (hr : ∀ s, R s s) : Keeps R (get : EStateM ε σ σ) := by
  intro s b s' h
  obtain ⟨-, rfl⟩ := get_eq_ok.1 h
  exact hr s

theorem keeps_modify {f : σ → σ} (h : ∀ s, R s (f s)) :
    Keeps R (modify f : EStateM ε σ PUnit) := by
  intro s u s' hs
  rw [← modify_eq_ok.1 hs]
  exact h s

theorem keeps_throw (e : ε) : Keeps R (throw e : EStateM ε σ α) := by
  intro s b s' h
  exact (throw_eq_ok.1 h).elim

theorem keeps_bind (ht : ∀ a b c, R a b → R b c → R a c) {x : EStateM ε σ α}
    {f : α → EStateM ε σ β} (hx : Keeps R x) (hf : ∀ a, Keeps R (f a)) :
    Keeps R (x >>= f) := by
  intro s b s'' h
  obtain ⟨a, s', h1, h2⟩ := bind_eq_ok.1 h
  exact ht _ _ _ (hx h1) (hf a h2)

theorem keeps_ite {c : Prop} [Decidable c] {x y : EStateM ε σ α} (hx : Keeps R x)
    (hy : Keeps R y) : Keeps R (if c then x else y) := by
  split
  · exact hx
  · exact hy

theorem Keeps.mono {S : σ → σ → Prop} (h : ∀ a b, R a b → S a b) {x : EStateM ε σ α}
    (hx : Keeps R x) : Keeps S x :=
  fun _ _ _ hs => h _ _ (hx hs)

end Keeps

end Exec
