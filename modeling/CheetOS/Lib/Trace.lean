import CheetOS.Lib.Exec
import CheetOS.Lib.Word32

/-!
# Routines that write through a pointer

A routine that fills a buffer, written out as the list of what it does: bytes stored
through the pointer, and everything else.  Which of the bytes are written depends on
the memory: the routine ends at the first address that is not there.

* `play` runs such a list, `writes` is the list of the addresses it has written;
* `Sweeps buf n l N` says that `l` fills the buffer without gaps, from its first `n`
  bytes to its first `N`;
* `mem_writes` and `writes_of_mapped` say, for such a list, that it has written the
  bytes up to the first address that is not there, and no others;
* `writes_within_iff` says when it keeps to the first bytes of the buffer.
-/

namespace Trace

open Exec

/-- One action: a byte is stored through the pointer, or something else is done. -/
inductive Act (σ : Type)
  | write (va : UInt32) (b : UInt8)
  | other (f : σ → σ)

/-- What a routine does, and how it ends. -/
structure Routine (ε σ α : Type) where
  acts : List (Act σ)
  result : Except ε α

variable {ε σ α : Type}

/-- The routine after some more actions. -/
def Routine.after (l : List (Act σ)) (r : Routine ε σ α) : Routine ε σ α :=
  { r with acts := l ++ r.acts }

/-- The actions that store bytes one after the other. -/
def storeAll : UInt32 → List UInt8 → List (Act σ)
  | _, [] => []
  | va, b :: bs => .write va b :: storeAll (va + 1) bs

/-! ## Running -/

section Play

variable (store : UInt32 → UInt8 → EStateM ε σ Unit)

/-- One action. -/
def act : Act σ → EStateM ε σ Unit
  | .write va b => store va b
  | .other f => modify f

/-- A list of actions. -/
def perform : List (Act σ) → EStateM ε σ Unit
  | [] => pure ()
  | a :: l => do
    act store a
    perform l

/-- A routine. -/
def play (r : Routine ε σ α) : EStateM ε σ α := do
  perform store r.acts
  match r.result with
  | .ok a => pure a
  | .error e => throw e

theorem play_write (va : UInt32) (b : UInt8) (l : List (Act σ)) (r : Except ε α) :
    play store ⟨.write va b :: l, r⟩ = (do
      store va b
      play store ⟨l, r⟩) := bind_assoc (store va b) (fun _ => perform store l) _

theorem play_other (f : σ → σ) (l : List (Act σ)) (r : Except ε α) :
    play store ⟨.other f :: l, r⟩ = (do
      modify f
      play store ⟨l, r⟩) := rfl

theorem play_append (l l' : List (Act σ)) (r : Except ε α) :
    play store ⟨l ++ l', r⟩ = (do
      perform store l
      play store ⟨l', r⟩) := by
  induction l with
  | nil => rfl
  | cons a l ih =>
    have hcons : ∀ l, play store (⟨a :: l, r⟩ : Routine ε σ α) = (do
        act store a
        play store ⟨l, r⟩) := fun l => bind_assoc (act store a) (fun _ => perform store l) _
    rw [List.cons_append, hcons, ih]
    exact (bind_assoc (act store a) (fun _ => perform store l) _).symm

end Play

/-! ## What is written -/

section Writes

variable (store : UInt32 → UInt8 → EStateM ε σ Unit) (lost : ε → Bool)

/-- The addresses written by a list of actions.  A store that ends the routine has
written its byte unless the reason is one of `lost`. -/
def writes : σ → List (Act σ) → List UInt32
  | _, [] => []
  | s, .other f :: l => writes (f s) l
  | s, .write va b :: l =>
    match store va b s with
    | .ok _ s' => va :: writes s' l
    | .error e _ => if lost e then [] else [va]

/-- In the states of `I`, the addresses of `mapped` are those where a byte can be
written, and behind those of `safe` the routine goes on. -/
structure Maps (I : σ → Prop) (mapped safe : UInt32 → Prop) : Prop where
  unmapped : ∀ {s va} (b : UInt8), I s → ¬mapped va →
    ∃ e s', store va b s = .error e s' ∧ lost e = true
  mapped : ∀ {s va} (b : UInt8), I s → mapped va →
    (∃ s', store va b s = .ok () s' ∧ I s') ∨ ∃ e s', store va b s = .error e s' ∧ lost e = false
  safe : ∀ {s va} (b : UInt8), I s → safe va → ∃ s', store va b s = .ok () s' ∧ I s'

/-- The other actions stay in the states of `I`. -/
def Calm (I : σ → Prop) (l : List (Act σ)) : Prop := ∀ f, Act.other f ∈ l → ∀ s, I s → I (f s)

theorem calm_nil (I : σ → Prop) : Calm I [] := fun _ hf => absurd hf List.not_mem_nil

theorem calm_write {I : σ → Prop} {l : List (Act σ)} (h : Calm I l) (va : UInt32) (b : UInt8) :
    Calm I (.write va b :: l) := by
  intro f hf
  rcases List.mem_cons.1 hf with heq | hf
  · cases heq
  · exact h f hf

theorem calm_other {I : σ → Prop} {l : List (Act σ)} (h : Calm I l) {f : σ → σ}
    (hf : ∀ s, I s → I (f s)) : Calm I (.other f :: l) := by
  intro g hg
  rcases List.mem_cons.1 hg with heq | hg
  · cases heq
    exact hf
  · exact h g hg

theorem calm_storeAll (I : σ → Prop) (va : UInt32) (bs : List UInt8) :
    Calm I (storeAll va bs) := by
  induction bs generalizing va with
  | nil => exact calm_nil I
  | cons b bs ih => exact calm_write (ih (va + 1)) va b

theorem Calm.append {I : σ → Prop} {l l' : List (Act σ)} (h : Calm I l) (h' : Calm I l') :
    Calm I (l ++ l') := by
  intro f hf
  rcases List.mem_append.1 hf with hf | hf
  · exact h f hf
  · exact h' f hf

theorem mem_storeAll {va buf : UInt32} {b : UInt8} {bs : List UInt8}
    (h : Act.write va b ∈ (storeAll buf bs : List (Act σ))) :
    ∃ i < bs.length, va = buf + UInt32.ofNat i := by
  induction bs generalizing buf with
  | nil => cases h
  | cons b' bs ih =>
    rcases List.mem_cons.1 h with heq | h
    · cases heq
      exact ⟨0, Nat.succ_pos _, (Word32.add_ofNat_zero va).symm⟩
    · obtain ⟨i, hi, hva⟩ := ih h
      exact ⟨i + 1, Nat.succ_lt_succ hi, hva.trans (Word32.add_one_add_ofNat buf i)⟩

theorem Calm.tail {I : σ → Prop} {a : Act σ} {l : List (Act σ)} (h : Calm I (a :: l)) :
    Calm I l := fun f hf => h f (List.mem_cons_of_mem a hf)

variable {store lost}

/-- What was written stands in the list. -/
theorem write_mem_of_mem_writes {s : σ} {l : List (Act σ)} {va : UInt32}
    (h : va ∈ writes store lost s l) : ∃ b, Act.write va b ∈ l := by
  induction l generalizing s with
  | nil => cases h
  | cons a l ih =>
    cases a with
    | other f =>
      obtain ⟨b, hb⟩ := ih h
      exact ⟨b, List.mem_cons_of_mem _ hb⟩
    | write va' b' =>
      unfold writes at h
      split at h
      · rcases List.mem_cons.1 h with rfl | h
        · exact ⟨b', List.mem_cons_self⟩
        · obtain ⟨b, hb⟩ := ih h
          exact ⟨b, List.mem_cons_of_mem _ hb⟩
      · split at h
        · cases h
        · obtain rfl := List.mem_singleton.1 h
          exact ⟨b', List.mem_cons_self⟩

/-! ## Filling a buffer -/

/-- The first `n` bytes of the buffer at `buf` were stored before; every store is
to one of the bytes stored before or to the next one, and in the end the first `N` were
stored. -/
def Sweeps (buf : UInt32) : ℕ → List (Act σ) → ℕ → Prop
  | n, [], N => n = N
  | n, .other _ :: l, N => Sweeps buf n l N
  | n, .write va _ :: l, N =>
    ∃ i ≤ n, va = buf + UInt32.ofNat i ∧ Sweeps buf (max n (i + 1)) l N

theorem Sweeps.le {buf : UInt32} {n N : ℕ} {l : List (Act σ)} (h : Sweeps buf n l N) : n ≤ N := by
  induction l generalizing n with
  | nil => exact Nat.le_of_eq h
  | cons a l ih =>
    cases a with
    | other f => exact ih h
    | write va b =>
      obtain ⟨i, -, -, h⟩ := h
      exact (Nat.le_max_left n (i + 1)).trans (ih h)

theorem Sweeps.append {buf : UInt32} {n M N : ℕ} {l l' : List (Act σ)} (h : Sweeps buf n l M)
    (h' : Sweeps buf M l' N) : Sweeps buf n (l ++ l') N := by
  induction l generalizing n with
  | nil =>
    cases h
    exact h'
  | cons a l ih =>
    cases a with
    | other f => exact ih h
    | write va b =>
      obtain ⟨i, hi, hva, h⟩ := h
      exact ⟨i, hi, hva, ih h⟩

theorem sweeps_storeAll (buf : UInt32) (n : ℕ) (bs : List UInt8) :
    Sweeps buf n (storeAll (buf + UInt32.ofNat n) bs : List (Act σ)) (n + bs.length) := by
  induction bs generalizing n with
  | nil => rfl
  | cons b bs ih =>
    refine ⟨n, le_refl n, rfl, ?_⟩
    have hnext : buf + UInt32.ofNat n + 1 = buf + UInt32.ofNat (n + 1) :=
      Word32.add_ofNat_add_ofNat buf n 1
    rw [max_eq_right (Nat.le_succ n), hnext, List.length_cons, Nat.add_comm bs.length 1,
      ← Nat.add_assoc]
    exact ih (n + 1)

theorem sweeps_buffer (buf : UInt32) (bs : List UInt8) :
    Sweeps buf 0 (storeAll buf bs : List (Act σ)) bs.length := by
  have hall := sweeps_storeAll (σ := σ) buf 0 bs
  rwa [Word32.add_ofNat_zero, Nat.zero_add] at hall

theorem forall_lt_max {p : ℕ → Prop} {n i : ℕ} (hn : ∀ j < n, p j) (hi : i ≤ n) (hp : p i) :
    ∀ j < max n (i + 1), p j := by
  intro j hj
  rcases Nat.lt_or_ge j n with hlt | hge
  · exact hn j hlt
  · obtain rfl : j = i := by omega
    exact hp

section Rules

variable {I : σ → Prop} {mapped safe : UInt32 → Prop} {buf : UInt32} {s : σ} {l : List (Act σ)}
  {n N : ℕ}

/-- **Only bytes of the buffer are written**, and none behind an address that is not
there. -/
theorem mem_writes (hmaps : Maps store lost I mapped safe) (hcalm : Calm I l) (hs : I s)
    (hsweeps : Sweeps buf n l N) (hn : ∀ j < n, mapped (buf + UInt32.ofNat j)) {va : UInt32}
    (h : va ∈ writes store lost s l) :
    ∃ i < N, va = buf + UInt32.ofNat i ∧ ∀ j ≤ i, mapped (buf + UInt32.ofNat j) := by
  induction l generalizing s n with
  | nil => cases h
  | cons a l ih =>
    cases a with
    | other f =>
      exact ih hcalm.tail (hcalm f List.mem_cons_self s hs) hsweeps hn h
    | write va' b =>
      obtain ⟨i, hi, rfl, hrest⟩ := hsweeps
      by_cases hmapped : mapped (buf + UInt32.ofNat i)
      · -- every byte stored so far is there, and this one
        have hall := forall_lt_max hn hi hmapped
        have hhere : ∃ i' < N, buf + UInt32.ofNat i = buf + UInt32.ofNat i' ∧
            ∀ j ≤ i', mapped (buf + UInt32.ofNat j) :=
          ⟨i, lt_of_lt_of_le (by omega) hrest.le, rfl, fun j hj => hall j (by omega)⟩
        rcases hmaps.mapped b hs hmapped with ⟨s', hrun, hs'⟩ | ⟨e, s', hrun, he⟩
        · simp only [writes, hrun] at h
          rcases List.mem_cons.1 h with rfl | h
          · exact hhere
          · exact ih hcalm.tail hs' hrest hall h
        · simp only [writes, hrun, he] at h
          obtain rfl := List.mem_singleton.1 h
          exact hhere
      · obtain ⟨e, s', hrun, he⟩ := hmaps.unmapped b hs hmapped
        simp only [writes, hrun, he] at h
        cases h

/-- **A byte of the buffer is written** if it is there and the ones before it can be stored. -/
theorem writes_of_mapped (hmaps : Maps store lost I mapped safe) (hcalm : Calm I l) (hs : I s)
    (hsweeps : Sweeps buf n l N) {i : ℕ} (hni : n ≤ i) (hiN : i < N)
    (hsafe : ∀ j < i, safe (buf + UInt32.ofNat j)) (hmapped : mapped (buf + UInt32.ofNat i)) :
    buf + UInt32.ofNat i ∈ writes store lost s l := by
  induction l generalizing s n with
  | nil =>
    have heq : n = N := hsweeps
    omega
  | cons a l ih =>
    cases a with
    | other f => exact ih hcalm.tail (hcalm f List.mem_cons_self s hs) hsweeps hni
    | write va b =>
      obtain ⟨i', hi', rfl, hrest⟩ := hsweeps
      rcases Nat.lt_or_ge i' i with hlt | hge
      · -- an earlier byte
        obtain ⟨s', hrun, hs'⟩ := hmaps.safe b hs (hsafe i' hlt)
        simp only [writes, hrun]
        exact List.mem_cons_of_mem _ (ih hcalm.tail hs' hrest (by omega))
      · obtain rfl : i' = i := by omega
        rcases hmaps.mapped b hs hmapped with ⟨s', hrun, -⟩ | ⟨e, s', hrun, he⟩
        · simp only [writes, hrun]
          exact List.mem_cons_self
        · simp only [writes, hrun, he]
          exact List.mem_singleton.2 rfl

/-! ## Staying in the buffer -/

/-- A byte that can be stored is there. -/
theorem Maps.mapped_of_safe (hmaps : Maps store lost I mapped safe) (hs : I s) {va : UInt32}
    (h : safe va) : mapped va := by
  by_contra hnot
  obtain ⟨s', hrun, -⟩ := hmaps.safe 0 hs h
  obtain ⟨e, s'', hfault, -⟩ := hmaps.unmapped 0 hs hnot
  rw [hrun] at hfault
  cases hfault

/-- A byte that is written comes after bytes that were stored, where a store to any other
ends the routine. -/
theorem safe_of_mem_writes (hmaps : Maps store lost I mapped safe)
    (hends : ∀ {s va} (b : UInt8), I s → ¬safe va → ∃ e s', store va b s = .error e s')
    (hcalm : Calm I l) (hs : I s) (hsweeps : Sweeps buf n l N)
    (hn : ∀ j < n, safe (buf + UInt32.ofNat j)) {va : UInt32} (h : va ∈ writes store lost s l) :
    ∃ i < N, va = buf + UInt32.ofNat i ∧ (∀ j < i, safe (buf + UInt32.ofNat j)) ∧ mapped va := by
  induction l generalizing s n with
  | nil => cases h
  | cons a l ih =>
    cases a with
    | other f =>
      exact ih hcalm.tail (hcalm f List.mem_cons_self s hs) hsweeps hn h
    | write va' b =>
      obtain ⟨i, hi, rfl, hrest⟩ := hsweeps
      have hiN : i < N := lt_of_lt_of_le (by omega) hrest.le
      have hbefore : ∀ j < i, safe (buf + UInt32.ofNat j) := fun j hj => hn j (by omega)
      by_cases hsafe : safe (buf + UInt32.ofNat i)
      · obtain ⟨s', hrun, hs'⟩ := hmaps.safe b hs hsafe
        simp only [writes, hrun] at h
        rcases List.mem_cons.1 h with rfl | h
        · exact ⟨i, hiN, rfl, hbefore, hmaps.mapped_of_safe hs hsafe⟩
        · exact ih hcalm.tail hs' hrest (forall_lt_max hn hi hsafe) h
      · obtain ⟨e, s', hrun⟩ := hends b hs hsafe
        by_cases hmapped : mapped (buf + UInt32.ofNat i)
        · simp only [writes, hrun] at h
          split at h
          · cases h
          · obtain rfl := List.mem_singleton.1 h
            exact ⟨i, hiN, rfl, hbefore, hmapped⟩
        · obtain ⟨e', s'', hfault, he'⟩ := hmaps.unmapped b hs hmapped
          simp only [writes, hfault, he'] at h
          cases h

/-- **Only the first bytes of the buffer are written** if and only if the routine needs no
more of them, or the memory does not let it come so far. -/
theorem writes_within_iff (hmaps : Maps store lost I mapped safe)
    (hends : ∀ {s va} (b : UInt8), I s → ¬safe va → ∃ e s', store va b s = .error e s')
    (hcalm : Calm I l) (hs : I s) (hsweeps : Sweeps buf 0 l N) (hN : N ≤ 4294967296) (n : ℕ) :
    (∀ va ∈ writes store lost s l, ∃ i < n, va = buf + UInt32.ofNat i) ↔
      N ≤ n ∨ ¬((∀ j < n, safe (buf + UInt32.ofNat j)) ∧ mapped (buf + UInt32.ofNat n)) := by
  constructor
  · intro hall
    by_contra hnot
    rw [not_or, not_le, not_not] at hnot
    obtain ⟨hlt, hsafe, hmapped⟩ := hnot
    have hwritten := writes_of_mapped hmaps hcalm hs hsweeps (Nat.zero_le n) hlt hsafe hmapped
    obtain ⟨i, hi, heq⟩ := hall _ hwritten
    have hoffset := Word32.add_ofNat_inj (by omega) (by omega) heq
    omega
  · intro h va hva
    obtain ⟨i, hiN, rfl, hsafe, hmapped⟩ := safe_of_mem_writes hmaps hends hcalm hs hsweeps
      (fun j hj => absurd hj (Nat.not_lt_zero j)) hva
    refine ⟨i, ?_, rfl⟩
    by_contra hge
    rw [not_lt] at hge
    rcases h with h | h
    · omega
    · refine h ⟨fun j hj => hsafe j (by omega), ?_⟩
      rcases Nat.eq_or_lt_of_le hge with rfl | hlt
      · exact hmapped
      · exact hmaps.mapped_of_safe hs (hsafe n hlt)

end Rules

end Writes

end Trace
