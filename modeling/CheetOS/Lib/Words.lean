import Mathlib

/-!
# The words of a list

A delimiter cuts a list into words, the longest stretches without it; how many
delimiters stand before, between and behind the words does not matter.

* `words` is defined from `List.splitOn`; `words_blank`, `words_last` and
  `words_more` are the three ways a scanner that goes through the list meets them,
  and `words_induction` says that there is no other;
* `appendWord` joins one more word to what was collected, and
  `foldl_appendWord` says that this collects `List.intercalate`;
* `sum_length_words_le` bounds the length of what is collected.
-/

namespace Words

variable {α : Type*} {d : α}

/-! ## Cutting a list -/

theorem exists_replicate_append (d : α) (l : List α) :
    ∃ n l', l = List.replicate n d ++ l' ∧ ∀ c ∈ l'.head?, c ≠ d := by
  induction l with
  | nil => exact ⟨0, [], rfl, by simp⟩
  | cons c l ih =>
    by_cases hc : c = d
    · obtain ⟨n, l', rfl, hl'⟩ := ih
      exact ⟨n + 1, l', by rw [hc, List.replicate_succ, List.cons_append], hl'⟩
    · exact ⟨0, c :: l, rfl, by simpa using hc⟩

theorem exists_word_append (d : α) (l : List α) :
    ∃ w tail, l = w ++ tail ∧ d ∉ w ∧ (tail = [] ∨ ∃ l', tail = d :: l') := by
  induction l with
  | nil => exact ⟨[], [], rfl, List.not_mem_nil, Or.inl rfl⟩
  | cons c l ih =>
    by_cases hc : c = d
    · exact ⟨[], c :: l, rfl, List.not_mem_nil, Or.inr ⟨l, by rw [hc]⟩⟩
    · obtain ⟨w, tail, rfl, hd, htail⟩ := ih
      refine ⟨c :: w, tail, rfl, fun hmem => ?_, htail⟩
      rcases List.mem_cons.1 hmem with heq | hmem
      · exact hc heq.symm
      · exact hd hmem

/-- Every list is met in one of the three ways. -/
theorem words_induction {motive : List α → Prop} (blank : ∀ n, motive (List.replicate n d))
    (last : ∀ n w, w ≠ [] → d ∉ w → motive (List.replicate n d ++ w))
    (more : ∀ n w l, w ≠ [] → d ∉ w → motive l → motive (List.replicate n d ++ (w ++ d :: l)))
    (l : List α) : motive l := by
  induction hlen : l.length using Nat.strong_induction_on generalizing l with
  | _ len ih =>
    obtain ⟨n, l₁, rfl, hhead⟩ := exists_replicate_append d l
    obtain ⟨w, tail, rfl, hd, htail⟩ := exists_word_append d l₁
    have hne : w = [] → tail = [] := by
      rintro rfl
      rcases htail with rfl | ⟨l', rfl⟩
      · rfl
      · exact absurd rfl (hhead d rfl)
    by_cases hw : w = []
    · rw [hw, hne hw, List.append_nil, List.append_nil]
      exact blank n
    · rcases htail with rfl | ⟨l', rfl⟩
      · rw [List.append_nil]
        exact last n w hw hd
      · refine more n w l' hw hd (ih l'.length ?_ l' rfl)
        simp only [List.length_append, List.length_cons] at hlen
        omega

/-! ## Joining words -/

/-- One more word behind what was collected. -/
def appendWord (d : α) : List α → List α → List α
  | [], w => w
  | c :: acc, w => c :: acc ++ d :: w

theorem appendWord_of_ne_nil {acc : List α} (h : acc ≠ []) (w : List α) :
    appendWord d acc w = acc ++ d :: w := by
  cases acc with
  | nil => exact absurd rfl h
  | cons c acc => rfl

theorem foldl_appendWord_of_ne_nil {acc : List α} (h : acc ≠ []) (ws : List (List α)) :
    ws.foldl (appendWord d) acc = [d].intercalate (acc :: ws) := by
  induction ws generalizing acc with
  | nil => rw [List.foldl_nil, List.intercalate_singleton]
  | cons w ws ih =>
    rw [List.foldl_cons, appendWord_of_ne_nil h, ih (by simp), List.intercalate_cons_cons]
    cases ws with
    | nil => simp [List.intercalate_singleton]
    | cons v ws => simp [List.intercalate_cons_cons]

/-- Collecting words one by one joins them. -/
theorem foldl_appendWord {ws : List (List α)} (h : ∀ w ∈ ws, w ≠ []) :
    ws.foldl (appendWord d) [] = [d].intercalate ws := by
  cases ws with
  | nil => rfl
  | cons w ws => exact foldl_appendWord_of_ne_nil (h w List.mem_cons_self) ws

theorem length_le_appendWord (d : α) (acc w : List α) :
    acc.length ≤ (appendWord d acc w).length := by
  cases acc with
  | nil => exact Nat.zero_le _
  | cons c acc =>
    rw [appendWord_of_ne_nil (List.cons_ne_nil c acc), List.length_append]
    exact Nat.le_add_right _ _

/-- Collecting words only ever adds to what was collected. -/
theorem length_le_foldl_appendWord (d : α) (ws : List (List α)) (acc : List α) :
    acc.length ≤ (ws.foldl (appendWord d) acc).length := by
  induction ws generalizing acc with
  | nil => exact le_refl _
  | cons w ws ih => exact (length_le_appendWord d acc w).trans (ih _)

/-- Joined words are made of their elements and of delimiters. -/
theorem mem_intercalate {c : α} {ws : List (List α)} (h : c ∈ [d].intercalate ws) :
    c = d ∨ ∃ w ∈ ws, c ∈ w := by
  induction ws with
  | nil => cases h
  | cons w ws ih =>
    cases ws with
    | nil =>
      rw [List.intercalate_singleton] at h
      exact Or.inr ⟨w, List.mem_cons_self, h⟩
    | cons v ws =>
      rw [List.intercalate_cons_cons, List.append_assoc, List.mem_append, List.mem_append,
        List.mem_singleton] at h
      rcases h with h | h | h
      · exact Or.inr ⟨w, List.mem_cons_self, h⟩
      · exact Or.inl h
      · rcases ih h with heq | ⟨u, hu, hc⟩
        · exact Or.inl heq
        · exact Or.inr ⟨u, List.mem_cons_of_mem w hu, hc⟩

/-- The length of joined words. -/
theorem length_intercalate {w : List α} (ws : List (List α)) :
    ([d].intercalate (w :: ws)).length + 1 = ((w :: ws).map fun v => v.length + 1).sum := by
  induction ws generalizing w with
  | nil => simp [List.intercalate_singleton]
  | cons v ws ih =>
    have hrest := ih (w := v)
    rw [List.intercalate_cons_cons, List.map_cons, List.sum_cons, ← hrest]
    simp only [List.length_append, List.length_singleton]
    omega

/-! ## The words -/

variable [BEq α]

/-- The longest stretches of a list without the delimiter, in order. -/
def words (d : α) (l : List α) : List (List α) := (l.splitOn d).filter fun w => !w.isEmpty

@[simp] theorem words_nil : words d ([] : List α) = [] := rfl

variable [LawfulBEq α]

theorem words_append_cons (xs ys : List α) : words d (xs ++ d :: ys) = words d xs ++ words d ys := by
  unfold words
  rw [List.splitOn_append_cons_self, List.filter_append]

@[simp] theorem words_cons_self (l : List α) : words d (d :: l) = words d l :=
  words_append_cons [] l

theorem words_replicate_append (n : ℕ) (l : List α) :
    words d (List.replicate n d ++ l) = words d l := by
  induction n with
  | zero => rfl
  | succ n ih => rw [List.replicate_succ, List.cons_append, words_cons_self, ih]

theorem words_of_notMem {w : List α} (hw : w ≠ []) (hd : d ∉ w) : words d w = [w] := by
  unfold words
  rw [List.splitOn_eq_singleton hd]
  simpa using hw

/-- Delimiters only. -/
theorem words_blank (n : ℕ) : words d (List.replicate n d) = [] := by
  have h := words_replicate_append (d := d) n []
  rwa [List.append_nil] at h

/-- A word that ends the list. -/
theorem words_last (n : ℕ) {w : List α} (hw : w ≠ []) (hd : d ∉ w) :
    words d (List.replicate n d ++ w) = [w] := by
  rw [words_replicate_append, words_of_notMem hw hd]

/-- A word with a delimiter behind it. -/
theorem words_more (n : ℕ) {w : List α} (hw : w ≠ []) (hd : d ∉ w) (l : List α) :
    words d (List.replicate n d ++ (w ++ d :: l)) = w :: words d l := by
  rw [words_replicate_append, words_append_cons, words_of_notMem hw hd, List.singleton_append]

/-- A word is not empty, has no delimiter in it and is made of the list's elements. -/
theorem mem_words {l w : List α} (h : w ∈ words d l) : w ≠ [] ∧ d ∉ w ∧ ∀ c ∈ w, c ∈ l := by
  induction l using words_induction (d := d) with
  | blank n =>
    rw [words_blank] at h
    cases h
  | last n v hv hd =>
    rw [words_last n hv hd, List.mem_singleton] at h
    subst h
    exact ⟨hv, hd, fun c hc => List.mem_append_right _ hc⟩
  | more n v l hv hd ih =>
    rw [words_more n hv hd, List.mem_cons] at h
    rcases h with rfl | h
    · exact ⟨hv, hd, fun c hc => List.mem_append_right _ (List.mem_append_left _ hc)⟩
    · obtain ⟨hw, hd', hmem⟩ := ih h
      exact ⟨hw, hd', fun c hc => List.mem_append_right _
        (List.mem_append_right _ (List.mem_cons_of_mem _ (hmem c hc)))⟩

/-- The words, with one more element for each, fit into the list. -/
theorem sum_length_words_le (d : α) (l : List α) :
    ((words d l).map fun w => w.length + 1).sum ≤ l.length + 1 := by
  induction l using words_induction (d := d) with
  | blank n => simp [words_blank]
  | last n w hw hd => simp [words_last n hw hd]
  | more n w l hw hd ih =>
    rw [words_more n hw hd]
    simp only [List.map_cons, List.sum_cons, List.length_append, List.length_replicate,
      List.length_cons]
    omega

/-- There are at most as many words as elements. -/
theorem length_words_le (d : α) (l : List α) : (words d l).length ≤ l.length := by
  induction l using words_induction (d := d) with
  | blank n => simp [words_blank]
  | last n w hw hd =>
    have hpos := List.length_pos_of_ne_nil hw
    rw [words_last n hw hd, List.length_singleton, List.length_append]
    omega
  | more n w l hw hd ih =>
    rw [words_more n hw hd]
    simp only [List.length_append, List.length_replicate, List.length_cons]
    omega

end Words
