import Mathlib.Data.List.TakeWhile

set_option autoImplicit false

/-! # Trimming and cutting lists

`trimBy p` takes away what satisfies `p` at both ends. A list is cut at the first element that does
not satisfy a predicate by `takeWhile` and `dropWhile` (`cut_iff`). -/

namespace Texts

variable {α : Type} {p : α → Bool}

/-! ## Trimming -/

/-- A text without what satisfies `p` at its ends. -/
def trimBy (p : α → Bool) (text : List α) : List α :=
  ((text.dropWhile p).reverse.dropWhile p).reverse

/-- What is trimmed away, and the rest. -/
theorem exists_trimBy (p : α → Bool) (text : List α) :
    ∃ a b, text = a ++ trimBy p text ++ b ∧ ∀ c ∈ a ++ b, p c = true := by
  refine ⟨text.takeWhile p, ((text.dropWhile p).reverse.takeWhile p).reverse, ?_, fun c hc => ?_⟩
  · unfold trimBy
    rw [List.append_assoc, ← List.reverse_append, List.takeWhile_append_dropWhile,
      List.reverse_reverse, List.takeWhile_append_dropWhile]
  · rcases List.mem_append.1 hc with hc | hc
    · exact List.mem_takeWhile_imp hc
    · exact List.mem_takeWhile_imp (List.mem_reverse.1 hc)

/-- Padding is trimmed away. -/
theorem trimBy_pad {a b : List α} (h : ∀ c ∈ a ++ b, p c = true) (t : List α) :
    trimBy p (a ++ t ++ b) = trimBy p t := by
  have ha : ∀ c ∈ a, p c = true := fun c hc => h c (List.mem_append_left b hc)
  have hb : ∀ c ∈ b, p c = true := fun c hc => h c (List.mem_append_right a hc)
  unfold trimBy
  rw [List.append_assoc, List.dropWhile_append_of_pos ha, List.dropWhile_append]
  by_cases hempty : (t.dropWhile p).isEmpty = true
  · have hdrop : b.dropWhile p = [] := List.dropWhile_eq_nil_iff.2 hb
    rw [if_pos hempty, hdrop, List.isEmpty_iff.1 hempty]
  · have hrev : ∀ c ∈ b.reverse, p c = true := fun c hc => hb c (List.mem_reverse.1 hc)
    rw [if_neg hempty, List.reverse_append, List.dropWhile_append_of_pos hrev]

/-- Where nothing satisfies `p`, nothing is trimmed. -/
theorem trimBy_eq_self {text : List α} (h : ∀ c ∈ text, p c = false) : trimBy p text = text := by
  have hkeep : ∀ l : List α, (∀ c ∈ l, p c = false) → l.dropWhile p = l := by
    intro l hl
    cases l with
    | nil => rfl
    | cons c l => rw [List.dropWhile_cons_of_neg (by simp [hl c List.mem_cons_self])]
  unfold trimBy
  rw [hkeep text h, hkeep text.reverse fun c hc => h c (List.mem_reverse.1 hc),
    List.reverse_reverse]

theorem head?_trimBy {a t : List α} {c : α} (ha : ∀ x ∈ a, p x = true) (hc : p c = false) :
    (trimBy p (a ++ c :: t)).head? = some c := by
  unfold trimBy
  rw [List.dropWhile_append_of_pos ha, List.dropWhile_cons_of_neg (by simp [hc]),
    List.reverse_cons, List.dropWhile_append]
  split_ifs with hempty
  · simp [hc]
  · simp

theorem getLast?_trimBy {t b : List α} {c : α} (hb : ∀ x ∈ b, p x = true) (hc : p c = false) :
    (trimBy p (t ++ c :: b)).getLast? = some c := by
  have hpad : trimBy p (t ++ c :: b) = trimBy p (t ++ [c]) := by
    have hp := trimBy_pad (a := []) (b := b) hb (t ++ [c])
    rw [List.nil_append, List.append_assoc] at hp
    exact hp
  rw [hpad]
  unfold trimBy
  rw [List.getLast?_reverse, List.dropWhile_append]
  split_ifs with hempty
  · simp [hc]
  · rw [List.reverse_append, List.reverse_singleton, List.singleton_append,
      List.dropWhile_cons_of_neg (by simp [hc])]
    rfl

/-! ## The first element -/

/-- **Where a list is cut**: the part before the first element without `p`, that element, and the
    rest. -/
theorem cut_iff {text a b : List α} {c : α} :
    text.takeWhile p = a ∧ text.dropWhile p = c :: b ↔
      text = a ++ c :: b ∧ (∀ x ∈ a, p x = true) ∧ p c = false := by
  constructor
  · rintro ⟨rfl, hdrop⟩
    have hsplit := List.takeWhile_append_dropWhile (p := p) (l := text)
    have hfirst := List.head_dropWhile_not p (l := text) (by rw [hdrop]; simp)
    simp only [hdrop, List.head_cons] at hfirst
    rw [hdrop] at hsplit
    exact ⟨hsplit.symm, fun x hx => List.mem_takeWhile_imp hx, hfirst⟩
  · rintro ⟨rfl, ha, hc⟩
    have hneg : ¬ p c = true := by simp [hc]
    rw [List.takeWhile_append_of_pos ha, List.dropWhile_append_of_pos ha,
      List.takeWhile_cons_of_neg hneg, List.dropWhile_cons_of_neg hneg, List.append_nil]
    exact ⟨rfl, rfl⟩

/-- The first element without `p`. -/
theorem exists_first {l : List α} (h : ¬ ∀ c ∈ l, p c = true) :
    ∃ a c b, l = a ++ c :: b ∧ (∀ x ∈ a, p x = true) ∧ p c = false := by
  cases hdrop : l.dropWhile p with
  | nil => exact absurd (List.dropWhile_eq_nil_iff.1 hdrop) h
  | cons c b => exact ⟨_, c, b, cut_iff.1 ⟨rfl, hdrop⟩⟩

/-- The last one. -/
theorem exists_last {l : List α} (h : ¬ ∀ c ∈ l, p c = true) :
    ∃ a c b, l = a ++ c :: b ∧ (∀ x ∈ b, p x = true) ∧ p c = false := by
  have hrev : ¬ ∀ c ∈ l.reverse, p c = true :=
    fun hall => h (fun c hc => hall c (List.mem_reverse.2 hc))
  obtain ⟨a, c, b, heq, ha, hc⟩ := exists_first hrev
  refine ⟨b.reverse, c, a.reverse, ?_, fun x hx => ha x (List.mem_reverse.1 hx), hc⟩
  rw [← List.reverse_reverse l, heq]
  simp

/-- A list cut at the first `c`. -/
theorem cut_at [DecidableEq α] {text a b : List α} {c : α} (hmem : c ∈ text) :
    (text.takeWhile (fun x => x ≠ c), (text.dropWhile (fun x => x ≠ c)).drop 1) = (a, b) ↔
      text = a ++ c :: b ∧ c ∉ a := by
  have hnot : ∀ l : List α, (∀ x ∈ l, decide (x ≠ c) = true) ↔ c ∉ l := by
    intro l
    simp only [decide_eq_true_eq, ne_eq]
    exact ⟨fun h hc => h c hc rfl, fun h x hx heq => h (heq ▸ hx)⟩
  rw [Prod.mk.injEq]
  constructor
  · rintro ⟨rfl, rfl⟩
    have hsome : ¬ ∀ x ∈ text, decide (x ≠ c) = true := fun hall => (hnot text).1 hall hmem
    obtain ⟨a, d, b, htext, ha, hd⟩ := exists_first hsome
    obtain rfl : d = c := by simpa using hd
    obtain ⟨htake, hdrop⟩ := cut_iff.2 ⟨htext, ha, hd⟩
    rw [htake, hdrop]
    exact ⟨htext, (hnot a).1 ha⟩
  · rintro ⟨htext, ha⟩
    obtain ⟨htake, hdrop⟩ := cut_iff.2 ⟨htext, (hnot a).2 ha, by simp⟩
    rw [htake, hdrop]
    exact ⟨rfl, rfl⟩

end Texts
