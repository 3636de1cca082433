import Mathlib.Logic.Basic

set_option autoImplicit false

/-! # Machines that answer

A machine takes requests one by one and answers each: `step : σ → α → σ × β`. One machine is compared
with another, the specification, by a relation between their states that every request keeps
(`along_answers`); what is said of an answer may depend on the state of the specification. -/

namespace Replies

variable {σ τ α β γ : Type*}

/-- The answers to a list of requests. -/
def answers (step : σ → α → σ × β) : σ → List α → List β
  | _, [] => []
  | s, a :: as => (step s a).2 :: answers step (step s a).1 as

/-- `P` holds of every answer, in the state that the specification gets it in. -/
def Along (spec : τ → α → τ × β) (P : τ → α → γ → Prop) : τ → List α → List γ → Prop
  | _, [], [] => True
  | t, a :: as, c :: cs => P t a c ∧ Along spec P (spec t a).1 as cs
  | _, _, _ => False

/-- Every request meets `ok` in the state of the specification that it is made in. -/
def Admissible (spec : τ → α → τ × β) (ok : τ → α → Prop) : τ → List α → Prop
  | _, [] => True
  | t, a :: as => ok t a ∧ Admissible spec ok (spec t a).1 as

theorem admissible_true (spec : τ → α → τ × β) (t : τ) (as : List α) :
    Admissible spec (fun _ _ => True) t as := by
  induction as generalizing t with
  | nil => trivial
  | cons a as ih => exact ⟨trivial, ih _⟩

/-- What every request keeps makes every request of the list admissible. -/
theorem admissible_of_invariant {spec : τ → α → τ × β} {ok : τ → α → Prop}
    (inv : τ → List α → Prop)
    (hstep : ∀ t a as, inv t (a :: as) → ok t a ∧ inv (spec t a).1 as) {t : τ} {as : List α}
    (ht : inv t as) : Admissible spec ok t as := by
  induction as generalizing t with
  | nil => trivial
  | cons a as ih =>
      obtain ⟨hok, hinv⟩ := hstep t a as ht
      exact ⟨hok, ih hinv⟩

/-- The state after a list of requests. -/
def after (step : σ → α → σ × β) : σ → List α → σ
  | s, [] => s
  | s, a :: as => after step (step s a).1 as

/-- What every request keeps is kept by a list of them. -/
theorem after_invariant {step : σ → α → σ × β} {ok : σ → α → Prop} (inv : σ → Prop)
    (hstep : ∀ s a, inv s → ok s a → inv (step s a).1) {s : σ} {as : List α} (hs : inv s)
    (hok : Admissible step ok s as) : inv (after step s as) := by
  induction as generalizing s with
  | nil => exact hs
  | cons a as ih => exact ih (hstep s a hs hok.1) hok.2

/-- **Simulation.** What one request keeps and answers, a list of requests does. -/
theorem along_answers {impl : σ → α → σ × γ} {spec : τ → α → τ × β} {R : σ → τ → Prop}
    {ok : τ → α → Prop} {P : τ → α → γ → Prop}
    (hsim : ∀ s t a, R s t → ok t a → R (impl s a).1 (spec t a).1 ∧ P t a (impl s a).2)
    {s : σ} {t : τ} {as : List α} (hR : R s t) (hok : Admissible spec ok t as) :
    Along spec P t as (answers impl s as) := by
  induction as generalizing s t with
  | nil => trivial
  | cons a as ih =>
      obtain ⟨hR', hP⟩ := hsim s t a hR hok.1
      exact ⟨hP, ih hR' hok.2⟩

theorem eq_of_along {spec : τ → α → τ × β} {t : τ} {as : List α} {bs : List β}
    (h : Along spec (fun t a b => b = (spec t a).2) t as bs) : bs = answers spec t as := by
  induction as generalizing t bs with
  | nil =>
      cases bs with
      | nil => rfl
      | cons b bs => cases h
  | cons a as ih =>
      cases bs with
      | nil => cases h
      | cons b bs =>
          obtain ⟨rfl, hrest⟩ := h
          rw [ih hrest]
          rfl

/-- A machine that answers every request as the specification does answers every list so. -/
theorem answers_eq {impl : σ → α → σ × β} {spec : τ → α → τ × β} {R : σ → τ → Prop}
    {ok : τ → α → Prop}
    (hsim : ∀ s t a, R s t → ok t a → R (impl s a).1 (spec t a).1 ∧ (impl s a).2 = (spec t a).2)
    {s : σ} {t : τ} {as : List α} (hR : R s t) (hok : Admissible spec ok t as) :
    answers impl s as = answers spec t as :=
  eq_of_along (along_answers hsim hR hok)

/-- Requests that carry more than the specification reads. -/
theorem answers_map {spec : τ → α → τ × β} (f : γ → α) (t : τ) (cs : List γ) :
    answers (fun t c => spec t (f c)) t cs = answers spec t (cs.map f) := by
  induction cs generalizing t with
  | nil => rfl
  | cons c cs ih =>
      simp only [List.map_cons, answers]
      rw [ih]

end Replies
