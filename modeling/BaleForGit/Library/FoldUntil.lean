import Mathlib.Data.List.Basic

set_option autoImplicit false

/-! # Left folds with an early exit

`foldUntil stop f` is the loop `for a in l { s = f(s, a); if stop(s) { return s } }`. Its rule
`foldUntil_induction` is the induction rule of a plain fold with one more obligation: a state in
which the loop may stop must already satisfy the invariant for every way the list could go on. -/

variable {σ α : Type*}

/-- Fold `f` over the list, stopping after the first step that reaches a state where `stop` holds;
    the flag says whether it stopped. -/
def foldUntil (stop : σ → Bool) (f : σ → α → σ) : σ → List α → σ × Bool
  | s, [] => (s, false)
  | s, a :: l => if stop (f s a) then (f s a, true) else foldUntil stop f (f s a) l

theorem foldUntil_flag (stop : σ → Bool) (f : σ → α → σ) (l : List α) (s : σ)
    (h : (foldUntil stop f s l).2 = true) : stop (foldUntil stop f s l).1 = true := by
  induction l generalizing s with
  | nil => simp [foldUntil] at h
  | cons a l ih =>
      simp only [foldUntil] at h ⊢
      split_ifs with hs
      · exact hs
      · rw [if_neg hs] at h
        exact ih (f s a) h

/-- **Rule for early-exit folds.** `inv done s` relates the state to the elements processed so far;
    `hstop` lets a stopped state stand for any continuation. -/
theorem foldUntil_induction {stop : σ → Bool} {f : σ → α → σ} {inv : List α → σ → Prop}
    (hstep : ∀ done s a, inv done s → inv (done ++ [a]) (f s a))
    (hstop : ∀ done s rest, inv done s → stop s = true → inv (done ++ rest) s)
    (l done : List α) (s : σ) (hs : inv done s) : inv (done ++ l) (foldUntil stop f s l).1 := by
  induction l generalizing done s with
  | nil => simpa [foldUntil] using hs
  | cons a l ih =>
      have hnext : inv (done ++ [a]) (f s a) := hstep done s a hs
      have hassoc : done ++ a :: l = (done ++ [a]) ++ l := by simp
      simp only [foldUntil]
      rw [hassoc]
      split_ifs with hexit
      · exact hstop _ _ l hnext hexit
      · exact ih _ _ hnext
