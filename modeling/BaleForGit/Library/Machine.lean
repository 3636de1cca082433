import Mathlib.Data.List.Basic
import Mathlib.Logic.Function.Basic

set_option autoImplicit false

/-! # Step machines and guarded runs

A machine is a partial step function `step : σ → α → Option σ`: `step s a = some s'` when action
`a` is enabled in `s`. Everything the environment decides (a schedule, a clock reading, a crash
point, the answer of an outside service) is part of the action, so a run is a list of actions and
a concrete run can be evaluated.

`Admissible ok` restricts a run to the steps that meet a condition on the state they are taken
from; `run_invariant` is the induction every safety result about such runs goes through. -/

namespace Machine

variable {σ α : Type*}

/-- Run a list of actions; `none` when one of them is not enabled where it is taken. -/
def run (step : σ → α → Option σ) : σ → List α → Option σ
  | s, [] => some s
  | s, a :: as => (step s a).bind (fun s' => run step s' as)

/-- Every action of the run meets `ok` in the state it is taken from. -/
def Admissible (step : σ → α → Option σ) (ok : σ → α → Prop) : σ → List α → Prop
  | _, [] => True
  | s, a :: as => ok s a ∧ ∀ s', step s a = some s' → Admissible step ok s' as

theorem run_cons_eq_some {step : σ → α → Option σ} {s t : σ} {a : α} {as : List α}
    (h : run step s (a :: as) = some t) : ∃ s', step s a = some s' ∧ run step s' as = some t := by
  simp only [run] at h
  exact Option.bind_eq_some_iff.1 h

theorem run_append (step : σ → α → Option σ) (as bs : List α) (s : σ) :
    run step s (as ++ bs) = (run step s as).bind (fun s' => run step s' bs) := by
  induction as generalizing s with
  | nil => rfl
  | cons a as ih =>
      simp only [List.cons_append, run]
      cases step s a with
      | none => rfl
      | some s' => exact ih s'

theorem admissible_of_forall {step : σ → α → Option σ} {ok : σ → α → Prop} {as : List α}
    (h : ∀ s, ∀ a ∈ as, ok s a) (s : σ) : Admissible step ok s as := by
  induction as generalizing s with
  | nil => trivial
  | cons a as ih =>
      refine ⟨h s a List.mem_cons_self, fun s' _ => ?_⟩
      exact ih (fun t b hb => h t b (List.mem_cons_of_mem a hb)) s'

/-- One step and the rest of the run. -/
theorem admissible_cons {step : σ → α → Option σ} {ok : σ → α → Prop} {s s' : σ} {a : α}
    {as : List α} (hstep : step s a = some s') (hok : ok s a) (hrest : Admissible step ok s' as) :
    Admissible step ok s (a :: as) := by
  refine ⟨hok, fun t ht => ?_⟩
  rw [hstep] at ht
  exact Option.some.inj ht ▸ hrest

/-- A run is admissible when its steps keep an invariant that makes each of them so. -/
theorem admissible_of_invariant {step : σ → α → Option σ} {ok : σ → α → Prop} (inv : σ → Prop)
    {as : List α} (hok : ∀ s, ∀ a ∈ as, inv s → ok s a)
    (hstep : ∀ s, ∀ a ∈ as, ∀ s', inv s → step s a = some s' → inv s') {s : σ} (hs : inv s) :
    Admissible step ok s as := by
  induction as generalizing s with
  | nil => trivial
  | cons a as ih =>
      refine ⟨hok s a List.mem_cons_self hs, fun s' hs' => ?_⟩
      exact ih (fun t b hb => hok t b (List.mem_cons_of_mem a hb))
        (fun t b hb => hstep t b (List.mem_cons_of_mem a hb))
        (hstep s a List.mem_cons_self s' hs hs')

/-- A condition that implies another one wherever an invariant holds makes the same runs admissible
    for the other. -/
theorem Admissible.imp_of_invariant {step : σ → α → Option σ} {ok ok' : σ → α → Prop}
    (inv : σ → Prop) (himp : ∀ s a, inv s → ok s a → ok' s a)
    (hstep : ∀ s a s', inv s → ok s a → step s a = some s' → inv s') {as : List α} {s : σ}
    (hs : inv s) (h : Admissible step ok s as) : Admissible step ok' s as := by
  induction as generalizing s with
  | nil => trivial
  | cons a as ih =>
      refine ⟨himp s a hs h.1, fun s' hs' => ?_⟩
      exact ih (hstep s a s' hs h.1 hs') (h.2 s' hs')

/-- Of numbered parties those from `n` on stay idle when one below `n` moves, or one becomes idle. -/
theorem idle_update {β : Type*} {f : Nat → β} {idle v : β} {n i : Nat}
    (hidle : ∀ k, n ≤ k → f k = idle) (hi : i < n ∨ v = idle) :
    ∀ k, n ≤ k → Function.update f i v k = idle := by
  intro k hk
  by_cases hki : k = i
  · rw [hki, Function.update_self]
    rcases hi with hlt | hv
    · omega
    · exact hv
  · rw [Function.update_of_ne hki]
    exact hidle k hk

/-- **Invariant rule.** What every admissible step preserves, every admissible run preserves. -/
theorem run_invariant {step : σ → α → Option σ} {ok : σ → α → Prop} {inv : σ → Prop}
    (hstep : ∀ s a s', inv s → ok s a → step s a = some s' → inv s') {as : List α} {s t : σ}
    (hs : inv s) (hok : Admissible step ok s as) (hrun : run step s as = some t) : inv t := by
  induction as generalizing s with
  | nil =>
      simp only [run, Option.some.injEq] at hrun
      exact hrun ▸ hs
  | cons a as ih =>
      obtain ⟨s', hs', hrest⟩ := run_cons_eq_some hrun
      exact ih (hstep s a s' hs hok.1 hs') (hok.2 s' hs') hrest

/-- The invariant rule for runs without a condition on their steps. -/
theorem run_invariant_of_step {step : σ → α → Option σ} {inv : σ → Prop}
    (hstep : ∀ s a s', inv s → step s a = some s' → inv s') {as : List α} {s t : σ}
    (hs : inv s) (hrun : run step s as = some t) : inv t := by
  induction as generalizing s with
  | nil =>
      simp only [run, Option.some.injEq] at hrun
      exact hrun ▸ hs
  | cons a as ih =>
      obtain ⟨s', hs', hrest⟩ := run_cons_eq_some hrun
      exact ih (hstep s a s' hs hs') hrest

/-- A run in two parts. -/
theorem admissible_append {step : σ → α → Option σ} {ok : σ → α → Prop} {as bs : List α} {s : σ} :
    Admissible step ok s (as ++ bs) ↔ Admissible step ok s as ∧
      ∀ t, run step s as = some t → Admissible step ok t bs := by
  induction as generalizing s with
  | nil => simp [Admissible, run]
  | cons a as ih =>
      simp only [List.cons_append, Admissible, run, ih]
      constructor
      · rintro ⟨hok, hrest⟩
        refine ⟨⟨hok, fun s' hs' => (hrest s' hs').1⟩, fun t ht => ?_⟩
        obtain ⟨s', hs', ht⟩ := Option.bind_eq_some_iff.1 ht
        exact (hrest s' hs').2 t ht
      · rintro ⟨⟨hok, hrest⟩, hmore⟩
        refine ⟨hok, fun s' hs' => ⟨hrest s' hs', fun t ht => hmore t ?_⟩⟩
        rw [hs', Option.bind_some]
        exact ht

/-- Whether a run is admissible can be found out by running it. -/
instance Admissible.decidable {step : σ → α → Option σ} {ok : σ → α → Prop}
    [∀ s a, Decidable (ok s a)] : ∀ s as, Decidable (Admissible step ok s as)
  | _, [] => .isTrue trivial
  | s, a :: as =>
    match hs : step s a with
    | none => decidable_of_iff (ok s a) (by simp [Admissible, hs])
    | some s' =>
      have : Decidable (Admissible step ok s' as) := Admissible.decidable s' as
      decidable_of_iff (ok s a ∧ Admissible step ok s' as) (by simp [Admissible, hs])

/-- The prefixes of a run are what `take` gives. -/
theorem forall_prefix_of_take {step : σ → α → Option σ} {P : σ → Prop} {as : List α} {s : σ}
    (h : ∀ k ≤ as.length, ∀ s', run step s (as.take k) = some s' → P s') :
    ∀ before rest s', as = before ++ rest → run step s before = some s' → P s' := by
  intro before rest s' hsplit hbefore
  refine h before.length ?_ s' ?_
  · rw [hsplit, List.length_append]
    exact Nat.le_add_right _ _
  · rw [hsplit, List.take_left]
    exact hbefore

/-- **Exact conditions.** When the condition on a step says exactly when it preserves `inv`, a run is
    admissible exactly when `inv` holds all along it. What every step preserves is `base`. -/
theorem admissible_iff_of_step {step : σ → α → Option σ} {ok : σ → α → Prop} {base inv : σ → Prop}
    {as : List α} (hbase : ∀ s, ∀ a ∈ as, ∀ s', base s → step s a = some s' → base s')
    (hstep : ∀ s, ∀ a ∈ as, ∀ s', base s → inv s → step s a = some s' → (inv s' ↔ ok s a))
    {s t : σ} (hb : base s) (hs : inv s) (hrun : run step s as = some t) :
    Admissible step ok s as ↔
      ∀ before rest s', as = before ++ rest → run step s before = some s' → inv s' := by
  induction as generalizing s with
  | nil =>
      refine ⟨fun _ before rest s' hsplit hbefore => ?_, fun _ => trivial⟩
      rw [(List.append_eq_nil_iff.1 hsplit.symm).1] at hbefore
      simp only [run, Option.some.injEq] at hbefore
      exact hbefore ▸ hs
  | cons a as ih =>
      obtain ⟨s₁, hs₁, hrest⟩ := run_cons_eq_some hrun
      have hb₁ := hbase s a List.mem_cons_self s₁ hb hs₁
      have hself := hstep s a List.mem_cons_self s₁ hb hs hs₁
      have ih' := ih (fun s b hb => hbase s b (List.mem_cons_of_mem a hb))
        (fun s b hb => hstep s b (List.mem_cons_of_mem a hb)) hb₁
      constructor
      · intro hadm before rest s' hsplit hbefore
        have hinv₁ := hself.2 hadm.1
        cases before with
        | nil =>
            simp only [run, Option.some.injEq] at hbefore
            exact hbefore ▸ hs
        | cons b before =>
            obtain ⟨rfl, hsplit'⟩ := List.cons.inj hsplit
            simp only [run, hs₁, Option.bind_some] at hbefore
            exact (ih' hinv₁ hrest).1 (hadm.2 s₁ hs₁) before rest s' hsplit' hbefore
      · intro hall
        have hinv₁ : inv s₁ := hall [a] as s₁ rfl (by simp [run, hs₁])
        refine ⟨hself.1 hinv₁, fun s' hs' => ?_⟩
        obtain rfl := Option.some.inj (hs₁.symm.trans hs')
        refine (ih' hinv₁ hrest).2 (fun before rest s' hsplit hbefore => ?_)
        refine hall (a :: before) rest s' (by rw [hsplit, List.cons_append]) ?_
        simp only [run, hs₁, Option.bind_some]
        exact hbefore

/-- A counter that a step raises by one at most stays below a bound that the run is too short to
    reach. -/
theorem Admissible.bounded {step : σ → α → Option σ} {ok : σ → α → Prop} {count : σ → Nat}
    {bound : Nat} (hcount : ∀ s a s', step s a = some s' → count s' ≤ count s + 1) {as : List α}
    {s : σ} (h : Admissible step ok s as) (hlen : count s + as.length < bound) :
    Admissible step (fun s a => ok s a ∧ count s + 1 < bound) s as := by
  induction as generalizing s with
  | nil => trivial
  | cons a as ih =>
      rw [List.length_cons] at hlen
      refine ⟨⟨h.1, by omega⟩, fun s' hs' => ih (h.2 s' hs') ?_⟩
      have := hcount s a s' hs'
      omega

end Machine
