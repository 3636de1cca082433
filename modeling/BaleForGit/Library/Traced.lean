import Mathlib.Data.List.Basic
import BaleForGit.Library.Results

set_option autoImplicit false

/-! # Computations with a trace

A computation that can fail and keeps a list of what it has done, up to where it fails. `AllLogged p`
says that everything in the trace meets `p`; it goes through the computation step by step. -/

/-- What was done, and the result. -/
structure Traced (ω ε α : Type) where
  log : List ω
  result : Except ε α

namespace Traced

variable {ω ε α β : Type}

instance : Monad (Traced ω ε) where
  pure a := ⟨[], .ok a⟩
  bind x f :=
    match x.result with
    | .error e => ⟨x.log, .error e⟩
    | .ok a => ⟨x.log ++ (f a).log, (f a).result⟩

/-- A result that leaves no trace. -/
def lift (r : Except ε α) : Traced ω ε α := ⟨[], r⟩

def AllLogged (p : ω → Prop) (x : Traced ω ε α) : Prop := ∀ n ∈ x.log, p n

section Rules

variable {p : ω → Prop} {x : Traced ω ε α} {f : α → Traced ω ε β}

@[simp] theorem lift_log (r : Except ε α) : (lift r : Traced ω ε α).log = [] := rfl

@[simp] theorem lift_result (r : Except ε α) : (lift r : Traced ω ε α).result = r := rfl

@[simp] theorem pure_log (a : α) : (pure a : Traced ω ε α).log = [] := rfl

@[simp] theorem pure_result (a : α) : (pure a : Traced ω ε α).result = .ok a := rfl

theorem bind_of_ok {a : α} (h : x.result = .ok a) :
    x >>= f = ⟨x.log ++ (f a).log, (f a).result⟩ := by
  simp only [bind, h]

theorem bind_of_error {e : ε} (h : x.result = .error e) : x >>= f = ⟨x.log, .error e⟩ := by
  simp only [bind, h]

/-- Results compose as they do without the trace. -/
@[simp] theorem bind_result : (x >>= f).result = x.result >>= fun a => (f a).result := by
  cases h : x.result with
  | error e => rw [bind_of_error h]; rfl
  | ok a => rw [bind_of_ok h]; rfl

@[simp] theorem allLogged_lift (r : Except ε α) : AllLogged p (lift r : Traced ω ε α) :=
  fun _ hn => absurd hn List.not_mem_nil

@[simp] theorem allLogged_pure (a : α) : AllLogged p (pure a : Traced ω ε α) :=
  fun _ hn => absurd hn List.not_mem_nil

/-- **The rest is done only after a success.** -/
theorem allLogged_bind :
    AllLogged p (x >>= f) ↔ AllLogged p x ∧ ∀ a, x.result = .ok a → AllLogged p (f a) := by
  unfold AllLogged
  cases h : x.result with
  | error e =>
      rw [bind_of_error h]
      simp
  | ok a =>
      rw [bind_of_ok h]
      simp only [List.mem_append, Except.ok.injEq, forall_eq']
      exact ⟨fun hall => ⟨fun n hn => hall n (Or.inl hn), fun n hn => hall n (Or.inr hn)⟩,
        fun ⟨hx, hf⟩ n hn => hn.elim (hx n) (hf n)⟩

theorem id_map_eq (x : Traced ω ε α) : id <$> x = x := by
  cases h : x.result with
  | error e =>
      refine (bind_of_error h).trans ?_
      rw [← h]
  | ok a =>
      refine (bind_of_ok h).trans ?_
      simp only [Function.comp_apply, id_eq, List.append_nil]
      rw [← h]

theorem bind_assoc_eq {γ : Type} (x : Traced ω ε α) (f : α → Traced ω ε β)
    (g : β → Traced ω ε γ) : x >>= f >>= g = x >>= fun a => f a >>= g := by
  cases h : x.result with
  | error e => rw [bind_of_error h, bind_of_error h, bind_of_error rfl]
  | ok a =>
      rw [bind_of_ok h, bind_of_ok h]
      cases hf : (f a).result with
      | error e => rw [bind_of_error hf, bind_of_error rfl]
      | ok b => rw [bind_of_ok hf, bind_of_ok rfl, List.append_assoc]

instance : LawfulMonad (Traced ω ε) :=
  LawfulMonad.mk' (Traced ω ε) id_map_eq (fun a _ => bind_of_ok (pure_result a)) bind_assoc_eq

/-- A list all of whose elements leave traces that meet `p`. -/
theorem allLogged_mapM {l : List α} (hf : ∀ a ∈ l, AllLogged p (f a)) :
    AllLogged p (l.mapM f) := by
  induction l with
  | nil => exact allLogged_pure []
  | cons a l ih =>
      rw [List.mapM_cons, allLogged_bind]
      refine ⟨hf a (List.mem_cons_self ..), fun b _ => allLogged_bind.2 ⟨?_, fun bs _ => ?_⟩⟩
      · exact ih (fun a' ha' => hf a' (List.mem_cons_of_mem a ha'))
      · exact allLogged_pure _

/-- The results of a list, without the trace. -/
theorem mapM_result (f : α → Traced ω ε β) (l : List α) :
    (l.mapM f).result = l.mapM (fun a => (f a).result) := by
  induction l with
  | nil => rfl
  | cons a l ih =>
      rw [List.mapM_cons, List.mapM_cons, bind_result]
      congr 1
      funext b
      rw [bind_result, ih]
      rfl

/-- A fold all of whose steps leave traces that meet `p`. -/
theorem allLogged_foldlM {g : β → α → Traced ω ε β} (hg : ∀ b a, AllLogged p (g b a))
    (l : List α) (b : β) : AllLogged p (l.foldlM g b) := by
  induction l generalizing b with
  | nil => exact allLogged_pure b
  | cons a l ih =>
      rw [List.foldlM_cons, allLogged_bind]
      exact ⟨hg b a, fun b' _ => ih b'⟩

/-- A fold whose steps succeed. -/
theorem foldlM_result {g : β → α → Traced ω ε β} {k : β → α → β}
    (hg : ∀ b a, (g b a).result = .ok (k b a)) (l : List α) (b : β) :
    (l.foldlM g b).result = .ok (l.foldl k b) := by
  induction l generalizing b with
  | nil => rfl
  | cons a l ih =>
      rw [List.foldlM_cons, bind_result, hg, List.foldl_cons]
      exact ih (k b a)

end Rules

/-! ## What comes before -/

/-- A computation that is caught: its trace stays. -/
def attempt (x : Traced ω ε α) : Traced ω ε (Except ε α) := ⟨x.log, .ok x.result⟩

/-- Everything in the trace is licensed by what was done before it, from `before` on. -/
def Licensed (P : List ω → ω → Prop) (before : List ω) (x : Traced ω ε α) : Prop :=
  ∀ done n rest, x.log = done ++ n :: rest → P (before ++ done) n

section Licensed

variable {P : List ω → ω → Prop} {before : List ω} {x : Traced ω ε α} {f : α → Traced ω ε β}

@[simp] theorem attempt_log (x : Traced ω ε α) : x.attempt.log = x.log := rfl

@[simp] theorem attempt_result (x : Traced ω ε α) : x.attempt.result = .ok x.result := rfl

theorem licensed_of_log_nil (h : x.log = []) : Licensed P before x := by
  intro done n rest hsplit
  rw [h] at hsplit
  exact absurd hsplit.symm (by simp)

theorem licensed_single {n : ω} (hlog : x.log = [n]) (h : P before n) : Licensed P before x := by
  intro done n' rest hsplit
  rw [hlog] at hsplit
  cases done with
  | nil =>
      rw [List.append_nil]
      exact (List.cons.inj hsplit).1 ▸ h
  | cons a done => exact absurd (List.cons.inj hsplit).2.symm (by simp)

theorem licensed_attempt : Licensed P before x.attempt ↔ Licensed P before x := Iff.rfl

/-- **What comes after a computation is licensed by its trace too.** -/
theorem licensed_bind (hx : Licensed P before x)
    (hf : ∀ a, x.result = .ok a → Licensed P (before ++ x.log) (f a)) :
    Licensed P before (x >>= f) := by
  cases h : x.result with
  | error e =>
      rw [bind_of_error h]
      exact hx
  | ok a =>
      rw [bind_of_ok h]
      intro done n rest hsplit
      rcases List.append_eq_append_iff.1 hsplit with ⟨l, hdone, hlog⟩ | ⟨l, hlog, hrest⟩
      · rw [hdone, ← List.append_assoc]
        exact hf a h l n rest hlog
      · cases l with
        | nil =>
            rw [List.append_nil] at hlog
            have hafter := hf a h [] n rest hrest.symm
            rwa [List.append_nil, hlog] at hafter
        | cons n' l =>
            obtain ⟨rfl, -⟩ := List.cons.inj hrest
            exact hx done n l hlog

end Licensed

end Traced
