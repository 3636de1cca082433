import Mathlib.Logic.Relation
import Mathlib.Data.List.Basic

set_option autoImplicit false

/-! # Finite-depth directed acyclic graphs

A `Dag` is a parent function with a generation number that drops along every edge, so walks
towards the parents end. Reachability from a list of tips is the reflexive-transitive closure of
the parent relation; `reachesB` decides it by a search as deep as the tip's generation.

`exists_introduced` is the fact behind every "diff each node against its first parent" scan: a
property held somewhere outside a hidden region that does not hold inside it is *introduced*, that
is, held by a non-hidden node whose first parent does not hold it. -/

/-- Nodes with parents; `generation` certifies that the graph has no cycle. -/
structure Dag (V : Type) where
  parents : V → List V
  generation : V → Nat
  generation_lt : ∀ c, ∀ p ∈ parents c, generation p < generation c

namespace Dag

variable {V : Type} (d : Dag V)

/-- `v` is `t` or an ancestor of `t`. -/
def Ancestor (t v : V) : Prop :=
  Relation.ReflTransGen (fun a b => b ∈ d.parents a) t v

/-- `v` is reachable from one of the tips. -/
def Reach (tips : List V) (v : V) : Prop :=
  ∃ t ∈ tips, d.Ancestor t v

theorem Reach.tip {d : Dag V} {tips : List V} {t : V} (h : t ∈ tips) : d.Reach tips t :=
  ⟨t, h, Relation.ReflTransGen.refl⟩

theorem Reach.parent {d : Dag V} {tips : List V} {v p : V} (h : d.Reach tips v)
    (hp : p ∈ d.parents v) : d.Reach tips p := by
  obtain ⟨t, ht, hv⟩ := h
  exact ⟨t, ht, hv.tail hp⟩

theorem Reach.ancestor {d : Dag V} {tips : List V} {v w : V} (h : d.Reach tips v)
    (hw : d.Ancestor v w) : d.Reach tips w := by
  obtain ⟨t, ht, hv⟩ := h
  exact ⟨t, ht, hv.trans hw⟩

theorem Reach.mono {d : Dag V} {tips tips' : List V} {v : V} (hsub : ∀ t ∈ tips, t ∈ tips')
    (h : d.Reach tips v) : d.Reach tips' v := by
  obtain ⟨t, ht, hv⟩ := h
  exact ⟨t, hsub t ht, hv⟩

theorem not_reach_nil (v : V) : ¬ d.Reach [] v := by
  rintro ⟨t, ht, -⟩
  simp at ht

/-! ## First-parent introduction -/

/-- The first parent of `v`, if any, does not satisfy `holds`. -/
def FirstParentLacks (holds : V → Prop) (v : V) : Prop :=
  ∀ p, (d.parents v).head? = some p → ¬ holds p

/-- Follow first parents down from `c` until `holds` stops holding: the last holder introduces it.
    `hidden` only has to exclude holders, so the search never leaves the visible part. -/
theorem exists_introduced (holds hidden : V → Prop) (hno : ∀ v, hidden v → ¬ holds v) :
    ∀ (n : Nat) (c : V), d.generation c ≤ n → holds c →
      ∃ v, d.Ancestor c v ∧ ¬ hidden v ∧ holds v ∧ d.FirstParentLacks holds v := by
  intro n
  induction n with
  | zero =>
      intro c hgen hc
      refine ⟨c, Relation.ReflTransGen.refl, fun hh => hno c hh hc, hc, ?_⟩
      intro p hp
      have hlt := d.generation_lt c p (List.mem_of_mem_head? hp)
      omega
  | succ n ih =>
      intro c hgen hc
      by_cases hlack : d.FirstParentLacks holds c
      · exact ⟨c, Relation.ReflTransGen.refl, fun hh => hno c hh hc, hc, hlack⟩
      · unfold FirstParentLacks at hlack
        push Not at hlack
        obtain ⟨p, hp, hhold⟩ := hlack
        have hmem : p ∈ d.parents c := List.mem_of_mem_head? hp
        have hlt := d.generation_lt c p hmem
        obtain ⟨v, hanc, hrest⟩ := ih p (by omega) hhold
        exact ⟨v, Relation.ReflTransGen.head hmem hanc, hrest⟩

/-! ## Deciding reachability -/

section Decide

variable [DecidableEq V]

/-- Search for `v` among the ancestors of `t`, at most `fuel` edges away. -/
def searchB (fuel : Nat) (t v : V) : Bool :=
  match fuel with
  | 0 => decide (t = v)
  | fuel + 1 => decide (t = v) || (d.parents t).any (fun p => searchB fuel p v)

/-- Decides `Reach`: a search from each tip, as deep as the tip's generation. -/
def reachesB (tips : List V) (v : V) : Bool :=
  tips.any (fun t => d.searchB (d.generation t) t v)

theorem searchB_sound (fuel : Nat) (t v : V) (h : d.searchB fuel t v = true) :
    d.Ancestor t v := by
  induction fuel generalizing t with
  | zero =>
      simp only [searchB, decide_eq_true_eq] at h
      exact h ▸ Relation.ReflTransGen.refl
  | succ fuel ih =>
      simp only [searchB, Bool.or_eq_true, decide_eq_true_eq, List.any_eq_true] at h
      rcases h with rfl | ⟨p, hp, hrec⟩
      · exact Relation.ReflTransGen.refl
      · exact Relation.ReflTransGen.head hp (ih p hrec)

theorem searchB_complete (fuel : Nat) (t v : V) (hfuel : d.generation t ≤ fuel)
    (h : d.Ancestor t v) : d.searchB fuel t v = true := by
  induction fuel generalizing t with
  | zero =>
      rcases Relation.ReflTransGen.cases_head h with rfl | ⟨p, hp, -⟩
      · simp [searchB]
      · have := d.generation_lt t p hp
        omega
  | succ fuel ih =>
      rcases Relation.ReflTransGen.cases_head h with rfl | ⟨p, hp, hrest⟩
      · simp [searchB]
      · have hlt := d.generation_lt t p hp
        simp only [searchB, Bool.or_eq_true, List.any_eq_true]
        exact Or.inr ⟨p, hp, ih p (by omega) hrest⟩

theorem reachesB_iff (tips : List V) (v : V) : d.reachesB tips v = true ↔ d.Reach tips v := by
  simp only [reachesB, List.any_eq_true, Reach]
  constructor
  · rintro ⟨t, ht, h⟩
    exact ⟨t, ht, d.searchB_sound _ t v h⟩
  · rintro ⟨t, ht, h⟩
    exact ⟨t, ht, d.searchB_complete _ t v (Nat.le_refl _) h⟩

end Decide

end Dag
