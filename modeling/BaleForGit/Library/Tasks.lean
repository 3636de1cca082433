import Mathlib.Data.List.Basic

set_option autoImplicit false

/-! # Tasks side by side

A list of tasks that take steps in any order: one that takes a step is replaced in its place, a new one
comes last. `Apart R` is a relation between any two of them. -/

namespace Tasks

variable {τ : Type*}

/-- A task after a step of the one at `k`: that one, or one that was there. -/
theorem mem_set_cases {l : List τ} {k : Nat} {x v : τ} (h : v ∈ l.set k x) :
    v = x ∨ ∃ j, j ≠ k ∧ l[j]? = some v := by
  obtain ⟨j, hj⟩ := List.mem_iff_getElem?.1 h
  by_cases hjk : k = j
  · rw [List.getElem?_set, if_pos hjk] at hj
    split_ifs at hj
    exact Or.inl (Option.some.inj hj).symm
  · rw [List.getElem?_set_ne hjk] at hj
    exact Or.inr ⟨j, Ne.symm hjk, hj⟩

/-- A task that has not taken the step is still there. -/
theorem mem_set_of_ne {l : List τ} {j k : Nat} {x v : τ} (hj : l[j]? = some v) (hne : j ≠ k) :
    v ∈ l.set k x := by
  refine List.mem_of_getElem? (i := j) ?_
  rw [List.getElem?_set_ne (Ne.symm hne)]
  exact hj

/-- What two tasks are to each other. -/
def Apart (R : τ → τ → Prop) (l : List τ) : Prop :=
  ∀ (j k : Nat) (a b : τ), j ≠ k → l[j]? = some a → l[k]? = some b → R a b

section Apart

variable {R : τ → τ → Prop} {l : List τ}

theorem apart_nil : Apart R [] := fun j k a b _ ha => by simp at ha

theorem Apart.set (hsymm : ∀ a b, R a b → R b a) (h : Apart R l) {k : Nat} {x : τ}
    (hx : ∀ j a, j ≠ k → l[j]? = some a → R x a) : Apart R (l.set k x) := by
  intro i j a b hij ha hb
  rw [List.getElem?_set] at ha hb
  by_cases hki : k = i
  · rw [if_pos hki] at ha
    rw [if_neg (fun hkj => hij (hki.symm.trans hkj))] at hb
    split_ifs at ha
    rw [← Option.some.inj ha]
    exact hx j b (fun hjk => hij (hki.symm.trans hjk.symm)) hb
  · rw [if_neg hki] at ha
    by_cases hkj : k = j
    · rw [if_pos hkj] at hb
      split_ifs at hb
      rw [← Option.some.inj hb]
      exact hsymm _ _ (hx i a (Ne.symm hki) ha)
    · rw [if_neg hkj] at hb
      exact h i j a b hij ha hb

theorem Apart.concat (hsymm : ∀ a b, R a b → R b a) (h : Apart R l) {x : τ}
    (hx : ∀ a ∈ l, R x a) : Apart R (l ++ [x]) := by
  have hcases {i : Nat} {a : τ} (ha : (l ++ [x])[i]? = some a) :
      l[i]? = some a ∨ i = l.length ∧ a = x := by
    rw [List.getElem?_append] at ha
    split_ifs at ha with hi
    · exact Or.inl ha
    · have hlen := (List.getElem?_eq_some_iff.1 ha).1
      rw [List.length_singleton] at hlen
      exact Or.inr ⟨by omega, List.mem_singleton.1 (List.mem_of_getElem? ha)⟩
  intro i j a b hij ha hb
  rcases hcases ha with hold | ⟨hi, rfl⟩
  · rcases hcases hb with hold' | ⟨hj, rfl⟩
    · exact h i j a b hij hold hold'
    · exact hsymm _ _ (hx a (List.mem_of_getElem? hold))
  · rcases hcases hb with hold' | ⟨hj, rfl⟩
    · exact hx b (List.mem_of_getElem? hold')
    · exact absurd (hi.trans hj.symm) hij

end Apart

end Tasks
