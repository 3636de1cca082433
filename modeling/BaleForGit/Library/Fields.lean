import Mathlib.Data.List.Infix

set_option autoImplicit false

/-! # Fields between separators

A text cut at every occurrence of a separator. The pieces are the only way to write the text as
pieces without the separator (`splitOn_eq_iff`); each of them is part of the text. -/

namespace Fields

variable {α : Type} [DecidableEq α]

theorem forall_mem_splitOn (a : α) (l : List α) : ∀ f ∈ l.splitOn a, a ∉ f := by
  induction l with
  | nil =>
      intro f hf
      rw [List.splitOn_nil, List.mem_singleton] at hf
      rw [hf]
      exact List.not_mem_nil
  | cons x l ih =>
      rw [List.splitOn_cons_eq_if_modifyHead]
      split_ifs with hx
      · intro f hf
        rcases List.mem_cons.1 hf with rfl | hf
        · exact List.not_mem_nil
        · exact ih f hf
      · cases hsplit : l.splitOn a with
        | nil => exact absurd hsplit (List.splitOn_ne_nil a l)
        | cons g gs =>
            rw [hsplit] at ih
            intro f hf
            rw [List.modifyHead_cons] at hf
            rcases List.mem_cons.1 hf with rfl | hf
            · rw [List.mem_cons, not_or]
              exact ⟨fun hax => hx (beq_iff_eq.2 hax.symm), ih g List.mem_cons_self⟩
            · exact ih f (List.mem_cons_of_mem g hf)

/-- **The pieces** are the fields that the text consists of. -/
theorem splitOn_eq_iff {a : α} {l : List α} {fs : List (List α)} (hne : fs ≠ []) :
    l.splitOn a = fs ↔ l = [a].intercalate fs ∧ ∀ f ∈ fs, a ∉ f := by
  constructor
  · rintro rfl
    exact ⟨(List.intercalate_splitOn a).symm, forall_mem_splitOn a l⟩
  · rintro ⟨rfl, hfs⟩
    exact List.splitOn_intercalate a hfs hne

omit [DecidableEq α] in
theorem sublist_intercalate {sep f : List α} {fs : List (List α)} (hf : f ∈ fs) :
    f.Sublist (sep.intercalate fs) := by
  induction fs with
  | nil => exact absurd hf List.not_mem_nil
  | cons g gs ih =>
      cases gs with
      | nil =>
          rw [List.mem_singleton.1 hf, List.intercalate_singleton]
      | cons g' gs =>
          rw [List.intercalate_cons_cons]
          rcases List.mem_cons.1 hf with rfl | hf
          · rw [List.append_assoc]
            exact List.sublist_append_left _ _
          · exact (ih hf).trans (List.sublist_append_right _ _)

/-- A piece is part of the text. -/
theorem sublist_of_mem_splitOn {a : α} {l f : List α} (hf : f ∈ l.splitOn a) : f.Sublist l := by
  have h : f.Sublist ([a].intercalate (l.splitOn a)) := sublist_intercalate hf
  rwa [List.intercalate_splitOn] at h

end Fields
