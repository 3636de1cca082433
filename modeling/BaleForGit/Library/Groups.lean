import Mathlib.Algebra.BigOperators.Group.List.Basic
import Mathlib.Algebra.Group.Action.Defs
import Mathlib.Algebra.Order.BigOperators.Group.List
import Mathlib.Algebra.Ring.Nat

set_option autoImplicit false

/-! # Sums over groups of rows

Rows with weights, and a list of groups that a row may be in. Adding up the groups counts a row as
often as groups have it (`sum_groups`): groups that the rows fall into once each add up to the sum of
all, groups that have every row to at least that, and groups that no row is in twice to at most
that. -/

namespace Groups

variable {ρ ι M : Type} [AddCommMonoid M]

/-- `SUM(w) WHERE p`. -/
def total (w : ρ → M) (p : ρ → Bool) (t : List ρ) : M := ((t.filter p).map w).sum

theorem total_cons (w : ρ → M) (p : ρ → Bool) (r : ρ) (t : List ρ) :
    total w p (r :: t) = (if p r = true then w r else 0) + total w p t := by
  unfold total
  rw [List.filter_cons]
  split_ifs with hp
  · rw [List.map_cons, List.sum_cons]
  · rw [zero_add]

/-- The groups of one row. -/
theorem sum_ite_count (is : List ι) (q : ι → Bool) (m : M) :
    (is.map (fun i => if q i = true then m else 0)).sum = is.countP q • m := by
  induction is with
  | nil => simp
  | cons i is ih =>
      rw [List.map_cons, List.sum_cons, ih, List.countP_cons]
      by_cases hq : q i = true
      · rw [if_pos hq, if_pos hq, add_nsmul, one_nsmul, add_comm]
      · rw [if_neg hq, if_neg hq, zero_add, Nat.add_zero]

/-- **Groups add up to every row as often as they have it.** -/
theorem sum_groups (w : ρ → M) (p : ι → ρ → Bool) (is : List ι) (t : List ρ) :
    (is.map (fun i => total w (p i) t)).sum =
      (t.map (fun r => is.countP (fun i => p i r) • w r)).sum := by
  induction t with
  | nil =>
      simp only [total, List.filter_nil, List.map_nil, List.sum_nil]
      exact List.sum_eq_zero (fun x hx => by
        obtain ⟨_, -, rfl⟩ := List.mem_map.1 hx
        rfl)
  | cons r t ih =>
      simp only [total_cons, List.map_cons, List.sum_cons]
      rw [List.sum_map_add, ih, sum_ite_count]

/-- Rows that are in one group each. -/
theorem sum_groups_of_partition {w : ρ → M} {p : ι → ρ → Bool} {q : ρ → Bool} {is : List ι}
    {t : List ρ} (h : ∀ r ∈ t, is.countP (fun i => p i r) = if q r = true then 1 else 0) :
    (is.map (fun i => total w (p i) t)).sum = total w q t := by
  rw [sum_groups]
  induction t with
  | nil => rfl
  | cons r t ih =>
      rw [List.map_cons, List.sum_cons, total_cons, h r List.mem_cons_self,
        ih (fun x hx => h x (List.mem_cons_of_mem r hx))]
      by_cases hq : q r = true
      · rw [if_pos hq, if_pos hq, one_nsmul]
      · rw [if_neg hq, if_neg hq, zero_nsmul]

section Nat

variable {w : ρ → Nat} {p : ι → ρ → Bool} {q : ρ → Bool} {is : List ι} {t : List ρ}

/-- Rows that are in some group. -/
theorem total_le_sum_groups (h : ∀ r ∈ t, q r = true → ∃ i ∈ is, p i r = true) :
    total w q t ≤ (is.map (fun i => total w (p i) t)).sum := by
  rw [sum_groups]
  induction t with
  | nil => exact Nat.le_refl 0
  | cons r t ih =>
      have hrest := ih (fun x hx => h x (List.mem_cons_of_mem r hx))
      rw [List.map_cons, List.sum_cons, total_cons]
      refine Nat.add_le_add ?_ hrest
      split_ifs with hq
      · have hpos : 0 < is.countP (fun i => p i r) :=
          List.countP_pos_iff.2 (h r List.mem_cons_self hq)
        rw [smul_eq_mul]
        exact Nat.le_mul_of_pos_left (w r) hpos
      · exact Nat.zero_le _

/-- Rows that are in one group at most. -/
theorem sum_groups_le_total
    (h : ∀ r ∈ t, is.countP (fun i => p i r) ≤ if q r = true then 1 else 0) :
    (is.map (fun i => total w (p i) t)).sum ≤ total w q t := by
  rw [sum_groups]
  induction t with
  | nil => exact Nat.le_refl 0
  | cons r t ih =>
      have hrest := ih (fun x hx => h x (List.mem_cons_of_mem r hx))
      have hhead := h r List.mem_cons_self
      rw [List.map_cons, List.sum_cons, total_cons, smul_eq_mul]
      refine Nat.add_le_add ?_ hrest
      split_ifs at hhead ⊢ with hq
      · calc is.countP (fun i => p i r) * w r ≤ 1 * w r := Nat.mul_le_mul_right _ hhead
          _ = w r := Nat.one_mul _
      · rw [Nat.le_zero.1 hhead, Nat.zero_mul]

end Nat

/-- In a list without repetitions, at most one element meets a condition that determines it. -/
theorem countP_le_one {is : List ι} (hnodup : is.Nodup) {q : ι → Bool}
    (h : ∀ i ∈ is, ∀ j ∈ is, q i = true → q j = true → i = j) : is.countP q ≤ 1 := by
  rw [List.countP_eq_length_filter]
  by_contra hlt
  have hnodup' := hnodup.filter q
  obtain ⟨i, j, rest, heq⟩ : ∃ i j rest, is.filter q = i :: j :: rest := by
    cases hf : is.filter q with
    | nil => simp [hf] at hlt
    | cons i l =>
        cases l with
        | nil => simp [hf] at hlt
        | cons j rest => exact ⟨i, j, rest, rfl⟩
  have hi : i ∈ is.filter q := by simp [heq]
  have hj : j ∈ is.filter q := by simp [heq]
  obtain ⟨hi, hqi⟩ := List.mem_filter.1 hi
  obtain ⟨hj, hqj⟩ := List.mem_filter.1 hj
  rw [heq, h i hi j hj hqi hqj] at hnodup'
  simp at hnodup'

end Groups
