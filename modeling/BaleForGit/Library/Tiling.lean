import Mathlib.Algebra.BigOperators.Group.Finset.Piecewise
import Mathlib.Algebra.Order.BigOperators.Group.Finset
import Mathlib.Algebra.Ring.Nat
import Mathlib.Data.List.Basic
import Mathlib.Order.Interval.Finset.Nat

set_option autoImplicit false

/-! # Lists cut into ranges

`Tiles pos size ranges`: the ranges follow one another from `pos` to `size`. Two lists of that
length agree from `pos` on as soon as they agree on every range (`drop_eq_of_slices`). Ranges in any
order, whose lengths add up to the size, leave no position out exactly if none is in two of them
(`covers_iff`). -/

namespace Tiling

variable {α : Type}

/-- The part of a list between two positions. -/
def slice (l : List α) (r : Nat × Nat) : List α := (l.take r.2).drop r.1

def Tiles (size : Nat) : Nat → List (Nat × Nat) → Prop
  | pos, [] => pos = size
  | pos, r :: rs => r.1 = pos ∧ r.1 ≤ r.2 ∧ Tiles size r.2 rs

theorem Tiles.le {size pos : Nat} {rs : List (Nat × Nat)} (h : Tiles size pos rs) :
    pos ≤ size := by
  induction rs generalizing pos with
  | nil => exact Nat.le_of_eq h
  | cons r rs ih => exact Nat.le_trans (h.1 ▸ h.2.1) (ih h.2.2)

theorem Tiles.bounds {size pos : Nat} {rs : List (Nat × Nat)} (h : Tiles size pos rs) :
    ∀ r ∈ rs, r.1 ≤ r.2 ∧ r.2 ≤ size := by
  induction rs generalizing pos with
  | nil => exact fun r hr => absurd hr (by simp)
  | cons r rs ih =>
      intro q hq
      rcases List.mem_cons.1 hq with rfl | hq
      · exact ⟨h.2.1, h.2.2.le⟩
      · exact ih h.2.2 q hq

/-- What comes from `pos` on is the first slice, then what comes from its end on. -/
theorem drop_eq_slice_append (l : List α) {r : Nat × Nat} (h : r.1 ≤ r.2) :
    l.drop r.1 = slice l r ++ l.drop r.2 := by
  have hsplit := (List.take_append_drop (r.2 - r.1) (l.drop r.1)).symm
  rw [List.drop_drop, Nat.add_sub_cancel' h] at hsplit
  rw [slice, List.drop_take]
  exact hsplit

/-- **Lists that agree on every range agree.** -/
theorem drop_eq_of_slices {l l' : List α} {size pos : Nat} {rs : List (Nat × Nat)}
    (hl : l.length = size) (hl' : l'.length = size) (h : Tiles size pos rs)
    (hslices : ∀ r ∈ rs, slice l r = slice l' r) : l.drop pos = l'.drop pos := by
  induction rs generalizing pos with
  | nil =>
      obtain rfl : pos = size := h
      rw [List.drop_eq_nil_of_le (Nat.le_of_eq hl), List.drop_eq_nil_of_le (Nat.le_of_eq hl')]
  | cons r rs ih =>
      obtain ⟨rfl, hle, hrest⟩ := h
      rw [drop_eq_slice_append l hle, drop_eq_slice_append l' hle,
        hslices r List.mem_cons_self, ih hrest fun q hq => hslices q (List.mem_cons_of_mem r hq)]

/-! ## Ranges in any order -/

/-- How many of the ranges a position lies in. -/
def depth (rs : List (Nat × Nat)) (i : Nat) : Nat :=
  rs.countP (fun r => decide (r.1 ≤ i ∧ i < r.2))

theorem depth_pos_iff {rs : List (Nat × Nat)} {i : Nat} :
    0 < depth rs i ↔ ∃ r ∈ rs, r.1 ≤ i ∧ i < r.2 := by
  simp [depth, List.countP_pos_iff]

/-- The length of a range counts its positions. -/
theorem sum_range_ite {size : Nat} {r : Nat × Nat} (h : r.2 ≤ size) :
    ∑ i ∈ Finset.range size, (if r.1 ≤ i ∧ i < r.2 then 1 else 0) = r.2 - r.1 := by
  have hfilter : (Finset.range size).filter (fun i => r.1 ≤ i ∧ i < r.2) = Finset.Ico r.1 r.2 := by
    ext i
    simp only [Finset.mem_filter, Finset.mem_range, Finset.mem_Ico]
    omega
  rw [← Finset.card_filter, hfilter, Nat.card_Ico]

/-- **The lengths add up to the depths.** -/
theorem sum_depth {size : Nat} {rs : List (Nat × Nat)} (h : ∀ r ∈ rs, r.2 ≤ size) :
    ∑ i ∈ Finset.range size, depth rs i = (rs.map (fun r => r.2 - r.1)).sum := by
  induction rs with
  | nil => simp [depth]
  | cons r rs ih =>
      have hhead := sum_range_ite (h r List.mem_cons_self)
      have htail := ih fun q hq => h q (List.mem_cons_of_mem r hq)
      have hcons : ∀ i, depth (r :: rs) i =
          depth rs i + (if r.1 ≤ i ∧ i < r.2 then 1 else 0) := by
        intro i
        simp [depth, List.countP_cons]
      simp only [hcons, Finset.sum_add_distrib, htail, hhead, List.map_cons, List.sum_cons]
      omega

/-- **Nothing is left out exactly if nothing is there twice**, when the lengths add up to the size. -/
theorem covers_iff {size : Nat} {rs : List (Nat × Nat)} (h : ∀ r ∈ rs, r.2 ≤ size)
    (hsum : (rs.map (fun r => r.2 - r.1)).sum = size) :
    (∀ i < size, ∃ r ∈ rs, r.1 ≤ i ∧ i < r.2) ↔ ∀ i < size, depth rs i ≤ 1 := by
  have htotal : ∑ i ∈ Finset.range size, depth rs i = ∑ i ∈ Finset.range size, 1 := by
    rw [sum_depth h, hsum, ← Finset.card_eq_sum_ones, Finset.card_range]
  simp only [← depth_pos_iff]
  constructor
  · intro hcover i hi
    by_contra htwice
    have hlt : ∑ i ∈ Finset.range size, 1 < ∑ i ∈ Finset.range size, depth rs i :=
      Finset.sum_lt_sum (fun j hj => hcover j (Finset.mem_range.1 hj))
        ⟨i, Finset.mem_range.2 hi, Nat.lt_of_not_le htwice⟩
    exact absurd htotal (Nat.ne_of_gt hlt)
  · intro honce i hi
    by_contra hnone
    have hlt : ∑ i ∈ Finset.range size, depth rs i < ∑ i ∈ Finset.range size, 1 :=
      Finset.sum_lt_sum (fun j hj => honce j (Finset.mem_range.1 hj))
        ⟨i, Finset.mem_range.2 hi, by omega⟩
    exact absurd htotal (Nat.ne_of_lt hlt)

end Tiling
