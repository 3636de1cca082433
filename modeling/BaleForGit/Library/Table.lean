import Mathlib.Algebra.Ring.Nat
import Mathlib.Data.List.Dedup
import Mathlib.Data.List.Sort

set_option autoImplicit false

/-! # Keyed tables

A relational table as the list of its rows, with the primary key a function of the row. The two
writes that keep the key unique are `insertIgnore` (`INSERT OR IGNORE`, `ON CONFLICT DO NOTHING`)
and `upsert` (`INSERT OR REPLACE`, `ON CONFLICT DO UPDATE` of all other columns); a multi-row insert
is `insertAll`, row by row. `orderBy` is `ORDER BY` on a numeric column.

A group is a set of rows that the key determines, such as the rows of one file: what an insert does
to a group depends on that group alone. `fresh` are the rows that an insert adds, and `sumOn` is
`SUM(..) WHERE ..`; it only grows with the rows and with the condition. -/

namespace Table

variable {ρ κ : Type} [DecidableEq κ] (key : ρ → κ)

/-- Insert a row unless its key is taken. -/
def insertIgnore (t : List ρ) (r : ρ) : List ρ :=
  if key r ∈ t.map key then t else t ++ [r]

/-- A multi-row insert that ignores conflicts. -/
def insertAll (t rs : List ρ) : List ρ := rs.foldl (insertIgnore key) t

/-- Insert a row in place of the row with its key. -/
def upsert (t : List ρ) (r : ρ) : List ρ := t.filter (fun x => decide (key x ≠ key r)) ++ [r]

def orderBy (f : ρ → Nat) (t : List ρ) : List ρ := t.insertionSort (fun a b => f a ≤ f b)

/-- The rows that inserting `rs` adds. -/
def fresh (t : List ρ) : List ρ → List ρ
  | [] => []
  | r :: rs => if key r ∈ t.map key then fresh t rs else r :: fresh (t ++ [r]) rs

def sumOn (size : ρ → Nat) (p : ρ → Bool) (t : List ρ) : Nat := ((t.filter p).map size).sum

@[simp] theorem insertAll_nil (t : List ρ) : insertAll key t [] = t := rfl

theorem insertAll_cons (t : List ρ) (r : ρ) (rs : List ρ) :
    insertAll key t (r :: rs) = insertAll key (insertIgnore key t r) rs := rfl

theorem insertAll_append (t rs ss : List ρ) :
    insertAll key t (rs ++ ss) = insertAll key (insertAll key t rs) ss :=
  List.foldl_append

/-- Batches insert what one insert of all their rows inserts. -/
theorem foldl_insertAll (t : List ρ) (batches : List (List ρ)) :
    batches.foldl (insertAll key) t = insertAll key t batches.flatten := by
  induction batches generalizing t with
  | nil => rfl
  | cons b bs ih => rw [List.foldl_cons, ih, List.flatten_cons, insertAll_append]

variable {key}

/-- Rows whose keys are all taken change nothing. -/
theorem insertAll_of_taken {t rs : List ρ} (h : ∀ r ∈ rs, key r ∈ t.map key) :
    insertAll key t rs = t := by
  induction rs with
  | nil => rfl
  | cons r rs ih =>
      rw [insertAll_cons, insertIgnore, if_pos (h r List.mem_cons_self)]
      exact ih (fun x hx => h x (List.mem_cons_of_mem r hx))

/-- Rows with new and different keys are appended in order. -/
theorem insertAll_of_fresh {t rs : List ρ} (hnodup : (rs.map key).Nodup)
    (h : ∀ r ∈ rs, key r ∉ t.map key) : insertAll key t rs = t ++ rs := by
  induction rs generalizing t with
  | nil => simp
  | cons r rs ih =>
      rw [List.map_cons, List.nodup_cons] at hnodup
      rw [insertAll_cons, insertIgnore, if_neg (h r List.mem_cons_self), ih hnodup.2]
      · rw [List.append_assoc, List.singleton_append]
      · intro x hx
        rw [List.map_append, List.mem_append, not_or]
        refine ⟨h x (List.mem_cons_of_mem r hx), fun hr => hnodup.1 ?_⟩
        rw [List.map_singleton, List.mem_singleton] at hr
        exact hr ▸ List.mem_map_of_mem hx

/-- **An insert appends the fresh rows.** -/
theorem insertAll_eq_append_fresh (t rs : List ρ) : insertAll key t rs = t ++ fresh key t rs := by
  induction rs generalizing t with
  | nil => simp [fresh]
  | cons r rs ih =>
      rw [insertAll_cons, ih, insertIgnore, fresh]
      split_ifs
      · rfl
      · rw [List.append_assoc, List.singleton_append]

theorem fresh_append (t rs ss : List ρ) :
    fresh key t (rs ++ ss) = fresh key t rs ++ fresh key (insertAll key t rs) ss := by
  induction rs generalizing t with
  | nil => rfl
  | cons r rs ih =>
      rw [List.cons_append, fresh, fresh, insertAll_cons, insertIgnore]
      split_ifs
      · exact ih t
      · rw [ih, List.cons_append]

theorem prefix_insertAll (t rs : List ρ) : t <+: insertAll key t rs := by
  rw [insertAll_eq_append_fresh]
  exact List.prefix_append t _

theorem keys_subset_insertAll (t rs : List ρ) : t.map key ⊆ (insertAll key t rs).map key :=
  List.map_subset key (prefix_insertAll t rs).subset

theorem mem_fresh {t rs : List ρ} {r : ρ} (h : r ∈ fresh key t rs) : r ∈ rs ∧ key r ∉ t.map key := by
  induction rs generalizing t with
  | nil => simp [fresh] at h
  | cons x rs ih =>
      rw [fresh] at h
      split_ifs at h with hx
      · obtain ⟨hin, hnew⟩ := ih h
        exact ⟨List.mem_cons_of_mem x hin, hnew⟩
      · rcases List.mem_cons.1 h with rfl | hr
        · exact ⟨List.mem_cons_self, hx⟩
        · obtain ⟨hin, hnew⟩ := ih hr
          rw [List.map_append, List.mem_append, not_or] at hnew
          exact ⟨List.mem_cons_of_mem x hin, hnew.1⟩

/-- A fresh row is the first inserted with its key. -/
theorem find_of_mem_fresh {t rs : List ρ} {r : ρ} (h : r ∈ fresh key t rs) :
    rs.find? (fun x => decide (key x = key r)) = some r := by
  induction rs generalizing t with
  | nil => simp [fresh] at h
  | cons x rs ih =>
      rw [fresh] at h
      rw [List.find?_cons]
      split_ifs at h with hx
      · have hne : key x ≠ key r := fun heq => (mem_fresh h).2 (heq ▸ hx)
        simp only [hne, decide_false]
        exact ih h
      · rcases List.mem_cons.1 h with rfl | hr
        · simp
        · have hne : key x ≠ key r := by
            intro heq
            refine (mem_fresh hr).2 ?_
            rw [List.map_append, List.mem_append, ← heq]
            exact Or.inr (by simp)
          simp only [hne, decide_false]
          exact ih hr

/-- An inserted key is in the table afterwards. -/
theorem key_mem_insertAll {t rs : List ρ} {r : ρ} (h : r ∈ rs) :
    key r ∈ (insertAll key t rs).map key := by
  induction rs generalizing t with
  | nil => simp at h
  | cons x rs ih =>
      rcases List.mem_cons.1 h with rfl | hr
      · rw [insertAll_cons, insertAll_eq_append_fresh, List.map_append, List.mem_append]
        refine Or.inl ?_
        unfold insertIgnore
        split_ifs with hin
        · exact hin
        · simp
      · exact ih hr

/-- Keys stay unique. -/
theorem nodup_insertAll {t rs : List ρ} (h : (t.map key).Nodup) :
    ((insertAll key t rs).map key).Nodup := by
  induction rs generalizing t with
  | nil => exact h
  | cons r rs ih =>
      rw [insertAll_cons]
      refine ih ?_
      unfold insertIgnore
      split_ifs with hin
      · exact h
      · rw [List.map_append, List.map_singleton, List.nodup_append]
        refine ⟨h, List.nodup_singleton _, fun a ha b hb => ?_⟩
        rw [List.mem_singleton] at hb
        intro heq
        exact hin (by rw [← hb, ← heq]; exact ha)

/-! ## Groups -/

section Group

variable {p : ρ → Bool} (hp : ∀ a b, key a = key b → p a = p b)

include hp in
/-- Inserting rows of a group inserts them into the group. -/
theorem filter_insertAll {t rs : List ρ} (hrs : ∀ r ∈ rs, p r = true) :
    (insertAll key t rs).filter p = insertAll key (t.filter p) rs := by
  induction rs generalizing t with
  | nil => rfl
  | cons r rs ih =>
      have hr := hrs r List.mem_cons_self
      rw [insertAll_cons, insertAll_cons, ih (fun x hx => hrs x (List.mem_cons_of_mem r hx))]
      congr 1
      have hiff : key r ∈ (t.filter p).map key ↔ key r ∈ t.map key := by
        simp only [List.mem_map, List.mem_filter]
        constructor
        · rintro ⟨x, ⟨hx, -⟩, hk⟩
          exact ⟨x, hx, hk⟩
        · rintro ⟨x, hx, hk⟩
          exact ⟨x, ⟨hx, by rw [hp x r hk, hr]⟩, hk⟩
      unfold insertIgnore
      by_cases hin : key r ∈ t.map key
      · rw [if_pos hin, if_pos (hiff.2 hin)]
      · rw [if_neg hin, if_neg (fun h => hin (hiff.1 h)), List.filter_append]
        simp [hr]

/-- Rows outside a group leave it alone. -/
theorem filter_insertAll_of_not {t rs : List ρ} (hrs : ∀ r ∈ rs, p r = false) :
    (insertAll key t rs).filter p = t.filter p := by
  induction rs generalizing t with
  | nil => rfl
  | cons r rs ih =>
      rw [insertAll_cons, ih (fun x hx => hrs x (List.mem_cons_of_mem r hx))]
      unfold insertIgnore
      split_ifs
      · rfl
      · rw [List.filter_append]
        simp [hrs r List.mem_cons_self]

end Group

/-! ## Sums -/

section Sum

variable (size : ρ → Nat) (p q : ρ → Bool)

theorem sumOn_append (t u : List ρ) : sumOn size p (t ++ u) = sumOn size p t + sumOn size p u := by
  simp [sumOn]

theorem sumOn_cons (r : ρ) (t : List ρ) :
    sumOn size p (r :: t) = (if p r then size r else 0) + sumOn size p t := by
  unfold sumOn
  rw [List.filter_cons]
  split_ifs <;> simp

variable {size p q}

theorem sumOn_congr {t : List ρ} (h : ∀ r ∈ t, p r = q r) : sumOn size p t = sumOn size q t := by
  unfold sumOn
  rw [List.filter_congr h]

/-- What a disjunction selects is selected by one or the other. -/
theorem sumOn_or_le {t : List ρ} {s : ρ → Bool} (h : ∀ r ∈ t, s r = true → p r = true ∨ q r = true) :
    sumOn size s t ≤ sumOn size p t + sumOn size q t := by
  induction t with
  | nil => exact Nat.zero_le _
  | cons r t ih =>
      have hrest := ih (fun x hx => h x (List.mem_cons_of_mem r hx))
      have hr := h r List.mem_cons_self
      rw [sumOn_cons, sumOn_cons, sumOn_cons]
      cases hs : s r with
      | false =>
          simp only [Bool.false_eq_true, if_false]
          omega
      | true =>
          rcases hr hs with hp | hq
          · simp only [hp, if_true]
            omega
          · simp only [hq, if_true]
            omega

theorem sumOn_eq_zero {t : List ρ} :
    sumOn size p t = 0 ↔ ∀ r ∈ t, p r = true → size r = 0 := by
  induction t with
  | nil => simp [sumOn]
  | cons r t ih =>
      rw [sumOn_cons, Nat.add_eq_zero_iff, ih, List.forall_mem_cons]
      cases hp : p r <;> simp

/-- What a second condition selects beyond the first. -/
theorem sumOn_or (t : List ρ) :
    sumOn size (fun r => p r || q r) t = sumOn size p t + sumOn size (fun r => q r && !p r) t := by
  induction t with
  | nil => rfl
  | cons r t ih =>
      rw [sumOn_cons, sumOn_cons, sumOn_cons, ih]
      cases p r <;> cases q r <;> simp <;> omega

/-- What is selected and what is not make up the whole. -/
theorem sumOn_add_not (t : List ρ) :
    sumOn size p t + sumOn size (fun r => !p r) t = (t.map size).sum := by
  induction t with
  | nil => rfl
  | cons r t ih =>
      rw [sumOn_cons, sumOn_cons, List.map_cons, List.sum_cons, ← ih]
      cases p r <;> simp <;> omega

/-- **The sum over the rows of a set of keys is the sum over its keys that have a row.** -/
theorem sumOn_keys {t : List ρ} (hkeys : (t.map key).Nodup) {f : κ → Nat}
    (hsize : ∀ r ∈ t, size r = f (key r)) (ks : List κ) :
    sumOn size (fun r => decide (key r ∈ ks)) t =
      sumOn f (fun k => decide (k ∈ t.map key)) ks.dedup := by
  unfold sumOn
  have hmap : (t.filter (fun r => decide (key r ∈ ks))).map size =
      ((t.filter (fun r => decide (key r ∈ ks))).map key).map f := by
    rw [List.map_map]
    exact List.map_congr_left (fun r hr => hsize r (List.mem_of_mem_filter hr))
  rw [hmap]
  refine List.Perm.sum_nat (List.Perm.map f ?_)
  refine (List.perm_ext_iff_of_nodup ?_ ?_).2 (fun k => ?_)
  · exact hkeys.sublist (List.Sublist.map key List.filter_sublist)
  · exact (List.nodup_dedup ks).filter _
  · simp only [List.mem_map, List.mem_filter, List.mem_dedup, decide_eq_true_eq]
    constructor
    · intro hk
      obtain ⟨r, ⟨hr, hin⟩, rfl⟩ := hk
      exact ⟨hin, r, hr, rfl⟩
    · intro hk
      obtain ⟨hin, r, hr, rfl⟩ := hk
      exact ⟨r, ⟨hr, hin⟩, rfl⟩

variable (key) in
/-- **The sum over the rows of a set of keys**, key by key. -/
theorem sumOn_mem {ks : List κ} (hks : ks.Nodup) (t : List ρ) :
    sumOn size (fun r => decide (key r ∈ ks)) t =
      (ks.map (fun k => sumOn size (fun r => decide (key r = k)) t)).sum := by
  induction ks with
  | nil =>
      rw [List.map_nil, List.sum_nil, sumOn_eq_zero]
      simp
  | cons k ks ih =>
      obtain ⟨hk, hks⟩ := List.nodup_cons.1 hks
      have hsplit : sumOn size (fun r => decide (key r ∈ k :: ks)) t =
          sumOn size (fun r => decide (key r = k) || decide (key r ∈ ks)) t :=
        sumOn_congr (fun r _ => by simp)
      have hrest : sumOn size (fun r => decide (key r ∈ ks) && !decide (key r = k)) t =
          sumOn size (fun r => decide (key r ∈ ks)) t := by
        refine sumOn_congr (fun r _ => ?_)
        by_cases heq : key r = k <;> simp [heq, hk]
      rw [hsplit, sumOn_or, hrest, ih hks, List.map_cons, List.sum_cons]

end Sum

/-! ## Upserts and order -/

theorem mem_upsert {t : List ρ} {r x : ρ} :
    x ∈ upsert key t r ↔ (x ∈ t ∧ key x ≠ key r) ∨ x = r := by
  simp [upsert]

theorem mem_keys_upsert {t : List ρ} {r : ρ} {k : κ} :
    k ∈ (upsert key t r).map key ↔ k ∈ t.map key ∨ key r = k := by
  simp only [List.mem_map, mem_upsert]
  constructor
  · rintro ⟨x, ⟨hx, -⟩ | rfl, rfl⟩
    · exact Or.inl ⟨x, hx, rfl⟩
    · exact Or.inr rfl
  · rintro (⟨x, hx, rfl⟩ | rfl)
    · by_cases heq : key x = key r
      · exact ⟨r, Or.inr rfl, heq.symm⟩
      · exact ⟨x, Or.inl ⟨hx, heq⟩, rfl⟩
    · exact ⟨r, Or.inr rfl, rfl⟩

theorem nodup_upsert {t : List ρ} (h : (t.map key).Nodup) (r : ρ) :
    ((upsert key t r).map key).Nodup := by
  unfold upsert
  rw [List.map_append, List.map_singleton]
  refine List.Nodup.append (h.sublist (List.filter_sublist.map key)) (List.nodup_singleton _) ?_
  intro k hk hr
  obtain ⟨x, hx, rfl⟩ := List.mem_map.1 hk
  exact of_decide_eq_true (List.mem_filter.1 hx).2 (List.mem_singleton.1 hr)

/-- Rows that come in order are read back as they are. -/
theorem orderBy_of_pairwise {f : ρ → Nat} {t : List ρ}
    (h : t.Pairwise (fun a b => f a ≤ f b)) : orderBy f t = t :=
  List.Pairwise.insertionSort_eq h

theorem pairwise_orderBy (f : ρ → Nat) (t : List ρ) :
    (orderBy f t).Pairwise (fun a b => f a ≤ f b) := by
  have : Std.Total (fun a b : ρ => f a ≤ f b) := ⟨fun a b => Nat.le_total (f a) (f b)⟩
  have : IsTrans ρ (fun a b => f a ≤ f b) := ⟨fun _ _ _ => Nat.le_trans⟩
  exact List.pairwise_insertionSort (fun a b => f a ≤ f b) t

theorem orderBy_eq_nil {f : ρ → Nat} {t : List ρ} : orderBy f t = [] ↔ t = [] := by
  have hperm := List.perm_insertionSort (fun a b => f a ≤ f b) t
  unfold orderBy
  constructor
  · intro h
    rw [h] at hperm
    exact hperm.symm.eq_nil
  · rintro rfl
    rfl

end Table
