import BaleForGit.Library.Table

set_option autoImplicit false

/-! # Tables up to the order of rows

Two engines that are given the same writes hold the same rows, in different orders and, in columns
that nobody compares, with different values: `f` is the row without these columns, and two tables are
the same when `t.map f` and `u.map f` are permutations of each other. Inserts and upserts keep this,
and `updateOnConflict`, which changes the row that has the key where it stands, does what `upsert`
does. A query that selects rows by, and reads, the compared columns returns the same rows. -/

namespace Table

variable {ρ κ β : Type} [DecidableEq κ] {key : ρ → κ} {f : ρ → ρ}

/-! ## Writes -/

/-- `ON CONFLICT DO UPDATE`: change the row that has the key, or append. -/
def updateOnConflict (key : ρ → κ) (change : ρ → ρ → ρ) (t : List ρ) (r : ρ) : List ρ :=
  if key r ∈ t.map key then t.map (fun x => if key x = key r then change x r else x) else t ++ [r]

theorem map_insertIgnore (hf : ∀ x, key (f x) = key x) (t : List ρ) (r : ρ) :
    (insertIgnore key t r).map f = insertIgnore key (t.map f) (f r) := by
  have hkeys : (t.map f).map key = t.map key := by
    rw [List.map_map]
    exact List.map_congr_left (fun x _ => hf x)
  unfold insertIgnore
  rw [hkeys, hf r]
  split_ifs
  · rfl
  · rw [List.map_append, List.map_singleton]

theorem map_upsert (hf : ∀ x, key (f x) = key x) (t : List ρ) (r : ρ) :
    (upsert key t r).map f = upsert key (t.map f) (f r) := by
  unfold upsert
  rw [List.map_append, List.map_singleton, List.filter_map]
  congr 2
  refine List.filter_congr (fun x _ => ?_)
  simp only [Function.comp_apply, hf]

theorem perm_insertIgnore {t u : List ρ} (h : t.Perm u) (r : ρ) :
    (insertIgnore key t r).Perm (insertIgnore key u r) := by
  unfold insertIgnore
  by_cases hin : key r ∈ t.map key
  · rw [if_pos hin, if_pos ((h.map key).mem_iff.1 hin)]
    exact h
  · rw [if_neg hin, if_neg (fun hu => hin ((h.map key).mem_iff.2 hu))]
    exact h.append_right [r]

theorem perm_insertAll {t u : List ρ} (h : t.Perm u) (rs : List ρ) :
    (insertAll key t rs).Perm (insertAll key u rs) := by
  induction rs generalizing t u with
  | nil => exact h
  | cons r rs ih =>
      rw [insertAll_cons, insertAll_cons]
      exact ih (perm_insertIgnore h r)

theorem perm_upsert {t u : List ρ} (h : t.Perm u) (r : ρ) :
    (upsert key t r).Perm (upsert key u r) :=
  (h.filter _).append_right [r]

/-- **Replacing a row and changing it in place** come to the same, if the change sets all columns
    but the key. -/
theorem perm_updateOnConflict {change : ρ → ρ → ρ} {t : List ρ} {r : ρ} (hkeys : (t.map key).Nodup)
    (hchange : ∀ x, key x = key r → change x r = r) :
    (updateOnConflict key change t r).Perm (upsert key t r) := by
  unfold updateOnConflict upsert
  induction t with
  | nil => simp
  | cons x t ih =>
      rw [List.map_cons, List.nodup_cons] at hkeys
      by_cases hx : key x = key r
      · -- the row is here, and no other one has its key
        have hrest : ∀ y ∈ t, key y ≠ key r := by
          intro y hy heq
          exact hkeys.1 (by rw [hx, ← heq]; exact List.mem_map_of_mem hy)
        have hsame : t.map (fun y => if key y = key r then change y r else y) = t := by
          conv_rhs => rw [← List.map_id t]
          exact List.map_congr_left (fun y hy => if_neg (hrest y hy))
        have hall : t.filter (fun y => decide (key y ≠ key r)) = t :=
          List.filter_eq_self.2 (fun y hy => decide_eq_true (hrest y hy))
        rw [if_pos (by simp [hx]), List.map_cons, if_pos hx, hchange x hx, hsame,
          List.filter_cons_of_neg (by simpa using hx), hall]
        exact (List.perm_append_singleton r t).symm
      · have hmem : key r ∈ (x :: t).map key ↔ key r ∈ t.map key := by
          rw [List.map_cons, List.mem_cons]
          exact ⟨fun h => h.resolve_left (fun heq => hx heq.symm), Or.inr⟩
        have hrest := ih hkeys.2
        rw [List.filter_cons_of_pos (by simpa using hx)]
        by_cases hin : key r ∈ t.map key
        · rw [if_pos hin] at hrest
          rw [if_pos (hmem.2 hin), List.map_cons, if_neg hx, List.cons_append]
          exact hrest.cons x
        · rw [if_neg hin] at hrest
          rw [if_neg (fun h => hin (hmem.1 h)), List.cons_append, List.cons_append]
          exact hrest.cons x

/-- Two views of a row that have each other's values. -/
theorem perm_map_iff {σ τ : Type} {g : ρ → σ} {k : ρ → τ} (there : σ → τ) (back : τ → σ)
    (hthere : ∀ r, k r = there (g r)) (hback : ∀ r, g r = back (k r)) {t u : List ρ} :
    (t.map g).Perm (u.map g) ↔ (t.map k).Perm (u.map k) := by
  have hk : ∀ v : List ρ, v.map k = (v.map g).map there := by
    intro v
    rw [List.map_map]
    exact List.map_congr_left (fun r _ => hthere r)
  have hg : ∀ v : List ρ, v.map g = (v.map k).map back := by
    intro v
    rw [List.map_map]
    exact List.map_congr_left (fun r _ => hback r)
  constructor
  · intro h
    rw [hk t, hk u]
    exact h.map there
  · intro h
    rw [hg t, hg u]
    exact h.map back

/-! ## Queries -/

/-- **A query returns the same values**, in some order. -/
theorem perm_select {t u : List ρ} {p : ρ → Bool} {g : ρ → β} (h : (t.map f).Perm (u.map f))
    (hp : ∀ x, p (f x) = p x) (hg : ∀ x, g (f x) = g x) :
    ((t.filter p).map g).Perm ((u.filter p).map g) := by
  have hthrough : ∀ v : List ρ, ((v.map f).filter p).map g = (v.filter p).map g := by
    intro v
    rw [List.filter_map, List.map_map]
    have hpf : p ∘ f = p := funext hp
    have hgf : g ∘ f = g := funext hg
    rw [hpf, hgf]
  rw [← hthrough t, ← hthrough u]
  exact (h.filter p).map g

theorem any_select {t u : List ρ} {p : ρ → Bool} (h : (t.map f).Perm (u.map f))
    (hp : ∀ x, p (f x) = p x) : t.any p = u.any p := by
  have hthrough : ∀ v : List ρ, (v.map f).any p = v.any p := by
    intro v
    rw [List.any_map]
    have hpf : p ∘ f = p := funext hp
    rw [hpf]
  rw [← hthrough t, ← hthrough u]
  exact h.any_eq

/-- A query for one key returns the same value. -/
theorem find_select {t u : List ρ} (key : ρ → κ) (g : ρ → β) (h : (t.map f).Perm (u.map f))
    (hkeys : (u.map key).Nodup) (hf : ∀ x, key (f x) = key x) (hg : ∀ x, g (f x) = g x) (k : κ) :
    (t.find? (fun x => decide (key x = k))).map g = (u.find? (fun x => decide (key x = k))).map g := by
  have hpair : ∀ {v w : List ρ}, (v.map f).Perm (w.map f) → ∀ r ∈ v, ∃ s ∈ w, f s = f r := by
    intro v w hvw r hr
    exact List.mem_map.1 (hvw.mem_iff.1 (List.mem_map_of_mem hr))
  cases ht : t.find? (fun x => decide (key x = k)) with
  | none =>
      cases hu : u.find? (fun x => decide (key x = k)) with
      | none => rfl
      | some s =>
          obtain ⟨r, hr, hrs⟩ := hpair h.symm s (List.mem_of_find?_eq_some hu)
          have hk : key r = k := by
            rw [← hf r, hrs, hf s]
            exact of_decide_eq_true (List.find?_some (p := fun x => decide (key x = k)) hu)
          exact absurd (List.find?_eq_none.1 ht r hr) (by simpa using hk)
  | some r =>
      obtain ⟨s, hs, hsr⟩ := hpair h r (List.mem_of_find?_eq_some ht)
      have hrk : key r = k := of_decide_eq_true (List.find?_some (p := fun x => decide (key x = k)) ht)
      have hsk : key s = k := by rw [← hf s, hsr, hf r, hrk]
      cases hu : u.find? (fun x => decide (key x = k)) with
      | none => exact absurd (List.find?_eq_none.1 hu s hs) (by simpa using hsk)
      | some s' =>
          have hsk' : key s' = k :=
            of_decide_eq_true (List.find?_some (p := fun x => decide (key x = k)) hu)
          have heq : s' = s :=
            List.inj_on_of_nodup_map hkeys (List.mem_of_find?_eq_some hu) hs (by rw [hsk', hsk])
          rw [Option.map_some, Option.map_some, heq, ← hg r, ← hg s, hsr]

/-- Rows that a column tells apart come in one order. -/
theorem orderBy_eq_of_perm {c : ρ → Nat} {t u : List ρ} (h : t.Perm u)
    (hinj : ∀ a ∈ t, ∀ b ∈ t, c a = c b → a = b) : orderBy c t = orderBy c u := by
  have hperm : (orderBy c t).Perm (orderBy c u) :=
    (List.perm_insertionSort _ t).trans (h.trans (List.perm_insertionSort _ u).symm)
  have hmem : ∀ a, a ∈ orderBy c t → a ∈ t := fun a ha =>
    (List.perm_insertionSort _ t).mem_iff.1 ha
  refine hperm.eq_of_pairwise (fun a b ha hb hab hba => ?_) (pairwise_orderBy c t)
    (pairwise_orderBy c u)
  exact hinj a (hmem a ha) b (hmem b (hperm.mem_iff.2 hb)) (Nat.le_antisymm hab hba)

end Table
