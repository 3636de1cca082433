import BaleForGit.Library.Table

set_option autoImplicit false

/-! # Hash maps

A hash map as the list of its entries in the order it is iterated in. Every key has one entry; the
order is the map's own, so what a program computes from it has to be the same for every permutation
of the entries (`get_perm`, `foldl_match`). -/

namespace Maps

variable {κ β : Type}

/-- One entry for each key. -/
def Valid (m : List (κ × β)) : Prop := (m.map Prod.fst).Nodup

@[simp] theorem valid_nil : Valid ([] : List (κ × β)) := List.nodup_nil

theorem Valid.perm {m m' : List (κ × β)} (h : Valid m) (hperm : m'.Perm m) : Valid m' :=
  (hperm.map Prod.fst).nodup_iff.2 h

variable [DecidableEq κ]

/-- `HashMap::get`. -/
def get (m : List (κ × β)) (k : κ) : Option β := (m.find? (fun e => decide (e.1 = k))).map Prod.snd

/-- `HashMap::insert`, which puts the new value in place of the old. -/
def insert (m : List (κ × β)) (k : κ) (v : β) : List (κ × β) := Table.upsert Prod.fst m (k, v)

@[simp] theorem get_nil (k : κ) : get ([] : List (κ × β)) k = none := rfl

theorem Valid.insert {m : List (κ × β)} (h : Valid m) (k : κ) (v : β) : Valid (insert m k v) :=
  Table.nodup_upsert h (k, v)

theorem mem_of_get {m : List (κ × β)} {k : κ} {v : β} (h : get m k = some v) : (k, v) ∈ m := by
  unfold get at h
  obtain ⟨e, he, rfl⟩ := Option.map_eq_some_iff.1 h
  have hkey : e.1 = k := by simpa using List.find?_some he
  rw [← hkey]
  exact List.mem_of_find?_eq_some he

theorem get_eq_none {m : List (κ × β)} {k : κ} : get m k = none ↔ ∀ e ∈ m, e.1 ≠ k := by
  unfold get
  rw [Option.map_eq_none_iff, List.find?_eq_none]
  simp

/-- **An entry is found**, since no other has its key. -/
theorem get_of_mem {m : List (κ × β)} (h : Valid m) {k : κ} {v : β} (hmem : (k, v) ∈ m) :
    get m k = some v := by
  cases hget : get m k with
  | none => exact absurd rfl (get_eq_none.1 hget _ hmem)
  | some w =>
      have hsame := List.inj_on_of_nodup_map h (mem_of_get hget) hmem rfl
      rw [(Prod.mk.inj hsame).2]

theorem get_eq_some {m : List (κ × β)} (h : Valid m) {k : κ} {v : β} :
    get m k = some v ↔ (k, v) ∈ m :=
  ⟨mem_of_get, get_of_mem h⟩

/-- The order of the entries does not matter. -/
theorem get_perm {m m' : List (κ × β)} (h : Valid m) (hperm : m'.Perm m) (k : κ) :
    get m' k = get m k := by
  refine Option.ext (fun v => ?_)
  rw [get_eq_some h, get_eq_some (h.perm hperm), hperm.mem_iff]

@[simp] theorem get_insert_self (m : List (κ × β)) (k : κ) (v : β) : get (insert m k v) k = some v := by
  unfold get insert Table.upsert
  rw [List.find?_append, List.find?_eq_none.2]
  · simp
  · intro e he
    simpa using (List.mem_filter.1 he).2

theorem get_insert_of_ne (m : List (κ × β)) {k k' : κ} (hne : k' ≠ k) (v : β) :
    get (insert m k v) k' = get m k' := by
  unfold get insert Table.upsert
  rw [List.find?_append, List.find?_filter]
  have hlast : List.find? (fun e : κ × β => decide (e.1 = k')) [(k, v)] = none := by
    simp [Ne.symm hne]
  rw [hlast, Option.or_none]
  congr 2
  funext e
  by_cases he : e.1 = k'
  · simp [he, hne]
  · simp [he]

/-- The sizes of the values, together. -/
def total (size : β → Nat) (m : List (κ × β)) : Nat := (m.map (fun e => size e.2)).sum

/-- **What an insert adds** is the size of the value, and the old value no longer counts. -/
theorem total_insert (size : β → Nat) {m : List (κ × β)} (h : Valid m) (k : κ) (v : β) :
    total size (insert m k v) + ((get m k).map size).getD 0 = total size m + size v := by
  induction m with
  | nil => simp [total, insert, Table.upsert]
  | cons e m ih =>
      obtain ⟨hnew, hrest⟩ := List.nodup_cons.1 h
      have hadd := ih hrest
      by_cases hk : e.1 = k
      · have hnone : get m k = none := by
          refine get_eq_none.2 (fun x hx hxk => hnew ?_)
          rw [hk, ← hxk]
          exact List.mem_map_of_mem hx
        have hsome : get (e :: m) k = some e.2 := by
          rw [← hk]
          exact get_of_mem h List.mem_cons_self
        have hinsert : insert (e :: m) k v = insert m k v := by simp [insert, Table.upsert, hk]
        rw [hnone] at hadd
        rw [hinsert, hsome]
        simp only [total, Option.map_none, Option.map_some, Option.getD_none, Option.getD_some,
          List.map_cons, List.sum_cons] at hadd ⊢
        omega
      · have hget : get (e :: m) k = get m k := by simp [get, hk]
        have hinsert : insert (e :: m) k v = e :: insert m k v := by
          simp [insert, Table.upsert, hk]
        rw [hinsert, hget]
        simp only [total, List.map_cons, List.sum_cons] at hadd ⊢
        omega

/-- **A loop that keeps the last match** finds what `get` does, in whichever order it runs. -/
theorem foldl_match {m : List (κ × β)} (h : Valid m) {p : κ → Bool} {k : κ}
    (hp : ∀ e ∈ m, p e.1 = true ↔ e.1 = k) :
    m.foldl (fun found e => if p e.1 = true then some e.2 else found) none = get m k := by
  have hloop : ∀ (l : List (κ × β)) (found : Option β), Valid l →
      (∀ e ∈ l, p e.1 = true ↔ e.1 = k) →
      l.foldl (fun found e => if p e.1 = true then some e.2 else found) found =
        (get l k).or found := by
    intro l
    induction l with
    | nil => intro found _ _; rfl
    | cons e l ih =>
        intro found hl hpl
        have hrest := (List.nodup_cons.1 hl).2
        have hhead := hpl e List.mem_cons_self
        rw [List.foldl_cons, ih _ hrest (fun x hx => hpl x (List.mem_cons_of_mem e hx))]
        by_cases hk : e.1 = k
        · have hnone : get l k = none := by
            refine get_eq_none.2 (fun x hx hxk => (List.nodup_cons.1 hl).1 ?_)
            rw [hk, ← hxk]
            exact List.mem_map_of_mem hx
          rw [if_pos (hhead.2 hk), hnone]
          simp [get, hk]
        · rw [if_neg (fun hpe => hk (hhead.1 hpe))]
          simp [get, hk]
  rw [hloop m none h hp, Option.or_none]

end Maps
