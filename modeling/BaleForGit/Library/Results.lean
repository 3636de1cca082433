import Mathlib.Data.List.Forall2

set_option autoImplicit false

/-! # Lists of fallible steps

`Except` computations that go through a list: `forM` runs checks until one fails, `mapM` collects
results until one fails. -/

namespace Results

variable {α β ε ε' : Type}

/-! ## Single steps -/

theorem bind_eq_ok {x : Except ε α} {f : α → Except ε β} {b : β} :
    (x >>= f) = .ok b ↔ ∃ a, x = .ok a ∧ f a = .ok b := by
  cases x with
  | error e => simp [bind, Except.bind]
  | ok a => simp [bind, Except.bind]

/-- Computations whose parts have the same results. -/
theorem bind_ok_congr {x y : Except ε α} {f g : α → Except ε β} {b : β}
    (hxy : ∀ a, x = .ok a ↔ y = .ok a) (hfg : ∀ a, f a = .ok b ↔ g a = .ok b) :
    (x >>= f) = .ok b ↔ (y >>= g) = .ok b := by
  rw [bind_eq_ok, bind_eq_ok]
  exact exists_congr (fun a => and_congr (hxy a) (hfg a))

theorem map_eq_ok {x : Except ε α} {f : α → β} {b : β} :
    x.map f = .ok b ↔ ∃ a, x = .ok a ∧ f a = b := by
  cases x <;> simp [Except.map]

theorem mapError_eq_ok {x : Except ε α} {g : ε → ε'} {a : α} :
    x.mapError g = .ok a ↔ x = .ok a := by
  cases x with
  | error e => simp [Except.mapError]
  | ok b => simp [Except.mapError]

theorem toOption_eq_some {x : Except ε α} {a : α} : x.toOption = some a ↔ x = .ok a := by
  cases x with
  | error e => simp [Except.toOption]
  | ok b => simp [Except.toOption]

/-! ## Checks -/

/-- **All checks pass.** -/
theorem forM_eq_ok {f : α → Except ε Unit} {l : List α} :
    l.forM f = .ok () ↔ ∀ a ∈ l, f a = .ok () := by
  induction l with
  | nil => simp [List.forM, pure, Except.pure]
  | cons a l ih =>
      simp only [List.forM, List.forall_mem_cons]
      rw [bind_eq_ok, ← ih]
      constructor
      · rintro ⟨_, ha, hl⟩
        exact ⟨ha, hl⟩
      · rintro ⟨ha, hl⟩
        exact ⟨(), ha, hl⟩

theorem forM_append (f : α → Except ε Unit) (l m : List α) :
    (l ++ m).forM f = (l.forM f >>= fun _ => m.forM f) := by
  induction l with
  | nil => rfl
  | cons a l ih =>
      simp only [List.cons_append, List.forM, bind, Except.bind] at ih ⊢
      cases f a with
      | error e => rfl
      | ok _ => exact ih

theorem forM_flatMap (f : β → Except ε Unit) (g : α → List β) (l : List α) :
    (l.flatMap g).forM f = l.forM (fun a => (g a).forM f) := by
  induction l with
  | nil => rfl
  | cons a l ih =>
      rw [List.flatMap_cons, forM_append, ih]
      rfl

theorem forM_map (f : β → Except ε Unit) (g : α → β) (l : List α) :
    (l.map g).forM f = l.forM (fun a => f (g a)) := by
  induction l with
  | nil => rfl
  | cons a l ih =>
      simp only [List.map_cons, List.forM, bind, Except.bind] at ih ⊢
      cases f (g a) with
      | error e => rfl
      | ok _ => exact ih

/-! ## Results -/

/-- **All results are there, in order.** -/
theorem mapM_eq_ok {f : α → Except ε β} {l : List α} {out : List β} :
    l.mapM f = .ok out ↔ List.Forall₂ (fun a b => f a = .ok b) l out := by
  induction l generalizing out with
  | nil => simp [pure, Except.pure, eq_comm]
  | cons a l ih =>
      rw [List.mapM_cons, bind_eq_ok, List.forall₂_cons_left_iff]
      constructor
      · rintro ⟨b, hb, hrest⟩
        obtain ⟨bs, hbs, hout⟩ := bind_eq_ok.1 hrest
        exact ⟨b, bs, hb, ih.1 hbs, (Except.ok.inj hout).symm⟩
      · rintro ⟨b, bs, hb, hbs, rfl⟩
        exact ⟨b, hb, bind_eq_ok.2 ⟨bs, ih.2 hbs, rfl⟩⟩

/-- Results that are mapped afterwards. -/
theorem mapM_map {γ : Type} (φ : β → γ) {f : α → Except ε β} {g : α → Except ε γ}
    (h : ∀ a, (f a).map φ = g a) (l : List α) : (l.mapM f).map (List.map φ) = l.mapM g := by
  induction l with
  | nil => rfl
  | cons a l ih =>
      rw [List.mapM_cons, List.mapM_cons, ← h a, ← ih]
      cases f a with
      | error e => rfl
      | ok b =>
          cases l.mapM f with
          | error e => rfl
          | ok bs => rfl

theorem length_of_mapM {f : α → Except ε β} {l : List α} {out : List β} (h : l.mapM f = .ok out) :
    out.length = l.length :=
  (mapM_eq_ok.1 h).length_eq.symm

theorem exists_of_mem_mapM {f : α → Except ε β} {l : List α} {out : List β} (h : l.mapM f = .ok out)
    {b : β} (hb : b ∈ out) : ∃ a ∈ l, f a = .ok b := by
  have hall := mapM_eq_ok.1 h
  clear h
  induction hall with
  | nil => simp at hb
  | cons hab hrest ih =>
      rcases List.mem_cons.1 hb with rfl | hb
      · exact ⟨_, List.mem_cons_self, hab⟩
      · obtain ⟨a, ha, hf⟩ := ih hb
        exact ⟨a, List.mem_cons_of_mem _ ha, hf⟩

theorem exists_mem_of_mapM {f : α → Except ε β} {l : List α} {out : List β} (h : l.mapM f = .ok out)
    {a : α} (ha : a ∈ l) : ∃ b ∈ out, f a = .ok b := by
  have hall := mapM_eq_ok.1 h
  clear h
  induction hall with
  | nil => simp at ha
  | cons hab hrest ih =>
      rcases List.mem_cons.1 ha with rfl | ha
      · exact ⟨_, List.mem_cons_self, hab⟩
      · obtain ⟨b, hb, hf⟩ := ih ha
        exact ⟨b, List.mem_cons_of_mem _ hb, hf⟩

/-- All steps succeed. -/
theorem exists_mapM_eq_ok {f : α → Except ε β} {l : List α} :
    (∃ out, l.mapM f = .ok out) ↔ ∀ a ∈ l, ∃ b, f a = .ok b := by
  induction l with
  | nil => simp [pure, Except.pure]
  | cons a l ih =>
      rw [List.forall_mem_cons, ← ih]
      constructor
      · rintro ⟨out, hout⟩
        rw [List.mapM_cons] at hout
        obtain ⟨b, hb, hrest⟩ := bind_eq_ok.1 hout
        obtain ⟨bs, hbs, -⟩ := bind_eq_ok.1 hrest
        exact ⟨⟨b, hb⟩, bs, hbs⟩
      · rintro ⟨⟨b, hb⟩, bs, hbs⟩
        exact ⟨b :: bs, by rw [List.mapM_cons, hb, hbs]; rfl⟩

/-- A step that fails is the reason. -/
theorem exists_of_mapM_error {f : α → Except ε β} {l : List α} {e : ε} (h : l.mapM f = .error e) :
    ∃ a ∈ l, f a = .error e := by
  induction l with
  | nil => simp [pure, Except.pure] at h
  | cons a l ih =>
      rw [List.mapM_cons] at h
      cases ha : f a with
      | error e' =>
          simp only [ha, bind, Except.bind, Except.error.injEq] at h
          exact ⟨a, List.mem_cons_self, by rw [ha, h]⟩
      | ok b =>
          cases hl : l.mapM f with
          | ok bs => simp [ha, hl, bind, Except.bind, pure, Except.pure] at h
          | error e' =>
              simp only [ha, hl, bind, Except.bind, Except.error.injEq] at h
              obtain ⟨x, hx, hf⟩ := ih (by rw [hl, h])
              exact ⟨x, List.mem_cons_of_mem a hx, hf⟩

/-- Steps with a known outcome. -/
theorem mapM_eq_ok_map {f : α → Except ε β} {g : α → β} {l : List α} :
    l.mapM f = .ok (l.map g) ↔ ∀ a ∈ l, f a = .ok (g a) := by
  rw [mapM_eq_ok, List.forall₂_map_right_iff, List.forall₂_same]

/-! ## Folds -/

/-- Steps that never fail. -/
theorem foldlM_eq_ok {f : β → α → Except ε β} {g : β → α → β} {l : List α}
    (h : ∀ a ∈ l, ∀ b, f b a = .ok (g b a)) (b : β) : l.foldlM f b = .ok (l.foldl g b) := by
  induction l generalizing b with
  | nil => rfl
  | cons a l ih =>
      rw [List.foldlM_cons, h a List.mem_cons_self b, List.foldl_cons]
      exact ih (fun a' ha' => h a' (List.mem_cons_of_mem a ha')) (g b a)

/-- **Two folds side by side.** Steps that succeed on both sides and keep a relation between them. -/
theorem foldlM_rel {γ : Type} {R : β → γ → Prop} {f : β → α → Except ε β} {g : γ → α → Except ε γ}
    {l : List α} (hstep : ∀ a ∈ l, ∀ b c, R b c →
      ∃ b' c', f b a = .ok b' ∧ g c a = .ok c' ∧ R b' c') {b : β} {c : γ} (h : R b c) :
    ∃ b' c', l.foldlM f b = .ok b' ∧ l.foldlM g c = .ok c' ∧ R b' c' := by
  induction l generalizing b c with
  | nil => exact ⟨b, c, rfl, rfl, h⟩
  | cons a l ih =>
      obtain ⟨b', c', hf, hg, hrel⟩ := hstep a List.mem_cons_self b c h
      rw [List.foldlM_cons, List.foldlM_cons, hf, hg]
      exact ih (fun a' ha' => hstep a' (List.mem_cons_of_mem a ha')) hrel

/-! ## Filling an array

A loop that computes a value for each of its indices and writes it at a position of its own. -/

section Fill

variable {ι : Type} {n : Nat}

def fill (pos : ι → Nat) (val : ι → Except ε α) (l : List ι) (out : Vector α n) :
    Except ε (Vector α n) :=
  l.foldlM (fun out i => val i >>= fun v => pure (out.setIfInBounds (pos i) v)) out

variable {pos : ι → Nat} {val : ι → Except ε α}

/-- Two loops, one in the other, fill from the list of their pairs of indices. -/
theorem fill_flatMap {κ : Type} (f : κ → List ι) (l : List κ) (out : Vector α n) :
    fill pos val (l.flatMap f) out = l.foldlM (fun out k => fill pos val (f k) out) out := by
  unfold fill
  induction l generalizing out with
  | nil => rfl
  | cons k l ih =>
      rw [List.flatMap_cons, List.foldlM_append, List.foldlM_cons]
      exact congrArg (bind _) (funext ih)

/-- **Each position holds its value**, and the others what they held. -/
theorem fill_eq_ok {l : List ι} (hpos : (l.map pos).Nodup) (hlt : ∀ i ∈ l, pos i < n)
    {out res : Vector α n} : fill pos val l out = .ok res ↔
      (∀ i ∈ l, ∃ v, val i = .ok v ∧ res[pos i]? = some v) ∧
      ∀ k, k ∉ l.map pos → res[k]? = out[k]? := by
  induction l generalizing out with
  | nil =>
      simp only [fill, List.foldlM_nil, pure, Except.pure, Except.ok.injEq, List.not_mem_nil,
        List.map_nil, not_false_eq_true, false_imp_iff, implies_true, true_and, forall_const]
      constructor
      · rintro rfl k
        rfl
      · intro h
        refine Vector.ext (fun k hk => Option.some.inj ?_)
        rw [← Vector.getElem?_eq_getElem hk, ← Vector.getElem?_eq_getElem hk, h k]
  | cons i l ih =>
      have hnodup := List.nodup_cons.1 hpos
      have hlt' : ∀ j ∈ l, pos j < n := fun j hj => hlt j (List.mem_cons_of_mem i hj)
      have hunfold : fill pos val (i :: l) out = .ok res ↔ ∃ v, val i = .ok v ∧
          fill pos val l (out.setIfInBounds (pos i) v) = .ok res := by
        unfold fill
        rw [List.foldlM_cons, bind_eq_ok]
        constructor
        · rintro ⟨next, hnext, hrest⟩
          obtain ⟨v, hv, hset⟩ := bind_eq_ok.1 hnext
          obtain rfl := Except.ok.inj hset
          exact ⟨v, hv, hrest⟩
        · rintro ⟨v, hv, hrest⟩
          exact ⟨_, bind_eq_ok.2 ⟨v, hv, rfl⟩, hrest⟩
      rw [hunfold]
      constructor
      · rintro ⟨v, hv, hrest⟩
        obtain ⟨hvals, hothers⟩ := (ih hnodup.2 hlt').1 hrest
        refine ⟨List.forall_mem_cons.2 ⟨⟨v, hv, ?_⟩, hvals⟩, fun k hk => ?_⟩
        · rw [hothers _ hnodup.1, Vector.getElem?_setIfInBounds_self_of_lt (hlt i List.mem_cons_self)]
        · rw [List.map_cons, List.mem_cons, not_or] at hk
          rw [hothers k hk.2, Vector.getElem?_setIfInBounds_ne (Ne.symm hk.1)]
      · rintro ⟨hvals, hothers⟩
        obtain ⟨⟨v, hv, hres⟩, hvals⟩ := List.forall_mem_cons.1 hvals
        refine ⟨v, hv, (ih hnodup.2 hlt').2 ⟨hvals, fun k hk => ?_⟩⟩
        by_cases hki : k = pos i
        · rw [hki, hres, Vector.getElem?_setIfInBounds_self_of_lt (hlt i List.mem_cons_self)]
        · rw [Vector.getElem?_setIfInBounds_ne (Ne.symm hki)]
          exact hothers k (by simp [hki, hk])

/-- A value that fails is the reason. -/
theorem exists_of_fill_error {l : List ι} {out : Vector α n} {e : ε}
    (h : fill pos val l out = .error e) : ∃ i ∈ l, val i = .error e := by
  induction l generalizing out with
  | nil => simp [fill, pure, Except.pure] at h
  | cons i l ih =>
      unfold fill at h
      rw [List.foldlM_cons] at h
      cases hi : val i with
      | error e' =>
          simp only [hi, bind, Except.bind, Except.error.injEq] at h
          exact ⟨i, List.mem_cons_self, by rw [hi, h]⟩
      | ok v =>
          simp only [hi, bind, Except.bind, pure, Except.pure] at h
          obtain ⟨j, hj, hval⟩ := ih h
          exact ⟨j, List.mem_cons_of_mem i hj, hval⟩

end Fill

end Results
