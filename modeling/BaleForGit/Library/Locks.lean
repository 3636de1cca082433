import Mathlib.Data.List.Basic
import Mathlib.Logic.Function.Basic
import Mathlib.Logic.Relation
import Mathlib.Order.Basic

set_option autoImplicit false

/-! # Locks that are held to the end

Holders that each take the locks of their script one by one, and release them all at their end. A
holder waits for another one that has the lock it takes next; a cycle of holders that wait is a
deadlock. Whether one is reachable is a question about the scripts alone: whether they can be cut so
that what comes before the cuts is disjoint, and what comes next goes round in a circle. -/

namespace Locks

variable {ι L : Type*} {script : ι → List L}

/-! ## The machine -/

/-- How many locks of its script each running holder has. -/
abbrev State (ι : Type*) := ι → Option Nat

def holds (script : ι → List L) (s : State ι) (i : ι) : List L :=
  (script i).take ((s i).getD 0)

/-- The lock that a holder takes next. -/
def next (script : ι → List L) (s : State ι) (i : ι) : Option L :=
  (s i).bind (fun n => (script i)[n]?)

/-- One holder begins, takes its next lock, or ends. It may have that lock already. -/
inductive Step [DecidableEq ι] (script : ι → List L) : State ι → State ι → Prop
  | begin {s : State ι} {i : ι} (hidle : s i = none) (hscript : script i ≠ []) :
      Step script s (Function.update s i (some 0))
  | acquire {s : State ι} {i : ι} {n : Nat} {l : L} (hrunning : s i = some n)
      (hnext : (script i)[n]? = some l) (hfree : ∀ k, k ≠ i → l ∉ holds script s k) :
      Step script s (Function.update s i (some (n + 1)))
  | finish {s : State ι} {i : ι} : Step script s (Function.update s i none)

def Reachable [DecidableEq ι] (script : ι → List L) (s : State ι) : Prop :=
  Relation.ReflTransGen (Step script) (fun _ => none) s

/-- Holder `i` waits for `k`. -/
def WaitsFor (script : ι → List L) (s : State ι) (i k : ι) : Prop :=
  i ≠ k ∧ ∃ l, next script s i = some l ∧ l ∈ holds script s k

def Deadlocked (script : ι → List L) (s : State ι) : Prop :=
  ∃ i, Relation.TransGen (WaitsFor script s) i i

/-- No two holders have a lock in common. -/
def Apart (script : ι → List L) (s : State ι) : Prop :=
  ∀ i k, i ≠ k → ∀ l ∈ holds script s i, l ∉ holds script s k

/-! ## Crossing scripts -/

/-- What comes before a cut: the first `cut i` locks of script `i`. -/
def before (script : ι → List L) (cut : ι → Nat) (i : ι) : List L := (script i).take (cut i)

/-- The lock after the cut of `i` comes before the cut of `k`. -/
def Needs (script : ι → List L) (cut : ι → Nat) (i k : ι) : Prop :=
  i ≠ k ∧ ∃ l, (script i)[cut i]? = some l ∧ l ∈ before script cut k

/-- **Scripts cross** when they can be cut so that what comes before the cuts is disjoint, and each
    script of some circle needs next what comes before the cut of the following one. -/
def Crossing (script : ι → List L) : Prop :=
  ∃ cut : ι → Nat, (∀ i k, i ≠ k → ∀ l ∈ before script cut i, l ∉ before script cut k) ∧
    ∃ i, Relation.TransGen (Needs script cut) i i

/-! ## Deadlocks are crossings -/

section Update

variable [DecidableEq ι] {s : State ι} {i k : ι}

theorem holds_update_self (o : Option Nat) :
    holds script (Function.update s i o) i = (script i).take (o.getD 0) := by
  unfold holds
  rw [Function.update_self]

theorem holds_update_of_ne (hne : k ≠ i) (o : Option Nat) :
    holds script (Function.update s i o) k = holds script s k := by
  unfold holds
  rw [Function.update_of_ne hne]

/-- **A step keeps the holders apart.** -/
theorem Step.apart {s' : State ι} (hstep : Step script s s') (hs : Apart script s) :
    Apart script s' := by
  -- it is enough to look at what the holder that moves has afterwards
  have hmoved : ∀ (i : ι) (o : Option Nat),
      (∀ l ∈ (script i).take (o.getD 0), ∀ k, k ≠ i → l ∉ holds script s k) →
        Apart script (Function.update s i o) := by
    intro i o ho j k hjk l hl
    by_cases hj : j = i
    · subst hj
      rw [holds_update_self] at hl
      rw [holds_update_of_ne (Ne.symm hjk)]
      exact ho l hl k (Ne.symm hjk)
    · rw [holds_update_of_ne hj] at hl
      by_cases hk : k = i
      · subst hk
        rw [holds_update_self]
        exact fun hin => ho l hin j hjk hl
      · rw [holds_update_of_ne hk]
        exact hs j k hjk l hl
  cases hstep with
  | begin hidle hscript => exact hmoved _ _ (by simp)
  | @acquire i n l hrunning hnext hfree =>
      refine hmoved _ _ (fun m hm k hk => ?_)
      simp only [Option.getD_some, List.take_add_one, hnext, Option.toList_some, List.mem_append,
        List.mem_singleton] at hm
      obtain hm | rfl := hm
      · refine hs i k (Ne.symm hk) m ?_
        unfold holds
        rw [hrunning]
        exact hm
      · exact hfree k hk
  | finish => exact hmoved _ _ (by simp)

theorem Reachable.apart (hreach : Reachable script s) : Apart script s := by
  induction hreach with
  | refl => exact fun i k _ l hl => by simp [holds] at hl
  | tail _ hstep ih => exact hstep.apart ih

end Update

/-- A deadlock whose holders are apart shows how the scripts cross. -/
theorem Apart.crossing {s : State ι} (hapart : Apart script s) (hdead : Deadlocked script s) :
    Crossing script := by
  obtain ⟨i, hcycle⟩ := hdead
  refine ⟨fun k => (s k).getD 0, hapart, i, .mono (fun j k hwait => ?_) i i hcycle⟩
  obtain ⟨hne, l, hnext, hl⟩ := hwait
  obtain ⟨n, hn, hnext⟩ := Option.bind_eq_some_iff.1 hnext
  refine ⟨hne, l, ?_, hl⟩
  simp only [hn, Option.getD_some, hnext]

/-! ## Crossings are deadlocks -/

/-- A path has finitely many members. -/
theorem exists_members {α : Type*} {r : α → α → Prop} {a b : α} (h : Relation.TransGen r a b) :
    ∃ l : List α, a ∈ l ∧ b ∈ l ∧ (∀ x ∈ l, x = b ∨ ∃ y, r x y) ∧
      Relation.TransGen (fun x y => x ∈ l ∧ y ∈ l ∧ r x y) a b := by
  induction h using Relation.TransGen.head_induction_on with
  | @single a hab =>
      refine ⟨[a, b], by simp, by simp, fun x hx => ?_, .single ⟨by simp, by simp, hab⟩⟩
      obtain rfl | rfl : x = a ∨ x = b := by simpa using hx
      · exact Or.inr ⟨b, hab⟩
      · exact Or.inl rfl
  | @head a c hac _ ih =>
      obtain ⟨l, hc, hb, hmem, hpath⟩ := ih
      refine ⟨a :: l, List.mem_cons_self, List.mem_cons_of_mem a hb, fun x hx => ?_, ?_⟩
      · rcases List.mem_cons.1 hx with rfl | hx
        · exact Or.inr ⟨c, hac⟩
        · exact hmem x hx
      · refine .head ⟨List.mem_cons_self, List.mem_cons_of_mem a hc, hac⟩
          (Relation.TransGen.mono (fun x y hxy => ?_) c b hpath)
        exact ⟨List.mem_cons_of_mem a hxy.1, List.mem_cons_of_mem a hxy.2.1, hxy.2.2⟩

section Realise

variable [DecidableEq ι] {s : State ι} {cut : ι → Nat}

/-- The cuts of some holders, the others idle. -/
def cutState (cut : ι → Nat) (l : List ι) : State ι := fun i => if i ∈ l then some (cut i) else none

/-- A holder takes what comes before its cut, one lock after the other. -/
theorem Reachable.acquires (hreach : Reachable script s) {i : ι} (hidle : s i = none) {n : Nat}
    (hn : n < (script i).length)
    (hfree : ∀ l ∈ (script i).take n, ∀ k, k ≠ i → l ∉ holds script s k) :
    Reachable script (Function.update s i (some n)) := by
  induction n with
  | zero => exact hreach.tail (.begin hidle (List.ne_nil_of_length_pos hn))
  | succ n ih =>
      have hn' : n < (script i).length := by omega
      have htake : (script i).take (n + 1) = (script i).take n ++ [(script i)[n]] := by
        rw [List.take_add_one, List.getElem?_eq_getElem hn', Option.toList_some]
      have hprev := ih hn' (fun l hl => hfree l (by rw [htake]; exact List.mem_append_left _ hl))
      have hstep : Step script (Function.update s i (some n))
          (Function.update (Function.update s i (some n)) i (some (n + 1))) := by
        refine .acquire (Function.update_self ..) (List.getElem?_eq_getElem hn') (fun k hk => ?_)
        rw [holds_update_of_ne hk]
        refine hfree _ ?_ k hk
        rw [htake]
        exact List.mem_append_right _ (List.mem_singleton_self _)
      rw [Function.update_idem] at hstep
      exact hprev.tail hstep

theorem holds_cutState {i : ι} {l : List ι} {x : L} (hx : x ∈ holds script (cutState cut l) i) :
    i ∈ l ∧ x ∈ before script cut i := by
  unfold holds cutState at hx
  split_ifs at hx with hi
  · exact ⟨hi, hx⟩
  · simp at hx

/-- **Disjoint beginnings can be taken one holder after the other.** -/
theorem reachable_cutState (l : List ι) (hcut : ∀ i ∈ l, cut i < (script i).length)
    (hapart : ∀ i k, i ≠ k → ∀ x ∈ before script cut i, x ∉ before script cut k) :
    Reachable script (cutState cut l) := by
  induction l with
  | nil =>
      have hinit : cutState cut ([] : List ι) = fun _ => none := by
        funext i
        simp [cutState]
      rw [hinit]
      exact .refl
  | cons i l ih =>
      have hprev := ih (fun k hk => hcut k (List.mem_cons_of_mem i hk))
      by_cases hi : i ∈ l
      · have hsame : cutState cut (i :: l) = cutState cut l := by
          funext k
          unfold cutState
          by_cases hk : k = i
          · simp [hk, hi]
          · simp [hk]
        rw [hsame]
        exact hprev
      · have hnew : cutState cut (i :: l) =
            Function.update (cutState cut l) i (some (cut i)) := by
          funext k
          by_cases hk : k = i
          · subst hk
            simp [cutState]
          · simp [cutState, hk]
        rw [hnew]
        refine hprev.acquires (by simp [cutState, hi]) (hcut i List.mem_cons_self)
          (fun x hx k hk hin => ?_)
        exact hapart i k (Ne.symm hk) x hx (holds_cutState hin).2

end Realise

/-- **Deadlocks are reachable exactly when the scripts cross.** -/
theorem exists_deadlock_iff [DecidableEq ι] :
    (∃ s, Reachable script s ∧ Deadlocked script s) ↔ Crossing script := by
  constructor
  · rintro ⟨s, hreach, hdead⟩
    exact hreach.apart.crossing hdead
  · rintro ⟨cut, hapart, i, hcycle⟩
    obtain ⟨l, hi, -, hmem, hcycle⟩ := exists_members hcycle
    have hcut : ∀ k ∈ l, cut k < (script k).length := by
      intro k hk
      have hneeds : ∃ j, Needs script cut k j := by
        rcases hmem k hk with rfl | hneeds
        · -- the first member of the circle is the last one
          obtain ⟨j, ⟨-, -, hj⟩, -⟩ := Relation.TransGen.head'_iff.1 hcycle
          exact ⟨j, hj⟩
        · exact hneeds
      obtain ⟨j, -, x, hx, -⟩ := hneeds
      exact (List.getElem?_eq_some_iff.1 hx).1
    refine ⟨cutState cut l, reachable_cutState l hcut hapart, i,
      .mono (fun j k hjk => ?_) i i hcycle⟩
    obtain ⟨hj, hk, hne, x, hx, hin⟩ := hjk
    refine ⟨hne, x, ?_, ?_⟩
    · simp [next, cutState, hj, hx]
    · unfold holds cutState
      rw [if_pos hk]
      exact hin

/-! ## Ordered scripts -/

section Ordered

variable {κ : Type*} [Preorder κ] {rank : L → κ} {cut : ι → Nat}

theorem rank_lt_of_before (hordered : ∀ i, (script i).Pairwise (fun a b => rank a < rank b ∨ a = b))
    {i : ι} {a b : L} (ha : a ∈ before script cut i) (hb : (script i)[cut i]? = some b) :
    rank a < rank b ∨ a = b := by
  have hsplit := hordered i
  rw [← List.take_append_drop (cut i) (script i)] at hsplit
  refine (List.pairwise_append.1 hsplit).2.2 a ha b ?_
  refine List.mem_of_mem_head? ?_
  rw [List.head?_drop, hb]
  exact rfl

/-- **Scripts that take their locks in one order do not cross.** -/
theorem not_crossing_of_ordered (rank : L → κ)
    (hordered : ∀ i, (script i).Pairwise (fun a b => rank a < rank b ∨ a = b)) :
    ¬ Crossing script := by
  rintro ⟨cut, hapart, i, hcycle⟩
  -- along a path the needed locks ascend, if another script has the last of them
  have hascend : ∀ {i k : ι}, Relation.TransGen (Needs script cut) i k →
      ∀ b, (script k)[cut k]? = some b → (∃ j, j ≠ k ∧ b ∈ before script cut j) →
        ∃ a, (script i)[cut i]? = some a ∧ rank a < rank b := by
    intro i k hpath
    induction hpath using Relation.TransGen.head_induction_on with
    | single hneeds =>
        rintro b hb ⟨j, hj, hin⟩
        obtain ⟨-, a, ha, hbefore⟩ := hneeds
        refine ⟨a, ha, (rank_lt_of_before hordered hbefore hb).resolve_right ?_⟩
        rintro rfl
        exact hapart j k hj a hin hbefore
    | head hneeds _ ih =>
        intro b hb hother
        obtain ⟨-, a, ha, hbefore⟩ := hneeds
        obtain ⟨c, hc, hlt⟩ := ih b hb hother
        refine ⟨a, ha, ?_⟩
        rcases rank_lt_of_before hordered hbefore hc with hac | rfl
        · exact hac.trans hlt
        · exact hlt
  obtain ⟨k, ⟨hne, b, hb, hin⟩, -⟩ := Relation.TransGen.head'_iff.1 hcycle
  obtain ⟨a, ha, hlt⟩ := hascend hcycle b hb ⟨k, Ne.symm hne, hin⟩
  rw [hb] at ha
  rw [← Option.some.inj ha] at hlt
  exact lt_irrefl _ hlt

end Ordered

end Locks
