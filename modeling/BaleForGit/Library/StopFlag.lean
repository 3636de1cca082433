import Mathlib.Algebra.Ring.Nat
import BaleForGit.Library.Machine

set_option autoImplicit false

/-! # Workers that share a stop flag

Each worker has a list of items to check. Before an item it looks at the flag, and stops if it is up;
when an item fails it puts the flag up, and stops. The flag is read without synchronisation: until a
worker has seen it up, it may read the value from the start. So an action says which worker moves and
whether its look at the flag is stale.

`stopped_iff`: when all have stopped, the flag is up exactly if an item fails, whatever the
schedule. `exists_finish`: every run can be brought to that end, and `length_le` bounds its length. -/

namespace StopFlag

variable {α : Type}

/-- Before the next item, at an item, or at the end. -/
inductive Worker (α : Type) where
  | next (todo : List α)
  | busy (item : α) (todo : List α)
  | done
deriving DecidableEq

structure State (α : Type) where
  stopped : Bool
  workers : List (Worker α)
deriving DecidableEq

variable (check : α → Bool)

/-- One worker looks at the flag, or checks its item. -/
def step (s : State α) (a : Nat × Bool) : Option (State α) :=
  match s.workers[a.1]? with
  | some (.next []) => some { s with workers := s.workers.set a.1 .done }
  | some (.next (x :: todo)) =>
    if s.stopped = true ∧ a.2 = false then some { s with workers := s.workers.set a.1 .done }
    else some { s with workers := s.workers.set a.1 (.busy x todo) }
  | some (.busy x todo) =>
    if check x = true then some { s with workers := s.workers.set a.1 (.next todo) }
    else some ⟨true, s.workers.set a.1 .done⟩
  | _ => none

/-- Every worker before its first item. -/
def start (shares : List (List α)) : State α := ⟨false, shares.map .next⟩

def Finished (s : State α) : Prop := ∀ w ∈ s.workers, w = .done

instance [DecidableEq α] (s : State α) : Decidable (Finished s) :=
  inferInstanceAs (Decidable (∀ w ∈ s.workers, w = .done))

/-! ## What a step can do -/

/-- A worker stops, takes an item, passes one, or fails one. -/
theorem step_cases {s s' : State α} {a : Nat × Bool} (h : step check s a = some s') :
    ∃ w w', s.workers[a.1]? = some w ∧ s'.workers = s.workers.set a.1 w' ∧
      ((w = .next [] ∧ w' = .done ∧ s'.stopped = s.stopped) ∨
      (∃ x todo, w = .next (x :: todo) ∧ w' = .done ∧ s.stopped = true ∧ s'.stopped = true) ∨
      (∃ x todo, w = .next (x :: todo) ∧ w' = .busy x todo ∧ s'.stopped = s.stopped) ∨
      (∃ x todo, w = .busy x todo ∧ check x = true ∧ w' = .next todo ∧ s'.stopped = s.stopped) ∨
      ∃ x todo, w = .busy x todo ∧ check x = false ∧ w' = .done ∧ s'.stopped = true) := by
  unfold step at h
  split at h
  · next hw =>
      rw [← Option.some.inj h]
      exact ⟨_, _, hw, rfl, Or.inl ⟨rfl, rfl, rfl⟩⟩
  · next x todo hw =>
      split_ifs at h with hstop
      · rw [← Option.some.inj h]
        exact ⟨_, _, hw, rfl, Or.inr (Or.inl ⟨x, todo, rfl, rfl, hstop.1, hstop.1⟩)⟩
      · rw [← Option.some.inj h]
        exact ⟨_, _, hw, rfl, Or.inr (Or.inr (Or.inl ⟨x, todo, rfl, rfl, rfl⟩))⟩
  · next x todo hw =>
      split_ifs at h with hcheck
      · rw [← Option.some.inj h]
        exact ⟨_, _, hw, rfl, Or.inr (Or.inr (Or.inr (Or.inl ⟨x, todo, rfl, hcheck, rfl, rfl⟩)))⟩
      · rw [← Option.some.inj h]
        exact ⟨_, _, hw, rfl, Or.inr (Or.inr (Or.inr (Or.inr
          ⟨x, todo, rfl, Bool.eq_false_iff.2 hcheck, rfl, rfl⟩)))⟩
  · cases h

/-! ## The verdict -/

/-- What a worker has passed of its share so far. -/
def Passed (stopped : Bool) (share : List α) : Worker α → Prop
  | .next todo => ∃ past, share = past ++ todo ∧ ∀ x ∈ past, check x = true
  | .busy x todo => ∃ past, share = past ++ x :: todo ∧ ∀ y ∈ past, check y = true
  | .done => stopped = true ∨ ∀ x ∈ share, check x = true

/-- The flag is up only if an item fails, and workers have passed what is behind them. -/
structure Inv (shares : List (List α)) (s : State α) : Prop where
  length : s.workers.length = shares.length
  failed : s.stopped = true → ∃ share ∈ shares, ∃ x ∈ share, check x = false
  passed : ∀ (i : Nat) w share, s.workers[i]? = some w → shares[i]? = some share →
    Passed check s.stopped share w

variable {check}

theorem Passed.mono {b b' : Bool} (hb : b = true → b' = true) {share : List α} {w : Worker α}
    (h : Passed check b share w) : Passed check b' share w := by
  cases w with
  | next todo => exact h
  | busy x todo => exact h
  | done => exact h.imp_left hb

theorem inv_start (shares : List (List α)) : Inv check shares (start shares) := by
  refine ⟨by simp [start], fun h => absurd h (by simp [start]), fun i w share hw hshare => ?_⟩
  simp only [start, List.getElem?_map, hshare, Option.map_some, Option.some.injEq] at hw
  rw [← hw]
  exact ⟨[], rfl, by simp⟩

/-- **Every step keeps the invariant.** -/
theorem inv_step {shares : List (List α)} {s s' : State α} {a : Nat × Bool}
    (hinv : Inv check shares s) (h : step check s a = some s') : Inv check shares s' := by
  obtain ⟨w, w', hw, hworkers, hcase⟩ := step_cases check h
  have hlen : a.1 < shares.length := by
    rw [← hinv.length]
    exact (List.getElem?_eq_some_iff.1 hw).1
  have hown := hinv.passed a.1 w shares[a.1] hw (List.getElem?_eq_getElem hlen)
  -- the flag, the worker that moves, and then the others
  have hkey : (s.stopped = true → s'.stopped = true) ∧
      (s'.stopped = true → ∃ share ∈ shares, ∃ x ∈ share, check x = false) ∧
      Passed check s'.stopped shares[a.1] w' := by
    rcases hcase with ⟨rfl, rfl, hflag⟩ | ⟨x, todo, rfl, rfl, hup, hflag⟩ |
      ⟨x, todo, rfl, rfl, hflag⟩ | ⟨x, todo, rfl, hcheck, rfl, hflag⟩ |
      ⟨x, todo, rfl, hcheck, rfl, hflag⟩
    · rw [hflag]
      obtain ⟨past, hshare, hpast⟩ := hown
      refine ⟨id, hinv.failed, Or.inr ?_⟩
      rw [hshare, List.append_nil]
      exact hpast
    · exact ⟨fun _ => hflag, fun _ => hinv.failed hup, Or.inl hflag⟩
    · rw [hflag]
      exact ⟨id, hinv.failed, hown⟩
    · rw [hflag]
      obtain ⟨past, hshare, hpast⟩ := hown
      refine ⟨id, hinv.failed, past ++ [x], by simp [hshare], fun y hy => ?_⟩
      rcases List.mem_append.1 hy with hy | hy
      · exact hpast y hy
      · rw [List.mem_singleton.1 hy]
        exact hcheck
    · obtain ⟨past, hshare, -⟩ := hown
      exact ⟨fun _ => hflag, fun _ => ⟨_, List.getElem_mem hlen, x, by simp [hshare], hcheck⟩,
        Or.inl hflag⟩
  obtain ⟨hmono, hfailed, hmoved⟩ := hkey
  refine ⟨by rw [hworkers, List.length_set, hinv.length], hfailed, fun i v share hv hshare => ?_⟩
  rw [hworkers, List.getElem?_set] at hv
  split_ifs at hv with hi hbound
  · subst hi
    rw [List.getElem?_eq_getElem hlen] at hshare
    rw [← Option.some.inj hv, ← Option.some.inj hshare]
    exact hmoved
  · exact (hinv.passed i v share hv hshare).mono hmono

/-- **The verdict does not depend on the schedule**: at the end, the flag is down exactly if every
    item passes. -/
theorem stopped_iff {shares : List (List α)} {acts : List (Nat × Bool)} {s : State α}
    (hrun : Machine.run (step check) (start shares) acts = some s) (hfin : Finished s) :
    s.stopped = false ↔ ∀ share ∈ shares, ∀ x ∈ share, check x = true := by
  have hinv : Inv check shares s :=
    Machine.run_invariant_of_step (fun _ _ _ => inv_step) (inv_start shares) hrun
  constructor
  · intro hdown share hshare
    obtain ⟨i, hi⟩ := List.getElem?_of_mem hshare
    have hbound : i < s.workers.length := by
      rw [hinv.length]
      exact (List.getElem?_eq_some_iff.1 hi).1
    have hpassed := hinv.passed i s.workers[i] share (List.getElem?_eq_getElem hbound) hi
    rw [hfin _ (List.getElem_mem hbound), hdown] at hpassed
    exact hpassed.resolve_left (by simp)
  · intro hall
    by_contra hup
    obtain ⟨share, hshare, x, hx, hfail⟩ := hinv.failed (by simpa using hup)
    rw [hall share hshare x hx] at hfail
    cases hfail

/-! ## The end of a run -/

def Worker.size : Worker α → Nat
  | .next todo => 2 * todo.length + 1
  | .busy _ todo => 2 * todo.length + 2
  | .done => 0

def size (s : State α) : Nat := (s.workers.map Worker.size).sum

theorem sum_set {l : List (Worker α)} {i : Nat} {w w' : Worker α} (h : l[i]? = some w)
    (hlt : w'.size < w.size) :
    ((l.set i w').map Worker.size).sum < (l.map Worker.size).sum := by
  induction l generalizing i with
  | nil => cases h
  | cons v l ih =>
      cases i with
      | zero =>
          obtain rfl := Option.some.inj h
          simp only [List.set_cons_zero, List.map_cons, List.sum_cons]
          omega
      | succ i =>
          have hrest := ih (i := i) (by simpa using h)
          simp only [List.set_cons_succ, List.map_cons, List.sum_cons]
          omega

/-- Every step brings the end nearer. -/
theorem size_step {s s' : State α} {a : Nat × Bool} (h : step check s a = some s') :
    size s' < size s := by
  obtain ⟨w, w', hw, hworkers, hcase⟩ := step_cases check h
  unfold size
  rw [hworkers]
  refine sum_set hw ?_
  rcases hcase with ⟨rfl, rfl, -⟩ | ⟨x, todo, rfl, rfl, -⟩ | ⟨x, todo, rfl, rfl, -⟩ |
    ⟨x, todo, rfl, -, rfl, -⟩ | ⟨x, todo, rfl, -, rfl, -⟩ <;>
  simp only [Worker.size, List.length_cons, List.length_nil] <;> omega

/-- A run is no longer than the work there is. -/
theorem length_le {s s' : State α} {acts : List (Nat × Bool)}
    (hrun : Machine.run (step check) s acts = some s') : acts.length + size s' ≤ size s := by
  induction acts generalizing s with
  | nil =>
      rw [← Option.some.inj hrun]
      simp
  | cons a acts ih =>
      obtain ⟨t, ht, hrest⟩ := Machine.run_cons_eq_some hrun
      have hlt := size_step ht
      have hle := ih hrest
      rw [List.length_cons]
      omega

/-- **A run that has not ended can go on**, so that it comes to its end. -/
theorem exists_finish (check : α → Bool) (s : State α) :
    ∃ acts s', Machine.run (step check) s acts = some s' ∧ Finished s' := by
  induction hn : size s using Nat.strong_induction_on generalizing s with
  | _ n ih =>
      by_cases hfin : Finished s
      · exact ⟨[], s, rfl, hfin⟩
      · unfold Finished at hfin
        push Not at hfin
        obtain ⟨w, hw, hne⟩ := hfin
        obtain ⟨i, hi⟩ := List.getElem?_of_mem hw
        have hstep : ∃ s', step check s (i, false) = some s' := by
          unfold step
          rw [hi]
          cases w with
          | next todo =>
              cases todo with
              | nil => exact ⟨_, rfl⟩
              | cons x todo =>
                  simp only
                  split_ifs <;> exact ⟨_, rfl⟩
          | busy x todo =>
              simp only
              split_ifs <;> exact ⟨_, rfl⟩
          | done => exact absurd rfl hne
        obtain ⟨s', hs'⟩ := hstep
        obtain ⟨acts, t, hrun, ht⟩ := ih (size s') (hn ▸ size_step hs') s' rfl
        refine ⟨(i, false) :: acts, t, ?_, ht⟩
        rw [Machine.run, hs']
        exact hrun

end StopFlag
