import Mathlib.Data.List.Basic
import Mathlib.Data.List.Infix
import Mathlib.Logic.Function.Basic

set_option autoImplicit false

/-! # A file system that forgets

Directory entries and inodes, and what a crash does to them. Until a directory is synced, a crash may
bring back whatever one of its entries has held before (`past`), entry by entry; until a file is
synced, a crash may leave anything in it. What is below a directory that a crash loses is lost too.

`Shows` is what an entry holds or may hold after a crash. Every operation says what it shows anew, so
that what is known of all that an entry shows survives crashes. -/

namespace Disk

variable {γ β : Type} [DecidableEq γ]

/-! ## Files and directories -/

inductive Node where
  | dir
  | file (inode : Nat)
deriving DecidableEq

structure Inode (β : Type) where
  data : List β
  synced : Bool

structure State (γ β : Type) where
  entries : List γ → Option Node
  /-- What a crash may bring back. -/
  past : List γ → List (Option Node)
  inodes : Nat → Inode β
  /-- Inodes from here on are free. -/
  fresh : Nat

/-- The root alone. -/
def State.empty : State γ β where
  entries := fun p => if p = [] then some .dir else none
  past := fun _ => []
  inodes := fun _ => ⟨[], true⟩
  fresh := 0

def setEntry (s : State γ β) (p : List γ) (v : Option Node) : State γ β :=
  { s with
    entries := fun q => if q = p then v else s.entries q
    past := fun q => if q = p then s.entries p :: s.past p else s.past q }

def setInode (s : State γ β) (i : Nat) (node : Inode β) : State γ β :=
  { s with inodes := fun j => if j = i then node else s.inodes j }

/-! ## Operations -/

/-- One directory, or none if it is there. -/
def mkdir (s : State γ β) (p : List γ) : Option (State γ β) :=
  match s.entries p with
  | some .dir => some s
  | some (.file _) => none
  | none => if s.entries p.dropLast = some .dir then some (setEntry s p (some .dir)) else none

/-- The directory and what it is in, from the top. -/
def mkdirAll (s : State γ β) (p : List γ) : Option (State γ β) :=
  p.inits.foldl (fun acc q => acc.bind (fun s => mkdir s q)) (some s)

/-- A new file; fails if the entry is taken. -/
def createNew (s : State γ β) (p : List γ) : Option (State γ β × Nat) :=
  if s.entries p = none ∧ s.entries p.dropLast = some .dir then
    some ({ setInode (setEntry s p (some (.file s.fresh))) s.fresh ⟨[], false⟩ with
      fresh := s.fresh + 1 }, s.fresh)
  else none

def append (s : State γ β) (i : Nat) (bytes : List β) : State γ β :=
  setInode s i ⟨(s.inodes i).data ++ bytes, false⟩

def sync (s : State γ β) (i : Nat) : State γ β := setInode s i ⟨(s.inodes i).data, true⟩

/-- A file is moved, over the file that is there. -/
def rename (s : State γ β) (p q : List γ) : Option (State γ β) :=
  match s.entries p, s.entries q with
  | some (.file _), some .dir => none
  | some (.file i), _ =>
    if s.entries q.dropLast = some .dir then
      some (setEntry (setEntry s q (some (.file i))) p none)
    else none
  | _, _ => none

def remove (s : State γ β) (p : List γ) : Option (State γ β) :=
  match s.entries p with
  | some (.file _) => some (setEntry s p none)
  | _ => none

/-- The entries of a directory are on the disk. -/
def syncDir (s : State γ β) (dir : List γ) : State γ β :=
  { s with past := fun q => if q ≠ [] ∧ q.dropLast = dir then [] else s.past q }

/-- The entries after a crash that brings back `back`, before what is below lost directories is
    lost. -/
def reverted (s : State γ β) (back : List (List γ × Option Node)) (p : List γ) : Option Node :=
  match back.find? (fun e => decide (e.1 = p)) with
  | some e => e.2
  | none => s.entries p

/-- Everything that was not synced is up to the disk. -/
def crash (s : State γ β) (back : List (List γ × Option Node)) (lost : Nat → List β) :
    Option (State γ β) :=
  if back.all (fun e => decide (e.1 ≠ []) && (s.past e.1).contains e.2) then
    some {
      entries := fun p =>
        if (List.range p.length).all (fun k => decide (reverted s back (p.take k) = some .dir)) then
          reverted s back p
        else none
      past := fun _ => []
      inodes := fun i => ⟨if (s.inodes i).synced then (s.inodes i).data else lost i, true⟩
      fresh := s.fresh }
  else none

/-! ## What an entry shows -/

/-- The entry holds the node, or a crash may bring it back. -/
def Shows (s : State γ β) (p : List γ) (n : Node) : Prop :=
  s.entries p = some n ∨ some n ∈ s.past p

/-- The entry is as it was, and a crash brings no more back. -/
structure Stays (s s' : State γ β) (q : List γ) : Prop where
  entries : s'.entries q = s.entries q
  past : ∀ v ∈ s'.past q, v ∈ s.past q

section Entries

variable {s s' s'' : State γ β} {p q : List γ} {v : Option Node} {n : Node}

omit [DecidableEq γ] in
theorem Stays.refl (s : State γ β) (q : List γ) : Stays s s q := ⟨rfl, fun _ hv => hv⟩

omit [DecidableEq γ] in
theorem Stays.trans (h : Stays s s' q) (h' : Stays s' s'' q) : Stays s s'' q :=
  ⟨h'.entries.trans h.entries, fun v hv => h.past v (h'.past v hv)⟩

omit [DecidableEq γ] in
theorem Stays.shows (h : Stays s s' q) (hn : Shows s' q n) : Shows s q n := by
  rcases hn with hn | hn
  · exact Or.inl (h.entries ▸ hn)
  · exact Or.inr (h.past _ hn)

@[simp] theorem entries_setEntry : (setEntry s p v).entries q = if q = p then v else s.entries q :=
  rfl

theorem past_setEntry_self : (setEntry s p v).past p = s.entries p :: s.past p := if_pos rfl

theorem stays_setEntry (hqp : q ≠ p) : Stays s (setEntry s p v) q :=
  ⟨if_neg hqp, fun w hw => by simpa only [setEntry, if_neg hqp] using hw⟩

omit [DecidableEq γ] in
theorem inodes_setInode_self (s : State γ β) (i : Nat) (node : Inode β) :
    (setInode s i node).inodes i = node := if_pos rfl

omit [DecidableEq γ] in
theorem stays_setInode (s : State γ β) (i : Nat) (node : Inode β) (q : List γ) :
    Stays s (setInode s i node) q := ⟨rfl, fun _ hv => hv⟩

theorem stays_syncDir (s : State γ β) (dir q : List γ) : Stays s (syncDir s dir) q := by
  refine ⟨rfl, fun v hv => ?_⟩
  by_cases hq : q ≠ [] ∧ q.dropLast = dir
  · simp [syncDir, if_pos hq] at hv
  · simpa only [syncDir, if_neg hq] using hv

/-- What was not lost so far is not lost from now on. -/
theorem syncDir_past (s : State γ β) (hq : q ≠ []) : (syncDir s q.dropLast).past q = [] :=
  if_pos ⟨hq, rfl⟩

end Entries

/-! ## What the operations touch -/

section Operations

variable {s s' : State γ β} {p q : List γ} {n : Node} {i : Nat}

theorem mkdir_cases (h : mkdir s p = some s') :
    s' = s ∨ s.entries p = none ∧ s.entries p.dropLast = some .dir ∧
      s' = setEntry s p (some .dir) := by
  unfold mkdir at h
  split at h
  · exact Or.inl (Option.some.inj h).symm
  · cases h
  · rename_i hnone
    split_ifs at h with hparent
    exact Or.inr ⟨hnone, hparent, (Option.some.inj h).symm⟩

/-- What every directory that is made keeps, making all of them keeps. -/
theorem mkdirAll_induction {P : State γ β → Prop}
    (hstep : ∀ s s' q, q <+: p → P s → mkdir s q = some s' → P s') (hs : P s)
    (h : mkdirAll s p = some s') : P s' := by
  unfold mkdirAll at h
  have hall : ∀ q ∈ p.inits, q <+: p := fun q hq => (List.mem_inits q p).1 hq
  generalize p.inits = qs at h hall
  induction qs generalizing s with
  | nil =>
      rw [← Option.some.inj h]
      exact hs
  | cons q qs ih =>
      rw [List.foldl_cons, Option.bind_some] at h
      cases hmk : mkdir s q with
      | none =>
          have hnone : qs.foldl (fun acc q => acc.bind (fun s => mkdir s q)) none =
              (none : Option (State γ β)) := List.foldl_fixed' (fun _ => rfl) qs
          rw [hmk, hnone] at h
          cases h
      | some t =>
          rw [hmk] at h
          exact ih (hstep s t q (hall q List.mem_cons_self) hs hmk) h
            (fun r hr => hall r (List.mem_cons_of_mem q hr))

theorem mkdirAll_stays (h : mkdirAll s p = some s') (hq : ¬ q <+: p) : Stays s s' q := by
  refine mkdirAll_induction (P := fun t => Stays s t q) (fun t t' r hr ht hmk => ?_)
    (Stays.refl s q) h
  rcases mkdir_cases hmk with rfl | ⟨-, -, rfl⟩
  · exact ht
  · refine ht.trans (stays_setEntry ?_)
    rintro rfl
    exact hq hr

theorem mkdirAll_inodes (h : mkdirAll s p = some s') :
    s'.inodes = s.inodes ∧ s'.fresh = s.fresh := by
  refine mkdirAll_induction (P := fun t => t.inodes = s.inodes ∧ t.fresh = s.fresh)
    (fun t t' r hr ht hmk => ?_) ⟨rfl, rfl⟩ h
  rcases mkdir_cases hmk with rfl | ⟨-, -, rfl⟩
  · exact ht
  · exact ht

theorem mkdirAll_concat (p : List γ) (a : γ) :
    mkdirAll s (p ++ [a]) = (mkdirAll s p).bind (fun t => mkdir t (p ++ [a])) := by
  unfold mkdirAll
  rw [List.inits_append]
  simp

/-- Making directories makes no files. -/
theorem mkdirAll_file (h : mkdirAll s p = some s') (hq : s'.entries q = some (.file i)) :
    s.entries q = some (.file i) := by
  refine mkdirAll_induction (P := fun t => t.entries q = some (.file i) → s.entries q = some (.file i))
    (fun t t' r _ ht hmk hfile => ?_) id h hq
  rcases mkdir_cases hmk with rfl | ⟨-, -, rfl⟩
  · exact ht hfile
  · rw [entries_setEntry] at hfile
    split_ifs at hfile
    · cases hfile
    · exact ht hfile

/-- A path that no file is on can be made. -/
theorem mkdirAll_succeeds (hroot : s.entries [] = some .dir)
    (hfiles : ∀ q, q <+: p → ∀ i, s.entries q ≠ some (.file i)) :
    ∃ s', mkdirAll s p = some s' ∧ s'.entries p = some .dir := by
  induction p using List.reverseRecOn with
  | nil =>
      have hmk : mkdirAll s [] = mkdir s [] := rfl
      refine ⟨s, ?_, hroot⟩
      rw [hmk]
      unfold mkdir
      rw [hroot]
  | append_singleton p a ih =>
      obtain ⟨t, ht, hdir⟩ := ih (fun q hq => hfiles q (hq.trans (List.prefix_append p [a])))
      have hnofile : ∀ i, t.entries (p ++ [a]) ≠ some (.file i) := fun i hi =>
        hfiles (p ++ [a]) (List.prefix_refl _) i (mkdirAll_file ht hi)
      rw [mkdirAll_concat, ht, Option.bind_some]
      unfold mkdir
      split
      · rename_i hthere
        exact ⟨t, rfl, hthere⟩
      · rename_i i hfile
        exact absurd hfile (hnofile i)
      · rw [List.dropLast_concat, if_pos hdir]
        exact ⟨_, rfl, if_pos rfl⟩

/-- What a new file is. -/
structure Created (s s' : State γ β) (p : List γ) (i : Nat) : Prop where
  free : s.entries p = none
  inode : i = s.fresh
  entry : s'.entries p = some (.file i)
  new : s'.inodes i = ⟨[], false⟩
  others : ∀ j ≠ i, s'.inodes j = s.inodes j
  fresh : s'.fresh = s.fresh + 1
  stays : ∀ q ≠ p, Stays s s' q

theorem createNew_spec (h : createNew s p = some (s', i)) : Created s s' p i := by
  unfold createNew at h
  split_ifs at h with hfree
  obtain ⟨rfl, rfl⟩ := Prod.mk.inj (Option.some.inj h)
  refine ⟨hfree.1, rfl, if_pos rfl, if_pos rfl, fun j hj => if_neg hj, rfl, fun q hq => ?_⟩
  have hstays : Stays s (setEntry s p (some (.file s.fresh))) q := stays_setEntry hq
  exact ⟨hstays.entries, hstays.past⟩

/-- What a moved file is. -/
structure Moved (s s' : State γ β) (p q : List γ) (i : Nat) : Prop where
  source : s.entries p = some (.file i)
  entry : s'.entries q = some (.file i)
  past : ∀ v ∈ s'.past q, v = s.entries q ∨ v ∈ s.past q
  inodes : s'.inodes = s.inodes
  fresh : s'.fresh = s.fresh
  stays : ∀ r, r ≠ p → r ≠ q → Stays s s' r

theorem rename_spec (hpq : p ≠ q) (h : rename s p q = some s') : ∃ i, Moved s s' p q i := by
  unfold rename at h
  split at h
  · cases h
  · rename_i i hp _
    split_ifs at h with hdir
    obtain rfl := Option.some.inj h
    refine ⟨i, hp, ?_, fun v hv => ?_, rfl, rfl, fun r hrp hrq => ?_⟩
    · rw [(stays_setEntry (Ne.symm hpq)).entries, entries_setEntry, if_pos rfl]
    · have hpast := (stays_setEntry (Ne.symm hpq)).past v hv
      rw [past_setEntry_self] at hpast
      exact List.mem_cons.1 hpast
    · exact (stays_setEntry hrq).trans (stays_setEntry hrp)
  · cases h

theorem remove_spec (h : remove s p = some s') :
    s'.inodes = s.inodes ∧ s'.fresh = s.fresh ∧ ∀ q ≠ p, Stays s s' q := by
  unfold remove at h
  split at h
  · obtain rfl := Option.some.inj h
    exact ⟨rfl, rfl, fun q hq => stays_setEntry hq⟩
  · cases h

end Operations

/-! ## Everything is in a directory -/

/-- Whatever is there is in a directory. -/
def Closed (s : State γ β) : Prop :=
  s.entries [] = some .dir ∧
  ∀ p, p ≠ [] → s.entries p ≠ none → s.entries p.dropLast = some .dir

section Closed

variable {s s' : State γ β} {p q : List γ} {i : Nat}

omit [DecidableEq γ] in
theorem closed_empty : Closed (State.empty : State γ β) := by
  refine ⟨rfl, fun p hp hne => ?_⟩
  simp [State.empty, hp] at hne

omit [DecidableEq γ] in
theorem Closed.congr (hs : Closed s) (h : s'.entries = s.entries) : Closed s' := by
  unfold Closed
  rw [h]
  exact hs

/-- An entry of a directory that is not itself a directory changes. -/
theorem Closed.setEntry (hs : Closed s) {v : Option Node} (hp : p ≠ [])
    (hparent : s.entries p.dropLast = some .dir) (hleaf : s.entries p ≠ some .dir) :
    Closed (Disk.setEntry s p v) := by
  refine ⟨?_, fun q hq hne => ?_⟩
  · rw [entries_setEntry, if_neg (Ne.symm hp)]
    exact hs.1
  · have hdir : s.entries q.dropLast = some .dir := by
      by_cases hqp : q = p
      · rw [hqp]
        exact hparent
      · rw [entries_setEntry, if_neg hqp] at hne
        exact hs.2 q hq hne
    rw [entries_setEntry, if_neg, hdir]
    rintro heq
    exact hleaf (heq ▸ hdir)

theorem Closed.mkdirAll (hs : Closed s) (h : Disk.mkdirAll s p = some s') : Closed s' := by
  refine mkdirAll_induction (fun t t' r _ ht hmk => ?_) hs h
  rcases mkdir_cases hmk with rfl | ⟨hnone, hparent, rfl⟩
  · exact ht
  · have hr : r ≠ [] := by
      rintro rfl
      rw [ht.1] at hnone
      cases hnone
    exact ht.setEntry hr hparent (by simp [hnone])

theorem Closed.createNew (hs : Closed s) (h : Disk.createNew s p = some (s', i)) : Closed s' := by
  unfold Disk.createNew at h
  split_ifs at h with hfree
  obtain ⟨rfl, -⟩ := Prod.mk.inj (Option.some.inj h)
  have hp : p ≠ [] := by
    rintro rfl
    rw [hs.1] at hfree
    cases hfree.1
  exact (hs.setEntry hp hfree.2 (by simp [hfree.1])).congr rfl

theorem Closed.rename (hs : Closed s) (h : Disk.rename s p q = some s') : Closed s' := by
  unfold Disk.rename at h
  split at h
  · cases h
  · rename_i i hp hq
    split_ifs at h with hdir
    obtain rfl := Option.some.inj h
    have hpne : p ≠ [] := fun hnil => by simp [hnil, hs.1] at hp
    have hqne : q ≠ [] := fun hnil => hq (hnil ▸ hs.1)
    have hmoved : Closed (Disk.setEntry s q (some (.file i))) := hs.setEntry hqne hdir hq
    refine hmoved.setEntry hpne ?_ ?_
    · refine hmoved.2 p hpne ?_
      rw [entries_setEntry]
      split_ifs
      · simp
      · simp [hp]
    · rw [entries_setEntry]
      split_ifs
      · simp
      · simp [hp]
  · cases h

theorem Closed.remove (hs : Closed s) (h : Disk.remove s p = some s') : Closed s' := by
  unfold Disk.remove at h
  split at h
  · rename_i i hp
    obtain rfl := Option.some.inj h
    have hpne : p ≠ [] := fun hnil => by simp [hnil, hs.1] at hp
    exact hs.setEntry hpne (hs.2 p hpne (by simp [hp])) (by simp [hp])
  · cases h

/-- What a path goes through are directories. -/
theorem Closed.dirs (hs : Closed s) (hp : s.entries p ≠ none) (hq : q <+: p) (hne : q ≠ p) :
    s.entries q = some .dir := by
  induction p using List.reverseRecOn with
  | nil => exact absurd (List.prefix_nil.1 hq) hne
  | append_singleton p a ih =>
      have hparent := hs.2 (p ++ [a]) (by simp) hp
      rw [List.dropLast_concat] at hparent
      rcases List.prefix_concat_iff.1 hq with heq | hq
      · exact absurd heq hne
      · by_cases hqp : q = p
        · rw [hqp]
          exact hparent
        · exact ih (by simp [hparent]) hq hqp

end Closed

/-! ## What a crash leaves -/

section Crash

variable {s s' : State γ β} {p q : List γ} {n : Node} {back : List (List γ × Option Node)}
  {lost : Nat → List β}

theorem reverted_cases (s : State γ β) (back : List (List γ × Option Node)) (p : List γ) :
    reverted s back p = s.entries p ∨ (p, reverted s back p) ∈ back := by
  unfold reverted
  cases hfind : back.find? (fun e => decide (e.1 = p)) with
  | none => exact Or.inl rfl
  | some e =>
      have he : e.1 = p := by simpa using List.find?_some hfind
      exact Or.inr (he ▸ List.mem_of_find?_eq_some hfind)

theorem crash_back (h : crash s back lost = some s') {v : Option Node} (hv : (p, v) ∈ back) :
    p ≠ [] ∧ v ∈ s.past p := by
  unfold crash at h
  split_ifs at h with hall
  simpa using List.all_eq_true.1 hall (p, v) hv

/-- What a crash leaves is in directories that it leaves. -/
theorem crash_entries (h : crash s back lost = some s') :
    (s'.entries p = reverted s back p ∧
      ∀ k < p.length, reverted s back (p.take k) = some .dir) ∨
    (s'.entries p = none ∧ ∃ k < p.length, reverted s back (p.take k) ≠ some .dir) := by
  unfold crash at h
  split_ifs at h
  obtain rfl := Option.some.inj h
  simp only
  split_ifs with hall
  · refine Or.inl ⟨rfl, fun k hk => ?_⟩
    simpa using List.all_eq_true.1 hall k (List.mem_range.2 hk)
  · refine Or.inr ⟨rfl, ?_⟩
    simp only [List.all_eq_true, List.mem_range, decide_eq_true_eq, not_forall] at hall
    obtain ⟨k, hk, hne⟩ := hall
    exact ⟨k, hk, hne⟩

theorem crash_past (h : crash s back lost = some s') : s'.past p = [] := by
  unfold crash at h
  split_ifs at h
  obtain rfl := Option.some.inj h
  rfl

/-- A crash shows nothing new. -/
theorem crash_shows (h : crash s back lost = some s') (hn : Shows s' p n) : Shows s p n := by
  have hentry : s'.entries p = some n := by
    rcases hn with hn | hn
    · exact hn
    · rw [crash_past h] at hn
      exact absurd hn List.not_mem_nil
  rcases crash_entries (p := p) h with ⟨heq, -⟩ | ⟨heq, -⟩
  · rw [hentry] at heq
    rcases reverted_cases s back p with hsame | hback
    · exact Or.inl (hsame ▸ heq.symm)
    · exact Or.inr (heq ▸ (crash_back h hback).2)
  · rw [hentry] at heq
    cases heq

/-- What was synced is there. -/
theorem crash_inodes (h : crash s back lost = some s') {i : Nat} (hi : (s.inodes i).synced = true) :
    s'.inodes i = s.inodes i := by
  unfold crash at h
  split_ifs at h
  obtain rfl := Option.some.inj h
  simp only [if_pos hi]
  rw [← hi]

theorem crash_fresh (h : crash s back lost = some s') : s'.fresh = s.fresh := by
  unfold crash at h
  split_ifs at h
  obtain rfl := Option.some.inj h
  rfl

theorem Closed.crash (hs : Closed s) (h : Disk.crash s back lost = some s') : Closed s' := by
  have hroot : reverted s back [] = some .dir := by
    rcases reverted_cases s back [] with hsame | hback
    · rw [hsame]
      exact hs.1
    · exact absurd rfl (crash_back h hback).1
  refine ⟨?_, fun p hp hne => ?_⟩
  · rcases crash_entries (p := []) h with ⟨heq, -⟩ | ⟨-, k, hk, -⟩
    · rw [heq, hroot]
    · exact absurd hk (Nat.not_lt_zero k)
  · have hlen : 0 < p.length := List.length_pos_iff.2 hp
    rcases crash_entries (p := p) h with ⟨-, hdirs⟩ | ⟨heq, -⟩
    · rw [List.dropLast_eq_take]
      rcases crash_entries (p := p.take (p.length - 1)) h with ⟨heq, -⟩ | ⟨-, k, hk, hbad⟩
      · rw [heq]
        exact hdirs _ (by omega)
      · rw [List.length_take] at hk
        rw [List.take_take, Nat.min_eq_left (by omega)] at hbad
        exact absurd (hdirs k (by omega)) hbad
    · exact absurd heq hne

/-- The entry is there, and after every crash that leaves the directories it is in. -/
def Kept (s : State γ β) (p : List γ) : Prop := s.entries p ≠ none ∧ none ∉ s.past p

/-- **A crash that loses no directory loses nothing that is kept.** -/
theorem Kept.crash (hs : Closed s) (hp : Kept s p) (h : Disk.crash s back lost = some s')
    (hdirs : ∀ e ∈ back, s.entries e.1 ≠ some .dir) : Kept s' p := by
  refine ⟨?_, by rw [crash_past h]; exact List.not_mem_nil⟩
  rcases crash_entries (p := p) h with ⟨heq, -⟩ | ⟨-, k, hk, hbad⟩
  · rw [heq]
    rcases reverted_cases s back p with hsame | hback
    · rw [hsame]
      exact hp.1
    · intro hnone
      rw [hnone] at hback
      exact hp.2 (crash_back h hback).2
  · have hne : p.take k ≠ p := fun heq => by
      have hlen := congrArg List.length heq
      rw [List.length_take] at hlen
      omega
    have hdir := hs.dirs hp.1 (List.take_prefix k p) hne
    rcases reverted_cases s back (p.take k) with hsame | hback
    · exact absurd (hsame.trans hdir) hbad
    · exact absurd hdir (hdirs _ hback)

end Crash

end Disk
