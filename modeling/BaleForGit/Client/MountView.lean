import BaleForGit.Client.Mount

set_option autoImplicit false

/-! # The mount shows the tree, in whatever order it is looked at

Every inode stands for one path: `path` is the ghost that says which. Reading a directory extends it
by the next inodes (`Grows`), and what an inode shows is what its path shows (`Core`). So the answers
of the calls depend on the paths alone, and no longer on the calls made before. -/

namespace BaleForGit.Mount

variable {Oid : Type}

/-! ## Children -/

theorem DirState.child_insert (d : DirState Oid) (name n : String) (inode : Nat) :
    (d.insert name inode).child n = if n = name then some inode else d.child n := by
  have hothers : (d.children.filter (fun c => decide (c.1 ≠ name))).find? (fun c => c.1 == n) =
      if n = name then none else d.children.find? (fun c => c.1 == n) := by
    by_cases hn : n = name
    · rw [if_pos hn, List.find?_eq_none]
      intro c hc
      have hne := of_decide_eq_true (List.mem_filter.1 hc).2
      simpa [hn] using hne
    · rw [if_neg hn, List.find?_filter]
      congr 1
      funext c
      by_cases hc : c.1 = n <;> simp [hc, hn]
  unfold DirState.child DirState.insert Table.upsert
  rw [List.find?_append, hothers]
  by_cases hn : n = name
  · simp [hn]
  · simp [hn, Ne.symm hn]

theorem DirState.child_eq_some {d : DirState Oid} (hkeys : (d.children.map Prod.fst).Nodup)
    {name : String} {inode : Nat} : d.child name = some inode ↔ (name, inode) ∈ d.children := by
  unfold DirState.child
  rw [Option.map_eq_some_iff]
  constructor
  · rintro ⟨⟨n, i⟩, hfind, rfl⟩
    have hname := List.find?_some hfind
    rw [beq_iff_eq] at hname
    exact hname ▸ List.mem_of_find?_eq_some hfind
  · intro hmem
    cases hfind : d.children.find? (fun c => c.1 == name) with
    | none => exact absurd (List.find?_eq_none.1 hfind _ hmem) (by simp)
    | some c =>
        have hname := List.find?_some hfind
        rw [beq_iff_eq] at hname
        refine ⟨c, rfl, ?_⟩
        have := List.inj_on_of_nodup_map hkeys (List.mem_of_find?_eq_some hfind) hmem hname
        rw [this]

/-! ## The invariant -/

/-- An inode that has been given out. -/
def VfsState.Given (st : VfsState Oid) (i : Nat) : Prop := rootInode ≤ i ∧ i < st.nextInode

section Invariant

variable (ctx : LazyContext Oid) (rootTree : Oid)

/-- Each inode stands for a path, and shows what the path shows. -/
structure Core (st : VfsState Oid) (path : Nat → List String) : Prop where
  root : st.Given rootInode ∧ path rootInode = []
  nodes : ∀ i, st.Given i → ∃ s, view ctx rootTree (path i) = some s ∧
    st.nodes i = some ⟨i, s.kind⟩
  fresh : ∀ i, ¬ st.Given i → st.nodes i = none ∧ st.dirs i = none
  dirs : ∀ i d, st.dirs i = some d → ∃ oid, view ctx rootTree (path i) = some (.dir oid) ∧
    ∀ l, d.lazy = some l → l.treeOid = oid ∧ l.pathPrefix = joinPath (path i)
  hasDir : ∀ i oid, st.Given i → view ctx rootTree (path i) = some (.dir oid) → st.dirs i ≠ none
  keys : ∀ i d, st.dirs i = some d → (d.children.map Prod.fst).Nodup
  child : ∀ i d n j, st.dirs i = some d → d.child n = some j →
    st.Given j ∧ path j = path i ++ [n]
  parent : ∀ j q n, st.Given j → path j = q ++ [n] →
    ∃ i d, st.dirs i = some d ∧ path i = q ∧ d.child n = some j
  inj : ∀ i j, st.Given i → st.Given j → path i = path j → i = j

/-- A directory is empty until it is read, and complete from then on. -/
def Settled (st : VfsState Oid) (path : Nat → List String) : Prop :=
  ∀ i d, st.dirs i = some d → (d.lazy ≠ none → d.children = []) ∧
    (d.lazy = none → ∀ n, view ctx rootTree (path i ++ [n]) ≠ none → d.child n ≠ none)

structure Inv (st : VfsState Oid) (path : Nat → List String) : Prop where
  core : Core ctx rootTree st path
  settled : Settled ctx rootTree st path

/-- Inodes keep their paths. -/
structure Extends (st st' : VfsState Oid) (path path' : Nat → List String) : Prop where
  next : st.nextInode ≤ st'.nextInode
  path : ∀ i, st.Given i → path' i = path i

/-- What is done to the directories while one of them is read. -/
structure Grows (parent : Nat) (st st' : VfsState Oid) (path path' : Nat → List String) : Prop
    extends Extends st st' path path' where
  old : ∀ i, st.Given i → i ≠ parent → st'.dirs i = st.dirs i
  new : ∀ i e, ¬ st.Given i → st'.dirs i = some e → e.children = [] ∧ e.lazy ≠ none

end Invariant

theorem Extends.refl (st : VfsState Oid) (path : Nat → List String) : Extends st st path path :=
  ⟨Nat.le_refl _, fun _ _ => rfl⟩

theorem Extends.given {st st' : VfsState Oid} {path path' : Nat → List String}
    (h : Extends st st' path path') {i : Nat} (hi : st.Given i) : st'.Given i :=
  ⟨hi.1, lt_of_lt_of_le hi.2 h.next⟩

theorem Extends.trans {st st' st'' : VfsState Oid} {path path' path'' : Nat → List String}
    (h : Extends st st' path path') (h' : Extends st' st'' path' path'') :
    Extends st st'' path path'' :=
  ⟨Nat.le_trans h.next h'.next, fun i hi => (h'.path i (h.given hi)).trans (h.path i hi)⟩

section AddChild

variable {ctx : LazyContext Oid} {rootTree : Oid} {st : VfsState Oid} {path : Nat → List String}

/-- The inode of a directory has been given out. -/
theorem Core.given_of_dirs (h : Core ctx rootTree st path) {i : Nat} {d : DirState Oid}
    (hd : st.dirs i = some d) : st.Given i := by
  by_contra hnot
  rw [(h.fresh i hnot).2] at hd
  cases hd

/-- A directory that a new child starts with. -/
def PendingKind.dirState : PendingKind Oid → Option (DirState Oid)
  | .dir treeOid fullPath => some ⟨[], some ⟨treeOid, fullPath⟩⟩
  | .file _ => none

theorem addChild_next (parent : Nat) (st : VfsState Oid) (c : PendingChild Oid) :
    (addChild parent st c).nextInode = st.nextInode + 1 := by
  unfold addChild
  cases c.kind <;> rfl

theorem addChild_nodes (parent : Nat) (st : VfsState Oid) (c : PendingChild Oid) :
    (addChild parent st c).nodes =
      Function.update st.nodes st.nextInode (some ⟨st.nextInode, c.kind.shown.kind⟩) := by
  unfold addChild
  cases c.kind <;> rfl

theorem addChild_dirs {parent : Nat} {c : PendingChild Oid} {d : DirState Oid}
    (hcore : Core ctx rootTree st path) (hd : st.dirs parent = some d) (i : Nat) :
    (addChild parent st c).dirs i = if i = parent then some (d.insert c.name st.nextInode)
      else if i = st.nextInode then c.kind.dirState else st.dirs i := by
  have hparent := (hcore.given_of_dirs hd).2
  have hnext := (hcore.fresh st.nextInode (fun h => Nat.lt_irrefl _ h.2)).2
  unfold addChild
  by_cases hi : i = parent
  · subst hi
    cases c.kind <;> simp [Function.update_of_ne (Nat.ne_of_lt hparent), hd]
  · rw [if_neg hi]
    by_cases hi' : i = st.nextInode
    · subst hi'
      cases c.kind <;> simp [Function.update_of_ne hi, PendingKind.dirState, hnext]
    · cases c.kind <;> simp [Function.update_of_ne hi, hi']

/-- The directories after a child has been added: its parent, itself if it is one, and the others. -/
theorem addChild_dirs_cases {parent : Nat} {c : PendingChild Oid} {d : DirState Oid}
    (hcore : Core ctx rootTree st path) (hd : st.dirs parent = some d) {i : Nat} {e : DirState Oid}
    (he : (addChild parent st c).dirs i = some e) :
    (i = parent ∧ e = d.insert c.name st.nextInode) ∨
    (i = st.nextInode ∧ ∃ treeOid full, c.kind = .dir treeOid full ∧
      e = ⟨[], some ⟨treeOid, full⟩⟩) ∨
    (i ≠ parent ∧ st.Given i ∧ st.dirs i = some e) := by
  rw [addChild_dirs hcore hd] at he
  split_ifs at he with hip hin
  · exact Or.inl ⟨hip, (Option.some.inj he).symm⟩
  · cases hkind : c.kind with
    | file oid => simp [hkind, PendingKind.dirState] at he
    | dir treeOid full =>
        rw [hkind] at he
        exact Or.inr (Or.inl ⟨hin, treeOid, full, rfl, (Option.some.inj he).symm⟩)
  · exact Or.inr (Or.inr ⟨hip, hcore.given_of_dirs he, he⟩)

/-- **A child gets the next inode, which stands for its path.** -/
theorem core_addChild {parent : Nat} {c : PendingChild Oid} {d : DirState Oid}
    (hcore : Core ctx rootTree st path) (hd : st.dirs parent = some d)
    (hname : d.child c.name = none)
    (hshown : view ctx rootTree (path parent ++ [c.name]) = some c.kind.shown)
    (hpath : ∀ treeOid full, c.kind = .dir treeOid full →
      full = joinPath (path parent ++ [c.name])) :
    Core ctx rootTree (addChild parent st c)
      (Function.update path st.nextInode (path parent ++ [c.name])) := by
  have hparent := hcore.given_of_dirs hd
  have hne : parent ≠ st.nextInode := Nat.ne_of_lt hparent.2
  have hgiven : ∀ i, (addChild parent st c).Given i ↔ st.Given i ∨ i = st.nextInode := by
    intro i
    have hroot := hcore.root.1.2
    unfold VfsState.Given
    rw [addChild_next]
    constructor
    · rintro ⟨h, h'⟩
      omega
    · rintro (⟨h, h'⟩ | rfl)
      · omega
      · exact ⟨Nat.le_of_lt hroot, Nat.lt_succ_self _⟩
  have hold : ∀ i, st.Given i →
      Function.update path st.nextInode (path parent ++ [c.name]) i = path i :=
    fun i hi => Function.update_of_ne (Nat.ne_of_lt hi.2) _ _
  -- no inode stands for the path of the child yet
  have hunused : ∀ i, st.Given i → path i ≠ path parent ++ [c.name] := by
    intro i hi heq
    obtain ⟨j, d', hd', hj, hchild⟩ := hcore.parent i _ _ hi heq
    obtain rfl := hcore.inj j parent (hcore.given_of_dirs hd') hparent hj
    rw [hd] at hd'
    obtain rfl := Option.some.inj hd'
    rw [hname] at hchild
    cases hchild
  have hnew : Function.update path st.nextInode (path parent ++ [c.name]) st.nextInode =
      path parent ++ [c.name] := Function.update_self _ _ _
  have hnotNext : ¬ st.Given st.nextInode := fun h => Nat.lt_irrefl _ h.2
  refine
    { root := ⟨(hgiven _).2 (Or.inl hcore.root.1), (hold _ hcore.root.1).trans hcore.root.2⟩
      nodes := fun i hi => ?_
      fresh := fun i hi => ?_
      dirs := fun i e he => ?_
      hasDir := fun i oid hi hview => ?_
      keys := fun i e he => ?_
      child := fun i e n j he hj => ?_
      parent := fun j q n hj hq => ?_
      inj := fun i j hi hj heq => ?_ }
  · rw [addChild_nodes]
    rcases (hgiven i).1 hi with hi | rfl
    · rw [hold i hi, Function.update_of_ne (Nat.ne_of_lt hi.2)]
      exact hcore.nodes i hi
    · rw [hnew, Function.update_self]
      exact ⟨_, hshown, rfl⟩
  · have hi' : ¬ st.Given i := fun h => hi ((hgiven i).2 (Or.inl h))
    have hnext : i ≠ st.nextInode := fun h => hi ((hgiven i).2 (Or.inr h))
    have hip : i ≠ parent := fun h => hi' (h ▸ hparent)
    rw [addChild_nodes, addChild_dirs hcore hd, Function.update_of_ne hnext, if_neg hip,
      if_neg hnext]
    exact hcore.fresh i hi'
  · rcases addChild_dirs_cases hcore hd he with
      ⟨rfl, rfl⟩ | ⟨rfl, treeOid, full, hkind, rfl⟩ | ⟨-, hi, he⟩
    · rw [hold i hparent]
      exact hcore.dirs i d hd
    · rw [hnew, hshown, hkind]
      refine ⟨treeOid, rfl, fun l hl => ?_⟩
      rw [← Option.some.inj hl]
      exact ⟨rfl, hpath treeOid full hkind⟩
    · rw [hold i hi]
      exact hcore.dirs i e he
  · rw [addChild_dirs hcore hd]
    split_ifs with hip hin
    · simp
    · subst hin
      rw [hnew, hshown] at hview
      cases hkind : c.kind with
      | file oid =>
          rw [hkind] at hview
          cases hview
      | dir treeOid full => simp [PendingKind.dirState]
    · rcases (hgiven i).1 hi with hi | hi
      · rw [hold i hi] at hview
        exact hcore.hasDir i oid hi hview
      · exact absurd hi hin
  · rcases addChild_dirs_cases hcore hd he with
      ⟨rfl, rfl⟩ | ⟨rfl, treeOid, full, hkind, rfl⟩ | ⟨-, -, he⟩
    · exact Table.nodup_upsert (hcore.keys i d hd) _
    · exact List.nodup_nil
    · exact hcore.keys i e he
  · rcases addChild_dirs_cases hcore hd he with
      ⟨rfl, rfl⟩ | ⟨rfl, treeOid, full, hkind, rfl⟩ | ⟨-, hi, he⟩
    · rw [DirState.child_insert] at hj
      split_ifs at hj with hn
      · rw [← Option.some.inj hj, hnew, hold i hparent, hn]
        exact ⟨(hgiven _).2 (Or.inr rfl), rfl⟩
      · obtain ⟨hjgiven, hjpath⟩ := hcore.child i d n j hd hj
        rw [hold j hjgiven, hold i hparent]
        exact ⟨(hgiven _).2 (Or.inl hjgiven), hjpath⟩
    · cases hj
    · obtain ⟨hjgiven, hjpath⟩ := hcore.child i e n j he hj
      rw [hold j hjgiven, hold i hi]
      exact ⟨(hgiven _).2 (Or.inl hjgiven), hjpath⟩
  · rcases (hgiven j).1 hj with hj | rfl
    · rw [hold j hj] at hq
      obtain ⟨i, e, he, hi, hchild⟩ := hcore.parent j q n hj hq
      have higiven := hcore.given_of_dirs he
      by_cases hip : i = parent
      · subst hip
        rw [hd] at he
        obtain rfl := Option.some.inj he
        refine ⟨i, d.insert c.name st.nextInode, ?_, (hold i hparent).trans hi, ?_⟩
        · rw [addChild_dirs hcore hd, if_pos rfl]
        · rw [DirState.child_insert, if_neg, hchild]
          rintro rfl
          rw [hname] at hchild
          cases hchild
      · refine ⟨i, e, ?_, (hold i higiven).trans hi, hchild⟩
        rw [addChild_dirs hcore hd, if_neg hip, if_neg (Nat.ne_of_lt higiven.2)]
        exact he
    · rw [hnew] at hq
      obtain ⟨rfl, hn⟩ := List.append_inj' hq rfl
      refine ⟨parent, d.insert c.name st.nextInode, ?_, hold parent hparent, ?_⟩
      · rw [addChild_dirs hcore hd, if_pos rfl]
      · rw [DirState.child_insert, if_pos (List.singleton_inj.1 hn).symm]
  · rcases (hgiven i).1 hi with hi | rfl
    · rw [hold i hi] at heq
      rcases (hgiven j).1 hj with hj | rfl
      · rw [hold j hj] at heq
        exact hcore.inj i j hi hj heq
      · rw [hnew] at heq
        exact absurd heq (hunused i hi)
    · rw [hnew] at heq
      rcases (hgiven j).1 hj with hj | rfl
      · rw [hold j hj] at heq
        exact absurd heq.symm (hunused j hj)
      · rfl

/-- One child changes only the directory it is put in. -/
theorem grows_addChild {parent : Nat} {c : PendingChild Oid} {d : DirState Oid}
    (hcore : Core ctx rootTree st path) (hd : st.dirs parent = some d) :
    Grows parent st (addChild parent st c) path
      (Function.update path st.nextInode (path parent ++ [c.name])) := by
  refine
    { next := by rw [addChild_next]; omega
      path := fun i hi => Function.update_of_ne (Nat.ne_of_lt hi.2) _ _
      old := fun i hi hne => ?_
      new := fun i e hi he => ?_ }
  · rw [addChild_dirs hcore hd, if_neg hne, if_neg (Nat.ne_of_lt hi.2)]
  · rcases addChild_dirs_cases hcore hd he with
      ⟨rfl, rfl⟩ | ⟨rfl, treeOid, full, hkind, rfl⟩ | ⟨-, hgiven, -⟩
    · exact absurd (hcore.given_of_dirs hd) hi
    · exact ⟨rfl, by simp⟩
    · exact absurd hgiven hi

theorem Grows.trans {parent : Nat} {st' st'' : VfsState Oid} {path' path'' : Nat → List String}
    (hparent : st.Given parent) (h : Grows parent st st' path path')
    (h' : Grows parent st' st'' path' path'') : Grows parent st st'' path path'' := by
  refine
    { toExtends := h.toExtends.trans h'.toExtends
      old := fun i hi hne => (h'.old i (h.given hi) hne).trans (h.old i hi hne)
      new := fun i e hi he => ?_ }
  by_cases hi' : st'.Given i
  · rw [h'.old i hi' (fun heq => hi (heq ▸ hparent))] at he
    exact h.new i e hi he
  · exact h'.new i e hi' he

/-- **The children of a directory, by induction on the list of them.** -/
theorem core_addChildren {parent : Nat} {pending : List (PendingChild Oid)} {d : DirState Oid}
    (hcore : Core ctx rootTree st path) (hd : st.dirs parent = some d)
    (hnodup : (pending.map PendingChild.name).Nodup)
    (hnames : ∀ c ∈ pending, d.child c.name = none)
    (hshown : ∀ c ∈ pending, view ctx rootTree (path parent ++ [c.name]) = some c.kind.shown ∧
      ∀ treeOid full, c.kind = .dir treeOid full → full = joinPath (path parent ++ [c.name])) :
    ∃ path' d', Core ctx rootTree (pending.foldl (addChild parent) st) path' ∧
      Grows parent st (pending.foldl (addChild parent) st) path path' ∧
      (pending.foldl (addChild parent) st).dirs parent = some d' ∧
      (∀ n, d'.child n ≠ none ↔ d.child n ≠ none ∨ n ∈ pending.map PendingChild.name) := by
  induction pending generalizing st path d with
  | nil =>
      exact ⟨path, d, hcore, ⟨Extends.refl st path, fun _ _ _ => rfl,
        fun i e hi he => absurd (hcore.given_of_dirs he) hi⟩, hd, fun n => by simp⟩
  | cons c pending ih =>
      have hparent := hcore.given_of_dirs hd
      obtain ⟨hview, hfull⟩ := hshown c (List.mem_cons_self ..)
      obtain ⟨hfresh, hnodup⟩ := List.nodup_cons.1 hnodup
      have hstep := core_addChild hcore hd (hnames c (List.mem_cons_self ..)) hview hfull
      have hgrows := grows_addChild (c := c) hcore hd
      have hsame := hgrows.path parent hparent
      have hd' : (addChild parent st c).dirs parent = some (d.insert c.name st.nextInode) := by
        rw [addChild_dirs hcore hd, if_pos rfl]
      obtain ⟨path', d', hcore', hgrows', hdirs, hchild⟩ := ih hstep hd' hnodup
        (fun c' hc' => by
          rw [DirState.child_insert, if_neg, hnames c' (List.mem_cons_of_mem _ hc')]
          intro heq
          exact hfresh (heq ▸ List.mem_map_of_mem hc'))
        (fun c' hc' => by
          rw [hsame]
          exact hshown c' (List.mem_cons_of_mem _ hc'))
      refine ⟨path', d', hcore', hgrows.trans hparent hgrows', hdirs, fun n => ?_⟩
      rw [hchild, DirState.child_insert, List.map_cons, List.mem_cons]
      by_cases hn : n = c.name
      · simp [hn]
      · simp [hn]

end AddChild

/-! ## Calls -/

section Calls

variable {ctx : LazyContext Oid} {rootTree : Oid} {st : VfsState Oid} {path : Nat → List String}

theorem clearLazy_dirs (st : VfsState Oid) (inode i : Nat) :
    (st.clearLazy inode).dirs i = if i = inode then
      (st.dirs inode).map (fun d => { d with lazy := none }) else st.dirs i := by
  unfold VfsState.clearLazy
  by_cases hi : i = inode
  · subst hi
    simp
  · simp [hi]

/-- Where a directory comes from when one is marked as listed. -/
theorem clearLazy_dirs_eq_some {inode i : Nat} {d : DirState Oid}
    (h : (st.clearLazy inode).dirs i = some d) :
    ∃ d', st.dirs i = some d' ∧ d'.children = d.children ∧ (d.lazy = none ∨ d = d') := by
  rw [clearLazy_dirs] at h
  split_ifs at h with hi
  · obtain ⟨d', hd', rfl⟩ := Option.map_eq_some_iff.1 h
    exact ⟨d', hi ▸ hd', rfl, Or.inl rfl⟩
  · exact ⟨d, h, rfl, Or.inr rfl⟩

/-- No directory is lost, and none changes its children. -/
theorem clearLazy_dirs_of_some (inode : Nat) {i : Nat} {d : DirState Oid}
    (h : st.dirs i = some d) :
    ∃ d', (st.clearLazy inode).dirs i = some d' ∧ d'.children = d.children := by
  rw [clearLazy_dirs]
  split_ifs with hi
  · subst hi
    exact ⟨{ d with lazy := none }, by rw [h]; rfl, rfl⟩
  · exact ⟨d, h, rfl⟩

theorem DirState.child_congr {d d' : DirState Oid} (h : d'.children = d.children) :
    d'.child = d.child := by
  funext n
  unfold DirState.child
  rw [h]

theorem core_clearLazy (hcore : Core ctx rootTree st path) (inode : Nat) :
    Core ctx rootTree (st.clearLazy inode) path := by
  refine
    { root := hcore.root
      nodes := hcore.nodes
      fresh := fun i hi => ⟨(hcore.fresh i hi).1, ?_⟩
      dirs := fun i d hd => ?_
      hasDir := fun i oid hi hview => ?_
      keys := fun i d hd => ?_
      child := fun i d n j hd hj => ?_
      parent := fun j q n hj hq => ?_
      inj := hcore.inj }
  · cases hd : (st.clearLazy inode).dirs i with
    | none => rfl
    | some d =>
        obtain ⟨d', hd', -⟩ := clearLazy_dirs_eq_some hd
        exact absurd (hcore.given_of_dirs hd') hi
  · obtain ⟨d', hd', -, hlazy⟩ := clearLazy_dirs_eq_some hd
    obtain ⟨oid, hview, hok⟩ := hcore.dirs i d' hd'
    refine ⟨oid, hview, fun l hl => ?_⟩
    rcases hlazy with hnone | rfl
    · rw [hnone] at hl
      cases hl
    · exact hok l hl
  · obtain ⟨d, hd⟩ := Option.ne_none_iff_exists'.1 (hcore.hasDir i oid hi hview)
    obtain ⟨d', hd', -⟩ := clearLazy_dirs_of_some inode hd
    simp [hd']
  · obtain ⟨d', hd', hsame, -⟩ := clearLazy_dirs_eq_some hd
    rw [← hsame]
    exact hcore.keys i d' hd'
  · obtain ⟨d', hd', hsame, -⟩ := clearLazy_dirs_eq_some hd
    rw [← DirState.child_congr hsame] at hj
    exact hcore.child i d' n j hd' hj
  · obtain ⟨i, d, hd, hi, hfound⟩ := hcore.parent j q n hj hq
    obtain ⟨d', hd', hsame⟩ := clearLazy_dirs_of_some inode hd
    exact ⟨i, d', hd', hi, by rw [DirState.child_congr hsame]; exact hfound⟩

theorem pendingChild_name {pathPrefix : String} {e : TreeEntry Oid} {c : PendingChild Oid}
    (h : pendingChild ctx pathPrefix e = some c) : c.name = e.filename := by
  unfold pendingChild at h
  simp only at h
  split_ifs at h <;> rw [← Option.some.inj h]

theorem pendingChild_full {pathPrefix : String} {e : TreeEntry Oid} {c : PendingChild Oid}
    (h : pendingChild ctx pathPrefix e = some c) :
    ∀ treeOid full, c.kind = .dir treeOid full → full = fullPath pathPrefix e.filename := by
  intro treeOid full hkind
  unfold pendingChild at h
  simp only at h
  split_ifs at h
  · rw [← Option.some.inj h] at hkind
    cases hkind
    rfl
  · rw [← Option.some.inj h] at hkind
    cases hkind

theorem nodup_pending (tree : TreeObject Oid) (pathPrefix : String) :
    ((tree.entries.filterMap (pendingChild ctx pathPrefix)).map PendingChild.name).Nodup := by
  refine tree.nodup.sublist ?_
  induction tree.entries with
  | nil => simp
  | cons e entries ih =>
      cases hc : pendingChild ctx pathPrefix e with
      | none =>
          rw [List.filterMap_cons_none hc, List.map_cons]
          exact ih.cons _
      | some c =>
          rw [List.filterMap_cons_some hc, List.map_cons, List.map_cons, pendingChild_name hc]
          exact ih.cons_cons _

theorem findEntry_eq_some {oid : Oid} {tree : TreeObject Oid} (htree : ctx.findTree oid = .ok tree)
    {name : String} {e : TreeEntry Oid} :
    findEntry ctx oid name = some e ↔ e ∈ tree.entries ∧ e.filename = name := by
  unfold findEntry
  rw [htree]
  simp only
  constructor
  · intro h
    have hname := List.find?_some h
    exact ⟨List.mem_of_find?_eq_some h, beq_iff_eq.1 hname⟩
  · rintro ⟨he, rfl⟩
    cases hfind : tree.entries.find? (fun e' => e'.filename == e.filename) with
    | none => exact absurd (List.find?_eq_none.1 hfind e he) (by simp)
    | some e' =>
        have hname := List.find?_some hfind
        rw [beq_iff_eq] at hname
        rw [List.inj_on_of_nodup_map tree.nodup (List.mem_of_find?_eq_some hfind) he hname]

/-- The names on a path that shows something. -/
theorem view_names {p : List String} {s : Shown Oid} (h : view ctx rootTree p = some s) :
    ∀ n ∈ p, n ≠ "" := by
  induction p using List.reverseRecOn generalizing s with
  | nil => simp
  | append_singleton p name ih =>
      rw [view_concat, Option.bind_eq_some_iff] at h
      obtain ⟨s', hs', hchild⟩ := h
      intro n hn
      rcases List.mem_append.1 hn with hn | hn
      · exact ih hs' n hn
      · rw [List.mem_singleton.1 hn]
        cases s' with
        | file o => cases hchild
        | dir oid =>
            obtain ⟨e, he, -⟩ := Option.bind_eq_some_iff.1 hchild
            exact (findEntry_name ctx he).2

/-- What a directory that can be read shows under a name. -/
theorem view_child {p : List String} {oid : Oid} (hdir : view ctx rootTree p = some (.dir oid))
    {tree : TreeObject Oid} (htree : ctx.findTree oid = .ok tree) {name : String} {s : Shown Oid} :
    view ctx rootTree (p ++ [name]) = some s ↔
      ∃ c ∈ tree.entries.filterMap (pendingChild ctx (joinPath p)),
        c.name = name ∧ c.kind.shown = s := by
  rw [view_concat, hdir, Option.bind_some]
  unfold shownChild
  simp only [Option.bind_eq_some_iff, Option.map_eq_some_iff, findEntry_eq_some htree,
    List.mem_filterMap]
  constructor
  · rintro ⟨e, ⟨he, rfl⟩, c, hc, rfl⟩
    exact ⟨c, ⟨e, he, hc⟩, pendingChild_name hc, rfl⟩
  · rintro ⟨c, ⟨e, he, hc⟩, rfl, rfl⟩
    exact ⟨e, ⟨he, (pendingChild_name hc).symm⟩, c, hc, rfl⟩

/-- A directory that cannot be read shows nothing. -/
theorem view_child_of_error {p : List String} {oid : Oid}
    (hdir : view ctx rootTree p = some (.dir oid)) {e : String}
    (herr : ctx.findTree oid = .error e) (name : String) :
    view ctx rootTree (p ++ [name]) = none := by
  rw [view_concat, hdir, Option.bind_some]
  refine shownChild_none ctx ?_
  simp only [findEntry, herr]

/-- What reading a directory does to the state that it leaves. -/
theorem populateIfLazy_cases (st : VfsState Oid) (parent : Nat) :
    (populateIfLazy ctx st parent = st ∧ ∀ d, st.dirs parent = some d → d.lazy = none) ∨
    ∃ d l, st.dirs parent = some d ∧ d.lazy = some l ∧
      ((∃ e, ctx.findTree l.treeOid = .error e ∧
          populateIfLazy ctx st parent = st.clearLazy parent) ∨
        ∃ tree, ctx.findTree l.treeOid = .ok tree ∧ populateIfLazy ctx st parent =
          ((tree.entries.filterMap (pendingChild ctx l.pathPrefix)).foldl (addChild parent)
            st).clearLazy parent) := by
  cases hd : st.dirs parent with
  | none =>
      refine Or.inl ⟨?_, fun d hd' => by cases hd'⟩
      unfold populateIfLazy
      rw [hd]
      rfl
  | some d =>
      cases hl : d.lazy with
      | none =>
          refine Or.inl ⟨?_, fun d' hd' => Option.some.inj hd' ▸ hl⟩
          unfold populateIfLazy
          rw [hd, Option.bind_some, hl]
          rfl
      | some l =>
          refine Or.inr ⟨d, l, rfl, hl, ?_⟩
          unfold populateIfLazy populateDirLocked
          rw [hd, Option.bind_some, hl]
          cases htree : ctx.findTree l.treeOid with
          | error e => exact Or.inl ⟨e, rfl, by simp [htree, bind, Except.bind]⟩
          | ok tree =>
              exact Or.inr ⟨tree, rfl, by simp [htree, bind, Except.bind, pure, Except.pure]⟩

/-- **Reading a directory keeps the invariant**, and afterwards it has been read. -/
theorem populate_inv (hinv : Inv ctx rootTree st path) (parent : Nat) :
    ∃ path', Inv ctx rootTree (populateIfLazy ctx st parent) path' ∧
      Extends st (populateIfLazy ctx st parent) path path' ∧
      ∀ d, (populateIfLazy ctx st parent).dirs parent = some d → d.lazy = none := by
  have hcleared : ∀ (st : VfsState Oid) d, (st.clearLazy parent).dirs parent = some d →
      d.lazy = none := by
    intro st d hd
    rw [clearLazy_dirs, if_pos rfl] at hd
    obtain ⟨d', -, rfl⟩ := Option.map_eq_some_iff.1 hd
    rfl
  rcases @populateIfLazy_cases _ ctx st parent with
    ⟨heq, hlazy⟩ | ⟨d, l, hd, hl, ⟨e, herr, heq⟩ | ⟨tree, htree, heq⟩⟩
  · rw [heq]
    exact ⟨path, hinv, Extends.refl st path, hlazy⟩
  · rw [heq]
    refine ⟨path, ⟨core_clearLazy hinv.core parent, fun i d' hd' => ?_⟩,
      ⟨Nat.le_refl _, fun _ _ => rfl⟩, hcleared st⟩
    rw [clearLazy_dirs] at hd'
    split_ifs at hd' with hi
    · subst hi
      obtain ⟨d'', hd'', rfl⟩ := Option.map_eq_some_iff.1 hd'
      refine ⟨fun hne => absurd rfl hne, fun _ n hview => absurd ?_ hview⟩
      obtain ⟨oid, hdir, hok⟩ := hinv.core.dirs i d hd
      rw [(hok l hl).1] at herr
      exact view_child_of_error hdir herr n
    · exact hinv.settled i d' hd'
  · rw [heq]
    obtain ⟨oid, hdir, hok⟩ := hinv.core.dirs parent d hd
    obtain ⟨rfl, hbelow⟩ := hok l hl
    have hempty := (hinv.settled parent d hd).1 (by simp [hl])
    have hparent := hinv.core.given_of_dirs hd
    rw [hbelow]
    obtain ⟨path', d', hcore', hgrows, hd', hchild⟩ := core_addChildren hinv.core hd
      (nodup_pending tree (joinPath (path parent)))
      (fun c _ => by unfold DirState.child; rw [hempty]; rfl)
      (fun c hc => by
        refine ⟨(view_child hdir htree).2 ⟨c, hc, rfl, rfl⟩, fun treeOid full hkind => ?_⟩
        obtain ⟨e, -, hc⟩ := List.mem_filterMap.1 hc
        rw [pendingChild_full hc treeOid full hkind, fullPath_joinPath (view_names hdir),
          pendingChild_name hc])
    refine ⟨path', ⟨core_clearLazy hcore' parent, fun i e he => ?_⟩,
      ⟨hgrows.next, hgrows.path⟩, hcleared _⟩
    rw [clearLazy_dirs] at he
    split_ifs at he with hi
    · subst hi
      rw [hd'] at he
      obtain rfl := Option.some.inj he
      refine ⟨fun hne => absurd rfl hne, fun _ n hview => ?_⟩
      rw [hgrows.path i hparent] at hview
      obtain ⟨s, hs⟩ := Option.ne_none_iff_exists'.1 hview
      obtain ⟨c, hc, rfl, -⟩ := (view_child hdir htree).1 hs
      exact (hchild c.name).2 (Or.inr (List.mem_map_of_mem hc))
    · by_cases hgiven : st.Given i
      · rw [hgrows.old i hgiven hi] at he
        rw [hgrows.path i hgiven]
        exact hinv.settled i e he
      · obtain ⟨hnil, hsome⟩ := hgrows.new i e hgiven he
        exact ⟨fun _ => hnil, fun hnone => absurd hnone hsome⟩

theorem Core.given_of_nodes (h : Core ctx rootTree st path) {i : Nat} {node : Node Oid}
    (hnode : st.nodes i = some node) : st.Given i := by
  by_contra hnot
  rw [(h.fresh i hnot).1] at hnode
  cases hnode

theorem view_append_of_none {p : List String} (h : view ctx rootTree p = none)
    (rest : List String) : view ctx rootTree (p ++ rest) = none := by
  unfold view at h ⊢
  rw [viewFrom_append, h]
  rfl

/-- **A name is found if its path shows something**, and its inode then stands for the path. -/
theorem lookupChild_inv (hinv : Inv ctx rootTree st path) (parent : Nat) (name : String) :
    ∃ path', Inv ctx rootTree (lookupChild ctx st parent name).1 path' ∧
      Extends st (lookupChild ctx st parent name).1 path path' ∧
      (∀ node, (lookupChild ctx st parent name).2 = some node →
        (lookupChild ctx st parent name).1.nodes node.inode = some node ∧
          path' node.inode = path' parent ++ [name]) ∧
      (st.Given parent → (lookupChild ctx st parent name).2 = none →
        view ctx rootTree (path parent ++ [name]) = none) := by
  obtain ⟨path', hinv', hext, hread⟩ := populate_inv hinv parent
  refine ⟨path', hinv', hext, fun node hnode => ?_, fun hparent hnone => ?_⟩
  · obtain ⟨d, hd, hrest⟩ := Option.bind_eq_some_iff.1 hnode
    obtain ⟨j, hj, hfound⟩ := Option.bind_eq_some_iff.1 hrest
    obtain ⟨hgiven, hpath⟩ := hinv'.core.child parent d name j hd hj
    obtain ⟨s, -, hkind⟩ := hinv'.core.nodes j hgiven
    rw [hkind] at hfound
    rw [← Option.some.inj hfound]
    exact ⟨hkind, hpath⟩
  · by_contra hsome
    rw [← hext.path parent hparent, view_concat] at hsome
    obtain ⟨s, hs⟩ := Option.ne_none_iff_exists'.1 hsome
    obtain ⟨s', hdir, hchild⟩ := Option.bind_eq_some_iff.1 hs
    cases s' with
    | file o => cases hchild
    | dir oid =>
        obtain ⟨d, hd⟩ := Option.ne_none_iff_exists'.1
          (hinv'.core.hasDir parent oid (hext.given hparent) hdir)
        have hcomplete := (hinv'.settled parent d hd).2 (hread d hd) name (by
          rw [view_concat, hdir, Option.bind_some, hchild]
          simp)
        obtain ⟨j, hj⟩ := Option.ne_none_iff_exists'.1 hcomplete
        obtain ⟨hgiven, -⟩ := hinv'.core.child parent d name j hd hj
        obtain ⟨t, -, hnode⟩ := hinv'.core.nodes j hgiven
        have hfound : (lookupChild ctx st parent name).2 = some ⟨j, t.kind⟩ :=
          Option.bind_eq_some_iff.2 ⟨d, hd, Option.bind_eq_some_iff.2 ⟨j, hj, hnode⟩⟩
        rw [hnone] at hfound
        cases hfound

theorem resolveFrom_none {node : Node Oid} {name : String} {rest : List String}
    (h : (lookupChild ctx st node.inode name).2 = none) :
    resolveFrom ctx st node (name :: rest) = ((lookupChild ctx st node.inode name).1, none) := by
  rw [resolveFrom]
  split
  · rename_i st' hlookup
    rw [hlookup]
  · rename_i st' child hlookup
    rw [hlookup] at h
    cases h

theorem resolveFrom_some {node child : Node Oid} {name : String} {rest : List String}
    (h : (lookupChild ctx st node.inode name).2 = some child) :
    resolveFrom ctx st node (name :: rest) =
      resolveFrom ctx (lookupChild ctx st node.inode name).1 child rest := by
  rw [resolveFrom]
  split
  · rename_i st' hlookup
    rw [hlookup] at h
    cases h
  · rename_i st' child' hlookup
    rw [hlookup] at h ⊢
    rw [Option.some.inj h]

/-- The components of a path, by induction on them. -/
theorem resolveFrom_inv {node : Node Oid} {p : List String} (hinv : Inv ctx rootTree st path)
    (hnode : st.nodes node.inode = some node) :
    ∃ path', Inv ctx rootTree (resolveFrom ctx st node p).1 path' ∧
      Extends st (resolveFrom ctx st node p).1 path path' ∧
      (∀ found, (resolveFrom ctx st node p).2 = some found →
        (resolveFrom ctx st node p).1.nodes found.inode = some found ∧
          path' found.inode = path node.inode ++ p) ∧
      ((resolveFrom ctx st node p).2 = none →
        view ctx rootTree (path node.inode ++ p) = none) := by
  induction p generalizing st path node with
  | nil =>
      refine ⟨path, hinv, Extends.refl st path, fun found hfound => ?_, fun h => by cases h⟩
      rw [← Option.some.inj hfound]
      exact ⟨hnode, by simp⟩
  | cons name rest ih =>
      obtain ⟨path', hinv', hext, hfound, hnone⟩ := lookupChild_inv hinv node.inode name
      have hgiven := hinv.core.given_of_nodes hnode
      have happend : path node.inode ++ name :: rest = (path node.inode ++ [name]) ++ rest := by
        simp
      rw [happend]
      cases hres : (lookupChild ctx st node.inode name).2 with
      | none =>
          rw [resolveFrom_none hres]
          exact ⟨path', hinv', hext, fun found h => absurd h (by simp),
            fun _ => view_append_of_none (hnone hgiven hres) rest⟩
      | some child =>
          obtain ⟨hchild, hpath⟩ := hfound child hres
          obtain ⟨path'', hinv'', hext', hrest⟩ := ih hinv' hchild
          rw [hpath, hext.path _ hgiven] at hrest
          rw [resolveFrom_some hres]
          exact ⟨path'', hinv'', hext.trans hext', hrest⟩

/-- **A path is found if it shows something**, and its inode stands for it. -/
theorem resolve_inv (hinv : Inv ctx rootTree st path) (p : List String) :
    ∃ path', Inv ctx rootTree (resolve ctx st p).1 path' ∧
      Extends st (resolve ctx st p).1 path path' ∧
      (∀ found, (resolve ctx st p).2 = some found →
        (resolve ctx st p).1.nodes found.inode = some found ∧ path' found.inode = p) ∧
      ((resolve ctx st p).2 = none → view ctx rootTree p = none) := by
  obtain ⟨hgiven, hroot⟩ := hinv.core.root
  obtain ⟨s, -, hnode⟩ := hinv.core.nodes rootInode hgiven
  have hres := @resolveFrom_inv _ _ _ _ _ ⟨rootInode, s.kind⟩ p hinv hnode
  simp only [hroot, List.nil_append] at hres
  unfold resolve lookupByInode
  rw [hnode]
  exact hres

theorem inv_buildSingleLazy (ctx : LazyContext Oid) (rootTree : Oid) :
    Inv ctx rootTree (buildSingleLazy rootTree) (fun _ => []) := by
  have hgiven : ∀ i, (buildSingleLazy rootTree : VfsState Oid).Given i ↔ i = rootInode := by
    intro i
    show rootInode ≤ i ∧ i < rootInode + 1 ↔ _
    omega
  have hdirs : ∀ i d, (buildSingleLazy rootTree : VfsState Oid).dirs i = some d →
      i = rootInode ∧ d = ⟨[], some ⟨rootTree, ""⟩⟩ := by
    intro i d hd
    by_cases hi : i = rootInode
    · subst hi
      simp only [buildSingleLazy, Function.update_self, Option.some.injEq] at hd
      exact ⟨rfl, hd.symm⟩
    · simp [buildSingleLazy, Function.update_of_ne hi] at hd
  refine ⟨
    { root := ⟨(hgiven _).2 rfl, rfl⟩
      nodes := fun i hi => ?_
      fresh := fun i hi => ?_
      dirs := fun i d hd => ?_
      hasDir := fun i oid hi _ => ?_
      keys := fun i d hd => ?_
      child := fun i d n j hd hj => ?_
      parent := fun j q n _ hq => absurd hq (by simp)
      inj := fun i j hi hj _ => ((hgiven i).1 hi).trans ((hgiven j).1 hj).symm }, fun i d hd => ?_⟩
  · obtain rfl := (hgiven i).1 hi
    exact ⟨.dir rootTree, rfl, by simp [buildSingleLazy, Shown.kind]⟩
  · have hne : i ≠ rootInode := fun h => hi ((hgiven i).2 h)
    simp [buildSingleLazy, Function.update_of_ne hne]
  · obtain ⟨rfl, rfl⟩ := hdirs i d hd
    refine ⟨rootTree, rfl, fun l hl => ?_⟩
    rw [← Option.some.inj hl]
    exact ⟨rfl, rfl⟩
  · obtain rfl := (hgiven i).1 hi
    simp [buildSingleLazy]
  · rw [(hdirs i d hd).2]
    exact List.nodup_nil
  · rw [(hdirs i d hd).2] at hj
    cases hj
  · obtain ⟨-, rfl⟩ := hdirs i d hd
    exact ⟨fun _ => rfl, fun h => by cases h⟩

/-- **Every call keeps the invariant.** -/
theorem inv_runCalls (calls : List Call) (hinv : Inv ctx rootTree st path) :
    ∃ path', Inv ctx rootTree (runCalls ctx st calls) path' ∧
      Extends st (runCalls ctx st calls) path path' := by
  induction calls generalizing st path with
  | nil => exact ⟨path, hinv, Extends.refl st path⟩
  | cons call calls ih =>
      have hstep : ∃ parent, stepCall ctx st call = populateIfLazy ctx st parent := by
        cases call with
        | lookupChild parent name => exact ⟨parent, rfl⟩
        | readdir parent => exact ⟨parent, rfl⟩
      obtain ⟨parent, hstep⟩ := hstep
      obtain ⟨path', hinv', hext, -⟩ := populate_inv hinv parent
      obtain ⟨path'', hinv'', hext'⟩ := ih hinv'
      unfold runCalls
      rw [List.foldl_cons, hstep]
      exact ⟨path'', hinv'', hext.trans hext'⟩

/-- What a path is found as, and what it shows. -/
theorem resolve_kind (hinv : Inv ctx rootTree st path) (p : List String) :
    (resolve ctx st p).2.map Node.kind = (view ctx rootTree p).map Shown.kind := by
  obtain ⟨path', hinv', -, hfound, hnone⟩ := resolve_inv hinv p
  cases hres : (resolve ctx st p).2 with
  | none => rw [hnone hres]; rfl
  | some node =>
      obtain ⟨hnode, hpath⟩ := hfound node hres
      obtain ⟨s, hs, hnode'⟩ := hinv'.core.nodes _ (hinv'.core.given_of_nodes hnode)
      rw [hnode] at hnode'
      rw [← hpath, hs, Option.some.inj hnode']
      rfl

/-- Two paths resolved one after the other, with any calls in between. -/
theorem resolve_inode (hinv : Inv ctx rootTree st path) {p q : List String} {later : List Call}
    {node node' : Node Oid} (hnode : (resolve ctx st p).2 = some node)
    (hnode' : (resolve ctx (runCalls ctx (resolve ctx st p).1 later) q).2 = some node') :
    node.inode = node'.inode ↔ p = q := by
  obtain ⟨path₁, hinv₁, -, hfound, -⟩ := resolve_inv hinv p
  obtain ⟨hstored, hp⟩ := hfound node hnode
  obtain ⟨path₂, hinv₂, hext₂⟩ := inv_runCalls later hinv₁
  obtain ⟨path₃, hinv₃, hext₃, hfound', -⟩ := resolve_inv hinv₂ q
  obtain ⟨hstored', hq⟩ := hfound' node' hnode'
  have hgiven := hinv₁.core.given_of_nodes hstored
  have hgiven₃ := (hext₂.trans hext₃).given hgiven
  have hp₃ : path₃ node.inode = p := ((hext₂.trans hext₃).path _ hgiven).trans hp
  constructor
  · intro heq
    rw [← hp₃, ← hq, heq]
  · intro heq
    refine hinv₃.core.inj _ _ hgiven₃ (hinv₃.core.given_of_nodes hstored') ?_
    rw [hp₃, hq, heq]

/-- A path that is resolved again gives the same node. -/
theorem resolve_again (hinv : Inv ctx rootTree st path) (p : List String) (later : List Call) :
    (resolve ctx (runCalls ctx (resolve ctx st p).1 later) p).2 = (resolve ctx st p).2 := by
  obtain ⟨path₁, hinv₁, -⟩ := resolve_inv hinv p
  obtain ⟨path₂, hinv₂, -⟩ := inv_runCalls later hinv₁
  have hkind := (resolve_kind hinv₂ p).trans (resolve_kind hinv p).symm
  cases hnode : (resolve ctx st p).2 with
  | none =>
      rw [hnode] at hkind
      exact Option.map_eq_none_iff.1 hkind
  | some node =>
      rw [hnode] at hkind
      obtain ⟨node', hnode', hkind⟩ := Option.map_eq_some_iff.1 hkind
      have hinode := (resolve_inode hinv hnode hnode').2 rfl
      rw [hnode', Option.some.injEq]
      exact congrArg₂ Node.mk hinode.symm hkind

/-- A directory lists what can be looked up in it. -/
theorem mem_readdir_iff (hinv : Inv ctx rootTree st path) (parent : Nat) (name : String)
    (node : Node Oid) :
    (∃ entries, (readdir ctx st parent).2 = some entries ∧ (name, node) ∈ entries) ↔
      (lookupChild ctx st parent name).2 = some node := by
  obtain ⟨path', hinv', -⟩ := populate_inv hinv parent
  unfold readdir lookupChild
  simp only [Option.map_eq_some_iff]
  constructor
  · rintro ⟨entries, ⟨d, hd, rfl⟩, hmem⟩
    rw [List.mem_insertionSort, List.mem_filterMap] at hmem
    obtain ⟨c, hc, hnode⟩ := hmem
    obtain ⟨n, hn, hpair⟩ := Option.map_eq_some_iff.1 hnode
    obtain ⟨rfl, rfl⟩ := Prod.mk.inj hpair
    refine Option.bind_eq_some_iff.2 ⟨d, hd, Option.bind_eq_some_iff.2 ⟨c.2, ?_, hn⟩⟩
    exact (DirState.child_eq_some (hinv'.core.keys parent d hd)).2 hc
  · intro hlookup
    obtain ⟨d, hd, hrest⟩ := Option.bind_eq_some_iff.1 hlookup
    obtain ⟨j, hj, hnode⟩ := Option.bind_eq_some_iff.1 hrest
    refine ⟨_, ⟨d, hd, rfl⟩, ?_⟩
    rw [List.mem_insertionSort, List.mem_filterMap]
    exact ⟨(name, j), (DirState.child_eq_some (hinv'.core.keys parent d hd)).1 hj, by
      simp [hnode]⟩

/-- A directory lists no name twice. -/
theorem nodup_readdir (hinv : Inv ctx rootTree st path) {parent : Nat}
    {entries : List (String × Node Oid)} (h : (readdir ctx st parent).2 = some entries) :
    (entries.map Prod.fst).Nodup := by
  obtain ⟨path', hinv', -⟩ := populate_inv hinv parent
  obtain ⟨d, hd, rfl⟩ := Option.map_eq_some_iff.1 h
  refine ((List.perm_insertionSort _ _).map Prod.fst).nodup_iff.2 ?_
  refine (hinv'.core.keys parent d hd).sublist ?_
  induction d.children with
  | nil => simp
  | cons c children ih =>
      cases hc : (populateIfLazy ctx st parent).nodes c.2 with
      | none =>
          rw [List.filterMap_cons_none (by rw [hc]; rfl), List.map_cons]
          exact ih.cons _
      | some n =>
          rw [List.filterMap_cons_some (by rw [hc]; rfl), List.map_cons, List.map_cons]
          exact ih.cons_cons _

end Calls

section Main

variable (ctx : LazyContext Oid) (rootTree : Oid)

/-- **The mount shows the tree**, after any calls: a path is a file exactly if the tree has it and
    the pathspec matches it, a directory lists what can be looked up in it, and a path is the same
    node whenever it is resolved, with an inode that no other path has. -/
theorem mount_shows_tree (calls : List Call) :
    let st := runCalls ctx (buildSingleLazy rootTree) calls
    (∀ path o, (∃ inode size, (resolve ctx st path).2 = some ⟨inode, .file size o⟩) ↔
      HasBlob ctx rootTree path o ∧ pathspecMatchesFile (joinPath path) ctx.pathspec = true) ∧
    (∀ parent, (∀ name node,
        (∃ entries, (readdir ctx st parent).2 = some entries ∧ (name, node) ∈ entries) ↔
          (lookupChild ctx st parent name).2 = some node) ∧
      ∀ entries, (readdir ctx st parent).2 = some entries → (entries.map Prod.fst).Nodup) ∧
    (∀ path later, (resolve ctx (runCalls ctx (resolve ctx st path).1 later) path).2 =
      (resolve ctx st path).2) ∧
    ∀ path path' later node node', (resolve ctx st path).2 = some node →
      (resolve ctx (runCalls ctx (resolve ctx st path).1 later) path').2 = some node' →
        path ≠ path' → node.inode ≠ node'.inode := by
  obtain ⟨ghost, hinv, -⟩ := inv_runCalls calls (inv_buildSingleLazy ctx rootTree)
  refine ⟨fun path o => ?_, fun parent => ⟨mem_readdir_iff hinv parent, fun _ => nodup_readdir hinv⟩,
    fun path later => ?_, fun path path' later node node' hnode hnode' hne heq => ?_⟩
  · rw [← view_file_iff]
    have hkind := resolve_kind hinv path
    constructor
    · rintro ⟨inode, size, hres⟩
      rw [hres] at hkind
      obtain ⟨s, hs, hfile⟩ := Option.map_eq_some_iff.1 hkind.symm
      cases s with
      | dir oid => cases hfile
      | file oid =>
          cases hfile
          exact hs
    · intro hview
      rw [hview] at hkind
      obtain ⟨⟨inode, kind⟩, hres, rfl⟩ := Option.map_eq_some_iff.1 hkind
      exact ⟨inode, _, hres⟩
  · exact resolve_again hinv path later
  · exact hne ((resolve_inode hinv hnode hnode').1 heq)

end Main

end BaleForGit.Mount
