import BaleForGit.Client.MountDiff
import BaleForGit.Client.MountView

set_option autoImplicit false

/-! # The file system of a diff (`mount/vfs.rs`)

`DiffVfs::build` puts both sides of every entry into one tree, a side's label in each of its names. A
name that is taken by a file keeps it, and a file in the place of a directory gives way.
`showsAll_iff` says when nothing is lost that way. -/

namespace BaleForGit.Mount

variable {Oid : Type}

/-! ## Names -/

/-- `path.split('/')`, without the empty parts. -/
def pathComponents (path : String) : List String :=
  ((path.toList.splitOn '/').map String.ofList).filter (fun c => c ≠ "")

/-- `str::rfind`. -/
def rfind (c : Char) (s : List Char) : Option Nat :=
  (s.reverse.findIdx? (fun d => d == c)).map (fun k => s.length - 1 - k)

/-- The label goes before the last dot; the dot a name begins with does not count. -/
def labelFilename (name label : String) : String :=
  match rfind '.' name.toList with
  | some dot =>
    if dot > 0 then
      String.ofList (name.toList.take dot) ++ "__" ++ label ++ String.ofList (name.toList.drop dot)
    else name ++ "__" ++ label
  | none => name ++ "__" ++ label

example : labelFilename "foo.tar.gz" "main" = "foo.tar__main.gz" := by decide

def sanitizeLabel (rev : String) : String :=
  let out := rev.toList.map (fun c =>
    if c.isAlphanum || c == '_' || c == '-' || c == '.' then c else '_')
  if out.isEmpty then "rev" else String.ofList out

/-- The labels `run` mounts with, where they are distinct. -/
def labels (revA revB : String) (labelA labelB : Option String) : Option (String × String) :=
  let a := labelA.getD (sanitizeLabel revA)
  let b := labelB.getD (sanitizeLabel revB)
  if a = b then none else some (a, b)

/-! ## Insertion -/

def addEagerRoot (st : VfsState Oid) : VfsState Oid :=
  { st with
    nodes := Function.update st.nodes rootInode (some ⟨rootInode, .dir⟩)
    dirs := Function.update st.dirs rootInode (some ⟨[], none⟩) }

/-- `alloc_inode`, the node under it, and its name in the parent. -/
def allocNode (st : VfsState Oid) (parent : Nat) (name : String) (kind : NodeKind Oid) :
    VfsState Oid × Nat :=
  let inode := st.nextInode
  let dirs := match kind with
    | .dir => Function.update st.dirs inode (some ⟨[], none⟩)
    | .file _ _ => st.dirs
  ({ nodes := Function.update st.nodes inode (some ⟨inode, kind⟩)
     dirs := Function.update dirs parent ((dirs parent).map (fun d => d.insert name inode))
     nextInode := inode + 1 }, inode)

/-- The child's inode. -/
def childOf (st : VfsState Oid) (parent : Nat) (name : String) : Option Nat :=
  (st.dirs parent).bind (fun d => d.child name)

def Node.isDir (n : Node Oid) : Bool :=
  match n.kind with
  | .dir => true
  | .file _ _ => false

/-- The inode of a directory under the name; a file there is replaced. -/
def ensureDir (st : VfsState Oid) (parent : Nat) (name : String) : VfsState Oid × Nat :=
  match (childOf st parent name).filter (fun i => (st.nodes i).any Node.isDir) with
  | some existing => (st, existing)
  | none => allocNode st parent name .dir

/-- The directories of a path, one below the other. -/
def ensureDirs (st : VfsState Oid) (parent : Nat) (dirs : List String) : VfsState Oid × Nat :=
  dirs.foldl (fun acc dir => ensureDir acc.1 acc.2 dir) (st, parent)

def eagerInsert (st : VfsState Oid) (path : String) (oid : Oid) (label : Option String) :
    VfsState Oid :=
  let components := pathComponents path
  match components.getLast? with
  | none => st
  | some fileComponent =>
    let (st, parent) := ensureDirs st rootInode components.dropLast
    let finalName := match label with
      | some l => labelFilename fileComponent l
      | none => fileComponent
    -- the first one stays
    if (childOf st parent finalName).isSome then st
    else (allocNode st parent finalName (.file 18446744073709551615 oid)).1

/-- One side of an entry, when it is there. -/
def insertSide (st : VfsState Oid) (path : Option String) (oid : Option Oid) (label : String) :
    VfsState Oid :=
  match path, oid with
  | some path, some oid => eagerInsert st path oid (some label)
  | _, _ => st

/-- `DiffVfs::build`. -/
def buildDiff (entries : List (DiffEntry Oid)) (labelA labelB : String) : VfsState Oid :=
  entries.foldl (fun st e =>
    insertSide (insertSide st e.pathA e.oidA labelA) e.pathB e.oidB labelB)
    (addEagerRoot emptyState)

/-! ## Lookups

A diff mount has nothing to read later, so `lookup_child` only looks. -/

def lookupEager (st : VfsState Oid) (parent : Nat) (name : String) : Option (Node Oid) :=
  (childOf st parent name).bind st.nodes

def findFrom (st : VfsState Oid) (node : Node Oid) : List String → Option (Node Oid)
  | [] => some node
  | name :: rest => (lookupEager st node.inode name).bind (fun child => findFrom st child rest)

/-- The node at a path, from the root on. -/
def find (st : VfsState Oid) (path : List String) : Option (Node Oid) :=
  (st.nodes rootInode).bind (fun root => findFrom st root path)

/-! ## The sides of the entries -/

/-- A side of an entry: its path, whether it is the first side, its label and its blob. -/
@[ext] structure Side (Oid : Type) where
  path : String
  isA : Bool
  label : String
  oid : Oid
deriving DecidableEq, Repr

def sideOf (isA : Bool) (label : String) (path : Option String) (oid : Option Oid) :
    List (Side Oid) :=
  match path, oid with
  | some path, some oid => [⟨path, isA, label, oid⟩]
  | _, _ => []

/-- All sides that are there, in the order of insertion. -/
def sides (entries : List (DiffEntry Oid)) (labelA labelB : String) : List (Side Oid) :=
  entries.flatMap (fun e => sideOf true labelA e.pathA e.oidA ++ sideOf false labelB e.pathB e.oidB)

/-- The directory of a side. -/
def Side.dirs (s : Side Oid) : List String := (pathComponents s.path).dropLast

/-- Where a side is put: its directory, and its name with the label. -/
def Side.nodePath (s : Side Oid) : Option (List String) :=
  (pathComponents s.path).getLast?.map (fun file => s.dirs ++ [labelFilename file s.label])

def insertSides (sides : List (Side Oid)) : VfsState Oid :=
  sides.foldl (fun st s => eagerInsert st s.path s.oid (some s.label)) (addEagerRoot emptyState)

theorem buildDiff_eq (entries : List (DiffEntry Oid)) (labelA labelB : String) :
    buildDiff entries labelA labelB = insertSides (sides entries labelA labelB) := by
  have hside : ∀ (st : VfsState Oid) isA label path oid,
      insertSide st path oid label = (sideOf isA label path oid).foldl
        (fun st s => eagerInsert st s.path s.oid (some s.label)) st := by
    intro st isA label path oid
    cases path with
    | none => rfl
    | some path => cases oid <;> rfl
  unfold buildDiff insertSides sides
  rw [List.foldl_flatMap]
  congr 1
  funext st e
  rw [List.foldl_append, ← hside, ← hside]

/-- **Every side is shown**: at its place with its blob, apart from the others, and no file that can
    be found is lost by what is inserted later. -/
structure ShowsAll (entries : List (DiffEntry Oid)) (labelA labelB : String) : Prop where
  shown : ∀ s ∈ sides entries labelA labelB, ∃ p n, s.nodePath = some p ∧
    find (buildDiff entries labelA labelB) p = some n ∧ n.kind = .file 18446744073709551615 s.oid
  distinct : ∀ s ∈ sides entries labelA labelB, ∀ t ∈ sides entries labelA labelB,
    (s.path, s.isA) ≠ (t.path, t.isA) → ∀ p q n m, s.nodePath = some p → t.nodePath = some q →
      find (buildDiff entries labelA labelB) p = some n →
      find (buildDiff entries labelA labelB) q = some m → n.inode ≠ m.inode
  kept : ∀ done rest, sides entries labelA labelB = done ++ rest →
    ∀ p n, find (insertSides done) p = some n → n.isDir = false →
      ∃ q, find (buildDiff entries labelA labelB) q = some n

/-- No two sides have one place, and none is where another has a directory. -/
structure Apart (sides : List (Side Oid)) : Prop where
  named : ∀ s ∈ sides, s.nodePath ≠ none
  places : ∀ s ∈ sides, ∀ t ∈ sides, s.nodePath = t.nodePath → s = t
  dirs : ∀ s ∈ sides, ∀ t ∈ sides, ∀ p, s.nodePath = some p → ¬ p <+: t.dirs

/-! ## The tree of inodes

`path` is the ghost that says which path an inode stands for. -/

structure Rep (st : VfsState Oid) (path : Nat → List String) : Prop where
  root : st.nodes rootInode = some ⟨rootInode, .dir⟩ ∧ path rootInode = []
  inode : ∀ i n, st.nodes i = some n → n.inode = i ∧ i < st.nextInode
  dirs : ∀ i, (st.dirs i).isSome = (st.nodes i).any Node.isDir
  child : ∀ i name j, childOf st i name = some j → (st.nodes j).isSome ∧ path j = path i ++ [name]

theorem rep_root : Rep (addEagerRoot (emptyState : VfsState Oid)) (fun _ => []) := by
  have hnodes : ∀ i, (addEagerRoot (emptyState : VfsState Oid)).nodes i =
      if i = rootInode then some ⟨rootInode, .dir⟩ else none := by
    intro i
    unfold addEagerRoot emptyState
    by_cases hi : i = rootInode <;> simp [hi]
  have hdirs : ∀ i, (addEagerRoot (emptyState : VfsState Oid)).dirs i =
      if i = rootInode then some ⟨[], none⟩ else none := by
    intro i
    unfold addEagerRoot emptyState
    by_cases hi : i = rootInode <;> simp [hi]
  refine ⟨⟨by rw [hnodes, if_pos rfl], rfl⟩, fun i n hn => ?_, fun i => ?_, fun i name j hj => ?_⟩
  · rw [hnodes] at hn
    split_ifs at hn with hi
    obtain rfl := Option.some.inj hn
    exact ⟨hi.symm, hi ▸ Nat.lt_succ_self _⟩
  · rw [hdirs, hnodes]
    split_ifs <;> rfl
  · unfold childOf at hj
    rw [hdirs] at hj
    split_ifs at hj <;> cases hj

section Step

variable {st : VfsState Oid} {path : Nat → List String}

theorem Rep.dir_inode (h : Rep st path) {i : Nat} {n : Node Oid} (hn : st.nodes i = some n)
    (hdir : n.isDir = true) : n = ⟨i, .dir⟩ := by
  obtain ⟨hinode, -⟩ := h.inode i n hn
  obtain ⟨inode, kind⟩ := n
  cases kind with
  | dir => rw [← hinode]
  | file size oid => cases hdir

theorem Rep.exists_dir (h : Rep st path) {i : Nat} (hn : st.nodes i = some ⟨i, .dir⟩) :
    ∃ d, st.dirs i = some d := by
  have := h.dirs i
  rw [hn] at this
  exact Option.isSome_iff_exists.1 this

theorem Rep.fresh (h : Rep st path) : st.nodes st.nextInode = none ∧ st.dirs st.nextInode = none := by
  have hnode : st.nodes st.nextInode = none := by
    cases hn : st.nodes st.nextInode with
    | none => rfl
    | some n => exact absurd (h.inode _ n hn).2 (Nat.lt_irrefl _)
  refine ⟨hnode, ?_⟩
  have := h.dirs st.nextInode
  rw [hnode] at this
  exact Option.isSome_eq_false_iff.1 this |> Option.isNone_iff_eq_none.1

/-- What a new node starts with: a directory is empty. -/
def NodeKind.dirState : NodeKind Oid → Option (DirState Oid)
  | .dir => some ⟨[], none⟩
  | .file _ _ => none

theorem allocNode_dirs {parent : Nat} {d : DirState Oid} (hd : st.dirs parent = some d)
    (hfresh : st.dirs st.nextInode = none) (name : String) (kind : NodeKind Oid) (i : Nat) :
    (allocNode st parent name kind).1.dirs i = if i = parent then some (d.insert name st.nextInode)
      else if i = st.nextInode then kind.dirState else st.dirs i := by
  have hne : parent ≠ st.nextInode := by
    rintro rfl
    rw [hfresh] at hd
    cases hd
  unfold allocNode
  by_cases hi : i = parent
  · subst hi
    cases kind <;> simp [Function.update_of_ne hne, hd]
  · by_cases hnext : i = st.nextInode
    · subst hnext
      cases kind <;> simp [hi, hfresh, NodeKind.dirState]
    · cases kind <;> simp [hi, hnext]

/-- Only the parent gets a child, and only the one. -/
theorem childOf_allocNode {parent : Nat} {d : DirState Oid} (hd : st.dirs parent = some d)
    (hfresh : st.dirs st.nextInode = none) (name : String) (kind : NodeKind Oid) (i : Nat)
    (n : String) : childOf (allocNode st parent name kind).1 i n =
      if i = parent ∧ n = name then some st.nextInode else childOf st i n := by
  unfold childOf
  rw [allocNode_dirs hd hfresh]
  by_cases hi : i = parent
  · subst hi
    simp only [if_true, hd, Option.bind_some, DirState.child_insert, true_and]
  · have hnot : ¬ (i = parent ∧ n = name) := fun h => hi h.1
    rw [if_neg hi, if_neg hnot]
    by_cases hnext : i = st.nextInode
    · subst hnext
      rw [if_pos rfl, hfresh]
      cases kind <;> rfl
    · rw [if_neg hnext]

theorem allocNode_nodes (parent : Nat) (name : String) (kind : NodeKind Oid) :
    (allocNode st parent name kind).1.nodes =
      Function.update st.nodes st.nextInode (some ⟨st.nextInode, kind⟩) := rfl

/-- **A new node stands for the path below its parent.** -/
theorem rep_allocNode (h : Rep st path) {parent : Nat} (hparent : st.nodes parent = some ⟨parent, .dir⟩)
    (name : String) (kind : NodeKind Oid) :
    Rep (allocNode st parent name kind).1
      (Function.update path st.nextInode (path parent ++ [name])) := by
  obtain ⟨d, hd⟩ := h.exists_dir hparent
  obtain ⟨hfresh, hfreshDir⟩ := h.fresh
  have hlt : ∀ i n, st.nodes i = some n → i ≠ st.nextInode := by
    rintro i n hn rfl
    rw [hfresh] at hn
    cases hn
  have hne : parent ≠ st.nextInode := hlt parent _ hparent
  refine ⟨⟨?_, ?_⟩, fun i n hn => ?_, fun i => ?_, fun i n j hj => ?_⟩
  · rw [allocNode_nodes, Function.update_of_ne (hlt _ _ h.root.1)]
    exact h.root.1
  · rw [Function.update_of_ne (hlt _ _ h.root.1)]
    exact h.root.2
  · rw [allocNode_nodes] at hn
    by_cases hi : i = st.nextInode
    · subst hi
      rw [Function.update_self] at hn
      obtain rfl := Option.some.inj hn
      exact ⟨rfl, Nat.lt_succ_self _⟩
    · rw [Function.update_of_ne hi] at hn
      obtain ⟨hinode, hnext⟩ := h.inode i n hn
      exact ⟨hinode, Nat.lt_succ_of_lt hnext⟩
  · rw [allocNode_nodes]
    rw [allocNode_dirs hd hfreshDir]
    by_cases hi : i = parent
    · subst hi
      rw [if_pos rfl, Function.update_of_ne hne, hparent]
      rfl
    · rw [if_neg hi]
      by_cases hnext : i = st.nextInode
      · subst hnext
        rw [if_pos rfl, Function.update_self]
        cases kind <;> rfl
      · rw [if_neg hnext, Function.update_of_ne hnext]
        exact h.dirs i
  · rw [childOf_allocNode hd hfreshDir] at hj
    rw [allocNode_nodes]
    split_ifs at hj with hin
    · obtain ⟨rfl, rfl⟩ := hin
      obtain rfl := Option.some.inj hj
      rw [Function.update_self, Function.update_self, Function.update_of_ne hne]
      exact ⟨rfl, rfl⟩
    · obtain ⟨hsome, hpath⟩ := h.child i n j hj
      obtain ⟨m, hm⟩ := Option.isSome_iff_exists.1 hsome
      have hi : i ≠ st.nextInode := by
        rintro rfl
        unfold childOf at hj
        rw [hfreshDir] at hj
        cases hj
      rw [Function.update_of_ne (hlt j m hm), Function.update_of_ne (hlt j m hm),
        Function.update_of_ne hi]
      exact ⟨hsome, hpath⟩

end Step

/-! ## What can be found -/

theorem findFrom_append (st : VfsState Oid) (n : Node Oid) (p q : List String) :
    findFrom st n (p ++ q) = (findFrom st n p).bind (fun m => findFrom st m q) := by
  induction p generalizing n with
  | nil => rfl
  | cons name p ih =>
      rw [List.cons_append, findFrom, findFrom, Option.bind_assoc]
      congr 1
      funext child
      exact ih child

theorem find_append (st : VfsState Oid) (p q : List String) :
    find st (p ++ q) = (find st p).bind (fun n => findFrom st n q) := by
  unfold find
  rw [Option.bind_assoc]
  congr 1
  funext root
  exact findFrom_append st root p q

theorem find_concat (st : VfsState Oid) (p : List String) (name : String) :
    find st (p ++ [name]) = (find st p).bind (fun n => lookupEager st n.inode name) := by
  rw [find_append]
  congr 1
  funext n
  simp [findFrom]

section Find

variable {st st' : VfsState Oid} {path : Nat → List String}

/-- A node that is found is the one its path leads to. -/
theorem Rep.of_findFrom (h : Rep st path) {n m : Node Oid} {p : List String}
    (hn : st.nodes n.inode = some n) (hm : findFrom st n p = some m) :
    st.nodes m.inode = some m ∧ path m.inode = path n.inode ++ p := by
  induction p generalizing n with
  | nil =>
      obtain rfl := Option.some.inj hm
      exact ⟨hn, (List.append_nil _).symm⟩
  | cons name p ih =>
      rw [findFrom] at hm
      obtain ⟨c, hc, hrest⟩ := Option.bind_eq_some_iff.1 hm
      obtain ⟨j, hj, hcj⟩ := Option.bind_eq_some_iff.1 hc
      obtain ⟨-, hpath⟩ := h.child _ _ _ hj
      obtain ⟨hinode, -⟩ := h.inode j c hcj
      subst hinode
      obtain ⟨hmnode, hmpath⟩ := ih hcj hrest
      exact ⟨hmnode, by rw [hmpath, hpath, List.append_assoc]; rfl⟩

theorem Rep.of_find (h : Rep st path) {m : Node Oid} {p : List String}
    (hm : find st p = some m) : st.nodes m.inode = some m ∧ path m.inode = p := by
  unfold find at hm
  rw [h.root.1, Option.bind_some] at hm
  have hroot := h.of_findFrom (n := ⟨rootInode, .dir⟩) h.root.1 hm
  rw [h.root.2, List.nil_append] at hroot
  exact hroot

/-- There is nothing below a file. -/
theorem Rep.find_below_file (h : Rep st path) {m : Node Oid} {p q : List String}
    (hm : find st p = some m) (hfile : m.isDir = false) (hq : q ≠ []) : find st (p ++ q) = none := by
  obtain ⟨hnode, -⟩ := h.of_find hm
  have hdir : st.dirs m.inode = none := by
    have := h.dirs m.inode
    rw [hnode, Option.any_some, hfile] at this
    exact Option.isNone_iff_eq_none.1 (Option.isSome_eq_false_iff.1 this)
  rw [find_append, hm, Option.bind_some]
  cases q with
  | nil => exact absurd rfl hq
  | cons name q =>
      rw [findFrom]
      unfold lookupEager childOf
      rw [hdir]
      rfl

/-- What is there stays there. -/
structure Keeps (st st' : VfsState Oid) : Prop where
  nodes : ∀ i n, st.nodes i = some n → st'.nodes i = some n
  child : ∀ i name j, childOf st i name = some j → childOf st' i name = some j

theorem Keeps.refl (st : VfsState Oid) : Keeps st st := ⟨fun _ _ h => h, fun _ _ _ h => h⟩

theorem Keeps.trans {st'' : VfsState Oid} (h : Keeps st st') (h' : Keeps st' st'') :
    Keeps st st'' :=
  ⟨fun i n hn => h'.nodes i n (h.nodes i n hn), fun i name j hj => h'.child i name j (h.child i name j hj)⟩

theorem Keeps.of_findFrom (h : Keeps st st') {n m : Node Oid} {p : List String}
    (hm : findFrom st n p = some m) : findFrom st' n p = some m := by
  induction p generalizing n with
  | nil => exact hm
  | cons name p ih =>
      rw [findFrom] at hm ⊢
      obtain ⟨c, hc, hrest⟩ := Option.bind_eq_some_iff.1 hm
      obtain ⟨j, hj, hcj⟩ := Option.bind_eq_some_iff.1 hc
      have hlookup : lookupEager st' n.inode name = some c :=
        Option.bind_eq_some_iff.2 ⟨j, h.child _ _ _ hj, h.nodes _ _ hcj⟩
      rw [hlookup, Option.bind_some]
      exact ih hrest

theorem Keeps.of_find (h : Keeps st st') {m : Node Oid} {p : List String} (hm : find st p = some m) :
    find st' p = some m := by
  unfold find at hm ⊢
  obtain ⟨root, hroot, hrest⟩ := Option.bind_eq_some_iff.1 hm
  rw [h.nodes _ _ hroot, Option.bind_some]
  exact h.of_findFrom hrest

/-- A name that is free takes nothing away. -/
theorem keeps_allocNode (h : Rep st path) {parent : Nat}
    (hparent : st.nodes parent = some ⟨parent, .dir⟩) {name : String} (kind : NodeKind Oid)
    (hfree : childOf st parent name = none) : Keeps st (allocNode st parent name kind).1 := by
  obtain ⟨d, hd⟩ := h.exists_dir hparent
  obtain ⟨hfresh, hfreshDir⟩ := h.fresh
  refine ⟨fun i n hn => ?_, fun i n j hj => ?_⟩
  · rw [allocNode_nodes, Function.update_of_ne, hn]
    rintro rfl
    rw [hfresh] at hn
    cases hn
  · rw [childOf_allocNode hd hfreshDir, if_neg, hj]
    rintro ⟨rfl, rfl⟩
    rw [hfree] at hj
    cases hj

/-- A node that has been allocated is found under its name. -/
theorem find_allocNode (h : Rep st path) {parent : Nat} {q : List String}
    (hparent : find st q = some ⟨parent, .dir⟩) {name : String} (kind : NodeKind Oid)
    (hfree : childOf st parent name = none) :
    find (allocNode st parent name kind).1 (q ++ [name]) = some ⟨st.nextInode, kind⟩ := by
  obtain ⟨hnode, -⟩ := h.of_find hparent
  obtain ⟨d, hd⟩ := h.exists_dir hnode
  rw [find_concat, (keeps_allocNode h hnode kind hfree).of_find hparent, Option.bind_some]
  unfold lookupEager
  rw [childOf_allocNode hd h.fresh.2, if_pos ⟨rfl, rfl⟩, Option.bind_some, allocNode_nodes,
    Function.update_self]

end Find

/-! ## One insertion -/

/-- The step of `insertSides`. -/
def insertOne (st : VfsState Oid) (s : Side Oid) : VfsState Oid :=
  eagerInsert st s.path s.oid (some s.label)

/-- The directories of a side come before the side. -/
theorem insertOne_of_getLast {s : Side Oid} {file : String}
    (hlast : (pathComponents s.path).getLast? = some file) (st : VfsState Oid) :
    insertOne st s =
      if (childOf (ensureDirs st rootInode s.dirs).1 (ensureDirs st rootInode s.dirs).2
          (labelFilename file s.label)).isSome
      then (ensureDirs st rootInode s.dirs).1
      else (allocNode (ensureDirs st rootInode s.dirs).1 (ensureDirs st rootInode s.dirs).2
        (labelFilename file s.label) (.file 18446744073709551615 s.oid)).1 := by
  unfold insertOne eagerInsert
  simp only [hlast]
  rfl

theorem insertOne_of_none {s : Side Oid} (hlast : (pathComponents s.path).getLast? = none)
    (st : VfsState Oid) : insertOne st s = st := by
  unfold insertOne eagerInsert
  simp only [hlast]

section Insertion

variable {st : VfsState Oid} {path : Nat → List String}

/-- A directory under the name is taken; otherwise there is a new one. -/
theorem ensureDir_cases (h : Rep st path) (parent : Nat) (name : String) :
    (∃ k, childOf st parent name = some k ∧ st.nodes k = some ⟨k, .dir⟩ ∧
      ensureDir st parent name = (st, k)) ∨
    ((∀ k, childOf st parent name = some k → ∃ n, st.nodes k = some n ∧ n.isDir = false) ∧
      ensureDir st parent name = allocNode st parent name .dir) := by
  unfold ensureDir
  cases hchild : childOf st parent name with
  | none => exact Or.inr ⟨fun k hk => (by cases hk), rfl⟩
  | some k =>
      obtain ⟨n, hn⟩ := Option.isSome_iff_exists.1 (h.child _ _ _ hchild).1
      cases hdir : n.isDir with
      | true =>
          have hany : (st.nodes k).any Node.isDir = true := by rw [hn, Option.any_some, hdir]
          refine Or.inl ⟨k, rfl, hn.trans (congrArg some (h.dir_inode hn hdir)), ?_⟩
          simp only [Option.filter_some, hany, if_true]
      | false =>
          have hany : (st.nodes k).any Node.isDir = false := by rw [hn, Option.any_some, hdir]
          refine Or.inr ⟨fun k' hk' => ?_, ?_⟩
          · obtain rfl := Option.some.inj hk'
            exact ⟨n, hn, hdir⟩
          · simp only [Option.filter_some, hany, Bool.false_eq_true, if_false]

theorem rep_ensureDir (h : Rep st path) {parent : Nat}
    (hparent : st.nodes parent = some ⟨parent, .dir⟩) (name : String) :
    ∃ path', Rep (ensureDir st parent name).1 path' ∧
      (ensureDir st parent name).1.nodes (ensureDir st parent name).2 =
        some ⟨(ensureDir st parent name).2, .dir⟩ := by
  rcases ensureDir_cases h parent name with ⟨k, -, hk, heq⟩ | ⟨-, heq⟩
  · rw [heq]
    exact ⟨path, h, hk⟩
  · rw [heq]
    refine ⟨_, rep_allocNode h hparent name .dir, ?_⟩
    rw [allocNode_nodes]
    exact Function.update_self _ _ _

theorem rep_ensureDirs (h : Rep st path) {parent : Nat}
    (hparent : st.nodes parent = some ⟨parent, .dir⟩) (dirs : List String) :
    ∃ path', Rep (ensureDirs st parent dirs).1 path' ∧
      (ensureDirs st parent dirs).1.nodes (ensureDirs st parent dirs).2 =
        some ⟨(ensureDirs st parent dirs).2, .dir⟩ := by
  induction dirs generalizing st path parent with
  | nil => exact ⟨path, h, hparent⟩
  | cons name dirs ih =>
      obtain ⟨path', h', hnode⟩ := rep_ensureDir h hparent name
      exact ih h' hnode

theorem rep_insertOne (h : Rep st path) (s : Side Oid) : ∃ path', Rep (insertOne st s) path' := by
  cases hlast : (pathComponents s.path).getLast? with
  | none =>
      rw [insertOne_of_none hlast]
      exact ⟨path, h⟩
  | some file =>
      rw [insertOne_of_getLast hlast]
      obtain ⟨path', h', hnode⟩ := rep_ensureDirs h h.root.1 s.dirs
      split_ifs with hsome
      · exact ⟨path', h'⟩
      · exact ⟨_, rep_allocNode h' hnode _ _⟩

theorem rep_insertSides (sides : List (Side Oid)) : ∃ path, Rep (insertSides sides) path := by
  have hrun : ∀ (l : List (Side Oid)) (st : VfsState Oid), (∃ path, Rep st path) →
      ∃ path, Rep (l.foldl insertOne st) path := by
    intro l
    induction l with
    | nil => exact fun st h => h
    | cons s l ih =>
        rintro st ⟨path, h⟩
        exact ih _ (rep_insertOne h s)
  exact hrun sides _ ⟨_, rep_root⟩

end Insertion

/-! ## Sides that are apart -/

section Apart

variable {S : List (Side Oid)} {st : VfsState Oid} {path : Nat → List String}

/-- What is in the tree comes from the sides. -/
structure Placed (S : List (Side Oid)) (st : VfsState Oid) (path : Nat → List String) : Prop
    extends Rep st path where
  files : ∀ i n, st.nodes i = some n → n.isDir = false →
    ∃ s ∈ S, s.nodePath = some (path i) ∧ n.kind = .file 18446744073709551615 s.oid
  directories : ∀ i n, st.nodes i = some n → n.isDir = true →
    path i = [] ∨ ∃ s ∈ S, path i <+: s.dirs

theorem placed_root (S : List (Side Oid)) :
    Placed S (addEagerRoot (emptyState : VfsState Oid)) (fun _ => []) := by
  refine ⟨rep_root, fun i n hn hfile => ?_, fun i n hn hdir => Or.inl rfl⟩
  unfold addEagerRoot emptyState at hn
  by_cases hi : i = rootInode
  · subst hi
    simp only [Function.update_self, Option.some.injEq] at hn
    rw [← hn] at hfile
    cases hfile
  · simp [Function.update_of_ne hi] at hn

/-- A new node that comes from a side. -/
theorem placed_allocNode (h : Placed S st path) {parent : Nat}
    (hparent : st.nodes parent = some ⟨parent, .dir⟩) {name : String} {kind : NodeKind Oid}
    (hfile : (⟨st.nextInode, kind⟩ : Node Oid).isDir = false →
      ∃ s ∈ S, s.nodePath = some (path parent ++ [name]) ∧ kind = .file 18446744073709551615 s.oid)
    (hdir : (⟨st.nextInode, kind⟩ : Node Oid).isDir = true →
      ∃ s ∈ S, path parent ++ [name] <+: s.dirs) :
    Placed S (allocNode st parent name kind).1
      (Function.update path st.nextInode (path parent ++ [name])) := by
  have hold : ∀ i n, st.nodes i = some n → i ≠ st.nextInode := by
    rintro i n hn rfl
    rw [h.toRep.fresh.1] at hn
    cases hn
  refine ⟨rep_allocNode h.toRep hparent name kind, fun i n hn hkind => ?_, fun i n hn hkind => ?_⟩
  all_goals
    rw [allocNode_nodes] at hn
    by_cases hi : i = st.nextInode
  · subst hi
    rw [Function.update_self] at hn ⊢
    obtain rfl := Option.some.inj hn
    exact hfile hkind
  · rw [Function.update_of_ne hi] at hn ⊢
    exact h.files i n hn hkind
  · subst hi
    rw [Function.update_self] at hn ⊢
    obtain rfl := Option.some.inj hn
    exact Or.inr (hdir hkind)
  · rw [Function.update_of_ne hi] at hn ⊢
    exact h.directories i n hn hkind

/-- **A directory of a side replaces no file.** -/
theorem placed_ensureDir (hapart : Apart S) (h : Placed S st path) {parent : Nat} {q : List String}
    (hparent : find st q = some ⟨parent, .dir⟩) {name : String} {y : Side Oid} (hy : y ∈ S)
    (hpre : q ++ [name] <+: y.dirs) :
    ∃ path', Placed S (ensureDir st parent name).1 path' ∧ Keeps st (ensureDir st parent name).1 ∧
      find (ensureDir st parent name).1 (q ++ [name]) =
        some ⟨(ensureDir st parent name).2, .dir⟩ := by
  obtain ⟨hnode, hpath⟩ := h.toRep.of_find hparent
  simp only at hnode hpath
  rcases ensureDir_cases h.toRep parent name with ⟨k, hchild, hk, heq⟩ | ⟨hfiles, heq⟩
  · rw [heq]
    refine ⟨path, h, Keeps.refl st, ?_⟩
    rw [find_concat, hparent, Option.bind_some]
    unfold lookupEager
    rw [hchild, Option.bind_some, hk]
  · have hfree : childOf st parent name = none := by
      cases hchild : childOf st parent name with
      | none => rfl
      | some k =>
          obtain ⟨n, hn, hfile⟩ := hfiles k hchild
          obtain ⟨s, hs, hplace, -⟩ := h.files k n hn hfile
          rw [(h.child _ _ _ hchild).2, hpath] at hplace
          exact absurd hpre (hapart.dirs s hs y hy _ hplace)
    rw [heq]
    refine ⟨_, placed_allocNode h hnode (fun hkind => by cases hkind) (fun _ => ?_),
      keeps_allocNode h.toRep hnode .dir hfree, find_allocNode h.toRep hparent .dir hfree⟩
    rw [hpath]
    exact ⟨y, hy, hpre⟩

theorem placed_ensureDirs (hapart : Apart S) {y : Side Oid} (hy : y ∈ S) (dirs : List String)
    {q : List String} (hpre : q ++ dirs <+: y.dirs) {parent : Nat} (h : Placed S st path)
    (hparent : find st q = some ⟨parent, .dir⟩) :
    ∃ path', Placed S (ensureDirs st parent dirs).1 path' ∧
      Keeps st (ensureDirs st parent dirs).1 ∧
      find (ensureDirs st parent dirs).1 (q ++ dirs) =
        some ⟨(ensureDirs st parent dirs).2, .dir⟩ := by
  induction dirs generalizing st path parent q with
  | nil =>
      refine ⟨path, h, Keeps.refl st, ?_⟩
      rw [List.append_nil]
      exact hparent
  | cons name dirs ih =>
      have happend : q ++ name :: dirs = (q ++ [name]) ++ dirs := by simp
      rw [happend] at hpre ⊢
      obtain ⟨path', h', hkeeps, hfind⟩ := placed_ensureDir hapart h hparent hy
        ((List.prefix_append _ _).trans hpre)
      obtain ⟨path'', h'', hkeeps', hfind'⟩ := ih hpre h' hfind
      exact ⟨path'', h'', hkeeps.trans hkeeps', hfind'⟩

/-- The side is at its place. -/
def Side.ShownIn (s : Side Oid) (st : VfsState Oid) : Prop :=
  ∃ p n, s.nodePath = some p ∧ find st p = some n ∧ n.kind = .file 18446744073709551615 s.oid

theorem Side.ShownIn.keeps {s : Side Oid} {st' : VfsState Oid} (h : s.ShownIn st)
    (hkeeps : Keeps st st') : s.ShownIn st' := by
  obtain ⟨p, n, hp, hfind, hkind⟩ := h
  exact ⟨p, n, hp, hkeeps.of_find hfind, hkind⟩

/-- **A side is put at its place, and nothing is taken away.** -/
theorem placed_insertOne (hapart : Apart S) (h : Placed S st path) {y : Side Oid} (hy : y ∈ S) :
    ∃ path', Placed S (insertOne st y) path' ∧ Keeps st (insertOne st y) ∧
      y.ShownIn (insertOne st y) := by
  cases hlast : (pathComponents y.path).getLast? with
  | none => exact absurd (by unfold Side.nodePath; rw [hlast]; rfl) (hapart.named y hy)
  | some file =>
      have hplace : y.nodePath = some (y.dirs ++ [labelFilename file y.label]) := by
        unfold Side.nodePath
        rw [hlast]
        rfl
      have hroot : find st [] = some ⟨rootInode, .dir⟩ := by
        unfold find
        rw [h.root.1]
        rfl
      obtain ⟨path', h', hkeeps, hfind⟩ := placed_ensureDirs hapart hy y.dirs
        List.prefix_rfl h hroot
      rw [insertOne_of_getLast hlast]
      rw [List.nil_append] at hfind
      obtain ⟨hnode, hpath⟩ := h'.toRep.of_find hfind
      simp only at hnode hpath
      split_ifs with hsome
      · -- what is there is the side itself
        obtain ⟨k, hk⟩ := Option.isSome_iff_exists.1 hsome
        obtain ⟨hknode, hkpath⟩ := h'.child _ _ _ hk
        obtain ⟨n, hn⟩ := Option.isSome_iff_exists.1 hknode
        refine ⟨path', h', hkeeps, _, n, hplace, ?_, ?_⟩
        · rw [find_concat, hfind, Option.bind_some]
          unfold lookupEager
          rw [hk, Option.bind_some, hn]
        · cases hdir : n.isDir with
          | false =>
              obtain ⟨s, hs, hsplace, hkind⟩ := h'.files k n hn hdir
              rw [hkpath, hpath, ← hplace] at hsplace
              rw [hkind, hapart.places s hs y hy hsplace]
          | true =>
              rcases h'.directories k n hn hdir with hnil | ⟨s, hs, hpre⟩
              · rw [hkpath] at hnil
                exact absurd hnil (by simp)
              · rw [hkpath, hpath] at hpre
                exact absurd hpre (hapart.dirs y hy s hs _ hplace)
      · have hfree := Option.not_isSome_iff_eq_none.1 hsome
        refine ⟨_, placed_allocNode h' hnode (fun _ => ⟨y, hy, ?_, rfl⟩)
          (fun hkind => by cases hkind), hkeeps.trans (keeps_allocNode h'.toRep hnode _ hfree),
          _, _, hplace, find_allocNode h'.toRep hfind _ hfree, rfl⟩
        rw [hplace]
        exact congrArg (fun q => some (q ++ [_])) hpath.symm

/-- **All sides are put at their places.** -/
theorem placed_insertAll (hapart : Apart S) (rest : List (Side Oid)) (hrest : ∀ s ∈ rest, s ∈ S)
    (h : Placed S st path) :
    ∃ path', Placed S (rest.foldl insertOne st) path' ∧ Keeps st (rest.foldl insertOne st) ∧
      ∀ s ∈ rest, s.ShownIn (rest.foldl insertOne st) := by
  induction rest generalizing st path with
  | nil => exact ⟨path, h, Keeps.refl st, by simp⟩
  | cons y rest ih =>
      obtain ⟨path', h', hkeeps, hshown⟩ := placed_insertOne hapart h (hrest y List.mem_cons_self)
      obtain ⟨path'', h'', hkeeps', hall⟩ := ih (fun s hs => hrest s (List.mem_cons_of_mem y hs)) h'
      refine ⟨path'', h'', hkeeps.trans hkeeps', ?_⟩
      rw [List.forall_mem_cons]
      exact ⟨hshown.keeps hkeeps', hall⟩

end Apart

/-! ## When nothing is lost -/

theorem insertSides_append (done rest : List (Side Oid)) :
    insertSides (done ++ rest) = rest.foldl insertOne (insertSides done) :=
  List.foldl_append

theorem label_of_mem_sides {entries : List (DiffEntry Oid)} {labelA labelB : String} {s : Side Oid}
    (hs : s ∈ sides entries labelA labelB) : s.label = if s.isA then labelA else labelB := by
  have hside : ∀ isA label (path : Option String) (oid : Option Oid), s ∈ sideOf isA label path oid →
      s.isA = isA ∧ s.label = label := by
    intro isA label path oid hmem
    cases path with
    | none => cases hmem
    | some path =>
        cases oid with
        | none => cases hmem
        | some oid =>
            rw [List.mem_singleton.1 hmem]
            exact ⟨rfl, rfl⟩
  unfold sides at hs
  obtain ⟨e, -, he⟩ := List.mem_flatMap.1 hs
  rcases List.mem_append.1 he with hmem | hmem
  · obtain ⟨hisA, hlabel⟩ := hside _ _ _ _ hmem
    rw [hisA, hlabel, if_pos rfl]
  · obtain ⟨hisA, hlabel⟩ := hside _ _ _ _ hmem
    rw [hisA, hlabel, if_neg (by simp)]

section Lost

variable {entries : List (DiffEntry Oid)} {labelA labelB : String}

/-- Sides that are apart are shown. -/
theorem showsAll_of_apart (hapart : Apart (sides entries labelA labelB)) :
    ShowsAll entries labelA labelB := by
  obtain ⟨path, hplaced, -, hall⟩ := placed_insertAll hapart (sides entries labelA labelB)
    (fun _ hs => hs) (placed_root _)
  have hbuild : (sides entries labelA labelB).foldl insertOne (addEagerRoot emptyState) =
      buildDiff entries labelA labelB := (buildDiff_eq entries labelA labelB).symm
  rw [hbuild] at hplaced hall
  refine ⟨hall, fun s hs t ht hne p q n m hp hq hn hm heq => ?_, fun done rest hsplit p n hn _ => ?_⟩
  · have hpq : p = q := by
      rw [← (hplaced.toRep.of_find hn).2, ← (hplaced.toRep.of_find hm).2, heq]
    have hst := hapart.places s hs t ht (by rw [hp, hq, hpq])
    exact hne (by rw [hst])
  · obtain ⟨path', hdone, -, -⟩ := placed_insertAll hapart done
      (fun s hs => hsplit ▸ List.mem_append_left rest hs) (placed_root _)
    obtain ⟨-, -, hkeeps, -⟩ := placed_insertAll hapart rest
      (fun s hs => hsplit ▸ List.mem_append_right done hs) hdone
    refine ⟨p, ?_⟩
    rw [buildDiff_eq, hsplit, insertSides_append]
    exact hkeeps.of_find hn

/-- Sides that are shown are apart. -/
theorem apart_of_showsAll (h : ShowsAll entries labelA labelB) :
    Apart (sides entries labelA labelB) := by
  obtain ⟨path, hrep⟩ := rep_insertSides (sides entries labelA labelB)
  rw [← buildDiff_eq] at hrep
  refine ⟨fun s hs hnone => ?_, fun s hs t ht hplaces => ?_, fun s hs t ht p hp hpre => ?_⟩
  · obtain ⟨p, n, hp, -, -⟩ := h.shown s hs
    rw [hnone] at hp
    cases hp
  · obtain ⟨p, n, hp, hn, hnkind⟩ := h.shown s hs
    obtain ⟨q, m, hq, hm, hmkind⟩ := h.shown t ht
    have hpq : p = q := Option.some.inj (by rw [← hp, ← hq, hplaces])
    subst hpq
    obtain rfl : n = m := Option.some.inj (hn.symm.trans hm)
    have hpair : (s.path, s.isA) = (t.path, t.isA) := by
      by_contra hne
      exact h.distinct s hs t ht hne p p n n hp hq hn hm rfl
    have hoid : s.oid = t.oid := by
      rw [hnkind] at hmkind
      exact (NodeKind.file.inj hmkind).2
    have hlabel : s.label = t.label := by
      rw [label_of_mem_sides hs, label_of_mem_sides ht, (Prod.mk.inj hpair).2]
    obtain ⟨hpath, hisA⟩ := Prod.mk.inj hpair
    exact Side.ext hpath hisA hlabel hoid
  · obtain ⟨p', n, hp', hn, hnkind⟩ := h.shown s hs
    obtain rfl : p = p' := Option.some.inj (hp.symm.trans hp')
    obtain ⟨q, m, hq, hm, -⟩ := h.shown t ht
    have hbelow : ∃ r, r ≠ [] ∧ q = p ++ r := by
      unfold Side.nodePath at hq
      obtain ⟨file, -, rfl⟩ := Option.map_eq_some_iff.1 hq
      obtain ⟨r, hr⟩ := hpre
      exact ⟨r ++ [labelFilename file t.label], by simp, by rw [← hr, List.append_assoc]⟩
    obtain ⟨r, hr, rfl⟩ := hbelow
    have hfile : n.isDir = false := by
      unfold Node.isDir
      rw [hnkind]
    rw [hrep.find_below_file hn hfile hr] at hm
    cases hm

end Lost

/-- **When a diff mount shows every side**: when no two sides have one labelled path, and no labelled
    path is a directory of another side. -/
theorem showsAll_iff (entries : List (DiffEntry Oid)) (labelA labelB : String) :
    ShowsAll entries labelA labelB ↔ Apart (sides entries labelA labelB) :=
  ⟨apart_of_showsAll, showsAll_of_apart⟩

/-- `foo` is deleted, and a directory that is called as its first version is shown comes instead. -/
def takenName : List (Change Nat) :=
  [.deletion (asBytes "foo") 1 .blob, .addition (asBytes "foo__v1/bar") 2 .blob]

theorem bstrString_asBytes (lossy : List UInt8 → String) (s : String) :
    bstrString lossy (asBytes s) = s := by
  unfold bstrString
  rw [fromUtf8_asBytes]
  rfl

/-- The old version of `foo` is not shown. -/
theorem takenName_lost : labels "v1" "v2" none none = some ("v1", "v2") ∧
    ¬ ShowsAll (runDiff (fun _ => "?") takenName []) "v1" "v2" := by
  refine ⟨by decide, fun h => ?_⟩
  have hentries : runDiff (fun _ => "?") takenName [] =
      [⟨some "foo", none, some 1, none, .deleted⟩,
        ⟨none, some "foo__v1/bar", none, some 2, .added⟩] := by
    simp [runDiff, takenName, changeInPathspec, changeToEntry, EntryKind.isBlob, bstrString_asBytes]
  rw [hentries] at h
  refine (apart_of_showsAll h).dirs ⟨"foo", true, "v1", 1⟩ (by decide)
    ⟨"foo__v1/bar", false, "v2", 2⟩ (by decide) ["foo__v1"] (by decide) (by decide)

end BaleForGit.Mount
