import Mathlib.Data.Finset.Basic
import BaleForGit.Library.Dag
import BaleForGit.Pointer

set_option autoImplicit false

/-! # Git repositories, and what `gix` answers about them

`git-bale` never touches git's files itself: everything it knows about a repository is an answer
of the `gix` crate. `Gix` is the record of those answers in one run, one field for each call the
code makes; `none` is an error. It is the parameter through which the code outside this repository
enters the model.

`Repository` is the mathematical object behind the answers: an immutable, content-addressed object
database (the commit graph, the trees and the blobs) plus the index, `HEAD` and the refs.
`Gix.Reads` says that a record of answers is truthful and complete about a repository: no read
fails, `rev_walk` yields exactly the commits reachable from the tips and from no hidden tip, and a
tree diff without rewrite tracking reports exactly the paths whose blob or mode differs.
`Repository.gix` is an executable record with that property. -/

namespace BaleForGit

/-! ## Entries, trees and changes -/

/-- Mode of a tree or index entry. -/
inductive EntryKind where
  | tree
  | blob
  | blobExecutable
  | link
  | commit
deriving DecidableEq, Repr

/-- `EntryMode::is_blob`: a regular or an executable file. -/
def EntryKind.isBlob : EntryKind → Bool
  | .blob => true
  | .blobExecutable => true
  | _ => false

/-- Kind of a git object. -/
inductive ObjectKind where
  | tree
  | blob
  | commit
  | tag
deriving DecidableEq, Repr

/-- One entry of a flattened tree, or of the index. -/
structure Entry (Oid : Type) where
  path : String
  mode : EntryKind
  id : Oid
deriving DecidableEq, Repr

/-- A tree, flattened to full paths; `[]` is the empty tree. -/
abbrev Tree (Oid : Type) := List (Entry Oid)

/-- A change reported by a tree diff with rewrite tracking off. -/
inductive Change (Oid : Type) where
  | addition (mode : EntryKind) (id : Oid)
  | deletion
  | modification (mode : EntryKind) (id : Oid)
deriving DecidableEq, Repr

/-- A change that leaves an entry of this mode and id in the newer tree. -/
def Change.leaves {Oid : Type} (ch : Change Oid) (mode : EntryKind) (id : Oid) : Prop :=
  ch = .addition mode id ∨ ch = .modification mode id

/-- Object header: kind and size, without the data. -/
structure Header where
  kind : ObjectKind
  size : Nat
deriving DecidableEq, Repr

/-- A reference while iterating: its full name and the object `peel_to_id` ends at. -/
structure Reference (Oid : Type) where
  name : String
  peelToId : Option Oid

/-- One item of a revision walk. -/
structure WalkInfo (Oid : Type) where
  id : Oid
  parentIds : List Oid

/-! ## The answers of `gix` -/

/-- The answers `gix` gives about one repository in one run. -/
structure Gix (Oid : Type) where
  /-- `repo.index_or_empty()`. -/
  indexOrEmpty : Option (List (Entry Oid))
  /-- `repo.head_id()`. -/
  headId : Option Oid
  /-- `repo.references()`, then `.all()`, then the items of the iterator. -/
  references : Option (Option (List (Option (Reference Oid))))
  /-- `repo.find_header(oid)`. -/
  findHeader : Oid → Option Header
  /-- `repo.find_object(oid)`, the data. -/
  findObject : Oid → Option (List UInt8)
  /-- `repo.rev_walk(tips).with_hidden(hidden).all()` and its items. -/
  revWalk : List Oid → List Oid → Option (List (Option (WalkInfo Oid)))
  /-- `info.object()` followed by `commit.tree()`. -/
  commitTree : Oid → Option (Tree Oid)
  /-- `pid.object()`, `peel_to_commit()` and `tree()`. -/
  parentTree : Oid → Option (Tree Oid)
  /-- `parent_tree.changes()` and the changes `for_each_to_obtain_tree` hands to the callback. -/
  treeChanges : Tree Oid → Tree Oid → Option (List (Change Oid))

/-! ## Failing reads -/

/-- A set of read failures: which calls answer with an error. -/
structure ReadFailures (Oid : Type) where
  index : Bool
  head : Bool
  /-- `references()` and `all()`. -/
  references : Bool
  referencesAll : Bool
  /-- An `Err` item of the ref iteration, and a ref that cannot be peeled, by ref name. -/
  refItem : String → Bool
  peel : String → Bool
  header : Oid → Bool
  object : Oid → Bool
  walkSetup : Bool
  /-- Commits that the walk does not deliver: an `Err` item, or reached only through one. -/
  walkItem : Oid → Bool
  commitTree : Oid → Bool
  parentTree : Oid → Bool
  diffSetup : Tree Oid → Tree Oid → Bool
  /-- Changes that a diff loses because a subtree cannot be read. -/
  diffLost : Tree Oid → Tree Oid → EntryKind → Oid → Bool

/-- No read fails. -/
def ReadFailures.none (Oid : Type) : ReadFailures Oid where
  index := false
  head := false
  references := false
  referencesAll := false
  refItem _ := false
  peel _ := false
  header _ := false
  object _ := false
  walkSetup := false
  walkItem _ := false
  commitTree _ := false
  parentTree _ := false
  diffSetup _ _ := false
  diffLost _ _ _ _ := false

/-- The item of a ref iteration under failures. -/
def ReadFailures.readRef {Oid : Type} (F : ReadFailures Oid) (r : Reference Oid) :
    Option (Reference Oid) :=
  if F.refItem r.name then Option.none
  else some { r with peelToId := if F.peel r.name then Option.none else r.peelToId }

/-- A change is lost when the entry it leaves is. -/
def ReadFailures.delivers {Oid : Type} (F : ReadFailures Oid) (a b : Tree Oid)
    (ch : Change Oid) : Bool :=
  match ch with
  | .addition mode id => !F.diffLost a b mode id
  | .modification mode id => !F.diffLost a b mode id
  | .deletion => true

/-- The answers of `g` with the reads in `F` failing. -/
def Gix.fail {Oid : Type} (g : Gix Oid) (F : ReadFailures Oid) : Gix Oid where
  indexOrEmpty := if F.index then none else g.indexOrEmpty
  headId := if F.head then none else g.headId
  references :=
    if F.references then none
    else g.references.map (fun all =>
      if F.referencesAll then none else all.map (fun refs => refs.map (fun r => r.bind F.readRef)))
  findHeader id := if F.header id then none else g.findHeader id
  findObject id := if F.object id then none else g.findObject id
  revWalk tips hidden :=
    if F.walkSetup then none
    else (g.revWalk tips hidden).map (fun items =>
      items.map (fun item => item.filter (fun info => !F.walkItem info.id)))
  commitTree c := if F.commitTree c then none else g.commitTree c
  parentTree c := if F.parentTree c then none else g.parentTree c
  treeChanges a b :=
    if F.diffSetup a b then none
    else (g.treeChanges a b).map (fun l => l.filter (F.delivers a b))

theorem Gix.fail_none {Oid : Type} (g : Gix Oid) : g.fail (ReadFailures.none Oid) = g := by
  have hread : (fun r : Option (Reference Oid) => r.bind (ReadFailures.none Oid).readRef)
      = fun r => r := by
    funext r
    cases r <;> rfl
  have hdel : ∀ a b, (ReadFailures.none Oid).delivers a b = fun _ : Change Oid => true := by
    intro a b
    funext ch
    cases ch <;> rfl
  have hwalk : (fun item : Option (WalkInfo Oid) =>
      item.filter (fun info => !(ReadFailures.none Oid).walkItem info.id)) = fun item => item := by
    funext item
    cases item <;> rfl
  unfold Gix.fail
  simp only [hread, hdel, hwalk]
  simp [ReadFailures.none]

/-! ## Repositories -/

/-- A content-addressed object database with a finite commit graph. -/
structure ObjectDb (Oid : Type) extends Dag Oid where
  commits : List Oid
  tree : Oid → Tree Oid
  object : Oid → Option (ObjectKind × List UInt8)
  /-- Every commit object is one of the finitely many commits, and so are its parents. -/
  commit_mem : ∀ c data, object c = some (.commit, data) → c ∈ commits
  parents_mem : ∀ c ∈ commits, ∀ p ∈ parents c, p ∈ commits

/-- A repository: the object database, the index, `HEAD` and the refs (full name and the object
    each one peels to). -/
structure Repository (Oid : Type) where
  db : ObjectDb Oid
  index : List (Entry Oid)
  head : Option Oid
  refs : List (String × Oid)

namespace ObjectDb

variable {Oid : Type} (db : ObjectDb Oid)

def isCommit (id : Oid) : Bool :=
  match db.object id with
  | some (kind, _) => kind == .commit
  | none => false

/-- Blob `id` is a pointer naming the file hash `h`. -/
def Names (fromStr : String → Option XetFileInfo) (id : Oid) (h : String) : Prop :=
  ∃ data info, db.object id = some (.blob, data) ∧ parsePointer fromStr data = .ok info ∧
    info.hash = h

theorem isCommit_mem {id : Oid} (h : db.isCommit id = true) : id ∈ db.commits := by
  unfold isCommit at h
  split at h
  · next kind data hobj =>
      have hkind : kind = .commit := by simpa using h
      exact db.commit_mem id data (hkind ▸ hobj)
  · exact absurd h (by simp)

theorem ancestor_mem {t v : Oid} (ht : t ∈ db.commits) (h : db.Ancestor t v) :
    v ∈ db.commits := by
  induction h with
  | refl => exact ht
  | tail _ hp ih => exact db.parents_mem _ ih _ hp

theorem reach_mem {tips : List Oid} {v : Oid} (ht : ∀ t ∈ tips, t ∈ db.commits)
    (h : db.Reach tips v) : v ∈ db.commits := by
  obtain ⟨t, htips, hanc⟩ := h
  exact db.ancestor_mem (ht t htips) hanc

end ObjectDb

/-- Refs under `refs/remotes/` are remote-tracking. -/
def isRemoteName (name : String) : Bool :=
  "refs/remotes/".toList.isPrefixOf name.toList

namespace Repository

variable {Oid : Type} (repo : Repository Oid)

/-- Commits that the readable refs of one side point at. -/
def refCommits (F : ReadFailures Oid) (remote : Bool) : List Oid :=
  if F.references || F.referencesAll then []
  else (repo.refs.filter (fun r => !F.refItem r.1 && !F.peel r.1 && !F.header r.2 &&
    isRemoteName r.1 == remote && repo.db.isCommit r.2)).map Prod.snd

/-- `HEAD` (when it is a commit) and the commits of the refs outside `refs/remotes/`, as far as
    they can be read under `F`. -/
def localTipsUnder (F : ReadFailures Oid) : List Oid :=
  (if F.head then [] else repo.head.toList.filter (fun id =>
    !F.header id && repo.db.isCommit id)) ++ repo.refCommits F false

/-- The commits of the readable refs under `refs/remotes/`. -/
def remoteTipsUnder (F : ReadFailures Oid) : List Oid :=
  repo.refCommits F true

/-- `HEAD` and the local refs. -/
def localTips : List Oid := repo.localTipsUnder (ReadFailures.none Oid)

/-- The remote-tracking refs. -/
def remoteTips : List Oid := repo.remoteTipsUnder (ReadFailures.none Oid)

theorem refCommits_mem {F : ReadFailures Oid} {remote : Bool} {t : Oid}
    (h : t ∈ repo.refCommits F remote) : t ∈ repo.db.commits := by
  unfold refCommits at h
  split_ifs at h
  · simp at h
  · simp only [List.mem_map, List.mem_filter, Bool.and_eq_true] at h
    obtain ⟨r, ⟨-, -, hc⟩, rfl⟩ := h
    exact repo.db.isCommit_mem hc

theorem localTipsUnder_mem {F : ReadFailures Oid} {t : Oid} (h : t ∈ repo.localTipsUnder F) :
    t ∈ repo.db.commits := by
  simp only [localTipsUnder, List.mem_append] at h
  rcases h with h | h
  · split_ifs at h
    · simp at h
    · simp only [List.mem_filter, Bool.and_eq_true] at h
      exact repo.db.isCommit_mem h.2.2
  · exact repo.refCommits_mem h

theorem localTips_mem {t : Oid} (h : t ∈ repo.localTips) : t ∈ repo.db.commits :=
  repo.localTipsUnder_mem h

theorem remoteTips_mem {t : Oid} (h : t ∈ repo.remoteTips) : t ∈ repo.db.commits := by
  unfold remoteTips remoteTipsUnder at h
  exact repo.refCommits_mem h

theorem tipsUnder_mem {F : ReadFailures Oid} {t : Oid}
    (h : t ∈ repo.localTipsUnder F ++ repo.remoteTipsUnder F) : t ∈ repo.db.commits := by
  rcases List.mem_append.1 h with h | h
  · exact repo.localTipsUnder_mem h
  · exact repo.refCommits_mem h

end Repository

/-! ## Truthful answers -/

/-- `g` answers every call about `repo` without an error, and truthfully. -/
structure Gix.Reads {Oid : Type} (g : Gix Oid) (repo : Repository Oid) : Prop where
  indexOrEmpty : g.indexOrEmpty = some repo.index
  headId : g.headId = repo.head
  references : g.references = some (some (repo.refs.map (fun r => some ⟨r.1, some r.2⟩)))
  findHeader : ∀ id, g.findHeader id = (repo.db.object id).map (fun o => ⟨o.1, o.2.length⟩)
  findObject : ∀ id, g.findObject id = (repo.db.object id).map Prod.snd
  /-- The walk yields exactly the commits reachable from the tips and from no hidden tip. -/
  revWalk : ∀ tips hidden, (∀ t ∈ tips, t ∈ repo.db.commits) →
    ∃ infos : List (WalkInfo Oid), g.revWalk tips hidden = some (infos.map some) ∧
      ∀ info, info ∈ infos ↔ repo.db.Reach tips info.id ∧ ¬ repo.db.Reach hidden info.id ∧
        info.parentIds = repo.db.parents info.id
  commitTree : ∀ c, g.commitTree c = some (repo.db.tree c)
  parentTree : ∀ c, g.parentTree c = some (repo.db.tree c)
  /-- The diff reports exactly the entries of the newer tree that the older one does not have. -/
  treeChanges : ∀ a b, ∃ l, g.treeChanges a b = some l ∧
    ∀ mode id, (∃ ch ∈ l, ch.leaves mode id) ↔ ∃ path, ⟨path, mode, id⟩ ∈ b ∧ ⟨path, mode, id⟩ ∉ a

namespace Repository

variable {Oid : Type} [DecidableEq Oid] (repo : Repository Oid)

/-- The diff of two flattened trees: one change for every entry of `b` that `a` does not have and
    for every path of `a` that `b` does not have. -/
def diffTrees (a b : Tree Oid) : List (Change Oid) :=
  (b.filter (fun e => e ∉ a)).map (fun e =>
      if e.path ∈ a.map Entry.path then .modification e.mode e.id else .addition e.mode e.id) ++
    (a.filter (fun e => e.path ∉ b.map Entry.path)).map (fun _ => .deletion)

/-- Executable answers about `repo`, none of them an error. -/
def gix : Gix Oid where
  indexOrEmpty := some repo.index
  headId := repo.head
  references := some (some (repo.refs.map (fun r => some ⟨r.1, some r.2⟩)))
  findHeader id := (repo.db.object id).map (fun o => ⟨o.1, o.2.length⟩)
  findObject id := (repo.db.object id).map Prod.snd
  revWalk tips hidden := some ((repo.db.commits.filter (fun c =>
    repo.db.reachesB tips c && !repo.db.reachesB hidden c)).map (fun c =>
      some ⟨c, repo.db.parents c⟩))
  commitTree c := some (repo.db.tree c)
  parentTree c := some (repo.db.tree c)
  treeChanges a b := some (diffTrees a b)

theorem diffTrees_leaves (a b : Tree Oid) (mode : EntryKind) (id : Oid) :
    (∃ ch ∈ diffTrees a b, ch.leaves mode id) ↔
      ∃ path, ⟨path, mode, id⟩ ∈ b ∧ ⟨path, mode, id⟩ ∉ a := by
  constructor
  · rintro ⟨ch, hch, hleaves⟩
    simp only [diffTrees, List.mem_append, List.mem_map, List.mem_filter,
      decide_eq_true_eq] at hch
    rcases hch with ⟨e, ⟨hb, ha⟩, rfl⟩ | ⟨e, -, rfl⟩
    · have he : e.mode = mode ∧ e.id = id := by
        unfold Change.leaves at hleaves
        split_ifs at hleaves <;> simpa using hleaves
      obtain ⟨rfl, rfl⟩ := he
      exact ⟨e.path, hb, ha⟩
    · simp [Change.leaves] at hleaves
  · rintro ⟨path, hb, ha⟩
    refine ⟨if path ∈ a.map Entry.path then .modification mode id else .addition mode id, ?_, ?_⟩
    · simp only [diffTrees, List.mem_append, List.mem_map, List.mem_filter, decide_eq_true_eq]
      exact Or.inl ⟨⟨path, mode, id⟩, ⟨hb, ha⟩, rfl⟩
    · unfold Change.leaves
      split_ifs <;> simp

/-- The executable answers are truthful. -/
theorem gix_reads : repo.gix.Reads repo where
  indexOrEmpty := rfl
  headId := rfl
  references := rfl
  findHeader _ := rfl
  findObject _ := rfl
  revWalk tips hidden htips := by
    refine ⟨(repo.db.commits.filter (fun c =>
      repo.db.reachesB tips c && !repo.db.reachesB hidden c)).map (fun c =>
        ⟨c, repo.db.parents c⟩), ?_, ?_⟩
    · simp [gix, List.map_map, Function.comp_def]
    · intro info
      simp only [List.mem_map, List.mem_filter, Bool.and_eq_true, Bool.not_eq_true',
        ← Bool.not_eq_true, Dag.reachesB_iff]
      constructor
      · rintro ⟨c, ⟨-, hin, hout⟩, rfl⟩
        exact ⟨hin, hout, rfl⟩
      · rintro ⟨hin, hout, hpar⟩
        refine ⟨info.id, ⟨repo.db.reach_mem htips hin, hin, hout⟩, ?_⟩
        rw [← hpar]
  commitTree _ := rfl
  parentTree _ := rfl
  treeChanges a b := ⟨diffTrees a b, rfl, diffTrees_leaves a b⟩

end Repository

end BaleForGit
