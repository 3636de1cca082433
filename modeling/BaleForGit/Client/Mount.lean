import Mathlib.Data.List.DropRight
import Mathlib.Data.List.Sort
import BaleForGit.Git.Repository
import BaleForGit.Library.Table

set_option autoImplicit false

/-! # The file system of a mounted revision (`mount/vfs.rs`)

`build_single_lazy` starts with the root alone. A directory is read from its git tree when it is
first looked into, and what is in it gets the next inodes. The pathspec filters files, and prunes the
directories under which no file can match.

`view` is what a path shows, whatever has been looked at before; `view_file_iff` compares it with the
tree itself. -/

namespace BaleForGit.Mount

variable {Oid : Type}

/-! ## Pathspecs -/

/-- `trim_end_matches('/')`. -/
def trimEndSlashes (f : String) : String := String.ofList (f.toList.rdropWhile (fun c => c == '/'))

/-- `path.starts_with(&format!("{dir}/"))`. -/
def isUnder (path dir : String) : Bool := (dir ++ "/").toList.isPrefixOf path.toList

def pathspecMatchesFile (path : String) (filters : List String) : Bool :=
  if filters.isEmpty then true
  else filters.any (fun f =>
    let f := trimEndSlashes f
    path == f || isUnder path f)

def pathspecIntersectsDir (path : String) (filters : List String) : Bool :=
  if filters.isEmpty then true
  else filters.any (fun f =>
    let f := trimEndSlashes f
    path == f || isUnder path f || isUnder f path)

/-! ## Trees -/

structure TreeEntry (Oid : Type) where
  mode : EntryKind
  filename : String
  oid : Oid
deriving DecidableEq, Repr

/-- A tree object: each name once, and none empty. -/
structure TreeObject (Oid : Type) where
  entries : List (TreeEntry Oid)
  nodup : (entries.map TreeEntry.filename).Nodup
  names : ∀ e ∈ entries, e.filename ≠ ""

/-- What the mount reads; `findTree` is `find_object`, `into_tree` and the decoding of the entries, and
    gives the same whenever it is asked. -/
structure LazyContext (Oid : Type) where
  findTree : Oid → Except String (TreeObject Oid)
  pathspec : List String

/-! ## State -/

/-- A file knows its blob; its size is asked for later. -/
inductive NodeKind (Oid : Type) where
  | dir
  | file (size : UInt64) (oid : Oid)
deriving DecidableEq, Repr

structure Node (Oid : Type) where
  inode : Nat
  kind : NodeKind Oid
deriving DecidableEq, Repr

structure LazyDir (Oid : Type) where
  treeOid : Oid
  pathPrefix : String

structure DirState (Oid : Type) where
  children : List (String × Nat)
  lazy : Option (LazyDir Oid)

/-- All inodes given out have their node in memory, so there is always a next one. -/
structure VfsState (Oid : Type) where
  nodes : Nat → Option (Node Oid)
  dirs : Nat → Option (DirState Oid)
  nextInode : Nat

def rootInode : Nat := 1

def DirState.child (d : DirState Oid) (name : String) : Option Nat :=
  (d.children.find? (fun c => c.1 == name)).map Prod.snd

def DirState.insert (d : DirState Oid) (name : String) (inode : Nat) : DirState Oid :=
  { d with children := Table.upsert Prod.fst d.children (name, inode) }

def emptyState : VfsState Oid := ⟨fun _ => none, fun _ => none, rootInode + 1⟩

/-- `build_single_lazy`. -/
def buildSingleLazy (rootTree : Oid) : VfsState Oid :=
  { (emptyState : VfsState Oid) with
    nodes := Function.update (fun _ => none) rootInode (some ⟨rootInode, .dir⟩)
    dirs := Function.update (fun _ => none) rootInode (some ⟨[], some ⟨rootTree, ""⟩⟩) }

/-! ## Reading a directory -/

inductive PendingKind (Oid : Type) where
  | dir (treeOid : Oid) (fullPath : String)
  | file (oid : Oid)

structure PendingChild (Oid : Type) where
  name : String
  kind : PendingKind Oid

def fullPath (pathPrefix name : String) : String :=
  if pathPrefix = "" then name else pathPrefix ++ "/" ++ name

section Operations

variable (ctx : LazyContext Oid)

/-- What is kept of an entry; symlinks and submodules are skipped. -/
def pendingChild (pathPrefix : String) (e : TreeEntry Oid) : Option (PendingChild Oid) :=
  let path := fullPath pathPrefix e.filename
  if e.mode = .tree then
    if pathspecIntersectsDir path ctx.pathspec then some ⟨e.filename, .dir e.oid path⟩ else none
  else if e.mode.isBlob then
    if pathspecMatchesFile path ctx.pathspec then some ⟨e.filename, .file e.oid⟩ else none
  else none

/-- A new inode for a child, and its name in the directory. -/
def addChild (parent : Nat) (st : VfsState Oid) (c : PendingChild Oid) : VfsState Oid :=
  let inode := st.nextInode
  let st := match c.kind with
    | .dir treeOid fullPath =>
      { nodes := Function.update st.nodes inode (some ⟨inode, .dir⟩)
        dirs := Function.update st.dirs inode (some ⟨[], some ⟨treeOid, fullPath⟩⟩)
        nextInode := inode + 1 : VfsState Oid }
    | .file oid =>
      { nodes := Function.update st.nodes inode (some ⟨inode, .file 18446744073709551615 oid⟩)
        dirs := st.dirs
        nextInode := inode + 1 }
  { st with
    dirs := Function.update st.dirs parent ((st.dirs parent).map (fun d => d.insert c.name inode)) }

/-- The directory is not looked up in the repository again. -/
def VfsState.clearLazy (st : VfsState Oid) (inode : Nat) : VfsState Oid :=
  { st with dirs := Function.update st.dirs inode ((st.dirs inode).map (fun d =>
      { d with lazy := none })) }

def populateDirLocked (st : VfsState Oid) (parent : Nat) : Except String (VfsState Oid) := do
  match (st.dirs parent).bind DirState.lazy with
  | none => return st
  | some lazyDir =>
    let tree ← ctx.findTree lazyDir.treeOid
    let pending := tree.entries.filterMap (pendingChild ctx lazyDir.pathPrefix)
    return (pending.foldl (addChild parent) st).clearLazy parent

/-- A directory that cannot be read stays as it is, and is not tried again. -/
def populateIfLazy (st : VfsState Oid) (parent : Nat) : VfsState Oid :=
  if ((st.dirs parent).bind DirState.lazy).isNone then st
  else match populateDirLocked ctx st parent with
    | .ok st => st
    | .error _ => st.clearLazy parent

/-! ## Calls -/

def lookupByInode (st : VfsState Oid) (inode : Nat) : Option (Node Oid) := st.nodes inode

def lookupChild (st : VfsState Oid) (parent : Nat) (name : String) :
    VfsState Oid × Option (Node Oid) :=
  let st := populateIfLazy ctx st parent
  (st, do
    let dir ← st.dirs parent
    let inode ← dir.child name
    st.nodes inode)

def readdir (st : VfsState Oid) (parent : Nat) :
    VfsState Oid × Option (List (String × Node Oid)) :=
  let st := populateIfLazy ctx st parent
  (st, (st.dirs parent).map (fun dir =>
    (dir.children.filterMap (fun c => (st.nodes c.2).map (fun n => (c.1, n)))).insertionSort
      (fun a b => a.1 ≤ b.1)))

inductive Call where
  | lookupChild (parent : Nat) (name : String)
  | readdir (parent : Nat)

def stepCall (st : VfsState Oid) : Call → VfsState Oid
  | .lookupChild parent name => (lookupChild ctx st parent name).1
  | .readdir parent => (readdir ctx st parent).1

def runCalls (st : VfsState Oid) (calls : List Call) : VfsState Oid := calls.foldl (stepCall ctx) st

/-- The components of a path, looked up one after the other. -/
def resolveFrom (st : VfsState Oid) (node : Node Oid) :
    List String → VfsState Oid × Option (Node Oid)
  | [] => (st, some node)
  | name :: rest =>
    match lookupChild ctx st node.inode name with
    | (st, none) => (st, none)
    | (st, some child) => resolveFrom st child rest

def resolve (st : VfsState Oid) (path : List String) : VfsState Oid × Option (Node Oid) :=
  match lookupByInode st rootInode with
  | none => (st, none)
  | some root => resolveFrom ctx st root path

end Operations

/-! ## What a path stands for -/

/-- The path in the repository. -/
def joinPath : List String → String
  | [] => ""
  | [name] => name
  | name :: rest => name ++ "/" ++ joinPath rest

section View

variable (ctx : LazyContext Oid)

/-- An entry of a tree object; one that cannot be read has none. -/
def findEntry (oid : Oid) (name : String) : Option (TreeEntry Oid) :=
  match ctx.findTree oid with
  | .error _ => none
  | .ok tree => tree.entries.find? (fun e => e.filename == name)

/-- The tree's entry at a path below a tree. -/
def entryAt (oid : Oid) : List String → Option (TreeEntry Oid)
  | [] => none
  | [name] => findEntry ctx oid name
  | name :: rest =>
    match findEntry ctx oid name with
    | none => none
    | some e => if e.mode = .tree then entryAt e.oid rest else none

/-- The tree has a regular or executable file `o` at the path. -/
def HasBlob (oid : Oid) (path : List String) (o : Oid) : Prop :=
  ∃ e, entryAt ctx oid path = some e ∧ e.mode.isBlob = true ∧ e.oid = o

/-- What a path shows. -/
inductive Shown (Oid : Type) where
  | dir (treeOid : Oid)
  | file (oid : Oid)
deriving DecidableEq

def Shown.kind : Shown Oid → NodeKind Oid
  | .dir _ => .dir
  | .file oid => .file 18446744073709551615 oid

def PendingKind.shown : PendingKind Oid → Shown Oid
  | .dir treeOid _ => .dir treeOid
  | .file oid => .file oid

/-- What a directory shows under a name. -/
def shownChild (path : List String) (s : Shown Oid) (name : String) : Option (Shown Oid) :=
  match s with
  | .file _ => none
  | .dir oid => (findEntry ctx oid name).bind (fun e =>
      (pendingChild ctx (joinPath path) e).map (fun c => c.kind.shown))

def viewFrom (path : List String) (s : Shown Oid) : List String → Option (Shown Oid)
  | [] => some s
  | name :: rest => (shownChild ctx path s name).bind (fun s => viewFrom (path ++ [name]) s rest)

/-- What the path shows in the mount of a tree. -/
def view (rootTree : Oid) (path : List String) : Option (Shown Oid) :=
  viewFrom ctx [] (.dir rootTree) path

end View

/-! ## Pruning hides no file -/

theorem isUnder_iff {path dir : String} :
    isUnder path dir = true ↔ dir.toList ++ ['/'] <+: path.toList := by
  unfold isUnder
  rw [String.toList_append, List.isPrefixOf_iff_prefix]
  rfl

/-- Of two directories above a path, one is the other or above it. -/
theorem isUnder_total {path a b : String} (ha : isUnder path a = true) (hb : isUnder path b = true) :
    a = b ∨ isUnder a b = true ∨ isUnder b a = true := by
  rw [isUnder_iff] at ha hb ⊢
  rw [isUnder_iff]
  rcases List.prefix_or_prefix_of_prefix ha hb with h | h
  · rcases List.prefix_concat_iff.1 h with heq | h
    · exact Or.inl (String.toList_injective (List.append_cancel_right heq))
    · exact Or.inr (Or.inr h)
  · rcases List.prefix_concat_iff.1 h with heq | h
    · exact Or.inl (String.toList_injective (List.append_cancel_right heq)).symm
    · exact Or.inr (Or.inl h)

/-- **A directory with a matching file below it is not pruned.** -/
theorem intersects_of_matches {dir path : String} {filters : List String}
    (hunder : isUnder path dir = true) (h : pathspecMatchesFile path filters = true) :
    pathspecIntersectsDir dir filters = true := by
  unfold pathspecMatchesFile at h
  unfold pathspecIntersectsDir
  by_cases hempty : filters.isEmpty = true
  · rw [if_pos hempty]
  · rw [if_neg hempty, List.any_eq_true] at h
    rw [if_neg hempty, List.any_eq_true]
    obtain ⟨f, hf, hmatch⟩ := h
    refine ⟨f, hf, ?_⟩
    simp only [Bool.or_eq_true, beq_iff_eq] at hmatch ⊢
    rcases hmatch with rfl | hmatch
    · exact Or.inr hunder
    · rcases isUnder_total hunder hmatch with heq | h | h
      · exact Or.inl (Or.inl heq)
      · exact Or.inl (Or.inr h)
      · exact Or.inr h

theorem joinPath_cons {name : String} {rest : List String} (h : rest ≠ []) :
    joinPath (name :: rest) = name ++ "/" ++ joinPath rest := by
  cases rest with
  | nil => exact absurd rfl h
  | cons b rest => rfl

theorem joinPath_append {a b : List String} (ha : a ≠ []) (hb : b ≠ []) :
    joinPath (a ++ b) = joinPath a ++ "/" ++ joinPath b := by
  induction a with
  | nil => exact absurd rfl ha
  | cons name a ih =>
      by_cases hnil : a = []
      · subst hnil
        exact joinPath_cons hb
      · rw [List.cons_append, joinPath_cons (by simp [hnil]), ih hnil, joinPath_cons hnil]
        simp only [String.append_assoc]

theorem isUnder_joinPath {a b : List String} (ha : a ≠ []) (hb : b ≠ []) :
    isUnder (joinPath (a ++ b)) (joinPath a) = true := by
  rw [isUnder_iff, joinPath_append ha hb, String.toList_append, String.toList_append]
  exact List.prefix_append _ _

theorem joinPath_ne_empty {path : List String} (hne : path ≠ []) (h : ∀ name ∈ path, name ≠ "") :
    joinPath path ≠ "" := by
  cases path with
  | nil => exact absurd rfl hne
  | cons name rest =>
      cases rest with
      | nil => exact h name (List.mem_singleton_self name)
      | cons b rest =>
          intro heq
          have hlen := congrArg (fun s => s.toList.length) heq
          simp [joinPath, String.toList_append] at hlen

/-- The full path of a child. -/
theorem fullPath_joinPath {path : List String} (h : ∀ name ∈ path, name ≠ "") (name : String) :
    fullPath (joinPath path) name = joinPath (path ++ [name]) := by
  unfold fullPath
  by_cases hnil : path = []
  · subst hnil
    rfl
  · rw [if_neg (joinPath_ne_empty hnil h), joinPath_append hnil (List.cons_ne_nil _ _)]
    rfl

section View

variable (ctx : LazyContext Oid)

theorem findEntry_name {oid : Oid} {name : String} {e : TreeEntry Oid}
    (h : findEntry ctx oid name = some e) : e.filename = name ∧ name ≠ "" := by
  unfold findEntry at h
  split at h
  · cases h
  · rename_i tree _
    have hname := List.find?_some h
    rw [beq_iff_eq] at hname
    exact ⟨hname, hname ▸ tree.names e (List.mem_of_find?_eq_some h)⟩

@[simp] theorem viewFrom_file_cons (path : List String) (o : Oid) (name : String)
    (rest : List String) : viewFrom ctx path (.file o) (name :: rest) = none := rfl

theorem entryAt_cons {oid : Oid} {name : String} {e : TreeEntry Oid} {rest : List String}
    (h : findEntry ctx oid name = some e) (hrest : rest ≠ []) :
    entryAt ctx oid (name :: rest) = if e.mode = .tree then entryAt ctx e.oid rest else none := by
  cases rest with
  | nil => exact absurd rfl hrest
  | cons b rest => rw [entryAt, h]; simp

theorem hasBlob_none {oid o : Oid} {name : String} {rest : List String}
    (h : findEntry ctx oid name = none) : ¬ HasBlob ctx oid (name :: rest) o := by
  rintro ⟨e, he, -⟩
  cases rest with
  | nil => simp [entryAt, h] at he
  | cons b rest => simp [entryAt, h] at he

theorem hasBlob_tree {oid o : Oid} {name : String} {e : TreeEntry Oid} {rest : List String}
    (h : findEntry ctx oid name = some e) (htree : e.mode = .tree) :
    HasBlob ctx oid (name :: rest) o ↔ HasBlob ctx e.oid rest o := by
  unfold HasBlob
  cases rest with
  | nil => simp [entryAt, h, htree, EntryKind.isBlob]
  | cons b rest => rw [entryAt_cons ctx h (List.cons_ne_nil _ _), if_pos htree]

theorem hasBlob_leaf {oid o : Oid} {name : String} {e : TreeEntry Oid} {rest : List String}
    (h : findEntry ctx oid name = some e) (hleaf : e.mode ≠ .tree) :
    HasBlob ctx oid (name :: rest) o ↔ rest = [] ∧ e.mode.isBlob = true ∧ e.oid = o := by
  unfold HasBlob
  cases rest with
  | nil => simp [entryAt, h]
  | cons b rest =>
      rw [entryAt_cons ctx h (List.cons_ne_nil _ _), if_neg hleaf]
      simp

theorem shownChild_none {done : List String} {oid : Oid} {name : String}
    (h : findEntry ctx oid name = none) : shownChild ctx done (.dir oid) name = none := by
  simp only [shownChild, h, Option.bind_none]

theorem shownChild_some {done : List String} {oid : Oid} {name : String} {e : TreeEntry Oid}
    (hdone : ∀ n ∈ done, n ≠ "") (h : findEntry ctx oid name = some e) :
    shownChild ctx done (.dir oid) name =
      if e.mode = .tree then
        if pathspecIntersectsDir (joinPath (done ++ [name])) ctx.pathspec = true then
          some (.dir e.oid) else none
      else if e.mode.isBlob = true then
        if pathspecMatchesFile (joinPath (done ++ [name])) ctx.pathspec = true then
          some (.file e.oid) else none
      else none := by
  simp only [shownChild, h, Option.bind_some, pendingChild, (findEntry_name ctx h).1,
    fullPath_joinPath hdone]
  split_ifs <;> rfl

/-- What is shown below a directory, by induction on the path; `done` leads to the directory. -/
theorem viewFrom_file_iff {done path : List String} {oid o : Oid} (hdone : ∀ n ∈ done, n ≠ "") :
    viewFrom ctx done (.dir oid) path = some (.file o) ↔
      HasBlob ctx oid path o ∧
        pathspecMatchesFile (joinPath (done ++ path)) ctx.pathspec = true := by
  induction path generalizing done oid with
  | nil => simp [viewFrom, HasBlob, entryAt]
  | cons name rest ih =>
      rw [viewFrom]
      cases hfind : findEntry ctx oid name with
      | none =>
          rw [shownChild_none ctx hfind]
          simp [hasBlob_none ctx hfind]
      | some e =>
          have hne := (findEntry_name ctx hfind).2
          have hdone' : ∀ n ∈ done ++ [name], n ≠ "" := by
            intro n hn
            rcases List.mem_append.1 hn with hn | hn
            · exact hdone n hn
            · rw [List.mem_singleton.1 hn]
              exact hne
          have hjoin : done ++ name :: rest = (done ++ [name]) ++ rest := by simp
          rw [shownChild_some ctx hdone hfind]
          by_cases htree : e.mode = .tree
          · rw [if_pos htree, hasBlob_tree ctx hfind htree, hjoin]
            by_cases hshown : pathspecIntersectsDir (joinPath (done ++ [name])) ctx.pathspec = true
            · rw [if_pos hshown]
              exact ih hdone'
            · rw [if_neg hshown]
              -- a matching file below would have kept the directory
              refine iff_of_false (by simp) (fun hfile => hshown ?_)
              obtain ⟨hblob, hmatch⟩ := hfile
              have hrest : rest ≠ [] := by
                rintro rfl
                obtain ⟨e', he', -⟩ := hblob
                simp [entryAt] at he'
              exact intersects_of_matches (isUnder_joinPath (by simp) hrest) hmatch
          · rw [if_neg htree, hasBlob_leaf ctx hfind htree]
            by_cases hblob : e.mode.isBlob = true
            · rw [if_pos hblob]
              cases rest with
              | nil =>
                  by_cases hmatch :
                      pathspecMatchesFile (joinPath (done ++ [name])) ctx.pathspec = true
                  · simp [hmatch, hblob, viewFrom]
                  · simp [hmatch]
              | cons b rest =>
                  refine iff_of_false ?_ (fun h => absurd h.1.1 (List.cons_ne_nil _ _))
                  split_ifs <;> simp
            · rw [if_neg hblob]
              simp [hblob]

/-- **The mount shows the files of the tree that the pathspec matches.** -/
theorem view_file_iff {rootTree o : Oid} {path : List String} :
    view ctx rootTree path = some (.file o) ↔ HasBlob ctx rootTree path o ∧
      pathspecMatchesFile (joinPath path) ctx.pathspec = true :=
  viewFrom_file_iff ctx (by simp)

theorem viewFrom_append (done a b : List String) (s : Shown Oid) :
    viewFrom ctx done s (a ++ b) =
      (viewFrom ctx done s a).bind (fun s => viewFrom ctx (done ++ a) s b) := by
  induction a generalizing done s with
  | nil => simp [viewFrom]
  | cons name a ih =>
      simp only [List.cons_append, viewFrom, Option.bind_assoc]
      congr 1
      funext s'
      rw [ih]
      simp

/-- A child is shown as its directory shows it. -/
theorem view_concat (rootTree : Oid) (path : List String) (name : String) :
    view ctx rootTree (path ++ [name]) =
      (view ctx rootTree path).bind (fun s => shownChild ctx path s name) := by
  unfold view
  rw [viewFrom_append]
  simp [viewFrom]

end View

end BaleForGit.Mount
