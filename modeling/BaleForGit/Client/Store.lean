import Mathlib.Data.Finset.Card
import BaleForGit.Client.CleanCache

set_option autoImplicit false

/-! # Object stores and staging markers (`store.rs`, `staging.rs`, `config.rs`)

A git dir keeps, under `<git_dir>/bale/`, one marker file for each file hash it has cleaned
(`Markers`) and its clean cache. The objects themselves, xorbs and shards, live in an object store
whose directory `object_store_root` picks from the configuration: the staging directory in server
mode, a durable directory in local mode.

xet-data is outside this repository. `Xet` is the record of what it does with a store: `clean`
writes a file's objects and names it, `reconstruct` reads a file back. Which objects a file needs is
xet-data's business (files share xorbs), so the model only knows whole stores. -/

namespace BaleForGit

/-- A file-system path, by components. -/
abbrev Path := List String

/-! ## Configuration -/

/-- The fields of `RawConfig` that decide where objects go; the server fields play no part here. -/
structure RawConfig where
  gitDir : Option Path
  localMode : Bool
  localStore : Option Path
  localShared : Bool
deriving DecidableEq, Repr

/-- `staging_root`. -/
def stagingRoot (gitDir : Path) : Path := gitDir ++ ["bale", "staging"]

/-- `default_local_store`. -/
def defaultLocalStore (gitDir : Path) : Path := gitDir ++ ["bale", "store"]

/-- `object_store_root`; `none` is its error. -/
def objectStoreRoot (raw : RawConfig) : Option Path :=
  if raw.localMode then
    match raw.localStore with
    | some p => some p
    | none => raw.gitDir.map defaultLocalStore
  else raw.gitDir.map stagingRoot

/-! ## Markers -/

/-- `is_64_lower_hex`. -/
def is64LowerHex (s : String) : Bool :=
  s.utf8ByteSize == 64 && s.toList.all (fun c => ('0' ≤ c && c ≤ '9') || ('a' ≤ c && c ≤ 'f'))

/-- The files of `file-index/`, with their modification times and sizes as parsed from the body. -/
structure Markers where
  files : Finset String
  mtime : String → Nat
  size : String → Option Nat

namespace Markers

def empty : Markers := ⟨∅, fun _ => 0, fun _ => none⟩

/-- `mark_file_staged`: create or truncate the marker, then write the size. -/
def markFileStaged (m : Markers) (h : String) (fileSize now : Nat) : Markers where
  files := insert h m.files
  mtime x := if x = h then now else m.mtime x
  size x := if x = h then some fileSize else m.size x

/-- `touch_marker_if_exists`. -/
def touchIfExists (m : Markers) (h : String) (now : Nat) : Markers :=
  if h ∈ m.files then { m with mtime := fun x => if x = h then now else m.mtime x } else m

/-- `list_staged_files`, the names: other files in the directory are skipped. -/
def listStaged (m : Markers) : Finset String := m.files.filter (fun h => is64LowerHex h = true)

/-- `remove_marker`, for each hash of a set. -/
def removeAll (m : Markers) (dead : Finset String) : Markers := { m with files := m.files \ dead }

/-- `clear_file_markers`: the directory goes as a whole. -/
def clear (m : Markers) : Markers := { m with files := ∅ }

@[simp] theorem files_markFileStaged (m : Markers) (h : String) (fileSize now : Nat) :
    (m.markFileStaged h fileSize now).files = insert h m.files := rfl

@[simp] theorem files_touchIfExists (m : Markers) (h : String) (now : Nat) :
    (m.touchIfExists h now).files = m.files := by
  unfold touchIfExists
  split_ifs <;> rfl

@[simp] theorem files_removeAll (m : Markers) (dead : Finset String) :
    (m.removeAll dead).files = m.files \ dead := rfl

theorem mem_listStaged {m : Markers} {h : String} :
    h ∈ m.listStaged ↔ h ∈ m.files ∧ is64LowerHex h = true := by
  simp [listStaged]

theorem listStaged_subset (m : Markers) : m.listStaged ⊆ m.files :=
  Finset.filter_subset _ _

theorem listStaged_removeAll (m : Markers) (dead : Finset String) :
    (m.removeAll dead).listStaged = m.listStaged \ dead := by
  ext h
  simp only [mem_listStaged, files_removeAll, Finset.mem_sdiff]
  tauto

end Markers

/-- What git-bale keeps in one git dir. -/
structure BaleDir (Key : Type) where
  markers : Markers
  cache : CleanCache Key

/-! ## Stores -/

/-- The xorb and shard files below each store directory. -/
abbrev Stores (Obj : Type) := Path → Finset Obj

/-- `remove_all_staged_objects`: everything below `root`, recursively. -/
def removeAllStagedObjects {Obj : Type} (stores : Stores Obj) (root : Path) : Stores Obj :=
  fun p => if root <+: p then ∅ else stores p

/-- What xet-data does with the objects of one store. -/
structure Xet (Obj : Type) where
  /-- `clean_bytes` or `clean_file`, then `finalize`: the store afterwards, and the file's info. -/
  clean : Finset Obj → List UInt8 → Finset Obj × XetFileInfo
  /-- The bytes of the file with this hash, as far as the store holds all it needs. -/
  reconstruct : Finset Obj → String → Option (List UInt8)

namespace Xet

variable {Obj : Type} (xet : Xet Obj)

/-- `download_to_writer(info, 0..size, _)`. -/
def downloadToWriter (store : Finset Obj) (info : XetFileInfo) (size : Nat) :
    Option (List UInt8) :=
  (xet.reconstruct store info.hash).map (List.take size)

/-- All objects of the file are in the store. -/
def Holds (store : Finset Obj) (h : String) : Prop := (xet.reconstruct store h).isSome = true

instance (store : Finset Obj) (h : String) : Decidable (xet.Holds store h) :=
  inferInstanceAs (Decidable (_ = true))

end Xet

/-- The code outside this repository that the filter and gc call, and the two halves of the
    clean-cache check (chunk index and verification of a payload, in memory or spilled). -/
structure Deps (Obj Key : Type) where
  serde : Serde
  xet : Xet Obj
  pathKey : String → Key
  chunkIndex : List UInt8 → List Chunk
  verify : List Chunk → List UInt8 → Option Bool

namespace Deps

variable {Obj Key : Type} (deps : Deps Obj Key)

/-- The text is a pointer, and all objects of the file it names are in the store. -/
def Backed (store : Finset Obj) (pointer : String) : Prop :=
  ∃ info, parsePointer deps.serde.fromStr (asBytes pointer) = .ok info ∧
    deps.xet.Holds store info.hash

/-- What the code relies on of xet-data and of the JSON it writes: cleaning adds the objects of the
    file and removes none, more objects never make a file unreadable, hashes are 64 lowercase hex
    digits, and the pointer text written for a file is read back with the same hash. -/
structure Lawful : Prop where
  clean_subset : ∀ s b, s ⊆ (deps.xet.clean s b).1
  clean_holds : ∀ s b, deps.xet.Holds (deps.xet.clean s b).1 (deps.xet.clean s b).2.hash
  holds_mono : ∀ s t h, s ⊆ t → deps.xet.Holds s h → deps.xet.Holds t h
  clean_hash : ∀ s b, is64LowerHex (deps.xet.clean s b).2.hash = true
  parse_encode : ∀ s b, ∃ info, parsePointer deps.serde.fromStr
    (asBytes (encodePointerString deps.serde (deps.xet.clean s b).2)) = .ok info ∧
      info.hash = (deps.xet.clean s b).2.hash
  hashField_encode : ∀ s b,
    deps.serde.hashField (encodePointerString deps.serde (deps.xet.clean s b).2) =
      some (deps.xet.clean s b).2.hash

variable {deps}

theorem Backed.mono (law : deps.Lawful) {s t : Finset Obj} {pointer : String} (hst : s ⊆ t)
    (h : deps.Backed s pointer) : deps.Backed t pointer := by
  obtain ⟨info, hparse, hholds⟩ := h
  exact ⟨info, hparse, law.holds_mono s t info.hash hst hholds⟩

end Deps

end BaleForGit
