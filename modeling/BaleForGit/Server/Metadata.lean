import Mathlib.Algebra.Ring.Nat
import BaleForGit.Library.Table
import BaleForGit.Server.Types

set_option autoImplicit false

/-! # The metadata store (`bale-server-meta-sqlite`, `-postgres`, `-common`)

The tables, and the operations of `MetadataStore` that the upload and lookup paths use, each run on
its own. Both backends have these tables and, one operation at a time, these effects; what their
transactions do to each other is the subject of the transaction model.

Term lists are global, keyed by file hash alone, and written once: `writeFileInTx` probes for rows
of the hash and inserts none if it finds one. `files` has a row for each repository that registered
the hash, with the total of the list that repository sent last. -/

namespace BaleForGit.Server

/-! ## Tables -/

/-- A row of `file_terms`, keyed by `(file_hash, term_index)`. -/
structure TermRow where
  fileHash : FileHash
  termIndex : Nat
  term : FileTerm
deriving DecidableEq

/-- A row of `files`, keyed by `(file_hash, repo_id)`. -/
structure FileRow where
  fileHash : FileHash
  repo : RepoRef
  totalBytes : Int
  createdAt : Int
  owner : String
deriving DecidableEq

/-- A row of `xorbs`, keyed by the hash. -/
structure XorbRow where
  info : XorbInfo
  createdAt : Int
deriving DecidableEq

/-- A row of `chunks`, keyed by `(chunk_hash, xorb_hash)`. -/
structure ChunkTableRow where
  xorbHash : XorbHash
  chunk : ChunkRow
deriving DecidableEq

/-- A row of `xorb_frames`, keyed by `(xorb_hash, frame_index)`. -/
structure FrameTableRow where
  xorbHash : XorbHash
  frame : XorbFrameRow
deriving DecidableEq

structure QuotaRow where
  owner : String
  limitBytes : Int
deriving DecidableEq

def TermRow.key (r : TermRow) : FileHash × Nat := (r.fileHash, r.termIndex)
def FileRow.key (r : FileRow) : FileHash × String := (r.fileHash, r.repo.repoId)
def XorbRow.key (r : XorbRow) : XorbHash := r.info.xorb
def ChunkTableRow.key (r : ChunkTableRow) : ChunkHash × XorbHash := (r.chunk.chunkHash, r.xorbHash)
def FrameTableRow.key (r : FrameTableRow) : XorbHash × UInt32 := (r.xorbHash, r.frame.frameIndex)

structure Db where
  xorbs : List XorbRow
  chunks : List ChunkTableRow
  xorbFrames : List FrameTableRow
  files : List FileRow
  fileTerms : List TermRow
  ownerQuotas : List QuotaRow
deriving DecidableEq

def Db.empty : Db := ⟨[], [], [], [], [], []⟩

/-! ## Shared pieces -/

/-- `CHUNK_INSERT_BATCH`. -/
def chunkInsertBatch : Nat := 500

/-- `slice::chunks(CHUNK_INSERT_BATCH)`. -/
def batches {α : Type} (rows : List α) : List (List α) :=
  (List.range ((rows.length + chunkInsertBatch - 1) / chunkInsertBatch)).map
    (fun i => (rows.drop (i * chunkInsertBatch)).take chunkInsertBatch)

/-- `nonneg_i64_to_u64`. -/
def nonnegI64ToU64 (n : Int) (label : String) : CoreResult Nat :=
  if n < 0 then
    .error (.internal (label ++ ": aggregate overflowed i64 (got " ++ toString n ++
      "); database is corrupt or owner exceeds 8 EiB"))
  else .ok n.toNat

/-- `COALESCE(SUM(..), 0)` over non-negative values, as an `i64`: the engine fails on overflow. -/
def sumI64 (label : String) (ns : List Nat) : CoreResult Nat :=
  if ns.sum < 9223372036854775808 then .ok ns.sum
  else .error (.internal (label ++ ": integer overflow"))

/-- The sum of the unpacked lengths of a term list, as a `u64`. -/
def termSum (terms : List FileTerm) : Nat :=
  (terms.map (fun t => t.unpackedSegmentBytes.toNat)).sum % 18446744073709551616

/-- The rows that a term list of `h` is stored as. -/
def termRows (h : FileHash) (terms : List FileTerm) : List TermRow :=
  terms.zipIdx.map (fun ti => ⟨h, ti.2, ti.1⟩)

/-- `SELECT .. FROM file_terms WHERE file_hash = h`. -/
def termsOf (h : FileHash) (t : List TermRow) : List TermRow :=
  t.filter (fun r => decide (r.fileHash = h))

/-- `SELECT .. FROM xorb_frames WHERE xorb_hash = x`. -/
def framesOf (x : XorbHash) (t : List FrameTableRow) : List FrameTableRow :=
  t.filter (fun r => decide (r.xorbHash = x))

/-- The `files` row of a registration. -/
def fileRow (h : FileHash) (repo : RepoRef) (terms : List FileTerm) (now : Int) : FileRow :=
  ⟨h, repo, asI64 (termSum terms), now, repo.owner⟩

/-! ## Registrations -/

namespace Db

variable (db : Db)

/-- `register_xorb`. -/
def registerXorb (info : XorbInfo) (chunks : List ChunkRow) (now : Int) : Db :=
  { db with
    xorbs := Table.insertIgnore XorbRow.key db.xorbs ⟨info, now⟩
    chunks := (batches (chunks.map (fun c => ⟨info.xorb, c⟩))).foldl
      (Table.insertAll ChunkTableRow.key) db.chunks }

/-- `register_xorb_layout`. -/
def registerXorbLayout (xorb : XorbHash) (frames : List XorbFrameRow) : Db :=
  if frames.isEmpty then db
  else { db with
    xorbFrames := (batches (frames.map (fun f => ⟨xorb, f⟩))).foldl
      (Table.insertAll FrameTableRow.key) db.xorbFrames }

/-- `write_file_in_tx`, run without interruption. -/
def writeFileInTx (h : FileHash) (repo : RepoRef) (terms : List FileTerm) (now : Int) : Db :=
  let files := Table.upsert FileRow.key db.files (fileRow h repo terms now)
  if termsOf h db.fileTerms ≠ [] then { db with files := files }
  else { db with
    files := files
    fileTerms := (batches (termRows h terms)).foldl (Table.insertAll TermRow.key) db.fileTerms }

/-- `register_files`. -/
def registerFiles (repo : RepoRef) (files : List (FileHash × List FileTerm)) (now : Int) : Db :=
  files.foldl (fun d f => d.writeFileInTx f.1 repo f.2 now) db

/-! ## Queries -/

/-- `file_in_repo`. -/
def fileInRepo (h : FileHash) (repoId : String) : Bool :=
  db.files.any (fun r => decide (r.fileHash = h) && decide (r.repo.repoId = repoId))

/-- `xorb_frame_layout`. -/
def xorbFrameLayout (x : XorbHash) : List XorbFrameRow :=
  (Table.orderBy (fun r => r.frame.frameIndex.toNat) (framesOf x db.xorbFrames)).map (fun r => r.frame)

/-- `xorb_frame_layouts`: the map holds the queried xorbs that have rows. -/
def xorbFrameLayouts (xorbs : List XorbHash) (x : XorbHash) : Option (List XorbFrameRow) :=
  if x ∈ xorbs ∧ db.xorbFrameLayout x ≠ [] then some (db.xorbFrameLayout x) else none

/-- `get_owner_quota`. -/
def getOwnerQuota (owner : String) : CoreResult (Option Nat) :=
  match db.ownerQuotas.find? (fun r => decide (r.owner = owner)) with
  | none => .ok none
  | some r => (nonnegI64ToU64 r.limitBytes "get_owner_quota").map some

/-- The xorbs that files of `owner` refer to. -/
def xorbsOfOwner (owner : String) : List XorbHash :=
  (db.fileTerms.filter (fun t => db.files.any (fun f =>
    decide (f.fileHash = t.fileHash) && decide (f.owner = owner)))).map (fun t => t.term.xorb)

/-- `stored_bytes_for_owner`. -/
def storedBytesForOwner (owner : String) : CoreResult Nat :=
  sumI64 "stored_bytes_for_owner"
    ((db.xorbs.filter (fun r => decide (r.info.xorb ∈ db.xorbsOfOwner owner))).map
      (fun r => r.info.numBytesOnDisk.toNat))

/-- `unaccounted_xorb_bytes_for_owner`. -/
def unaccountedXorbBytesForOwner (owner : String) (candidates : List XorbHash) : CoreResult Nat :=
  if candidates.isEmpty then .ok 0
  else sumI64 "unaccounted_xorb_bytes"
    ((db.xorbs.filter (fun r => decide (r.info.xorb ∈ candidates) &&
      decide (r.info.xorb ∉ db.xorbsOfOwner owner))).map (fun r => r.info.numBytesOnDisk.toNat))

/-- The term list of `h`, in the order of its indexes. -/
def fileTermList (h : FileHash) : List FileTerm :=
  (Table.orderBy TermRow.termIndex (termsOf h db.fileTerms)).map (fun r => r.term)

/-- `lookup_file`. `pick` is the row that `SELECT .. LIMIT 1` returns when several match. -/
def lookupFile (pick : List FileRow → Option FileRow) (h : FileHash) :
    CoreResult (Option (List FileTerm)) :=
  let terms := db.fileTermList h
  if terms.isEmpty then .ok none
  else match pick (db.files.filter (fun r => decide (r.fileHash = h))) with
    | none => .ok (some terms)
    | some recorded => do
      let total ← nonnegI64ToU64 recorded.totalBytes "files.total_bytes"
      if termSum terms ≠ total then
        .error (.internal ("file term list sums to " ++ toString (termSum terms) ++
          " but recorded size is " ++ toString total ++
          "; refusing to serve an inconsistent reconstruction (re-register this file)"))
      else .ok (some terms)

end Db

/-- A `LIMIT 1` without `ORDER BY`: some matching row, if there is one. -/
structure LimitOne (pick : List FileRow → Option FileRow) : Prop where
  mem : ∀ rows r, pick rows = some r → r ∈ rows
  nonempty : ∀ rows, rows ≠ [] → pick rows ≠ none

/-! ## Batches -/

/-- The batches are the rows, in order. -/
theorem flatten_batches {α : Type} (rows : List α) : (batches rows).flatten = rows := by
  have haux : ∀ n, (((List.range n).map (fun i =>
      (rows.drop (i * chunkInsertBatch)).take chunkInsertBatch)).flatten) =
        rows.take (n * chunkInsertBatch) := by
    intro n
    induction n with
    | zero => simp
    | succ n ih =>
        rw [List.range_succ, List.map_append, List.flatten_append, ih, List.map_singleton,
          List.flatten_singleton, Nat.succ_mul, List.take_add]
  unfold batches
  rw [haux, List.take_of_length_le]
  unfold chunkInsertBatch
  omega

theorem insertAll_batches {ρ κ : Type} [DecidableEq κ] (key : ρ → κ) (t rows : List ρ) :
    (batches rows).foldl (Table.insertAll key) t = Table.insertAll key t rows := by
  rw [Table.foldl_insertAll, flatten_batches]

/-! ## Term rows -/

theorem termRows_nodup (h : FileHash) (terms : List FileTerm) :
    ((termRows h terms).map TermRow.key).Nodup := by
  have hidx : (termRows h terms).map TermRow.key =
      (List.range terms.length).map (fun i => (h, i)) := by
    unfold termRows
    rw [List.map_map]
    refine List.ext_getElem (by simp) (fun i hi _ => ?_)
    simp [TermRow.key]
  rw [hidx]
  exact List.nodup_range.map (fun i j hij => (Prod.mk.inj hij).2)

theorem termRows_fileHash {h : FileHash} {terms : List FileTerm} {r : TermRow}
    (hr : r ∈ termRows h terms) : r.fileHash = h := by
  simp only [termRows, List.mem_map] at hr
  obtain ⟨ti, -, rfl⟩ := hr
  rfl

@[simp] theorem termRows_eq_nil {h : FileHash} {terms : List FileTerm} :
    termRows h terms = [] ↔ terms = [] := by
  simp [termRows]

/-- The rows of a term list come in index order. -/
theorem orderBy_termRows (h : FileHash) (terms : List FileTerm) :
    (Table.orderBy TermRow.termIndex (termRows h terms)).map (fun r => r.term) = terms := by
  have hsorted : (termRows h terms).Pairwise (fun a b => a.termIndex ≤ b.termIndex) := by
    rw [List.pairwise_iff_getElem]
    intro i j hi hj hij
    simp only [termRows, List.getElem_map, List.getElem_zipIdx]
    omega
  rw [Table.orderBy_of_pairwise hsorted]
  unfold termRows
  rw [List.map_map]
  refine List.ext_getElem (by simp) (fun i hi _ => ?_)
  simp

end BaleForGit.Server
