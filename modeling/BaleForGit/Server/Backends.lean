import BaleForGit.Library.RowOrder
import BaleForGit.Server.Dedup
import BaleForGit.Server.TermTx

set_option autoImplicit false

/-! # The two metadata stores (`bale-server-meta-sqlite`, `bale-server-meta-postgres`)

Every operation of `MetadataStore` is written twice, statement by statement the same but for what
the engines do differently: how `files` rows are replaced, how `SUM` overflows, how many values a
statement may bind, and that text in Postgres has no NUL. Operations run one at a time here; a
failed transaction leaves the tables as they were, and an advisory lock is there for the asking.

What the standard leaves to the engine, the row that a `LIMIT 1` returns and the order of rows with
equal sort keys, are `Choices`: a query may return what it returns for some choices. -/

namespace BaleForGit.Server

/-! ## What the engines do -/

namespace Backend

variable (b : Backend)

/-- Values that one statement may bind. -/
def maxParams : Nat :=
  match b with
  | .sqlite => 32766
  | .postgres => 65535

def bindParams (label : String) (n : Nat) : CoreResult Unit :=
  if n ≤ b.maxParams then .ok ()
  else .error (.internal (label ++ ": too many bound values"))

def noNul (text : String) : Bool := !text.toList.contains '\x00'

def bindTexts (label : String) (texts : List String) : CoreResult Unit :=
  match b with
  | .sqlite => .ok ()
  | .postgres =>
    if texts.all noNul then .ok ()
    else .error (.internal (label ++ ": invalid byte sequence for encoding \"UTF8\": 0x00"))

def inI64 (n : Int) : Bool := -9223372036854775808 ≤ n && n < 9223372036854775808

/-- SQLite adds up in an `i64`, row by row. -/
def runningSum (acc : Int) : List Int → Option Int
  | [] => some acc
  | n :: ns => if inI64 (acc + n) then runningSum (acc + n) ns else none

/-- `COALESCE(SUM(..), 0)`; Postgres adds up a `numeric`, and casts the sum with `::BIGINT`. -/
def sum (label : String) (ns : List Int) : CoreResult Int :=
  match b with
  | .sqlite =>
    match runningSum 0 ns with
    | some n => .ok n
    | none => .error (.internal (label ++ ": integer overflow"))
  | .postgres =>
    if inI64 ns.sum then .ok ns.sum
    else .error (.internal (label ++ ": bigint out of range"))

/-- A sum as it is read back; `what` is the label of `nonneg_i64_to_u64`. -/
def aggregate (label what : String) (ns : List Int) : CoreResult Nat := do
  let n ← b.sum label ns
  nonnegI64ToU64 n what

/-- The columns that `DO UPDATE SET` takes from the row that was to be inserted. -/
def setExcluded (row excluded : FileRow) : FileRow :=
  { row with
    repo := { row.repo with
      repoType := excluded.repo.repoType
      revision := excluded.repo.revision }
    totalBytes := excluded.totalBytes
    createdAt := excluded.createdAt
    owner := excluded.owner }

/-- `INSERT OR REPLACE INTO files`, and `INSERT .. ON CONFLICT (file_hash, repo_id) DO UPDATE`. -/
def putFile (t : List FileRow) (r : FileRow) : List FileRow :=
  match b with
  | .sqlite => Table.upsert FileRow.key t r
  | .postgres => Table.updateOnConflict FileRow.key setExcluded t r

/-- `INSERT OR IGNORE`, or `ON CONFLICT DO NOTHING`, of rows of `width` columns, in batches: both go
    row by row, so that the first of two rows with one key stays, in one statement as in two. -/
def insertBatches {ρ κ : Type} [DecidableEq κ] (key : ρ → κ) (width : Nat) (label : String)
    (t rows : List ρ) : CoreResult (List ρ) :=
  (batches rows).foldlM (fun t batch => do
    b.bindParams label (width * batch.length)
    .ok (Table.insertAll key t batch)) t

/-! ## Writes -/

/-- `format!("{:?}", repo_type).to_lowercase()`. -/
def repoTypeText : RepoType → String
  | .model => "model"
  | .dataset => "dataset"
  | .space => "space"

/-- `write_file_in_tx`. -/
def writeFileInTx (db : Db) (h : FileHash) (repo : RepoRef) (terms : List FileTerm) (now : Int) :
    CoreResult Db := do
  b.bindTexts "insert file" [repoTypeText repo.repoType, repo.repoId, repo.revision, repo.owner]
  let files := b.putFile db.files (fileRow h repo terms now)
  if termsOf h db.fileTerms ≠ [] then .ok { db with files := files }
  else do
    let fileTerms ←
      b.insertBatches TermRow.key 7 "insert terms" db.fileTerms (termRows h terms)
    .ok { db with files := files, fileTerms := fileTerms }

/-- `register_xorb`. The clock is read once for each row with a `created_at`. -/
def registerXorb (clock : Nat → Int) (db : Db) (xorb : XorbInfo) (chunks : List ChunkRow) :
    CoreResult Db := do
  let rows ← b.insertBatches ChunkTableRow.key 5 "insert chunks" db.chunks
    (chunks.map (fun c => ⟨xorb.xorb, c⟩))
  .ok { db with
    xorbs := Table.insertIgnore XorbRow.key db.xorbs ⟨xorb, clock 0⟩
    chunks := rows }

/-- `register_file`. -/
def registerFile (clock : Nat → Int) (db : Db) (h : FileHash) (repo : RepoRef)
    (terms : List FileTerm) : CoreResult Db :=
  b.writeFileInTx db h repo terms (clock 0)

/-- `register_files`. -/
def registerFiles (clock : Nat → Int) (db : Db) (repo : RepoRef)
    (files : List (FileHash × List FileTerm)) : CoreResult Db :=
  if files.isEmpty then .ok db
  else files.zipIdx.foldlM (fun d f => b.writeFileInTx d f.1.1 repo f.1.2 (clock f.2)) db

/-- `register_xorb_layout`. -/
def registerXorbLayout (db : Db) (xorb : XorbHash) (frames : List XorbFrameRow) : CoreResult Db :=
  if frames.isEmpty then .ok db
  else do
    let rows ← b.insertBatches FrameTableRow.key 5 "insert frames" db.xorbFrames
      (frames.map (fun f => ⟨xorb, f⟩))
    .ok { db with xorbFrames := rows }

/-- `set_owner_quota`; the upsert is the same statement in both. -/
def setOwnerQuota (db : Db) (owner : String) (limitBytes : Option UInt64) : CoreResult Db :=
  match limitBytes with
  | some n => do
    b.bindTexts "set_owner_quota" [owner]
    .ok { db with
      ownerQuotas := Table.updateOnConflict QuotaRow.owner
        (fun row excluded => { row with limitBytes := excluded.limitBytes })
        db.ownerQuotas ⟨owner, asI64 n.toNat⟩ }
  | none => do
    b.bindTexts "clear_owner_quota" [owner]
    .ok { db with ownerQuotas := db.ownerQuotas.filter (fun q => decide (q.owner ≠ owner)) }

/-! ## Queries -/

/-- `xorb_exists`. -/
def xorbExists (db : Db) (x : XorbHash) : Bool :=
  db.xorbs.any (fun r => decide (r.info.xorb = x))

/-- `file_in_repo`. -/
def fileInRepo (db : Db) (h : FileHash) (repoId : String) : CoreResult Bool := do
  b.bindTexts "select file_in_repo" [repoId]
  .ok (db.fileInRepo h repoId)

/-- `dedup_sorted_xorbs`. -/
def dedupSortedXorbs (xorbs : List XorbHash) : List XorbHash :=
  (xorbs.insertionSort (fun x y => x.bytes ≤ y.bytes)).dedup

/-- `xorb_frame_layouts`. -/
def xorbFrameLayouts (db : Db) (xorbs : List XorbHash) :
    CoreResult (XorbHash → Option (List XorbFrameRow)) :=
  if xorbs.isEmpty then .ok (fun _ => none)
  else do
    let uniq := dedupSortedXorbs xorbs
    b.bindParams "select frame layouts" uniq.length
    .ok (db.xorbFrameLayouts uniq)

/-- `get_owner_quota`. -/
def getOwnerQuota (db : Db) (owner : String) : CoreResult (Option Nat) := do
  b.bindTexts "get_owner_quota" [owner]
  db.getOwnerQuota owner

/-- `SELECT SUM(total_bytes) FROM files WHERE p`. -/
def rawBytes (db : Db) (label : String) (p : FileRow → Bool) : CoreResult Nat :=
  b.aggregate label label ((db.files.filter p).map (fun f => f.totalBytes))

/-- `SELECT SUM(num_bytes_on_disk) FROM xorbs WHERE p hash`. -/
def storedBytes (db : Db) (label what : String) (p : XorbHash → Bool) : CoreResult Nat :=
  b.aggregate label what
    ((db.xorbs.filter (fun r => p r.info.xorb)).map (fun r => (r.info.numBytesOnDisk.toNat : Int)))

/-- `raw_bytes_for_owner`. -/
def rawBytesForOwner (db : Db) (owner : String) : CoreResult Nat := do
  b.bindTexts "raw_bytes_for_owner" [owner]
  b.rawBytes db "raw_bytes_for_owner" (fun f => decide (f.owner = owner))

/-- `raw_bytes_for_repo`. -/
def rawBytesForRepo (db : Db) (repoId : String) : CoreResult Nat := do
  b.bindTexts "raw_bytes_for_repo" [repoId]
  b.rawBytes db "raw_bytes_for_repo" (fun f => decide (f.repo.repoId = repoId))

/-- `stored_bytes_for_owner`. -/
def storedBytesForOwner (db : Db) (owner : String) : CoreResult Nat := do
  b.bindTexts "stored_bytes_for_owner" [owner]
  b.storedBytes db "stored_bytes_for_owner" "stored_bytes_for_owner"
    (fun x => decide (x ∈ db.xorbsOfOwner owner))

/-- `stored_bytes_for_repo`. -/
def storedBytesForRepo (db : Db) (repoId : String) : CoreResult Nat := do
  b.bindTexts "stored_bytes_for_repo" [repoId]
  b.storedBytes db "stored_bytes_for_repo" "stored_bytes_for_repo"
    (fun x => decide (x ∈ db.xorbsOfRepo repoId))

/-- `exclusive_stored_bytes_for_repo`. -/
def exclusiveStoredBytesForRepo (db : Db) (repoId : String) : CoreResult Nat := do
  b.bindTexts "exclusive_stored_bytes_for_repo" [repoId, ownerOfRepoId repoId, repoId]
  b.storedBytes db "exclusive_stored_bytes_for_repo" "exclusive_stored_bytes_for_repo"
    (fun x => decide (x ∈ db.xorbsOfRepo repoId) && decide (x ∉ db.xorbsOfSiblings repoId))

/-- `unaccounted_xorb_bytes_for_owner`. -/
def unaccountedXorbBytesForOwner (db : Db) (owner : String) (candidates : List XorbHash) :
    CoreResult Nat :=
  if candidates.isEmpty then .ok 0
  else do
    let uniq := dedupSortedXorbs candidates
    b.bindParams "unaccounted_xorb_bytes" (uniq.length + 1)
    b.bindTexts "unaccounted_xorb_bytes" [owner]
    b.storedBytes db "unaccounted_xorb_bytes" "unaccounted_xorb_bytes_for_owner"
      (fun x => decide (x ∈ uniq) && decide (x ∉ db.xorbsOfOwner owner))

end Backend

/-! ## Operations -/

/-- The operations of `MetadataStore` that write. -/
inductive MetaWrite where
  | registerXorb (xorb : XorbInfo) (chunks : List ChunkRow)
  | registerFile (fileHash : FileHash) (repo : RepoRef) (terms : List FileTerm)
  | registerFiles (repo : RepoRef) (files : List (FileHash × List FileTerm))
  | registerXorbLayout (xorb : XorbHash) (frames : List XorbFrameRow)
  | setOwnerQuota (owner : String) (limitBytes : Option UInt64)

/-- The operations that only read. -/
inductive MetaQuery where
  | xorbExists (xorb : XorbHash)
  | fileInRepo (fileHash : FileHash) (repoId : String)
  | lookupFile (fileHash : FileHash)
  | xorbFrameLayout (xorb : XorbHash)
  | xorbFrameLayouts (xorbs : List XorbHash)
  | xorbsNearChunk (chunkHash : ChunkHash) (limit : Nat)
  | xorbChunkOffsets (xorb : XorbHash)
  | rawBytesForOwner (owner : String)
  | storedBytesForOwner (owner : String)
  | getOwnerQuota (owner : String)
  | unaccountedXorbBytesForOwner (owner : String) (candidates : List XorbHash)
  | rawBytesForRepo (repoId : String)
  | storedBytesForRepo (repoId : String)
  | exclusiveStoredBytesForRepo (repoId : String)

inductive MetaOp where
  | write (w : MetaWrite)
  | query (q : MetaQuery)

/-- What an operation returns. -/
inductive MetaValue where
  | unit
  | bool (v : Bool)
  | terms (v : Option (List FileTerm))
  | frames (v : List XorbFrameRow)
  | layouts (v : XorbHash → Option (List XorbFrameRow))
  | xorbs (v : List XorbInfo)
  | chunks (v : List ChunkRow)
  | bytes (v : Nat)
  | quota (v : Option Nat)

/-- What an engine decides on its own in a query. -/
structure Choices where
  file : List FileRow → Option FileRow
  chunk : List ChunkTableRow → Option ChunkTableRow
  order : List ChunkTableRow → List ChunkTableRow
  file_limitOne : LimitOne file
  chunk_limitOne : LimitOneChunk chunk
  order_byIndex : OrderByIndex order

namespace Backend

variable (b : Backend)

def write (clock : Nat → Int) (db : Db) : MetaWrite → CoreResult Db
  | .registerXorb xorb chunks => b.registerXorb clock db xorb chunks
  | .registerFile h repo terms => b.registerFile clock db h repo terms
  | .registerFiles repo files => b.registerFiles clock db repo files
  | .registerXorbLayout xorb frames => b.registerXorbLayout db xorb frames
  | .setOwnerQuota owner limitBytes => b.setOwnerQuota db owner limitBytes

def query (c : Choices) (db : Db) : MetaQuery → CoreResult MetaValue
  | .xorbExists x => .ok (.bool (xorbExists db x))
  | .fileInRepo h repoId => (b.fileInRepo db h repoId).map .bool
  | .lookupFile h => (db.lookupFile c.file h).map .terms
  | .xorbFrameLayout x => .ok (.frames (db.xorbFrameLayout x))
  | .xorbFrameLayouts xorbs => (b.xorbFrameLayouts db xorbs).map .layouts
  | .xorbsNearChunk h limit => (db.xorbsNearChunk c.chunk h limit).map .xorbs
  | .xorbChunkOffsets x => .ok (.chunks (db.xorbChunkOffsets c.order x))
  | .rawBytesForOwner owner => (b.rawBytesForOwner db owner).map .bytes
  | .storedBytesForOwner owner => (b.storedBytesForOwner db owner).map .bytes
  | .getOwnerQuota owner => (b.getOwnerQuota db owner).map .quota
  | .unaccountedXorbBytesForOwner owner candidates =>
    (b.unaccountedXorbBytesForOwner db owner candidates).map .bytes
  | .rawBytesForRepo repoId => (b.rawBytesForRepo db repoId).map .bytes
  | .storedBytesForRepo repoId => (b.storedBytesForRepo db repoId).map .bytes
  | .exclusiveStoredBytesForRepo repoId => (b.exclusiveStoredBytesForRepo db repoId).map .bytes

/-- The tables after an operation; a transaction that fails is rolled back. -/
def next (clock : Nat → Int) (db : Db) : MetaOp → Db
  | .write w =>
    match b.write clock db w with
    | .ok db' => db'
    | .error _ => db
  | .query _ => db

/-- What an operation returns. -/
def reply (clock : Nat → Int) (c : Choices) (db : Db) : MetaOp → CoreResult MetaValue
  | .write w => (b.write clock db w).map (fun _ => .unit)
  | .query q => b.query c db q

/-- The possible results of an operation. -/
def MayReturn (db : Db) (op : MetaOp) (r : CoreResult MetaValue) : Prop :=
  ∃ clock c, b.reply clock c db op = r

end Backend

/-- An operation, and the clock of each of the two stores while it runs. -/
structure MetaAct where
  op : MetaOp
  clock : Backend → Nat → Int

/-- The tables of a store that started empty. -/
def Backend.after (b : Backend) (acts : List MetaAct) : Db :=
  acts.foldl (fun db a => b.next (a.clock b) db a.op) Db.empty

end BaleForGit.Server
