import Mathlib.Algebra.Ring.Int.Defs
import BaleForGit.Server.Requests

set_option autoImplicit false

/-! # Accounted bytes

The usage queries of `MetadataStore`. Raw bytes add up the totals of `files` rows; stored bytes add
up the sizes on disk of the distinct xorbs that the terms of some files refer to, as far as they
have a row in `xorbs`. All of the latter are `diskBytes` of a set of xorbs.

Uploads only add rows to `xorbs`: `newBytes` is what the CAS blocks of a shard add to such a sum. -/

namespace BaleForGit.Server

/-! ## Queries -/

/-- `COALESCE(SUM(..), 0)` over signed values, read back by `nonneg_i64_to_u64`. -/
def sumSigned (label : String) (ns : List Int) : CoreResult Nat :=
  if -9223372036854775808 ≤ ns.sum ∧ ns.sum < 9223372036854775808 then nonnegI64ToU64 ns.sum label
  else .error (.internal (label ++ ": integer overflow"))

/-- What stands before the first `/` of a `repo_id`, or all of it. -/
def ownerOfRepoId (repoId : String) : String :=
  String.ofList (repoId.toList.takeWhile (fun c => c ≠ '/'))

/-- The size on disk of a `xorbs` row. -/
def XorbRow.diskSize (r : XorbRow) : Nat := r.info.numBytesOnDisk.toNat

namespace Db

variable (db : Db)

/-- `SELECT DISTINCT ft.xorb_hash FROM file_terms ft JOIN files f .. WHERE p f`. -/
def xorbsWhere (p : FileRow → Bool) : List XorbHash :=
  (db.fileTerms.filter (fun t => db.files.any (fun f =>
    decide (f.fileHash = t.fileHash) && p f))).map (fun t => t.term.xorb)

def xorbsOfRepo (repoId : String) : List XorbHash :=
  db.xorbsWhere (fun f => decide (f.repo.repoId = repoId))

/-- The xorbs that the other repositories of the owner refer to. -/
def xorbsOfSiblings (repoId : String) : List XorbHash :=
  db.xorbsWhere (fun f => decide (f.owner = ownerOfRepoId repoId) &&
    decide (f.repo.repoId ≠ repoId))

/-- The sizes on disk of the xorbs in a set. -/
def diskBytes (p : XorbHash → Bool) : Nat :=
  Table.sumOn XorbRow.diskSize (fun r => p r.info.xorb) db.xorbs

/-- `raw_bytes_for_owner`. -/
def rawBytesForOwner (owner : String) : CoreResult Nat :=
  sumSigned "raw_bytes_for_owner"
    ((db.files.filter (fun f => decide (f.owner = owner))).map (fun f => f.totalBytes))

/-- `raw_bytes_for_repo`. -/
def rawBytesForRepo (repoId : String) : CoreResult Nat :=
  sumSigned "raw_bytes_for_repo"
    ((db.files.filter (fun f => decide (f.repo.repoId = repoId))).map (fun f => f.totalBytes))

/-- `stored_bytes_for_repo`. -/
def storedBytesForRepo (repoId : String) : CoreResult Nat :=
  sumI64 "stored_bytes_for_repo"
    ((db.xorbs.filter (fun r => decide (r.info.xorb ∈ db.xorbsOfRepo repoId))).map
      (fun r => r.info.numBytesOnDisk.toNat))

/-- `exclusive_stored_bytes_for_repo`. -/
def exclusiveStoredBytesForRepo (repoId : String) : CoreResult Nat :=
  sumI64 "exclusive_stored_bytes_for_repo"
    ((db.xorbs.filter (fun r => decide (r.info.xorb ∈ db.xorbsOfRepo repoId) &&
      decide (r.info.xorb ∉ db.xorbsOfSiblings repoId))).map
        (fun r => r.info.numBytesOnDisk.toNat))

/-! ## Sums as results -/

/-- The bytes that `stored_bytes_for_owner` adds up. -/
def ownerBytes (owner : String) : Nat := db.diskBytes (fun x => decide (x ∈ db.xorbsOfOwner owner))

/-- The bytes of the xorbs in a list that the owner does not refer to yet. -/
def unaccountedBytes (owner : String) (xorbs : List XorbHash) : Nat :=
  db.diskBytes (fun x => decide (x ∈ xorbs) && decide (x ∉ db.xorbsOfOwner owner))

theorem storedBytesForOwner_eq (owner : String) :
    db.storedBytesForOwner owner = if db.ownerBytes owner < 9223372036854775808
      then .ok (db.ownerBytes owner)
      else .error (.internal ("stored_bytes_for_owner" ++ ": integer overflow")) := rfl

end Db

theorem sumI64_ok {label : String} {ns : List Nat} {n : Nat} :
    sumI64 label ns = .ok n ↔ ns.sum < 9223372036854775808 ∧ ns.sum = n := by
  unfold sumI64
  split_ifs with hlt
  · simp [hlt]
  · simp [hlt]

theorem unaccountedXorbBytesForOwner_iff {db : Db} {owner : String} {xorbs : List XorbHash}
    {n : Nat} : db.unaccountedXorbBytesForOwner owner xorbs = .ok n ↔
      db.unaccountedBytes owner xorbs < 9223372036854775808 ∧
        db.unaccountedBytes owner xorbs = n := by
  unfold Db.unaccountedXorbBytesForOwner
  split_ifs with hempty
  · have hzero : db.unaccountedBytes owner xorbs = 0 := by
      rw [List.isEmpty_iff.1 hempty]
      unfold Db.unaccountedBytes Db.diskBytes
      rw [Table.sumOn_eq_zero]
      simp
    rw [hzero, Except.ok.injEq]
    omega
  · exact sumI64_ok

/-- Two sums answer the same when they are equal or both overflow. -/
theorem sumI64_eq_iff {label : String} {ms ns : List Nat} :
    sumI64 label ms = sumI64 label ns ↔
      ms.sum = ns.sum ∨ (9223372036854775808 ≤ ms.sum ∧ 9223372036854775808 ≤ ns.sum) := by
  unfold sumI64
  split_ifs with hm hn hn
  · rw [Except.ok.injEq]
    omega
  · simp only [false_iff]
    omega
  · simp only [false_iff]
    omega
  · simp only [true_iff]
    omega

theorem mem_xorbsWhere {db : Db} {p : FileRow → Bool} {x : XorbHash} :
    x ∈ db.xorbsWhere p ↔ ∃ t ∈ db.fileTerms, t.term.xorb = x ∧
      ∃ f ∈ db.files, f.fileHash = t.fileHash ∧ p f = true := by
  simp only [Db.xorbsWhere, List.mem_map, List.mem_filter, List.any_eq_true, Bool.and_eq_true,
    decide_eq_true_eq]
  constructor
  · rintro ⟨t, ⟨ht, hf⟩, hx⟩
    exact ⟨t, ht, hx, hf⟩
  · rintro ⟨t, ht, hx, hf⟩
    exact ⟨t, ⟨ht, hf⟩, hx⟩

theorem mem_xorbsOfOwner {db : Db} {owner : String} {x : XorbHash} :
    x ∈ db.xorbsOfOwner owner ↔ ∃ t ∈ db.fileTerms, t.term.xorb = x ∧
      ∃ f ∈ db.files, f.fileHash = t.fileHash ∧ f.owner = owner := by
  have hsame : db.xorbsOfOwner owner = db.xorbsWhere (fun f => decide (f.owner = owner)) := rfl
  rw [hsame, mem_xorbsWhere]
  simp only [decide_eq_true_eq]

/-! ## What uploads add -/

/-- The `xorbs` rows of CAS blocks. -/
def casRows (db : Db) (blocks : List ParsedCasBlock) (now : Int) : List XorbRow :=
  blocks.map (fun cb => ⟨casBlockInfo (db.xorbFrameLayouts (blocks.map (fun cb => cb.xorb))) cb, now⟩)

/-- The bytes of the rows that CAS blocks add for xorbs of a set. -/
def newBytes (db : Db) (blocks : List ParsedCasBlock) (now : Int) (p : XorbHash → Bool) : Nat :=
  Table.sumOn XorbRow.diskSize (fun r => p r.info.xorb)
    (Table.fresh XorbRow.key db.xorbs (casRows db blocks now))

section Effects

variable (db : Db)

theorem registerCasBlocks_xorbs (blocks : List ParsedCasBlock) (now : Int) :
    (registerCasBlocks db blocks now).xorbs =
      Table.insertAll XorbRow.key db.xorbs (casRows db blocks now) := by
  unfold registerCasBlocks casRows
  simp only
  generalize db.xorbFrameLayouts (blocks.map (fun cb => cb.xorb)) = layouts
  induction blocks generalizing db with
  | nil => rfl
  | cons cb blocks ih =>
      rw [List.foldl_cons, ih, List.map_cons, Table.insertAll_cons]
      rfl

/-- The `chunks` rows of CAS blocks. -/
def casChunkRows (blocks : List ParsedCasBlock) : List ChunkTableRow :=
  blocks.flatMap (fun cb => (casBlockRows cb).map (fun c => ⟨cb.xorb, c⟩))

theorem registerCasBlocks_chunks (blocks : List ParsedCasBlock) (now : Int) :
    (registerCasBlocks db blocks now).chunks =
      Table.insertAll ChunkTableRow.key db.chunks (casChunkRows blocks) := by
  unfold registerCasBlocks casChunkRows
  simp only
  generalize db.xorbFrameLayouts (blocks.map (fun cb => cb.xorb)) = layouts
  induction blocks generalizing db with
  | nil => rfl
  | cons cb blocks ih =>
      rw [List.foldl_cons, ih, List.flatMap_cons, Table.insertAll_append]
      simp only [Db.registerXorb, insertAll_batches, casBlockInfo]

/-- **CAS blocks add the bytes of their fresh rows** to the sum over a fixed set of xorbs. -/
theorem diskBytes_registerCasBlocks (blocks : List ParsedCasBlock) (now : Int)
    (p : XorbHash → Bool) :
    (registerCasBlocks db blocks now).diskBytes p = db.diskBytes p + newBytes db blocks now p := by
  unfold Db.diskBytes newBytes
  rw [registerCasBlocks_xorbs, Table.insertAll_eq_append_fresh, Table.sumOn_append]

theorem xorbsWhere_congr {db db' : Db} (hfiles : db'.files = db.files)
    (hterms : db'.fileTerms = db.fileTerms) (p : FileRow → Bool) :
    db'.xorbsWhere p = db.xorbsWhere p := by
  unfold Db.xorbsWhere
  rw [hfiles, hterms]

theorem xorbsOfOwner_congr {db db' : Db} (hfiles : db'.files = db.files)
    (hterms : db'.fileTerms = db.fileTerms) (owner : String) :
    db'.xorbsOfOwner owner = db.xorbsOfOwner owner :=
  xorbsWhere_congr hfiles hterms _

/-- What CAS blocks add to the bytes of an owner. -/
theorem ownerBytes_registerCasBlocks (blocks : List ParsedCasBlock) (now : Int) (owner : String) :
    (registerCasBlocks db blocks now).ownerBytes owner = db.ownerBytes owner +
      newBytes db blocks now (fun x => decide (x ∈ db.xorbsOfOwner owner)) := by
  obtain ⟨hfiles, hterms, -, -⟩ := registerCasBlocks_frame db blocks now
  unfold Db.ownerBytes
  rw [xorbsOfOwner_congr hfiles hterms, diskBytes_registerCasBlocks]

/-- One file touches `files` and `file_terms` only. -/
theorem writeFileInTx_frame (h : FileHash) (repo : RepoRef) (terms : List FileTerm) (now : Int) :
    (db.writeFileInTx h repo terms now).xorbs = db.xorbs ∧
      (db.writeFileInTx h repo terms now).chunks = db.chunks ∧
      (db.writeFileInTx h repo terms now).xorbFrames = db.xorbFrames ∧
      (db.writeFileInTx h repo terms now).ownerQuotas = db.ownerQuotas := by
  unfold Db.writeFileInTx
  simp only
  split_ifs <;> exact ⟨rfl, rfl, rfl, rfl⟩

theorem registerFiles_frame (repo : RepoRef) (files : List (FileHash × List FileTerm)) (now : Int) :
    (db.registerFiles repo files now).xorbs = db.xorbs ∧
      (db.registerFiles repo files now).chunks = db.chunks ∧
      (db.registerFiles repo files now).xorbFrames = db.xorbFrames ∧
      (db.registerFiles repo files now).ownerQuotas = db.ownerQuotas := by
  induction files generalizing db with
  | nil => exact ⟨rfl, rfl, rfl, rfl⟩
  | cons f files ih =>
      obtain ⟨hxorbs, hchunks, hframes, hquotas⟩ := writeFileInTx_frame db f.1 repo f.2 now
      have hrest := ih (db.writeFileInTx f.1 repo f.2 now)
      rw [hxorbs, hchunks, hframes, hquotas] at hrest
      exact hrest

end Effects

end BaleForGit.Server
