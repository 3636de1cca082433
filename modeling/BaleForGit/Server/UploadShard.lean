import Mathlib.Algebra.Order.BigOperators.Group.List
import Mathlib.Algebra.Order.Ring.Nat
import BaleForGit.Library.Results
import BaleForGit.Server.Shard
import BaleForGit.Server.UploadXorb

set_option autoImplicit false

/-! # Uploading a shard (`upload_shard`)

A shard upload checks that every xorb it names is there, registers the xorbs of its CAS blocks,
checks the quota, builds the term lists, keeps the shard and registers its files. Each stage can
reject the request; what earlier stages have written stays. `uploadShard` therefore returns the
state with the answer. -/

namespace BaleForGit.Server

structure ShardRequest where
  repo : RepoRef
  body : List UInt8
  now : Int
deriving DecidableEq

/-- `{:?}` of a hash: plain lowercase hex. -/
def Hash32.debug (h : Hash32) : String :=
  String.ofList (h.bytes.flatMap (fun b =>
    [Nat.digitChar (b.toNat / 16), Nat.digitChar (b.toNat % 16)]))

def missingXorb (x : XorbHash) : ApiError := badReq ("shard references missing xorb " ++ x.debug)

section Upload

variable (svc : Service)

/-- The checks on one term of a declared file. -/
def checkEntry (st : ServerState) (e : FileTermEntry) : Except ApiError Unit :=
  if (st.blobs e.xorb).isNone then .error (missingXorb e.xorb)
  else if e.chunkIdxStart ≥ e.chunkIdxEnd then
    .error (badReq ("shard file term has empty/inverted chunk range [" ++
      toString e.chunkIdxStart ++ ", " ++ toString e.chunkIdxEnd ++ ")"))
  else .ok ()

/-- Size, format and references. -/
def checkShard (st : ServerState) (body : List UInt8) : Except ApiError ParsedShard := do
  if body.length > maxBodyBytes then .error (badReq "shard exceeds 64 MiB limit")
  else
    let parsed ← (parse body).mapError (fun e => badReq ("malformed shard: " ++ e.display))
    parsed.casBlocks.forM (fun cb =>
      if (st.blobs cb.xorb).isNone then .error (missingXorb cb.xorb) else .ok ())
    parsed.files.forM (fun f => f.entries.forM (checkEntry st))
    return parsed

/-- The `xorbs` row of a CAS block: its size on disk is that of the stored frames, if there are
    any. -/
def casBlockInfo (layouts : XorbHash → Option (List XorbFrameRow)) (cb : ParsedCasBlock) :
    XorbInfo :=
  let derived := match layouts cb.xorb with
    | some frames => (frames.map (fun f => f.onDiskLen)).foldl (· + ·) 0
    | none => 0
  ⟨cb.xorb, UInt32.ofNat cb.chunks.length, cb.numBytesInCas,
    if derived > 0 then derived else cb.numBytesOnDisk⟩

def casBlockRows (cb : ParsedCasBlock) : List ChunkRow :=
  cb.chunks.zipIdx.map (fun ci =>
    ⟨ci.1.chunkHash, UInt32.ofNat ci.2, ci.1.byteStart, ci.1.unpackedSegmentBytes⟩)

/-- Register the xorbs of the CAS blocks. -/
def registerCasBlocks (db : Db) (blocks : List ParsedCasBlock) (now : Int) : Db :=
  let layouts := db.xorbFrameLayouts (blocks.map (fun cb => cb.xorb))
  blocks.foldl (fun d cb => d.registerXorb (casBlockInfo layouts cb) (casBlockRows cb) now) db

/-- The quota check, charging the xorbs the owner does not refer to yet. -/
def checkShardQuota (db : Db) (owner : String) (files : List ParsedFile) :
    Except ApiError Unit := do
  match ← effectiveQuota db svc.defaultQuotaBytes owner with
  | none => .ok ()
  | some quota =>
    let candidates := files.flatMap (fun f => f.entries.map (fun e => e.xorb))
    let used ← (db.storedBytesForOwner owner).mapError ApiError.ofCore
    let delta ← (db.unaccountedXorbBytesForOwner owner candidates).mapError ApiError.ofCore
    if saturatingAdd used delta > quota then .error (quotaExceeded owner used quota delta)
    else .ok ()

/-- The term list of a declared file. -/
def fileTerms (f : ParsedFile) : Except ApiError (FileHash × List FileTerm) :=
  if f.verifications ≠ [] ∧ f.verifications.length ≠ f.entries.length then
    .error (badReq "shard has verification entries but count != term count")
  else
    .ok (f.fileHash, f.entries.zipIdx.map (fun ei =>
      ⟨ei.1.xorb, ei.1.chunkIdxStart, ei.1.chunkIdxEnd, ei.1.unpackedSegmentBytes,
        f.verifications[ei.2]?⟩))

/-- The files that a shard registers. -/
def filesToRegister (parsed : ParsedShard) : Except ApiError (List (FileHash × List FileTerm)) :=
  parsed.files.mapM fileTerms

/-- `put_shard`: a shard that is already there stays. -/
def ServerState.putShard (st : ServerState) (h : ShardHash) (body : List UInt8) : ServerState :=
  { st with shards := fun k => if k = h then (st.shards k).or (some body) else st.shards k }

/-- `upload_shard`. -/
def uploadShard (st : ServerState) (r : ShardRequest) : ServerState × Except ApiError Unit :=
  match checkShard st r.body with
  | .error e => (st, .error e)
  | .ok parsed =>
    let st₁ := { st with db := registerCasBlocks st.db parsed.casBlocks r.now }
    match checkShardQuota svc st₁.db r.repo.owner parsed.files with
    | .error e => (st₁, .error e)
    | .ok _ =>
      match filesToRegister parsed with
      | .error e => (st₁, .error e)
      | .ok files =>
        let st₂ := st₁.putShard (svc.codec.blake3 r.body) r.body
        ({ st₂ with db := st₂.db.registerFiles r.repo files r.now }, .ok ())

/-- An accepted upload. -/
inductive ServerAct where
  | xorb (r : XorbRequest)
  | shard (r : ShardRequest)

/-- The state after an accepted upload; `none` when it is not accepted. -/
def serverStep (st : ServerState) (a : ServerAct) : Option ServerState :=
  match a with
  | .xorb r =>
    match uploadXorb svc st r with
    | .ok (st', _) => some st'
    | .error _ => none
  | .shard r =>
    match uploadShard svc st r with
    | (st', .ok _) => some st'
    | (_, .error _) => none

/-! ## What a shard declares -/

/-- The files that an accepted shard registers. -/
def ShardRequest.files (r : ShardRequest) : List (FileHash × List FileTerm) :=
  match parse r.body with
  | .error _ => []
  | .ok parsed =>
    match filesToRegister parsed with
    | .error _ => []
    | .ok files => files

theorem fileTerms_length {f : ParsedFile} {h : FileHash} {terms : List FileTerm}
    (hf : fileTerms f = .ok (h, terms)) : terms.length = f.entries.length := by
  unfold fileTerms at hf
  split_ifs at hf with hcount
  rw [Except.ok.injEq, Prod.mk.injEq] at hf
  rw [← hf.2]
  simp

/-- The xorbs of the registered lists are those of the shard's entries. -/
theorem filesToRegister_xorb {parsed : ParsedShard} {files : List (FileHash × List FileTerm)}
    (hfiles : filesToRegister parsed = .ok files) {f : FileHash × List FileTerm} (hf : f ∈ files)
    {t : FileTerm} (ht : t ∈ f.2) :
    ∃ p ∈ parsed.files, ∃ e ∈ p.entries, t.xorb = e.xorb ∧ t.chunkIdxStart = e.chunkIdxStart ∧
      t.chunkIdxEnd = e.chunkIdxEnd := by
  obtain ⟨p, hp, hterms⟩ := Results.exists_of_mem_mapM hfiles hf
  unfold fileTerms at hterms
  split_ifs at hterms with hcount
  rw [Except.ok.injEq] at hterms
  subst hterms
  obtain ⟨ei, hei, rfl⟩ := List.mem_map.1 ht
  exact ⟨p, hp, ei.1, (List.mem_zipIdx' hei).2 ▸ List.getElem_mem _, rfl, rfl, rfl⟩

/-- A shard is too small for a total that does not fit an `i64`. -/
theorem unpackedSum_lt {terms : List FileTerm} (hlen : terms.length * entrySize ≤ maxShardBytes) :
    (terms.map (fun t => t.unpackedSegmentBytes.toNat)).sum < 9223372036854775808 := by
  have hsum : (terms.map (fun t => t.unpackedSegmentBytes.toNat)).sum ≤
      terms.length * 4294967295 := by
    have hle := List.sum_le_card_nsmul (terms.map (fun t => t.unpackedSegmentBytes.toNat))
      4294967295 (fun n hn => by
        obtain ⟨t, -, rfl⟩ := List.mem_map.1 hn
        have hlt := t.unpackedSegmentBytes.toNat_lt
        omega)
    simpa using hle
  unfold entrySize maxShardBytes at hlen
  omega

/-- **The totals of declared lists are sums without overflow.** -/
theorem files_termSum (r : ShardRequest) : ∀ f ∈ r.files,
    termSum f.2 = (f.2.map (fun t => t.unpackedSegmentBytes.toNat)).sum ∧
      termSum f.2 < 9223372036854775808 := by
  intro f hf
  unfold ShardRequest.files at hf
  cases hparse : parse r.body with
  | error e => simp [hparse] at hf
  | ok parsed =>
      cases hfiles : filesToRegister parsed with
      | error e => simp [hparse, hfiles] at hf
      | ok files =>
          simp only [hparse, hfiles] at hf
          obtain ⟨p, hp, hterms⟩ := Results.exists_of_mem_mapM hfiles hf
          have hlen := parse_entries hparse p hp
          rw [← fileTerms_length hterms] at hlen
          have hsum := unpackedSum_lt hlen
          unfold termSum
          omega

theorem files_termSum_lt (r : ShardRequest) :
    ∀ f ∈ r.files, termSum f.2 < 9223372036854775808 :=
  fun f hf => (files_termSum r f hf).2

/-! ## What an upload does to files and terms -/

/-- The tables that CAS blocks do not touch. -/
theorem registerCasBlocks_frame (db : Db) (blocks : List ParsedCasBlock) (now : Int) :
    (registerCasBlocks db blocks now).files = db.files ∧
      (registerCasBlocks db blocks now).fileTerms = db.fileTerms ∧
      (registerCasBlocks db blocks now).xorbFrames = db.xorbFrames ∧
      (registerCasBlocks db blocks now).ownerQuotas = db.ownerQuotas := by
  unfold registerCasBlocks
  simp only
  generalize db.xorbFrameLayouts (blocks.map (fun cb => cb.xorb)) = layouts
  induction blocks generalizing db with
  | nil => exact ⟨rfl, rfl, rfl, rfl⟩
  | cons cb blocks ih =>
      rw [List.foldl_cons]
      exact ih (db.registerXorb (casBlockInfo layouts cb) (casBlockRows cb) now)

/-- What the checks on a shard say: it parses, its xorbs have blobs, and its ranges are not empty. -/
theorem checkShard_ok {st : ServerState} {body : List UInt8} {parsed : ParsedShard}
    (h : checkShard st body = .ok parsed) :
    parse body = .ok parsed ∧ (∀ cb ∈ parsed.casBlocks, st.blobs cb.xorb ≠ none) ∧
      ∀ f ∈ parsed.files, ∀ e ∈ f.entries,
        st.blobs e.xorb ≠ none ∧ e.chunkIdxStart < e.chunkIdxEnd := by
  unfold checkShard at h
  split_ifs at h with hsize
  cases hp : parse body with
  | error e => simp [hp, Except.mapError, bind, Except.bind] at h
  | ok got =>
      simp only [hp, Except.mapError, bind, Except.bind] at h
      split at h
      · simp at h
      · next hblocks =>
          split at h
          · simp at h
          · next hfiles =>
              simp only [pure, Except.pure, Except.ok.injEq] at h
              subst h
              refine ⟨rfl, fun cb hcb => ?_, fun f hf e he => ?_⟩
              · have hone := Results.forM_eq_ok.1 hblocks cb hcb
                split_ifs at hone with hnone
                intro hblob
                exact hnone (by rw [hblob]; rfl)
              · have hone := Results.forM_eq_ok.1 (Results.forM_eq_ok.1 hfiles f hf) e he
                unfold checkEntry at hone
                split_ifs at hone with hnone hrange
                refine ⟨fun hblob => hnone (by rw [hblob]; rfl), ?_⟩
                exact UInt32.not_le.1 hrange

/-- **An accepted shard upload registers the files its body declares**, and that is all it does to
    files and terms. -/
theorem uploadShard_tables {st st' : ServerState} {r : ShardRequest}
    (h : uploadShard svc st r = (st', .ok ())) :
    ∃ parsed files, parse r.body = .ok parsed ∧ filesToRegister parsed = .ok files ∧
      ∃ db : Db, db.files = st.db.files ∧ db.fileTerms = st.db.fileTerms ∧
        st'.db = db.registerFiles r.repo files r.now := by
  unfold uploadShard at h
  cases hcheck : checkShard st r.body with
  | error e => simp [hcheck] at h
  | ok parsed =>
      have hparse := (checkShard_ok hcheck).1
      simp only [hcheck] at h
      split at h
      · simp at h
      · split at h
        · simp at h
        · next files hfiles =>
            simp only [Prod.mk.injEq, and_true] at h
            subst h
            obtain ⟨hf, ht, -, -⟩ := registerCasBlocks_frame st.db parsed.casBlocks r.now
            exact ⟨parsed, files, hparse, hfiles, registerCasBlocks st.db parsed.casBlocks r.now,
              hf, ht, rfl⟩

end Upload

end BaleForGit.Server
