import BaleForGit.Library.Traced
import BaleForGit.Server.BackendsAgree
import BaleForGit.Server.Reads
import BaleForGit.Server.ShardCodec
import BaleForGit.Server.UploadShard
import BaleForGit.Server.Usage

set_option autoImplicit false

/-! # The statements that requests lead to

A statement may bind `maxParams` values. Rows are inserted in batches for that reason; the lists of
xorbs in `xorb_frame_layouts` and `unaccounted_xorb_bytes_for_owner` are not, and come from the
request or from the terms of a file. The handlers are written here once more, on a store that
reports, for each statement it builds, how many values it binds. -/

namespace BaleForGit.Server

/-! ## Statements of the store -/

/-- What a handler does on the store: the number of values that each of its statements binds, and
    its answer. -/
abbrev OnStore (α : Type) := Traced Nat ApiError α

namespace OnStore

/-- An operation of the store. -/
def run {α : Type} (binds : List Nat) (answer : CoreResult α) : OnStore α :=
  ⟨binds, answer.mapError ApiError.ofCore⟩

/-- Whatever the handler does besides. -/
def check {α : Type} (answer : Except ApiError α) : OnStore α := Traced.lift answer

end OnStore

/-- The inserts of some rows. -/
def insertBinds {α : Type} (width : Nat) (rows : List α) : List Nat :=
  (batches rows).map (fun batch => width * batch.length)

namespace Backend

variable (b : Backend)

/-- `SELECT pg_advisory_xact_lock($1)`. -/
def lockBinds : List Nat :=
  match b with
  | .sqlite => []
  | .postgres => [1]

def runGetOwnerQuota (db : Db) (owner : String) : OnStore (Option Nat) :=
  .run [1] (b.getOwnerQuota db owner)

def runStoredBytesForOwner (db : Db) (owner : String) : OnStore Nat :=
  .run [1] (b.storedBytesForOwner db owner)

def runUnaccountedXorbBytesForOwner (db : Db) (owner : String) (candidates : List XorbHash) :
    OnStore Nat :=
  .run (if candidates.isEmpty then [] else [(dedupSortedXorbs candidates).length + 1])
    (b.unaccountedXorbBytesForOwner db owner candidates)

def runXorbFrameLayouts (db : Db) (xorbs : List XorbHash) :
    OnStore (XorbHash → Option (List XorbFrameRow)) :=
  .run (if xorbs.isEmpty then [] else [(dedupSortedXorbs xorbs).length])
    (b.xorbFrameLayouts db xorbs)

def runRegisterXorbLayout (db : Db) (xorb : XorbHash) (frames : List XorbFrameRow) : OnStore Db :=
  .run (if frames.isEmpty then [] else insertBinds 5 frames) (b.registerXorbLayout db xorb frames)

def runRegisterXorb (now : Int) (db : Db) (xorb : XorbInfo) (chunks : List ChunkRow) : OnStore Db :=
  .run (5 :: insertBinds 5 chunks) (b.registerXorb (fun _ => now) db xorb chunks)

/-- `write_file_in_tx`: the file, the lock, the probe, and the terms unless there are some. -/
def runWriteFileInTx (now : Int) (repo : RepoRef) (db : Db) (f : FileHash × List FileTerm) :
    OnStore Db :=
  let answer := b.writeFileInTx db f.1 repo f.2 now
  match b.bindTexts "insert file" [repoTypeText repo.repoType, repo.repoId, repo.revision,
      repo.owner] with
  | .error _ => .run [7] answer
  | .ok _ =>
    .run (7 :: (b.lockBinds ++ 1 :: if termsOf f.1 db.fileTerms ≠ [] then []
      else insertBinds 7 (termRows f.1 f.2))) answer

def runRegisterFiles (now : Int) (repo : RepoRef) (db : Db)
    (files : List (FileHash × List FileTerm)) : OnStore Db :=
  files.foldlM (b.runWriteFileInTx now repo) db

def runFileInRepo (db : Db) (h : FileHash) (repoId : String) : OnStore Bool :=
  .run [2] (b.fileInRepo db h repoId)

/-- `lookup_file`: the terms, and the recorded size if there are any. -/
def runLookupFile (db : Db) (pick : List FileRow → Option FileRow) (h : FileHash) :
    OnStore (Option (List FileTerm)) :=
  .run (if (db.fileTermList h).isEmpty then [1] else [1, 1]) (db.lookupFile pick h)

/-! ## Handlers -/

def runEffectiveQuota (db : Db) (default : Option Nat) (owner : String) : OnStore (Option Nat) := do
  let own ← b.runGetOwnerQuota db owner
  return own.or default

variable (svc : Service)

/-- The size and quota checks of `upload_xorb`. -/
def runCheckXorb (st : ServerState) (r : XorbRequest) : OnStore Unit := do
  OnStore.check (if r.body.length > maxBodyBytes then .error (badReq "xorb exceeds 64 MiB limit")
    else .ok ())
  match ← b.runEffectiveQuota st.db svc.defaultQuotaBytes r.repo.owner with
  | none => return ()
  | some quota =>
    if (st.blobs r.hash).isSome then return ()
    else
      let used ← b.runStoredBytesForOwner st.db r.repo.owner
      OnStore.check (if saturatingAdd used r.body.length > quota then
        .error (quotaExceeded r.repo.owner used quota r.body.length) else .ok ())

/-- `upload_xorb`. -/
def runUploadXorb (st : ServerState) (r : XorbRequest) : OnStore (ServerState × Bool) := do
  b.runCheckXorb svc st r
  let layout ← OnStore.check (parseXorb r)
  OnStore.check (verifyXorb svc r)
  let db ← b.runRegisterXorbLayout st.db r.hash layout
  let st := { st with db := db }
  if (st.blobs r.hash).isSome then return (st, false)
  else return (st.putXorb r.hash r.body, true)

/-- Register the xorbs of the CAS blocks. -/
def runRegisterCasBlocks (db : Db) (blocks : List ParsedCasBlock) (now : Int) : OnStore Db := do
  let layouts ← b.runXorbFrameLayouts db (blocks.map (fun cb => cb.xorb))
  blocks.foldlM (fun d cb =>
    b.runRegisterXorb now d (casBlockInfo layouts cb) (casBlockRows cb)) db

/-- The quota check of `upload_shard`. -/
def runCheckShardQuota (db : Db) (owner : String) (files : List ParsedFile) : OnStore Unit := do
  match ← b.runEffectiveQuota db svc.defaultQuotaBytes owner with
  | none => return ()
  | some quota =>
    let candidates := files.flatMap (fun f => f.entries.map (fun e => e.xorb))
    let used ← b.runStoredBytesForOwner db owner
    let delta ← b.runUnaccountedXorbBytesForOwner db owner candidates
    OnStore.check (if saturatingAdd used delta > quota then
      .error (quotaExceeded owner used quota delta) else .ok ())

/-- `upload_shard`. -/
def runUploadShard (st : ServerState) (r : ShardRequest) : OnStore ServerState := do
  let parsed ← OnStore.check (checkShard st r.body)
  let db ← b.runRegisterCasBlocks st.db parsed.casBlocks r.now
  b.runCheckShardQuota svc db r.repo.owner parsed.files
  let files ← OnStore.check (filesToRegister parsed)
  let st := ({ st with db := db } : ServerState).putShard (svc.codec.blake3 r.body) r.body
  let db ← b.runRegisterFiles r.now r.repo st.db files
  return { st with db := db }

/-- `build_reconstruction_response`. -/
def runBuildReconstructionResponse (db : Db) (pick : List FileRow → Option FileRow)
    (h : FileHash) : OnStore ReconstructionResponse := do
  match ← runLookupFile db pick h with
  | none => OnStore.check (.error fileNotFound)
  | some terms =>
    let layouts ← b.runXorbFrameLayouts db (terms.map (fun t => t.xorb))
    let found ← OnStore.check (terms.mapM (reconstructTerm layouts))
    return ⟨0, found.map Prod.fst, found.map Prod.snd⟩

/-- `get_reconstruction`. -/
def runGetReconstruction (db : Db) (pick : List FileRow → Option FileRow) (repoId : String)
    (h : FileHash) : OnStore ReconstructionResponse := do
  if ← b.runFileInRepo db h repoId then b.runBuildReconstructionResponse db pick h
  else OnStore.check (.error fileNotFound)

/-- `get_file_download`; the stream asks for one layout for each of its items. -/
def runGetFileDownload (access : RepoRef → CoreResult Unit) (st : ServerState)
    (pick : List FileRow → Option FileRow) (repoId : String) (h : FileHash) :
    OnStore Download := do
  let repo ← OnStore.check (parseOwnerName repoId)
  OnStore.check ((access repo).mapError ApiError.ofCore)
  if ← b.runFileInRepo st.db h repo.repoId then
    match ← runLookupFile st.db pick h with
    | none => OnStore.check (.error fileNotFound)
    | some terms =>
      let stream := streamTerms (fetchAndDecompressTerm svc st) terms
      .run (stream.map (fun _ => 1)) (.ok ⟨termSum terms, stream⟩)
  else OnStore.check (.error fileNotFound)

end Backend

/-- The four requests. -/
inductive StoreRequest where
  | uploadXorb (r : XorbRequest)
  | uploadShard (r : ShardRequest)
  | getReconstruction (repoId : String) (h : FileHash)
  | getFileDownload (access : RepoRef → CoreResult Unit) (repoId : String) (h : FileHash)

/-- The values that each statement of a request binds. -/
def statementBinds (b : Backend) (svc : Service) (pick : List FileRow → Option FileRow)
    (st : ServerState) : StoreRequest → List Nat
  | .uploadXorb r => (b.runUploadXorb svc st r).log
  | .uploadShard r => (b.runUploadShard svc st r).log
  | .getReconstruction repoId h => (b.runGetReconstruction st.db pick repoId h).log
  | .getFileDownload access repoId h => (b.runGetFileDownload svc access st pick repoId h).log

/-! ## Which requests stay within the limit -/

/-- How many different xorbs there are in a list. -/
def distinctXorbs (xorbs : List XorbHash) : Nat := xorbs.dedup.length

/-- A quota applies to the owner, and what it stores can be summed up. -/
def Charged (b : Backend) (svc : Service) (db : Db) (owner : String) : Prop :=
  (∃ own, b.getOwnerQuota db owner = .ok own ∧ own.or svc.defaultQuotaBytes ≠ none) ∧
    ∃ used, b.storedBytesForOwner db owner = .ok used

/-- A shard that passes its checks names few xorbs: in its CAS blocks, and in its files if the quota
    is checked. -/
def ShardFits (b : Backend) (svc : Service) (st : ServerState) (r : ShardRequest) : Prop :=
  ∀ parsed, checkShard st r.body = .ok parsed →
    distinctXorbs (parsed.casBlocks.map (fun cb => cb.xorb)) ≤ b.maxParams ∧
      (Charged b svc (registerCasBlocks st.db parsed.casBlocks r.now) r.repo.owner →
        distinctXorbs (parsed.files.flatMap (fun f => f.entries.map (fun e => e.xorb))) + 1 ≤
          b.maxParams)

/-- A file that is looked up refers to few xorbs. -/
def FileFits (b : Backend) (db : Db) (pick : List FileRow → Option FileRow) (repoId : String)
    (h : FileHash) : Prop :=
  b.fileInRepo db h repoId = .ok true → ∀ terms, db.lookupFile pick h = .ok (some terms) →
    distinctXorbs (terms.map (fun t => t.xorb)) ≤ b.maxParams

def StoreRequest.Fits (b : Backend) (svc : Service) (pick : List FileRow → Option FileRow)
    (st : ServerState) : StoreRequest → Prop
  | .uploadXorb _ => True
  | .uploadShard r => ShardFits b svc st r
  | .getReconstruction repoId h => FileFits b st.db pick repoId h
  | .getFileDownload _ _ _ => True

section Operations

variable (b : Backend)

/-- The statements stay within the limit. -/
abbrev Within {α : Type} (x : OnStore α) : Prop := Traced.AllLogged (fun n => n ≤ b.maxParams) x

/-- The rest of a handler runs only after a success. -/
theorem within_bind {b : Backend} {α β : Type} {x : OnStore α} {f : α → OnStore β} :
    Within b (x >>= f) ↔ Within b x ∧ ∀ a, x.result = .ok a → Within b (f a) :=
  Traced.allLogged_bind

theorem within_small {n : Nat} (h : n ≤ 7) : n ≤ b.maxParams := by
  have hmax : 32766 ≤ b.maxParams := by cases b <;> decide
  omega

/-- **A batch of inserts stays within the limit.** -/
theorem insertBinds_le {α : Type} {width : Nat} (hwidth : width ≤ 7) (rows : List α) :
    ∀ n ∈ insertBinds width rows, n ≤ b.maxParams := by
  intro n hn
  obtain ⟨batch, hbatch, rfl⟩ := List.mem_map.1 hn
  obtain ⟨i, -, rfl⟩ := List.mem_map.1 hbatch
  have hlen : ((rows.drop (i * chunkInsertBatch)).take chunkInsertBatch).length ≤ 500 :=
    List.length_take_le ..
  have hmul := Nat.mul_le_mul hwidth hlen
  have hmax : 32766 ≤ b.maxParams := by cases b <;> decide
  omega

theorem length_dedupSortedXorbs (xorbs : List XorbHash) :
    (Backend.dedupSortedXorbs xorbs).length = distinctXorbs xorbs :=
  ((List.perm_insertionSort _ xorbs).dedup).length_eq

theorem within_check {α : Type} (answer : Except ApiError α) : Within b (OnStore.check answer) :=
  Traced.allLogged_lift answer

theorem within_run {α : Type} {binds : List Nat} (h : ∀ n ∈ binds, n ≤ b.maxParams)
    (answer : CoreResult α) : Within b (OnStore.run binds answer) := h

theorem within_one {α : Type} (answer : CoreResult α) : Within b (OnStore.run [1] answer) := by
  refine within_run b (fun n hn => ?_) answer
  rw [List.mem_singleton.1 hn]
  exact within_small b (by decide)

@[simp] theorem run_result {α : Type} (binds : List Nat) (answer : CoreResult α) :
    (OnStore.run binds answer).result = answer.mapError ApiError.ofCore := rfl

@[simp] theorem check_result {α : Type} (answer : Except ApiError α) :
    (OnStore.check answer).result = answer := rfl

theorem within_registerXorbLayout (db : Db) (x : XorbHash) (frames : List XorbFrameRow) :
    Within b (b.runRegisterXorbLayout db x frames) := by
  refine within_run b (fun n hn => ?_) _
  split_ifs at hn with hempty
  · simp at hn
  · exact insertBinds_le b (by decide) frames n hn

theorem within_registerXorb (now : Int) (db : Db) (xorb : XorbInfo) (chunks : List ChunkRow) :
    Within b (b.runRegisterXorb now db xorb chunks) := by
  refine within_run b (fun n hn => ?_) _
  rcases List.mem_cons.1 hn with rfl | hn
  · exact within_small b (by decide)
  · exact insertBinds_le b (by decide) chunks n hn

theorem within_writeFileInTx (now : Int) (repo : RepoRef) (db : Db)
    (f : FileHash × List FileTerm) : Within b (b.runWriteFileInTx now repo db f) := by
  unfold Backend.runWriteFileInTx
  simp only
  split
  · refine within_run b (fun n hn => ?_) _
    rw [List.mem_singleton.1 hn]
    exact within_small b (by decide)
  · refine within_run b (fun n hn => ?_) _
    have hterms : ∀ n ∈ (if termsOf f.1 db.fileTerms ≠ [] then []
        else insertBinds 7 (termRows f.1 f.2)), n ≤ b.maxParams := by
      intro n hn
      split_ifs at hn
      · simp at hn
      · exact insertBinds_le b (by decide) _ n hn
    have hlock : ∀ n ∈ b.lockBinds, n = 1 := by
      cases b <;> simp [Backend.lockBinds]
    rcases List.mem_cons.1 hn with rfl | hn
    · exact within_small b (by decide)
    · rcases List.mem_append.1 hn with hn | hn
      · rw [hlock n hn]
        exact within_small b (by decide)
      · rcases List.mem_cons.1 hn with rfl | hn
        · exact within_small b (by decide)
        · exact hterms n hn

theorem within_registerFiles (now : Int) (repo : RepoRef) (db : Db)
    (files : List (FileHash × List FileTerm)) :
    Within b (b.runRegisterFiles now repo db files) :=
  Traced.allLogged_foldlM (fun db f => within_writeFileInTx b now repo db f) files db

theorem within_lookupFile (db : Db) (pick : List FileRow → Option FileRow) (h : FileHash) :
    Within b (Backend.runLookupFile db pick h) := by
  refine within_run b (fun n hn => ?_) _
  have hone : n = 1 := by
    split_ifs at hn <;> simpa using hn
  rw [hone]
  exact within_small b (by decide)

theorem within_effectiveQuota (db : Db) (default : Option Nat) (owner : String) :
    Within b (b.runEffectiveQuota db default owner) :=
  within_bind.2 ⟨within_one b _, fun _ _ => Traced.allLogged_pure _⟩

theorem within_xorbFrameLayouts_iff {db : Db} {xorbs : List XorbHash} :
    Within b (b.runXorbFrameLayouts db xorbs) ↔ distinctXorbs xorbs ≤ b.maxParams := by
  unfold Within Traced.AllLogged Backend.runXorbFrameLayouts OnStore.run
  simp only
  split_ifs with hempty
  · rw [List.isEmpty_iff.1 hempty]
    simp [distinctXorbs]
  · simp only [List.mem_singleton, forall_eq, length_dedupSortedXorbs]

theorem within_unaccounted_iff {db : Db} {owner : String} {candidates : List XorbHash} :
    Within b (b.runUnaccountedXorbBytesForOwner db owner candidates) ↔
      distinctXorbs candidates + 1 ≤ b.maxParams := by
  unfold Within Traced.AllLogged Backend.runUnaccountedXorbBytesForOwner OnStore.run
  simp only
  split_ifs with hempty
  · rw [List.isEmpty_iff.1 hempty]
    have hone := within_small b (show 1 ≤ 7 by decide)
    simpa [distinctXorbs] using hone
  · simp only [List.mem_singleton, forall_eq, length_dedupSortedXorbs]

/-- The layouts, when their statement stays within the limit. -/
theorem xorbFrameLayouts_ok {db : Db} {xorbs : List XorbHash}
    (h : distinctXorbs xorbs ≤ b.maxParams) :
    (b.runXorbFrameLayouts db xorbs).result = .ok (db.xorbFrameLayouts xorbs) := by
  unfold Backend.runXorbFrameLayouts Backend.xorbFrameLayouts
  rw [run_result]
  split_ifs with hempty
  · rw [List.isEmpty_iff.1 hempty]
    simp only [Except.mapError, Except.ok.injEq]
    funext x
    simp [Db.xorbFrameLayouts]
  · rw [← length_dedupSortedXorbs] at h
    simp only [bindParams_ok b h, bind, Except.bind, Except.mapError, Except.ok.injEq]
    funext x
    unfold Db.xorbFrameLayouts
    simp only [mem_dedupSortedXorbs]

end Operations

section Requests

variable (b : Backend) (svc : Service)

theorem within_uploadXorb (st : ServerState) (r : XorbRequest) :
    Within b (b.runUploadXorb svc st r) := by
  have hcheck : Within b (b.runCheckXorb svc st r) := by
    refine within_bind.2 ⟨within_check b _, fun _ _ => within_bind.2
      ⟨within_effectiveQuota b _ _ _, fun quota _ => ?_⟩⟩
    cases quota with
    | none => exact Traced.allLogged_pure _
    | some quota =>
        simp only
        split_ifs with hblob
        · exact Traced.allLogged_pure _
        · exact within_bind.2 ⟨within_one b _, fun _ _ => within_check b _⟩
  refine within_bind.2 ⟨hcheck, fun _ _ => within_bind.2 ⟨within_check b _,
    fun layout _ => within_bind.2 ⟨within_check b _, fun _ _ => within_bind.2
      ⟨within_registerXorbLayout b _ _ _, fun db _ => ?_⟩⟩⟩⟩
  simp only
  split_ifs with hblob <;> exact Traced.allLogged_pure _

theorem within_getFileDownload (access : RepoRef → CoreResult Unit) (st : ServerState)
    (pick : List FileRow → Option FileRow) (repoId : String) (h : FileHash) :
    Within b (b.runGetFileDownload svc access st pick repoId h) := by
  have hfile : ∀ repo : RepoRef, Within b (b.runFileInRepo st.db h repo.repoId) := by
    intro repo
    refine within_run b (fun n hn => ?_) _
    rw [List.mem_singleton.1 hn]
    exact within_small b (by decide)
  refine within_bind.2 ⟨within_check b _, fun repo _ => within_bind.2
    ⟨within_check b _, fun _ _ => within_bind.2 ⟨hfile repo, fun found _ => ?_⟩⟩⟩
  split_ifs with hfound
  · refine within_bind.2 ⟨within_lookupFile b _ _ _, fun terms _ => ?_⟩
    cases terms with
    | none => exact within_check b _
    | some terms =>
        refine within_run b (fun n hn => ?_) _
        obtain ⟨item, -, rfl⟩ := List.mem_map.1 hn
        exact within_small b (by decide)
  · exact within_check b _

theorem within_getReconstruction_iff {db : Db} {pick : List FileRow → Option FileRow}
    {repoId : String} {h : FileHash} :
    Within b (b.runGetReconstruction db pick repoId h) ↔ FileFits b db pick repoId h := by
  have hfile : Within b (b.runFileInRepo db h repoId) := by
    refine within_run b (fun n hn => ?_) _
    rw [List.mem_singleton.1 hn]
    exact within_small b (by decide)
  unfold Backend.runGetReconstruction FileFits
  rw [within_bind, and_iff_right hfile]
  unfold Backend.runFileInRepo
  simp only [run_result, Results.mapError_eq_ok]
  constructor
  · intro hall hfound terms hterms
    have hbuild := hall true hfound
    rw [if_pos rfl] at hbuild
    unfold Backend.runBuildReconstructionResponse at hbuild
    have hrest := (within_bind.1 hbuild).2 (some terms) (by
      unfold Backend.runLookupFile
      rw [run_result, Results.mapError_eq_ok]
      exact hterms)
    exact (within_xorbFrameLayouts_iff b).1 (within_bind.1 hrest).1
  · intro hfits found hfound
    split_ifs with htrue
    · rw [htrue] at hfound
      refine within_bind.2 ⟨within_lookupFile b _ _ _, fun terms hterms => ?_⟩
      unfold Backend.runLookupFile at hterms
      rw [run_result, Results.mapError_eq_ok] at hterms
      cases terms with
      | none => exact within_check b _
      | some terms =>
          refine within_bind.2 ⟨(within_xorbFrameLayouts_iff b).2
            (hfits hfound terms hterms), fun layouts _ => within_bind.2
              ⟨within_check b _, fun found _ => Traced.allLogged_pure _⟩⟩
    · exact within_check b _

theorem within_registerCasBlocks_iff {db : Db} {blocks : List ParsedCasBlock} {now : Int} :
    Within b (b.runRegisterCasBlocks db blocks now) ↔
      distinctXorbs (blocks.map (fun cb => cb.xorb)) ≤ b.maxParams := by
  unfold Backend.runRegisterCasBlocks
  rw [within_bind, within_xorbFrameLayouts_iff]
  exact and_iff_left (fun layouts _ =>
    Traced.allLogged_foldlM (fun d cb => within_registerXorb b now d _ _) blocks db)

/-- The CAS blocks are registered as `registerCasBlocks` does it. -/
theorem registerCasBlocks_ok {db : Db} {blocks : List ParsedCasBlock} {now : Int}
    (h : distinctXorbs (blocks.map (fun cb => cb.xorb)) ≤ b.maxParams) :
    (b.runRegisterCasBlocks db blocks now).result = .ok (registerCasBlocks db blocks now) := by
  unfold Backend.runRegisterCasBlocks registerCasBlocks
  rw [Traced.bind_result, xorbFrameLayouts_ok b h]
  refine Traced.foldlM_result (fun d cb => ?_) blocks db
  unfold Backend.runRegisterXorb
  rw [run_result, registerXorb_ok]
  rfl

theorem within_checkShardQuota_iff {db : Db} {owner : String} {files : List ParsedFile} :
    Within b (b.runCheckShardQuota svc db owner files) ↔ (Charged b svc db owner →
      distinctXorbs (files.flatMap (fun f => f.entries.map (fun e => e.xorb))) + 1 ≤
        b.maxParams) := by
  have hquota : ∀ quota, (b.runEffectiveQuota db svc.defaultQuotaBytes owner).result = .ok quota ↔
      ∃ own, b.getOwnerQuota db owner = .ok own ∧ own.or svc.defaultQuotaBytes = quota := by
    intro quota
    unfold Backend.runEffectiveQuota Backend.runGetOwnerQuota
    rw [Traced.bind_result, Results.bind_eq_ok]
    simp only [run_result, Results.mapError_eq_ok, Traced.pure_result, Except.ok.injEq]
  have hused : ∀ used, (b.runStoredBytesForOwner db owner).result = .ok used ↔
      b.storedBytesForOwner db owner = .ok used := by
    intro used
    unfold Backend.runStoredBytesForOwner
    rw [run_result, Results.mapError_eq_ok]
  unfold Backend.runCheckShardQuota
  rw [within_bind, and_iff_right (within_effectiveQuota b _ _ _)]
  constructor
  · rintro hall ⟨⟨own, hown, hsome⟩, used, hstored⟩
    obtain ⟨quota, hq⟩ := Option.ne_none_iff_exists'.1 hsome
    have hrest := hall (some quota) ((hquota _).2 ⟨own, hown, hq⟩)
    have hasked := (within_bind.1 hrest).2 used ((hused used).2 hstored)
    exact (within_unaccounted_iff b).1 (within_bind.1 hasked).1
  · intro hfits quota hq
    cases quota with
    | none => exact Traced.allLogged_pure _
    | some quota =>
        obtain ⟨own, hown, hor⟩ := (hquota _).1 hq
        refine within_bind.2 ⟨within_one b _, fun used hstored => ?_⟩
        refine within_bind.2 ⟨(within_unaccounted_iff b).2 (hfits
          ⟨⟨own, hown, by rw [hor]; simp⟩, used, (hused used).1 hstored⟩),
            fun delta _ => within_check b _⟩

theorem within_uploadShard_iff {st : ServerState} {r : ShardRequest} :
    Within b (b.runUploadShard svc st r) ↔ ShardFits b svc st r := by
  unfold Backend.runUploadShard ShardFits
  rw [within_bind, and_iff_right (within_check b _)]
  refine forall_congr' (fun parsed => forall_congr' (fun _ => ?_))
  rw [within_bind, within_registerCasBlocks_iff]
  refine and_congr_right (fun hblocks => ?_)
  simp only [registerCasBlocks_ok b hblocks, Except.ok.injEq, forall_eq']
  rw [within_bind, within_checkShardQuota_iff]
  refine and_iff_left (fun _ _ => within_bind.2 ⟨within_check b _, fun files _ => ?_⟩)
  exact within_bind.2 ⟨within_registerFiles b _ _ _ _, fun _ _ => Traced.allLogged_pure _⟩

end Requests

/-! ## The handlers on SQLite -/

section Sqlite

variable (svc : Service) {db : Db} {owner : String}

theorem sqlite_storedBytesForOwner {n : Nat} :
    Backend.sqlite.storedBytesForOwner db owner = .ok n ↔ db.storedBytesForOwner owner = .ok n := by
  rw [storedBytesForOwner_eq_ok]
  unfold Db.storedBytesForOwner
  rw [sumI64_ok]
  exact and_iff_right rfl

theorem sqlite_unaccountedXorbBytes {candidates : List XorbHash} {n : Nat}
    (hfits : distinctXorbs candidates + 1 ≤ Backend.sqlite.maxParams) :
    Backend.sqlite.unaccountedXorbBytesForOwner db owner candidates = .ok n ↔
      db.unaccountedXorbBytesForOwner owner candidates = .ok n := by
  unfold Backend.unaccountedXorbBytesForOwner Db.unaccountedXorbBytesForOwner
  split_ifs with hempty
  · rfl
  · rw [← length_dedupSortedXorbs] at hfits
    simp only [bindParams_ok _ hfits, Backend.bindTexts, bind, Except.bind, mem_dedupSortedXorbs]
    rw [storedBytes_eq_ok, sumI64_ok]
    rfl

theorem sqlite_writeFile (db : Db) (h : FileHash) (repo : RepoRef) (terms : List FileTerm)
    (now : Int) :
    Backend.sqlite.writeFileInTx db h repo terms now = .ok (db.writeFileInTx h repo terms now) := by
  unfold Backend.writeFileInTx Db.writeFileInTx
  simp only [Backend.bindTexts, insertBatches_ok _ TermRow.key (Nat.le_refl 7), insertAll_batches,
    bind, Except.bind, Backend.putFile]
  split_ifs <;> rfl

theorem sqlite_effectiveQuota (default : Option Nat) :
    (Backend.sqlite.runEffectiveQuota db default owner).result = effectiveQuota db default owner := by
  unfold Backend.runEffectiveQuota effectiveQuota
  rw [Traced.bind_result]
  rfl

theorem sqlite_checkXorb {st : ServerState} {r : XorbRequest} :
    (Backend.sqlite.runCheckXorb svc st r).result = .ok () ↔ checkXorb svc st r = .ok () := by
  unfold Backend.runCheckXorb checkXorb
  rw [Traced.bind_result, check_result]
  by_cases hsize : r.body.length > maxBodyBytes
  · simp [hsize, bind, Except.bind]
  · rw [if_neg hsize, if_neg hsize, Results.bind_eq_ok]
    simp only [exists_const, true_and, Traced.bind_result]
    refine Results.bind_ok_congr (fun quota => by rw [sqlite_effectiveQuota]) (fun quota => ?_)
    cases quota with
    | none => rfl
    | some quota =>
        simp only
        split_ifs with hblob
        · rfl
        · rw [Traced.bind_result]
          refine Results.bind_ok_congr (fun used => ?_) (fun used => Iff.rfl)
          unfold Backend.runStoredBytesForOwner
          rw [run_result, Results.mapError_eq_ok, Results.mapError_eq_ok,
            sqlite_storedBytesForOwner]

theorem sqlite_uploadXorb {st : ServerState} {r : XorbRequest} {res : ServerState × Bool} :
    (Backend.sqlite.runUploadXorb svc st r).result = .ok res ↔ uploadXorb svc st r = .ok res := by
  unfold Backend.runUploadXorb uploadXorb
  simp only [Traced.bind_result, check_result]
  refine Results.bind_ok_congr (fun _ => sqlite_checkXorb svc) (fun _ => ?_)
  refine Results.bind_ok_congr (fun _ => Iff.rfl) (fun layout => ?_)
  refine Results.bind_ok_congr (fun _ => Iff.rfl) (fun _ => ?_)
  unfold Backend.runRegisterXorbLayout
  rw [run_result, registerXorbLayout_ok]
  simp only [Except.mapError, bind, Except.bind]
  split_ifs <;> rfl

theorem sqlite_checkShardQuota {files : List ParsedFile}
    (hfits : Charged .sqlite svc db owner →
      distinctXorbs (files.flatMap (fun f => f.entries.map (fun e => e.xorb))) + 1 ≤
        Backend.sqlite.maxParams) :
    (Backend.sqlite.runCheckShardQuota svc db owner files).result = .ok () ↔
      checkShardQuota svc db owner files = .ok () := by
  unfold Backend.runCheckShardQuota checkShardQuota
  rw [Traced.bind_result, Results.bind_eq_ok, Results.bind_eq_ok]
  refine exists_congr (fun quota => ?_)
  rw [sqlite_effectiveQuota]
  refine and_congr_right (fun hquota => ?_)
  cases quota with
  | none => rfl
  | some quota =>
      simp only [Traced.bind_result]
      rw [Results.bind_eq_ok, Results.bind_eq_ok]
      refine exists_congr (fun used => ?_)
      unfold Backend.runStoredBytesForOwner Backend.runUnaccountedXorbBytesForOwner
      simp only [run_result, check_result, Results.mapError_eq_ok, sqlite_storedBytesForOwner]
      refine and_congr_right (fun hused => ?_)
      refine Results.bind_ok_congr (fun delta => ?_) (fun delta => Iff.rfl)
      rw [Results.mapError_eq_ok, Results.mapError_eq_ok]
      refine sqlite_unaccountedXorbBytes (hfits ⟨?_, used, sqlite_storedBytesForOwner.2 hused⟩)
      obtain ⟨own, hown, hor⟩ := Results.bind_eq_ok.1 hquota
      refine ⟨own, Results.mapError_eq_ok.1 hown, ?_⟩
      rw [Except.ok.inj hor]
      simp

theorem sqlite_registerFiles (now : Int) (repo : RepoRef) (db : Db)
    (files : List (FileHash × List FileTerm)) :
    (Backend.sqlite.runRegisterFiles now repo db files).result =
      .ok (db.registerFiles repo files now) := by
  refine Traced.foldlM_result (fun d f => ?_) files db
  unfold Backend.runWriteFileInTx
  simp only [Backend.bindTexts, run_result, sqlite_writeFile]
  rfl

/-- What an accepted shard has passed, and what it leaves. -/
theorem uploadShard_eq_ok {st st' : ServerState} {r : ShardRequest} :
    uploadShard svc st r = (st', .ok ()) ↔ ∃ parsed, checkShard st r.body = .ok parsed ∧
      checkShardQuota svc (registerCasBlocks st.db parsed.casBlocks r.now) r.repo.owner
        parsed.files = .ok () ∧
      ∃ files, filesToRegister parsed = .ok files ∧
        ({ ({ st with db := registerCasBlocks st.db parsed.casBlocks r.now } : ServerState).putShard
          (svc.codec.blake3 r.body) r.body with
            db := (registerCasBlocks st.db parsed.casBlocks r.now).registerFiles r.repo files
              r.now } : ServerState) = st' := by
  unfold uploadShard
  cases hparsed : checkShard st r.body with
  | error e => simp
  | ok parsed =>
      simp only [Except.ok.injEq, exists_eq_left']
      cases hquota : checkShardQuota svc (registerCasBlocks st.db parsed.casBlocks r.now)
          r.repo.owner parsed.files with
      | error e => simp
      | ok u =>
          simp only [true_and]
          cases hfiles : filesToRegister parsed with
          | error e => simp
          | ok files =>
              simp only [Except.ok.injEq, exists_eq_left', Prod.mk.injEq, and_true]
              rfl

/-- **A shard whose xorbs fit is accepted as `upload_shard` says.** -/
theorem sqlite_uploadShard {st st' : ServerState} {r : ShardRequest}
    (hfits : ShardFits .sqlite svc st r) :
    (Backend.sqlite.runUploadShard svc st r).result = .ok st' ↔
      uploadShard svc st r = (st', .ok ()) := by
  rw [uploadShard_eq_ok]
  unfold Backend.runUploadShard
  rw [Traced.bind_result, check_result, Results.bind_eq_ok]
  refine exists_congr (fun parsed => and_congr_right (fun hparsed => ?_))
  obtain ⟨hblocks, hcharged⟩ := hfits parsed hparsed
  rw [Traced.bind_result, registerCasBlocks_ok .sqlite hblocks, Results.bind_eq_ok]
  simp only [Except.ok.injEq, exists_eq_left']
  rw [Traced.bind_result, Results.bind_eq_ok]
  rw [Unique.exists_iff, PUnit.default_eq_unit, sqlite_checkShardQuota svc hcharged, Traced.bind_result, check_result,
    Results.bind_eq_ok]
  refine and_congr_right (fun hquota => exists_congr (fun files => and_congr_right (fun _ => ?_)))
  simp only [Traced.bind_result, sqlite_registerFiles, Traced.pure_result, Results.bind_eq_ok,
    Except.ok.injEq, exists_eq_left']
  rfl

/-- **A file whose xorbs fit is read as `get_reconstruction` says.** -/
theorem sqlite_getReconstruction {pick : List FileRow → Option FileRow} {repoId : String}
    {h : FileHash} (hfits : FileFits .sqlite db pick repoId h) :
    (Backend.sqlite.runGetReconstruction db pick repoId h).result =
      getReconstruction db pick repoId h := by
  have hfound : Backend.sqlite.fileInRepo db h repoId = .ok (db.fileInRepo h repoId) := rfl
  unfold Backend.runGetReconstruction getReconstruction Backend.runFileInRepo
  rw [Traced.bind_result, run_result, hfound]
  cases hrepo : db.fileInRepo h repoId with
  | false => rfl
  | true =>
      rw [hrepo] at hfound
      unfold buildReconstructionResponse
      simp only [Except.mapError, bind, Except.bind, if_true]
      unfold Backend.runBuildReconstructionResponse Backend.runLookupFile
      rw [Traced.bind_result, run_result]
      cases hlookup : db.lookupFile pick h with
      | error e => rfl
      | ok terms =>
          cases terms with
          | none => rfl
          | some terms =>
              have hlayouts : (Backend.sqlite.runXorbFrameLayouts db _).result = .ok _ :=
                xorbFrameLayouts_ok .sqlite (hfits hfound terms hlookup)
              refine Traced.bind_result.trans ?_
              rw [hlayouts]
              refine Traced.bind_result.trans ?_
              simp only [check_result, bind, Except.bind]
              cases terms.mapM (reconstructTerm (db.xorbFrameLayouts (terms.map (fun t => t.xorb))))
              all_goals rfl

end Sqlite
/-- **Which requests keep every statement within the limit of the engine.** -/
theorem statements_within_iff (b : Backend) (svc : Service)
    (pick : List FileRow → Option FileRow) (st : ServerState) (req : StoreRequest) :
    (∀ n ∈ statementBinds b svc pick st req, n ≤ b.maxParams) ↔ req.Fits b svc pick st := by
  cases req with
  | uploadXorb r => exact iff_of_true (within_uploadXorb b svc st r) trivial
  | uploadShard r => exact within_uploadShard_iff b svc
  | getReconstruction repoId h => exact within_getReconstruction_iff b
  | getFileDownload access repoId h =>
      exact iff_of_true (within_getFileDownload b svc access st pick repoId h) trivial

namespace Sample

/-- A chunk that is short enough is its own hash, and a xorb has that of its first chunk. -/
def plainCodec : Codec where
  decompressFromSlice
    | .none, payload => .ok payload
    | _, _ => .error "unsupported"
  computeDataHash := Cursor.hashOf
  xorbHash entries := match entries with
    | e :: _ => e.1
    | [] => hash32 0
  blake3 _ := hash32 0

def plainService : Service := ⟨plainCodec, none⟩

/-- The hash of the chunk that holds `i`. -/
def indexHash (i : Nat) : XorbHash := Cursor.hashOf (leBytes 4 i)

/-- The xorb of one chunk that holds `i`. -/
def indexUpload (i : Nat) : XorbRequest :=
  ⟨repo, indexHash i, [0, 4, 0, 0, 0, 4, 0, 0] ++ leBytes 4 i⟩

theorem parse_indexBody (a b c d : UInt8) :
    parseXorbFrames [0, 4, 0, 0, 0, 4, 0, 0, a, b, c, d] = .ok [⟨0, 12, 4, 0⟩] := by
  simp [parseXorbFrames, parseFrames, u24Le, headerLen, u32Max]

theorem verify_indexBody (a b c d : UInt8) :
    verifyXorbBody plainCodec [0, 4, 0, 0, 0, 4, 0, 0, a, b, c, d] (Cursor.hashOf [a, b, c, d]) =
      .ok () := by
  unfold verifyXorbBody
  rw [parse_indexBody]
  simp [Except.mapError, bind, Except.bind, frameChunk, schemeOf, plainCodec, headerLen, pure, Except.pure]

theorem leBytes_four (i : Nat) : leBytes 4 i = [UInt8.ofNat i, UInt8.ofNat (i / 256),
    UInt8.ofNat (i / 256 / 256), UInt8.ofNat (i / 256 / 256 / 256)] := rfl

theorem upload_index {st : ServerState} (hquotas : st.db.ownerQuotas = []) (i : Nat) :
    ∃ res, uploadXorb plainService st (indexUpload i) = .ok res := by
  have hcheck : checkXorb plainService st (indexUpload i) = .ok () := by
    unfold checkXorb effectiveQuota Db.getOwnerQuota
    rw [if_neg (by simp [indexUpload, leBytes_four, maxBodyBytes]), hquotas]
    rfl
  have hparse : parseXorb (indexUpload i) = .ok (frameLayout [⟨0, 12, 4, 0⟩]) := by
    unfold parseXorb indexUpload
    rw [leBytes_four, List.cons_append]
    simp only [List.cons_append, List.nil_append, parse_indexBody]
  have hverify : verifyXorb plainService (indexUpload i) = .ok () := by
    unfold verifyXorb indexUpload indexHash
    rw [leBytes_four]
    simp only [plainService, List.cons_append, List.nil_append, verify_indexBody]
  unfold uploadXorb
  simp only [hcheck, hparse, hverify, bind, Except.bind]
  split_ifs <;> exact ⟨_, rfl⟩

/-- The first `n` xorbs are stored, and nothing else has been registered. -/
structure Stocked (n : Nat) (st : ServerState) : Prop where
  blobs : ∀ i < n, st.blobs (indexHash i) ≠ none
  files : st.db.files = []
  fileTerms : st.db.fileTerms = []
  ownerQuotas : st.db.ownerQuotas = []

def indexUploads (n : Nat) : List ServerAct := (List.range n).map (fun i => .xorb (indexUpload i))

theorem run_indexUploads (n : Nat) : ∃ st,
    Machine.run (serverStep plainService) ServerState.empty (indexUploads n) = some st ∧
      Stocked n st := by
  induction n with
  | zero => exact ⟨ServerState.empty, rfl, ⟨fun i hi => absurd hi (Nat.not_lt_zero i), rfl, rfl, rfl⟩⟩
  | succ n ih =>
      obtain ⟨st, hrun, hst⟩ := ih
      obtain ⟨res, hres⟩ := upload_index hst.ownerQuotas n
      obtain ⟨hkept, hown⟩ := uploadXorb_blobs hres
      obtain ⟨-, -, layout, -, hdb, -, -⟩ := uploadXorb_cases hres
      obtain ⟨hfiles, hterms, -, -, hquotas⟩ :=
        registerXorbLayout_frame st.db (indexUpload n).hash layout
      refine ⟨res.1, ?_, ⟨fun i hi => ?_, ?_, ?_, ?_⟩⟩
      · unfold indexUploads at hrun ⊢
        rw [List.range_succ, List.map_append, Machine.run_append, hrun]
        simp [Machine.run, serverStep, hres]
      · rcases Nat.lt_succ_iff_lt_or_eq.1 hi with hlt | rfl
        · exact hkept _ (hst.blobs i hlt)
        · exact hown
      · rw [hdb, hfiles, hst.files]
      · rw [hdb, hterms, hst.fileTerms]
      · rw [hdb, hquotas, hst.ownerQuotas]

/-- A file of `n` terms, one for each xorb. -/
def indexFile (n : Nat) : ParsedFile :=
  ⟨hash32 1, 0, (List.range n).map (fun i => ⟨indexHash i, 0, 4, 0, 1⟩), [], none⟩

def indexShard (n : Nat) : ParsedShard :=
  ⟨⟨List.replicate 32 0, mdbShardHeaderVersion, 0⟩, [indexFile n], [], none⟩

def indexTerms (n : Nat) : List FileTerm := (List.range n).map (fun i => ⟨indexHash i, 0, 1, 4, none⟩)

theorem length_indexShard (n : Nat) : (serialize (indexShard n)).length = 192 + 48 * n := by
  rw [length_serialize]
  simp [indexShard, indexFile, serializeHeader, serializeFile, (hash32 1).length_eq, entrySize,
    length_flatMap_entries _ length_serializeTermEntry, flagWithVerification, flagWithMetadataExt]
  omega

theorem parse_indexShard {n : Nat} (hn : n ≤ 1000000) :
    parse (serialize (indexShard n)) = .ok (indexShard n) := by
  refine parse_serialize ⟨rfl, rfl, fun f hf => ?_, fun cb hcb => absurd hcb List.not_mem_nil,
    by simp [indexShard, footerSize], fun ft hft => by simp [indexShard] at hft⟩ ?_
  · rw [List.mem_singleton.1 hf]
    exact ⟨rfl, fun hflag => by simp [indexFile] at hflag, fun _ => rfl, by simp [indexFile]⟩
  · rw [length_indexShard]
    unfold maxShardBytes
    omega

theorem filesToRegister_indexShard (n : Nat) :
    filesToRegister (indexShard n) = .ok [(hash32 1, indexTerms n)] := by
  have hterms : ((indexFile n).entries.zipIdx.map (fun ei => (⟨ei.1.xorb, ei.1.chunkIdxStart,
      ei.1.chunkIdxEnd, ei.1.unpackedSegmentBytes, (indexFile n).verifications[ei.2]?⟩ :
        FileTerm))) = indexTerms n := by
    refine List.ext_getElem (by simp [indexFile, indexTerms]) (fun i hi _ => ?_)
    simp [indexFile, indexTerms]
  simp only [filesToRegister, indexShard, fileTerms, List.mapM_cons, List.mapM_nil, hterms]
  rfl

/-- Its entries name xorbs that are there, and it has the size of a request. -/
theorem checkShard_indexShard {n : Nat} (hn : n ≤ 1000000) {st : ServerState}
    (hst : Stocked n st) :
    checkShard st (serialize (indexShard n)) = .ok (indexShard n) := by
  have hentries : (indexShard n).files.forM (fun f => f.entries.forM (checkEntry st)) =
      .ok () := by
    refine Results.forM_eq_ok.2 (fun f hf => Results.forM_eq_ok.2 (fun e he => ?_))
    rw [List.mem_singleton.1 hf] at he
    obtain ⟨i, hi, rfl⟩ := List.mem_map.1 he
    unfold checkEntry
    have hblob := hst.blobs i (List.mem_range.1 hi)
    rw [if_neg (by simpa [Option.isNone_iff_eq_none] using hblob), if_neg (by simp)]
  unfold checkShard
  rw [if_neg (by rw [length_indexShard]; unfold maxBodyBytes; omega), parse_indexShard hn]
  simp only [Except.mapError, bind, Except.bind, hentries]
  rfl

theorem termSum_indexTerms {n : Nat} (hn : n ≤ 1000000) :
    termSum (indexTerms n) < 9223372036854775808 := by
  have hmap : (indexTerms n).map (fun t => t.unpackedSegmentBytes.toNat) =
      List.replicate n 4 := by
    unfold indexTerms
    rw [List.map_map, List.eq_replicate_iff]
    simp
  have hfour : ((indexTerms n).map (fun t => t.unpackedSegmentBytes.toNat)).sum = n * 4 := by
    rw [hmap]
    simp
  have hmod := Nat.mod_le ((indexTerms n).map (fun t => t.unpackedSegmentBytes.toNat)).sum
    18446744073709551616
  unfold termSum
  omega

/-- The shard is accepted, and then the file can be looked up. -/
theorem upload_indexShard {n : Nat} (hpos : 0 < n) (hn : n ≤ 1000000) {st : ServerState}
    (hst : Stocked n st) :
    ∃ st', serverStep plainService st (.shard ⟨repo, serialize (indexShard n), 0⟩) = some st' ∧
      st'.db.fileInRepo (hash32 1) repo.repoId = true ∧
      ∀ pick, LimitOne pick → st'.db.lookupFile pick (hash32 1) = .ok (some (indexTerms n)) := by
  have hquota : ∀ blocks, checkShardQuota plainService (registerCasBlocks st.db blocks 0) repo.owner
      (indexShard n).files = .ok () := by
    intro blocks
    unfold checkShardQuota effectiveQuota Db.getOwnerQuota
    rw [(registerCasBlocks_frame st.db blocks 0).2.2.2, hst.ownerQuotas]
    rfl
  have hupload : ∃ st', uploadShard plainService st ⟨repo, serialize (indexShard n), 0⟩ =
      (st', .ok ()) := by
    unfold uploadShard
    simp only [checkShard_indexShard hn hst, hquota, filesToRegister_indexShard]
    exact ⟨_, rfl⟩
  obtain ⟨st', hst'⟩ := hupload
  obtain ⟨parsed, files, hparse, hfiles, db, hdbFiles, hdbTerms, hdb⟩ :=
    uploadShard_tables plainService hst'
  obtain rfl := Except.ok.inj ((parse_indexShard hn).symm.trans hparse)
  obtain rfl := Except.ok.inj ((filesToRegister_indexShard n).symm.trans hfiles)
  have hne : indexTerms n ≠ [] := by
    unfold indexTerms
    simp only [ne_eq, List.map_eq_nil_iff, List.range_eq_nil]
    omega
  have hlast : lastList (hash32 1) [(hash32 1, indexTerms n)] = some (indexTerms n) := rfl
  have hterms : st'.db.fileTermList (hash32 1) = indexTerms n := by
    rw [hdb, fileTermList_registerFiles]
    unfold termsAfter
    have hnone : db.fileTermList (hash32 1) = [] := by
      unfold Db.fileTermList
      rw [hdbTerms, hst.fileTerms]
      rfl
    rw [if_pos hnone]
    simp [firstList, hne]
  have hrow : ∀ r : FileRow, r.fileHash = hash32 1 →
      (r ∈ st'.db.files ↔ r = fileRow (hash32 1) repo (indexTerms n) 0) := by
    intro r hr
    rw [hdb, mem_files_registerFiles db repo 0 hr, hlast, hdbFiles, hst.files]
    simp
  refine ⟨st', by simp [serverStep, hst'], ?_, fun pick hpick => ?_⟩
  · unfold Db.fileInRepo
    rw [List.any_eq_true]
    exact ⟨_, (hrow _ rfl).2 rfl, by simp [fileRow]⟩
  · have hfound := forall_lookupFile_iff.2 ⟨by rw [hterms]; exact hne, fun r hr hhash => ?_⟩ pick hpick
    · rw [hterms] at hfound
      exact hfound
    · rw [(hrow r hhash).1 hr, hterms]
      simp only [fileRow, asI64_of_lt (termSum_indexTerms hn)]

theorem distinct_indexTerms {n : Nat} (hn : n ≤ 1000000) :
    distinctXorbs ((indexTerms n).map (fun t => t.xorb)) = n := by
  have hmap : (indexTerms n).map (fun t => t.xorb) = (List.range n).map indexHash := by
    unfold indexTerms
    rw [List.map_map]
    rfl
  have hnodup : ((List.range n).map indexHash).Nodup := by
    refine List.Nodup.map_on (fun i hi j hj heq => ?_) List.nodup_range
    have hbytes := congrArg (fun h : Hash32 => h.bytes.take 4) heq
    have hfour : ∀ k, (indexHash k).bytes.take 4 = leBytes 4 k := by
      intro k
      unfold indexHash Cursor.hashOf
      rw [List.take_take, leBytes_four]
      rfl
    simp only [hfour] at hbytes
    have hnat := congrArg Cursor.leNat hbytes
    rw [leNat_leBytes, leNat_leBytes] at hnat
    have hi := List.mem_range.1 hi
    have hj := List.mem_range.1 hj
    omega
  unfold distinctXorbs
  rw [hmap, hnodup.dedup, List.length_map, List.length_range]

end Sample

/-- Any number of xorbs above the limit will do. -/
theorem large_file_exceeds_limit {n : Nat} (hlimit : Backend.sqlite.maxParams < n)
    (hn : n ≤ 1000000) : ∃ st,
    Machine.run (serverStep Sample.plainService) ServerState.empty (Sample.indexUploads n ++
      [.shard ⟨Sample.repo, serialize (Sample.indexShard n), 0⟩]) = some st ∧
    (serialize (Sample.indexShard n)).length ≤ maxBodyBytes ∧
    (∀ i, (Sample.indexUpload i).body.length ≤ maxBodyBytes) ∧
    ∀ pick, LimitOne pick → ¬ ∀ k ∈ statementBinds .sqlite Sample.plainService pick st
      (.getReconstruction Sample.repo.repoId (Sample.hash32 1)), k ≤ Backend.sqlite.maxParams := by
  obtain ⟨st, hrun, hst⟩ := Sample.run_indexUploads n
  obtain ⟨st', hstep, hrepo, hlookup⟩ := Sample.upload_indexShard (by omega) hn hst
  refine ⟨st', ?_, ?_, fun i => ?_, fun pick hpick hwithin => ?_⟩
  · rw [Machine.run_append, hrun]
    simp [Machine.run, hstep]
  · rw [Sample.length_indexShard]
    unfold maxBodyBytes
    omega
  · simp [Sample.indexUpload, Sample.leBytes_four, maxBodyBytes]
  · have hfits := (within_getReconstruction_iff .sqlite).1 hwithin (by
      unfold Backend.fileInRepo
      rw [hrepo]
      rfl) _ (hlookup pick hpick)
    rw [Sample.distinct_indexTerms hn] at hfits
    omega

/-- **An accepted file that cannot be read**: its xorbs and its shard are uploaded, each far below the
    size limit, and from then on its reconstruction binds more values than SQLite allows. -/
theorem accepted_file_exceeds_limit : ∃ st,
    Machine.run (serverStep Sample.plainService) ServerState.empty (Sample.indexUploads 32767 ++
      [.shard ⟨Sample.repo, serialize (Sample.indexShard 32767), 0⟩]) = some st ∧
    (serialize (Sample.indexShard 32767)).length ≤ maxBodyBytes ∧
    (∀ i, (Sample.indexUpload i).body.length ≤ maxBodyBytes) ∧
    ∀ pick, LimitOne pick → ¬ ∀ k ∈ statementBinds .sqlite Sample.plainService pick st
      (.getReconstruction Sample.repo.repoId (Sample.hash32 1)), k ≤ Backend.sqlite.maxParams :=
  large_file_exceeds_limit (by decide) (by decide)

end BaleForGit.Server
