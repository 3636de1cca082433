import BaleForGit.Server.Independence
import BaleForGit.Server.Quota

set_option autoImplicit false

/-! # Repeating an upload

A client that retries a push sends requests again that were accepted before. Nothing is ever dropped
from the two stores, so that a repeat finds its blobs, layouts, chunks and terms, and inserts
nothing. What it does find changed is the quota, which is checked again, and the `files` row of the
repository, which it replaces. -/

namespace BaleForGit.Server

attribute [ext] Db ServerState

/-! ## Nothing is dropped -/

/-- What is in the stores in `st` is still there in `t`, with the same key. -/
structure Keeps (st t : ServerState) : Prop where
  blobs : ∀ x, st.blobs x ≠ none → t.blobs x ≠ none
  shards : ∀ h, st.shards h ≠ none → t.shards h ≠ none
  xorbs : st.db.xorbs.map XorbRow.key ⊆ t.db.xorbs.map XorbRow.key
  chunks : st.db.chunks.map ChunkTableRow.key ⊆ t.db.chunks.map ChunkTableRow.key
  frames : st.db.xorbFrames.map FrameTableRow.key ⊆ t.db.xorbFrames.map FrameTableRow.key
  files : st.db.files.map FileRow.key ⊆ t.db.files.map FileRow.key
  terms : ∀ h, termsOf h st.db.fileTerms ≠ [] → termsOf h t.db.fileTerms ≠ []

theorem Keeps.refl (st : ServerState) : Keeps st st :=
  ⟨fun _ h => h, fun _ h => h, fun _ h => h, fun _ h => h, fun _ h => h, fun _ h => h,
    fun _ h => h⟩

theorem Keeps.trans {r s t : ServerState} (h : Keeps r s) (h' : Keeps s t) : Keeps r t where
  blobs x hx := h'.blobs x (h.blobs x hx)
  shards k hk := h'.shards k (h.shards k hk)
  xorbs := List.Subset.trans h.xorbs h'.xorbs
  chunks := List.Subset.trans h.chunks h'.chunks
  frames := List.Subset.trans h.frames h'.frames
  files := List.Subset.trans h.files h'.files
  terms k hk := h'.terms k (h.terms k hk)

theorem registerXorbLayout_frames (db : Db) (x : XorbHash) (layout : List XorbFrameRow) :
    (db.registerXorbLayout x layout).xorbFrames = Table.insertAll FrameTableRow.key db.xorbFrames
      (layout.map (fun f => ⟨x, f⟩)) := by
  unfold Db.registerXorbLayout
  split_ifs with hempty
  · rw [List.isEmpty_iff.1 hempty]
    rfl
  · exact insertAll_batches FrameTableRow.key db.xorbFrames _

/-- The keys of `files` after a registration. -/
theorem mem_fileKeys_registerFiles {db : Db} {repo : RepoRef}
    {files : List (FileHash × List FileTerm)} {now : Int} {k : FileHash × String} :
    k ∈ (db.registerFiles repo files now).files.map FileRow.key ↔
      k ∈ db.files.map FileRow.key ∨ (k.2 = repo.repoId ∧ ∃ terms, (k.1, terms) ∈ files) := by
  induction files generalizing db with
  | nil => simp [Db.registerFiles]
  | cons f files ih =>
      have hfold : db.registerFiles repo (f :: files) now =
          (db.writeFileInTx f.1 repo f.2 now).registerFiles repo files now := rfl
      have hkeys : k ∈ (db.writeFileInTx f.1 repo f.2 now).files.map FileRow.key ↔
          k ∈ db.files.map FileRow.key ∨ k = (f.1, repo.repoId) := by
        simp only [writeFileInTx_files, List.mem_map, Table.mem_upsert]
        constructor
        · rintro ⟨row, ⟨hrow, -⟩ | rfl, rfl⟩
          · exact Or.inl ⟨row, hrow, rfl⟩
          · exact Or.inr rfl
        · rintro (⟨row, hrow, rfl⟩ | rfl)
          -- a replaced row leaves its key behind
          · by_cases hkey : row.key = (fileRow f.1 repo f.2 now).key
            · exact ⟨_, Or.inr rfl, hkey.symm⟩
            · exact ⟨row, Or.inl ⟨hrow, hkey⟩, rfl⟩
          · exact ⟨_, Or.inr rfl, rfl⟩
      rw [hfold, ih, hkeys]
      obtain ⟨h, repoId⟩ := k
      obtain ⟨h', terms'⟩ := f
      simp only [List.mem_cons, Prod.mk.injEq]
      constructor
      · rintro ((hold | ⟨rfl, rfl⟩) | ⟨hrepo, terms, hmem⟩)
        · exact Or.inl hold
        · exact Or.inr ⟨rfl, terms', Or.inl ⟨rfl, rfl⟩⟩
        · exact Or.inr ⟨hrepo, terms, Or.inr hmem⟩
      · rintro (hold | ⟨hrepo, terms, ⟨rfl, -⟩ | hmem⟩)
        · exact Or.inl (Or.inl hold)
        · exact Or.inl (Or.inr ⟨rfl, hrepo⟩)
        · exact Or.inr ⟨hrepo, terms, hmem⟩

theorem termsOf_registerFiles_ne_nil {db : Db} {repo : RepoRef}
    {files : List (FileHash × List FileTerm)} {now : Int} {h : FileHash}
    (hne : termsOf h db.fileTerms ≠ []) :
    termsOf h (db.registerFiles repo files now).fileTerms ≠ [] := by
  rw [termsOf_registerFiles, if_neg hne]
  exact hne

theorem keeps_casBlocks (st : ServerState) (blocks : List ParsedCasBlock) (now : Int) :
    Keeps st { st with db := registerCasBlocks st.db blocks now } := by
  obtain ⟨hfiles, hterms, hframes, -⟩ := registerCasBlocks_frame st.db blocks now
  refine ⟨fun _ h => h, fun _ h => h, ?_, ?_, ?_, ?_, fun h hne => ?_⟩
  · rw [registerCasBlocks_xorbs]
    exact Table.keys_subset_insertAll _ _
  · rw [registerCasBlocks_chunks]
    exact Table.keys_subset_insertAll _ _
  · rw [hframes]
    exact List.Subset.refl _
  · rw [hfiles]
    exact List.Subset.refl _
  · rw [hterms]
    exact hne

theorem putShard_ne_none {st : ServerState} {h k : ShardHash} {body : List UInt8} :
    (st.putShard h body).shards k ≠ none ↔ st.shards k ≠ none ∨ k = h := by
  simp only [ServerState.putShard]
  by_cases hk : k = h
  · simp [hk]
  · simp [hk]

theorem keeps_register (st : ServerState) (h : ShardHash) (body : List UInt8) (repo : RepoRef)
    (files : List (FileHash × List FileTerm)) (now : Int) :
    Keeps st { st.putShard h body with db := st.db.registerFiles repo files now } := by
  obtain ⟨hxorbs, hchunks, hframes, -⟩ := registerFiles_frame st.db repo files now
  refine ⟨fun _ hx => hx, fun k hk => putShard_ne_none.2 (Or.inl hk), ?_, ?_, ?_, ?_,
    fun k hk => termsOf_registerFiles_ne_nil hk⟩
  · rw [hxorbs]
    exact List.Subset.refl _
  · rw [hchunks]
    exact List.Subset.refl _
  · rw [hframes]
    exact List.Subset.refl _
  · exact fun k hk => mem_fileKeys_registerFiles.2 (Or.inl hk)

/-- **No request drops anything.** -/
theorem keeps_handle (svc : Service) (st : ServerState) (a : Request) :
    Keeps st (handle svc st a) := by
  cases a with
  | xorb r =>
      simp only [handle]
      cases hup : uploadXorb svc st r with
      | error e => exact Keeps.refl st
      | ok res =>
          obtain ⟨-, -, layout, -, hdb, hshards, -⟩ := uploadXorb_cases hup
          obtain ⟨hfiles, hterms, hxorbs, hchunks, -⟩ :=
            registerXorbLayout_frame st.db r.hash layout
          simp only
          refine ⟨(uploadXorb_blobs hup).1, fun k hk => by rw [hshards]; exact hk, ?_, ?_, ?_, ?_,
            fun k hk => ?_⟩
          · rw [hdb, hxorbs]
            exact List.Subset.refl _
          · rw [hdb, hchunks]
            exact List.Subset.refl _
          · rw [hdb, registerXorbLayout_frames]
            exact Table.keys_subset_insertAll _ _
          · rw [hdb, hfiles]
            exact List.Subset.refl _
          · rw [hdb, hterms]
            exact hk
  | shard r =>
      simp only [handle]
      rcases uploadShard_cases svc st r with ⟨e, -, hres⟩ | ⟨parsed, -, hres⟩
      · rw [hres]
        exact Keeps.refl st
      · have hblocks := keeps_casBlocks st parsed.casBlocks r.now
        rcases hres with ⟨e, hres, -⟩ | ⟨files, -, -, hres⟩
        · rw [hres]
          exact hblocks
        · rw [hres]
          exact hblocks.trans (keeps_register _ _ _ _ _ _)
  | quota owner limit =>
      obtain ⟨hxorbs, hchunks, hframes, hfiles, hterms⟩ := setOwnerQuota_frame st.db owner limit
      refine ⟨fun _ hx => hx, fun _ hk => hk, ?_, ?_, ?_, ?_, fun k hk => ?_⟩ <;> simp only [handle]
      · rw [hxorbs]
        exact List.Subset.refl _
      · rw [hchunks]
        exact List.Subset.refl _
      · rw [hframes]
        exact List.Subset.refl _
      · rw [hfiles]
        exact List.Subset.refl _
      · rw [hterms]
        exact hk

theorem keeps_run {svc : Service} {reqs : List Request} {st t : ServerState}
    (hrun : Machine.run (requestStep svc) st reqs = some t) : Keeps st t := by
  have hstep : ∀ s a s', Keeps st s → requestStep svc s a = some s' → Keeps st s' := by
    intro s a s' hs hs'
    rw [← Option.some.inj hs']
    exact hs.trans (keeps_handle svc s a)
  exact Machine.run_invariant_of_step hstep (Keeps.refl st) hrun

/-! ## What an accepted upload leaves behind -/

/-- The checks that an accepted xorb upload passed whatever the state, and what it wrote. -/
structure XorbStored (svc : Service) (t : ServerState) (r : XorbRequest)
    (layout : List XorbFrameRow) : Prop where
  size : r.body.length ≤ maxBodyBytes
  parsed : parseXorb r = .ok layout
  verified : verifyXorb svc r = .ok ()
  blob : t.blobs r.hash ≠ none
  frames : ∀ f ∈ layout, (r.hash, f.frameIndex) ∈ t.db.xorbFrames.map FrameTableRow.key

/-- The same for a shard upload. -/
structure ShardStored (svc : Service) (t : ServerState) (r : ShardRequest) (parsed : ParsedShard) :
    Prop where
  checked : checkShard t r.body = .ok parsed
  listed : filesToRegister parsed = .ok r.files
  xorbs : ∀ cb ∈ parsed.casBlocks, cb.xorb ∈ t.db.xorbs.map XorbRow.key
  chunks : ∀ row ∈ casChunkRows parsed.casBlocks, row.key ∈ t.db.chunks.map ChunkTableRow.key
  shard : t.shards (svc.codec.blake3 r.body) ≠ none
  files : ∀ h terms, (h, terms) ∈ r.files → (h, r.repo.repoId) ∈ t.db.files.map FileRow.key
  terms : ∀ h terms, (h, terms) ∈ r.files → terms ≠ [] → termsOf h t.db.fileTerms ≠ []

/-- A shard that passed the checks passes them when no blob has gone. -/
theorem checkShard_of_keeps {st t : ServerState} {body : List UInt8} {parsed : ParsedShard}
    (h : checkShard st body = .ok parsed) (hblobs : ∀ x, st.blobs x ≠ none → t.blobs x ≠ none) :
    checkShard t body = .ok parsed := by
  obtain ⟨hparse, hblocks, hentries⟩ := checkShard_ok h
  have hsome : ∀ x, st.blobs x ≠ none → ((t.blobs x).isNone = true) = False := by
    intro x hx
    have hne := hblobs x hx
    simp [Option.isNone_iff_eq_none, hne]
  have hsize : ¬ body.length > maxBodyBytes := by
    intro hbig
    simp [checkShard, hbig] at h
  have hcas : parsed.casBlocks.forM (fun cb =>
      if (t.blobs cb.xorb).isNone then .error (missingXorb cb.xorb) else .ok ()) =
        (.ok () : Except ApiError Unit) := by
    refine Results.forM_eq_ok.2 (fun cb hcb => ?_)
    simp only [hsome _ (hblocks cb hcb), if_false]
  have hfiles : parsed.files.forM (fun f => f.entries.forM (checkEntry t)) = .ok () := by
    refine Results.forM_eq_ok.2 (fun f hf => Results.forM_eq_ok.2 (fun e he => ?_))
    obtain ⟨hblob, hrange⟩ := hentries f hf e he
    unfold checkEntry
    simp only [hsome _ hblob, if_false]
    rw [if_neg (UInt32.not_le.2 hrange)]
  unfold checkShard
  rw [if_neg hsize, hparse]
  simp only [Except.mapError, bind, Except.bind, hcas, hfiles, pure, Except.pure]

theorem XorbStored.keep {svc : Service} {st t : ServerState} {r : XorbRequest}
    {layout : List XorbFrameRow} (h : XorbStored svc st r layout) (hkeep : Keeps st t) :
    XorbStored svc t r layout :=
  ⟨h.size, h.parsed, h.verified, hkeep.blobs _ h.blob, fun f hf => hkeep.frames (h.frames f hf)⟩

theorem ShardStored.keep {svc : Service} {st t : ServerState} {r : ShardRequest}
    {parsed : ParsedShard} (h : ShardStored svc st r parsed) (hkeep : Keeps st t) :
    ShardStored svc t r parsed where
  checked := checkShard_of_keeps h.checked hkeep.blobs
  listed := h.listed
  xorbs cb hcb := hkeep.xorbs (h.xorbs cb hcb)
  chunks row hrow := hkeep.chunks (h.chunks row hrow)
  shard := hkeep.shards _ h.shard
  files k terms hmem := hkeep.files (h.files k terms hmem)
  terms k terms hmem hne := hkeep.terms k (h.terms k terms hmem hne)

theorem accepted_xorb_stored {svc : Service} {st : ServerState} {r : XorbRequest}
    (h : Accepted svc st (.xorb r)) :
    ∃ layout, XorbStored svc (handle svc st (.xorb r)) r layout := by
  obtain ⟨res, hup⟩ := h
  obtain ⟨hcheck, hverify, layout, hparse, hdb, -, -⟩ := uploadXorb_cases hup
  have hres : handle svc st (.xorb r) = res.1 := by
    simp only [handle, hup]
  rw [hres]
  refine ⟨layout, checkXorb_length hcheck, hparse, hverify, (uploadXorb_blobs hup).2,
    fun f hf => ?_⟩
  have hrow : (⟨r.hash, f⟩ : FrameTableRow) ∈ layout.map (fun f => ⟨r.hash, f⟩) :=
    List.mem_map.2 ⟨f, hf, rfl⟩
  rw [hdb, registerXorbLayout_frames]
  exact Table.key_mem_insertAll hrow

theorem accepted_shard_stored {svc : Service} {st : ServerState} {r : ShardRequest}
    (h : Accepted svc st (.shard r)) :
    ∃ parsed, ShardStored svc (handle svc st (.shard r)) r parsed := by
  obtain ⟨parsed, hcheck, hlist, -, hres⟩ := accepted_shard h
  obtain ⟨hxorbs, hchunks, -, -⟩ :=
    registerFiles_frame (registerCasBlocks st.db parsed.casBlocks r.now) r.repo r.files r.now
  refine ⟨parsed, checkShard_of_keeps hcheck (keeps_handle svc st _).blobs, hlist,
    fun cb hcb => ?_, fun row hrow => ?_, ?_, fun k terms hmem => ?_, fun k terms hmem hne => ?_⟩
  · rw [hres]
    simp only [hxorbs, registerCasBlocks_xorbs]
    exact Table.key_mem_insertAll (List.mem_map.2 ⟨cb, hcb, rfl⟩)
  · rw [hres]
    simp only [hchunks, registerCasBlocks_chunks]
    exact Table.key_mem_insertAll hrow
  · rw [hres]
    exact putShard_ne_none.2 (Or.inr rfl)
  · rw [hres]
    exact mem_fileKeys_registerFiles.2 (Or.inr ⟨rfl, terms, hmem⟩)
  · rw [hres]
    simp only [termsOf_registerFiles]
    split_ifs with hnil
    · intro hrows
      exact firstList_ne_none hmem hne (firstList_eq_none_iff.2 hrows)
    · exact hnil

/-! ## Repeats -/

/-- The same request again: `created_at` comes from the clock, the rest from the client. -/
def Repeats (a b : Request) : Prop :=
  match a, b with
  | .xorb r, .xorb r' => r' = r
  | .shard r, .shard r' => r'.repo = r.repo ∧ r'.body = r.body
  | _, _ => False

/-- The columns of a `files` row other than `created_at`. -/
def FileRow.columns (r : FileRow) : FileHash × RepoRef × Int × String :=
  (r.fileHash, r.repo, r.totalBytes, r.owner)

/-- The tables have the same rows, up to `created_at`. -/
structure SameTables (db db' : Db) : Prop where
  xorbs : (db'.xorbs.map (fun r => r.info)).Perm (db.xorbs.map (fun r => r.info))
  chunks : db'.chunks.Perm db.chunks
  xorbFrames : db'.xorbFrames.Perm db.xorbFrames
  files : (db'.files.map FileRow.columns).Perm (db.files.map FileRow.columns)
  fileTerms : db'.fileTerms.Perm db.fileTerms
  ownerQuotas : db'.ownerQuotas.Perm db.ownerQuotas

theorem SameTables.refl (db : Db) : SameTables db db :=
  ⟨.refl _, .refl _, .refl _, .refl _, .refl _, .refl _⟩

/-- The request is answered with success, and changes nothing but `created_at`. -/
structure NothingNew (svc : Service) (t : ServerState) (a : Request) : Prop where
  accepted : Accepted svc t a
  tables : SameTables t.db (handle svc t a).db
  blobs : (handle svc t a).blobs = t.blobs
  shards : (handle svc t a).shards = t.shards

/-- The xorbs that the lists of a shard name. -/
def ShardRequest.xorbs (r : ShardRequest) : List XorbHash :=
  r.files.flatMap (fun f => f.2.map (fun u => u.xorb))

/-- What a repeat needs of the state it comes to. A xorb: the quota of the owner can be read. A
    shard: the quota allows it, and for each hash it declares the row of the repository is the one it
    would write. -/
def RepeatFits (svc : Service) (t : ServerState) (a : Request) : Prop :=
  match a with
  | .xorb r => ∃ own, t.db.getOwnerQuota r.repo.owner = .ok own
  | .shard r => QuotaAllows svc t.db r.repo.owner r.xorbs ∧
      ∀ h last, lastList h r.files = some last → ∀ f ∈ t.db.files, f.fileHash = h →
        f.repo.repoId = r.repo.repoId → f.repo = r.repo ∧ f.totalBytes = asI64 (termSum last)
  | .quota _ _ => True

/-- **Repeating a xorb upload** never changes anything, and is accepted when the quota can be read. -/
theorem XorbStored.uploadXorb_iff {svc : Service} {t : ServerState} {r : XorbRequest}
    {layout : List XorbFrameRow} (h : XorbStored svc t r layout) :
    (∃ res, uploadXorb svc t r = .ok res) ↔ ∃ own, t.db.getOwnerQuota r.repo.owner = .ok own := by
  have hblob : (t.blobs r.hash).isSome = true := Option.ne_none_iff_isSome.1 h.blob
  have hsize : ¬ r.body.length > maxBodyBytes := Nat.not_lt.2 h.size
  have hcheck : checkXorb svc t r = .ok () ↔
      ∃ own, t.db.getOwnerQuota r.repo.owner = .ok own := by
    unfold checkXorb
    rw [if_neg hsize]
    cases hquota : effectiveQuota t.db svc.defaultQuotaBytes r.repo.owner with
    | error e =>
        simp only [bind, Except.bind, reduceCtorEq, false_iff]
        rintro ⟨own, hown⟩
        rw [effectiveQuota_ok.2 ⟨own, hown, rfl⟩] at hquota
        simp at hquota
    | ok q =>
        obtain ⟨own, hown, -⟩ := effectiveQuota_ok.1 hquota
        cases q with
        | none => simp [bind, Except.bind, hown]
        | some q => simp [bind, Except.bind, hown, hblob]
  rw [← hcheck]
  constructor
  · rintro ⟨res, hup⟩
    exact (uploadXorb_cases hup).1
  · intro hok
    unfold uploadXorb
    rw [hok, h.parsed, h.verified]
    simp [bind, Except.bind, hblob]

theorem XorbStored.handle_eq {svc : Service} {t : ServerState} {r : XorbRequest}
    {layout : List XorbFrameRow} (h : XorbStored svc t r layout) :
    handle svc t (.xorb r) = t := by
  -- whatever the answer: a rejected upload writes nothing, and an accepted one finds its rows
  have hlayout : t.db.registerXorbLayout r.hash layout = t.db := by
    obtain ⟨hfiles, hterms, hxorbs, hchunks, hquotas⟩ :=
      registerXorbLayout_frame t.db r.hash layout
    have hframes : (t.db.registerXorbLayout r.hash layout).xorbFrames = t.db.xorbFrames := by
      rw [registerXorbLayout_frames]
      refine Table.insertAll_of_taken (fun row hrow => ?_)
      obtain ⟨f, hf, rfl⟩ := List.mem_map.1 hrow
      exact h.frames f hf
    exact Db.ext hxorbs hchunks hframes hfiles hterms hquotas
  simp only [handle]
  cases hup : uploadXorb svc t r with
  | error e => rfl
  | ok res =>
      obtain ⟨-, -, layout', hparse, hdb, hshards, hblobs⟩ := uploadXorb_cases hup
      obtain rfl : layout = layout' := Except.ok.inj (h.parsed.symm.trans hparse)
      rw [if_pos (Option.ne_none_iff_isSome.1 h.blob)] at hblobs
      rw [hlayout] at hdb
      exact ServerState.ext hblobs hshards hdb

/-- The lists name the xorbs of the entries, in order. -/
theorem flatMap_xorb_filesToRegister {files : List ParsedFile}
    {lists : List (FileHash × List FileTerm)} (h : files.mapM fileTerms = .ok lists) :
    lists.flatMap (fun f => f.2.map (fun u => u.xorb)) =
      files.flatMap (fun f => f.entries.map (fun e => e.xorb)) := by
  have hall := Results.mapM_eq_ok.1 h
  induction hall with
  | nil => rfl
  | @cons p f ps fs hpf _ ih =>
      rw [List.flatMap_cons, List.flatMap_cons]
      have hxorbs : f.2.map (fun u => u.xorb) = p.entries.map (fun e => e.xorb) := by
        unfold fileTerms at hpf
        split_ifs at hpf
        rw [← Except.ok.inj hpf, List.map_map]
        refine List.ext_getElem (by simp) (fun i hi _ => ?_)
        simp
      rw [hxorbs, ih (Results.mapM_eq_ok.2 ‹_›)]

/-- Lists whose terms are there already insert none. -/
theorem registerFiles_fileTerms_of_present {db : Db} {repo : RepoRef}
    {files : List (FileHash × List FileTerm)} {now : Int}
    (h : ∀ k terms, (k, terms) ∈ files → terms ≠ [] → termsOf k db.fileTerms ≠ []) :
    (db.registerFiles repo files now).fileTerms = db.fileTerms := by
  induction files generalizing db with
  | nil => rfl
  | cons f files ih =>
      have hfold : db.registerFiles repo (f :: files) now =
          (db.writeFileInTx f.1 repo f.2 now).registerFiles repo files now := rfl
      have hstep : (db.writeFileInTx f.1 repo f.2 now).fileTerms = db.fileTerms := by
        unfold Db.writeFileInTx
        simp only
        split_ifs with hpresent
        · rfl
        · by_cases hnil : f.2 = []
          · rw [hnil, insertAll_batches]
            rfl
          · exact absurd (h f.1 f.2 List.mem_cons_self hnil) hpresent
      rw [hfold, ih, hstep]
      intro k terms hmem hne
      rw [hstep]
      exact h k terms (List.mem_cons_of_mem f hmem) hne

theorem fileKeys_nodup_registerFiles {db : Db} (repo : RepoRef)
    (files : List (FileHash × List FileTerm)) (now : Int)
    (h : (db.files.map FileRow.key).Nodup) :
    ((db.registerFiles repo files now).files.map FileRow.key).Nodup := by
  induction files generalizing db with
  | nil => exact h
  | cons f files ih =>
      refine ih ?_
      rw [writeFileInTx_files]
      exact Table.nodup_upsert h _

/-- Rows with different keys differ in other columns than `created_at`. -/
theorem nodup_columns {rows : List FileRow} (h : (rows.map FileRow.key).Nodup) :
    (rows.map FileRow.columns).Nodup := by
  have hkey : rows.map FileRow.key =
      (rows.map FileRow.columns).map (fun c => (c.1, c.2.1.repoId)) := by
    rw [List.map_map]
    rfl
  rw [hkey] at h
  exact h.of_map

/-- **When a repeated registration changes nothing but `created_at`.** -/
theorem sameTables_registerFiles_iff {db : Db} {repo : RepoRef}
    {files : List (FileHash × List FileTerm)} {now : Int} (hrows : OwnerRows db)
    (hkeys : (db.files.map FileRow.key).Nodup)
    (hfiles : ∀ h terms, (h, terms) ∈ files → (h, repo.repoId) ∈ db.files.map FileRow.key)
    (hterms : ∀ h terms, (h, terms) ∈ files → terms ≠ [] → termsOf h db.fileTerms ≠ []) :
    SameTables db (db.registerFiles repo files now) ↔
      ∀ h last, lastList h files = some last → ∀ f ∈ db.files, f.fileHash = h →
        f.repo.repoId = repo.repoId → f.repo = repo ∧ f.totalBytes = asI64 (termSum last) := by
  have hmem := fun f : FileRow => mem_files_registerFiles db repo now (r := f) rfl files
  constructor
  · intro hsame h last hlast f hf hhash hrepo
    have hnew : fileRow h repo last now ∈ (db.registerFiles repo files now).files := by
      rw [hmem]
      simp only [fileRow, hlast, true_or]
    obtain ⟨g, hg, hcols⟩ := List.mem_map.1 (hsame.files.subset (List.mem_map_of_mem hnew))
    simp only [FileRow.columns, fileRow, Prod.mk.injEq] at hcols
    obtain ⟨hghash, hgrepo, hgtotal, -⟩ := hcols
    have hfg : f = g := List.inj_on_of_nodup_map hkeys hf hg (by
      simp only [FileRow.key, hhash, hrepo, hghash, hgrepo])
    rw [hfg]
    exact ⟨hgrepo, hgtotal⟩
  · intro hfit
    obtain ⟨hxorbs, hchunks, hframes, hquotas⟩ := registerFiles_frame db repo files now
    refine ⟨by rw [hxorbs], by rw [hchunks], by rw [hframes], ?_,
      by rw [registerFiles_fileTerms_of_present hterms], by rw [hquotas]⟩
    -- `upsert` moves rows to the end, so the tables are compared as sets without duplicates
    have hnodup := nodup_columns (fileKeys_nodup_registerFiles repo files now hkeys)
    refine (List.perm_ext_iff_of_nodup hnodup (nodup_columns hkeys)).2 (fun c => ?_)
    -- the row of a declared hash in the repository, old and new
    have hcols : ∀ h last, lastList h files = some last → ∀ f ∈ db.files, f.fileHash = h →
        f.repo.repoId = repo.repoId → f.columns = (fileRow h repo last now).columns := by
      intro h last hlast f hf hhash hrepo
      obtain ⟨hsame, htotal⟩ := hfit h last hlast f hf hhash hrepo
      simp only [FileRow.columns, fileRow, hhash, hsame, htotal, hrows f hf]
    simp only [List.mem_map]
    constructor
    · rintro ⟨f, hf, rfl⟩
      rw [hmem] at hf
      cases hlast : lastList f.fileHash files with
      | none =>
          rw [hlast] at hf
          exact ⟨f, hf, rfl⟩
      | some last =>
          rw [hlast] at hf
          rcases hf with hnew | ⟨hold, -⟩
          · obtain ⟨g, hg, hkey⟩ := List.mem_map.1 (hfiles _ last (lastList_mem hlast))
            obtain ⟨hghash, hgrepo⟩ := Prod.mk.inj hkey
            refine ⟨g, hg, ?_⟩
            rw [hcols _ last hlast g hg hghash hgrepo, ← hnew]
          · exact ⟨f, hold, rfl⟩
    · rintro ⟨f, hf, rfl⟩
      cases hlast : lastList f.fileHash files with
      | none =>
          refine ⟨f, ?_, rfl⟩
          rw [hmem, hlast]
          exact hf
      | some last =>
          by_cases hrepo : f.repo.repoId = repo.repoId
          · refine ⟨fileRow f.fileHash repo last now, ?_, (hcols _ last hlast f hf rfl hrepo).symm⟩
            rw [hmem]
            simp only [fileRow, hlast, true_or]
          · refine ⟨f, ?_, rfl⟩
            rw [hmem, hlast]
            exact Or.inr ⟨hf, hrepo⟩

/-- Every state that requests lead to has one `files` row for each hash and repository. -/
theorem Reachable.fileKeys {svc : Service} {st : ServerState} (h : Reachable svc st) :
    (st.db.files.map FileRow.key).Nodup := by
  refine Reachable.invariant (fun s => (s.db.files.map FileRow.key).Nodup) List.nodup_nil
    (fun s a hs => ?_) h
  rcases handle_tables svc s a with ⟨hfiles, -⟩ | ⟨r, db, -, -, hfiles, -, hdb⟩
  · rw [hfiles]
    exact hs
  · rw [hdb]
    refine fileKeys_nodup_registerFiles r.repo r.files r.now ?_
    rw [hfiles]
    exact hs

section Shard

variable {svc : Service} {t : ServerState} {r : ShardRequest} {parsed : ParsedShard}

theorem ShardStored.casBlocks_eq (h : ShardStored svc t r parsed) :
    registerCasBlocks t.db parsed.casBlocks r.now = t.db := by
  obtain ⟨hfiles, hterms, hframes, hquotas⟩ :=
    registerCasBlocks_frame t.db parsed.casBlocks r.now
  have hxorbs : (registerCasBlocks t.db parsed.casBlocks r.now).xorbs = t.db.xorbs := by
    rw [registerCasBlocks_xorbs]
    refine Table.insertAll_of_taken (fun row hrow => ?_)
    obtain ⟨cb, hcb, rfl⟩ := List.mem_map.1 hrow
    exact h.xorbs cb hcb
  have hchunks : (registerCasBlocks t.db parsed.casBlocks r.now).chunks = t.db.chunks := by
    rw [registerCasBlocks_chunks]
    exact Table.insertAll_of_taken h.chunks
  exact Db.ext hxorbs hchunks hframes hfiles hterms hquotas

theorem ShardStored.accepted_iff (h : ShardStored svc t r parsed) :
    Accepted svc t (.shard r) ↔ QuotaAllows svc t.db r.repo.owner r.xorbs := by
  have hxorbs : r.xorbs = parsed.files.flatMap (fun f => f.entries.map (fun e => e.xorb)) :=
    flatMap_xorb_filesToRegister h.listed
  rw [accepted_iff_passesChecks, hxorbs, ← checkShardQuota_iff]
  unfold PassesChecks
  constructor
  · rintro ⟨parsed', files, hcheck, hquota, -⟩
    obtain rfl : parsed = parsed' := Except.ok.inj (h.checked.symm.trans hcheck)
    rw [h.casBlocks_eq] at hquota
    exact hquota
  · intro hquota
    refine ⟨parsed, r.files, h.checked, ?_, h.listed⟩
    rw [h.casBlocks_eq]
    exact hquota

/-- **Repeating a shard upload**, if it is accepted, only replaces the `files` rows. -/
theorem ShardStored.handle_eq (h : ShardStored svc t r parsed) (hacc : Accepted svc t (.shard r)) :
    handle svc t (.shard r) = { t with db := t.db.registerFiles r.repo r.files r.now } := by
  obtain ⟨parsed', hcheck, -, -, hres⟩ := accepted_shard hacc
  obtain rfl : parsed = parsed' := Except.ok.inj (h.checked.symm.trans hcheck)
  rw [h.casBlocks_eq] at hres
  rw [hres]
  have hshards : (t.putShard (svc.codec.blake3 r.body) r.body).shards = t.shards := by
    funext k
    simp only [ServerState.putShard]
    split_ifs with hk
    · obtain ⟨body, hbody⟩ := Option.ne_none_iff_exists'.1 h.shard
      rw [hk, hbody, Option.some_or]
    · rfl
  exact ServerState.ext rfl hshards rfl

theorem ShardStored.nothingNew_iff (h : ShardStored svc t r parsed) (hrows : OwnerRows t.db)
    (hkeys : (t.db.files.map FileRow.key).Nodup) :
    NothingNew svc t (.shard r) ↔ RepeatFits svc t (.shard r) := by
  have hsame : SameTables t.db (t.db.registerFiles r.repo r.files r.now) ↔ _ :=
    sameTables_registerFiles_iff hrows hkeys h.files h.terms
  simp only [RepeatFits]
  rw [← h.accepted_iff, ← hsame]
  constructor
  · rintro ⟨hacc, htables, -, -⟩
    rw [h.handle_eq hacc] at htables
    exact ⟨hacc, htables⟩
  · rintro ⟨hacc, htables⟩
    refine ⟨hacc, ?_, ?_, ?_⟩ <;> rw [h.handle_eq hacc]
    exact htables

end Shard

namespace Sample

/-- A xorb of nine bytes and a file that is its one byte, and then a quota for the owner. -/
def fileThenQuota (n : UInt64) : List Request :=
  [.xorb (byteUpload 0x61), .shard (blockFile repo 1 block), .quota "alice" (some n)]

theorem run_quota (n : UInt64) :
    Machine.run (requestStep service) (handle service (after [.xorb (byteUpload 0x61)])
      (.shard (blockFile repo 1 block))) [.quota "alice" (some n)] =
        some (after (fileThenQuota n)) := by
  unfold after fileThenQuota
  rw [run_requestStep]
  simp only [List.foldl_cons, List.foldl_nil]

theorem accepted_blockFile :
    Accepted service (after [.xorb (byteUpload 0x61)]) (.shard (blockFile repo 1 block)) := by
  unfold Accepted
  decide +kernel

end Sample

end BaleForGit.Server
