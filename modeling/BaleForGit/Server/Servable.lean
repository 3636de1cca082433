import BaleForGit.Server.Reads

set_option autoImplicit false

/-! # Reading after an accepted upload

What a client can expect of a shard upload that is answered with 200: that its files can be read,
and that they are what it declared. Neither follows from what `upload_shard` checks. The list that
is served is the first one with terms that anyone registered for the hash; its ranges and lengths
are checked against the frames only when it is read; and every total that is recorded for the hash
has to be its sum. -/

namespace BaleForGit.Server

/-! ## The state after an accepted shard -/

section After

variable {svc : Service} {st : ServerState} {r : ShardRequest}

theorem lastList_of_mem {h : FileHash} {terms : List FileTerm}
    {files : List (FileHash × List FileTerm)} (hmem : (h, terms) ∈ files) :
    ∃ last, lastList h files = some last := by
  cases hlast : lastList h files with
  | none => exact absurd hmem (not_mem_of_lastList_none hlast)
  | some last => exact ⟨last, rfl⟩

/-- **What readers of a declared hash find** after the shard. -/
theorem shard_read_tables (hacc : Accepted svc st (.shard r)) {h : FileHash}
    {last : List FileTerm} (hlast : lastList h r.files = some last) :
    (handle svc st (.shard r)).blobs = st.blobs ∧
      (∀ x, (handle svc st (.shard r)).db.xorbFrameLayout x = st.db.xorbFrameLayout x) ∧
      (handle svc st (.shard r)).db.fileTermList h = termsAfter st.db h r.files ∧
      (handle svc st (.shard r)).db.fileInRepo h r.repo.repoId = true ∧
      ∀ n, TotalsMatch (handle svc st (.shard r)).db h n ↔ termSum last = n ∧
        ∀ row ∈ st.db.files, row.fileHash = h → row.repo.repoId ≠ r.repo.repoId →
          row.totalBytes = n := by
  obtain ⟨parsed, -, -, -, hres⟩ := accepted_shard hacc
  rw [hres]
  obtain ⟨hfiles, hterms, hframes, -⟩ := registerCasBlocks_frame st.db parsed.casBlocks r.now
  obtain ⟨-, -, hframes', -⟩ := registerFiles_frame
    (registerCasBlocks st.db parsed.casBlocks r.now) r.repo r.files r.now
  refine ⟨rfl, fun x => ?_, ?_, ?_, fun n => ?_⟩
  · unfold Db.xorbFrameLayout
    rw [hframes', hframes]
  · rw [fileTermList_registerFiles]
    unfold termsAfter Db.fileTermList
    rw [hterms]
  · have hrow : fileRow h r.repo last r.now ∈ ((registerCasBlocks st.db parsed.casBlocks
        r.now).registerFiles r.repo r.files r.now).files := by
      rw [mem_files_registerFiles _ r.repo r.now rfl]
      simp only [fileRow, hlast, true_or]
    exact List.any_eq_true.2 ⟨_, hrow, by simp [fileRow]⟩
  · rw [← hfiles]
    exact totalsMatch_registerFiles_iff r.repo r.now hlast
      (files_termSum_lt r _ (lastList_mem hlast))

/-- The terms that a shard declares are of stored xorbs. -/
theorem declared_blobs (hacc : Accepted svc st (.shard r)) {f : FileHash × List FileTerm}
    (hf : f ∈ r.files) {t : FileTerm} (ht : t ∈ f.2) :
    st.blobs t.xorb ≠ none ∧ t.chunkIdxStart < t.chunkIdxEnd := by
  obtain ⟨parsed, hcheck, hfiles, -, -⟩ := accepted_shard hacc
  obtain ⟨-, -, hentries⟩ := checkShard_ok hcheck
  obtain ⟨p, hp, e, he, hx, hs, hend⟩ := filesToRegister_xorb hfiles hf ht
  rw [hx, hs, hend]
  exact hentries p hp e he

theorem content_congr {codec : Codec} {st st' : ServerState} (h : st'.blobs = st.blobs)
    (terms : List FileTerm) : content codec st' terms = content codec st terms := by
  unfold content termContent chunksOf
  rw [h]

end After

/-! ## Lists that say what their frames hold -/

/-- Every term is within the stored frames of its xorb and has their unpacked length. -/
def WellSized (db : Db) (terms : List FileTerm) : Prop :=
  ∀ t ∈ terms, InFrames (db.xorbFrameLayout t.xorb) t ∧
    t.unpackedSegmentBytes.toNat = framesUnpacked (db.xorbFrameLayout t.xorb) (termRange t)

instance (db : Db) (terms : List FileTerm) : Decidable (WellSized db terms) :=
  inferInstanceAs (Decidable (∀ t ∈ terms, _ ∧ _))

theorem SeqInv.content_length {svc : Service} {bodies : List (List UInt8)} {st : ServerState}
    (hinv : SeqInv svc bodies st) {terms : List FileTerm} (hsized : WellSized st.db terms) :
    (content svc.codec st terms).length =
      (terms.map (fun t => t.unpackedSegmentBytes.toNat)).sum := by
  unfold content
  rw [List.length_flatMap]
  congr 1
  refine List.map_congr_left (fun t ht => ?_)
  obtain ⟨hin, hlen⟩ := hsized t ht
  rw [hinv.termContent_length hin, hlen]

/-! ## Reading one's writes -/

/-- What a shard has to meet for `h` to be read as `terms`: the list kept for `h` (the one that is
    stored, else the first of the shard that has terms) can be served and denotes the same bytes,
    and no other total is recorded for `h`. -/
structure KeptAs (codec : Codec) (st : ServerState) (r : ShardRequest) (h : FileHash)
    (terms : List FileTerm) : Prop where
  kept : termsAfter st.db h r.files ≠ []
  served : ∀ t ∈ termsAfter st.db h r.files, InFrames (st.db.xorbFrameLayout t.xorb) t ∧
    t.unpackedSegmentBytes.toNat ≤ maxTermUnpackedBytes
  same : content codec st (termsAfter st.db h r.files) = content codec st terms
  total : termSum (termsAfter st.db h r.files) = termSum terms
  last : ∀ last, lastList h r.files = some last → termSum last = termSum terms
  others : ∀ row ∈ st.db.files, row.fileHash = h → row.repo.repoId ≠ r.repo.repoId →
    row.totalBytes = termSum terms

namespace Sample

/-- Two xorbs of one byte each. -/
def bytesUploaded : List Request := [.xorb (byteUpload 0x61), .xorb (byteUpload 0x62)]

/-- The file `hash32 1` as the one byte of the xorb `hash32 x`. -/
def byteFile (repo : RepoRef) (x : UInt8) : ShardRequest :=
  ⟨repo, shard [file 1 [(x, 1, 0, 1)]] [], 0⟩

/-- Two xorbs of one byte each, and a file of `alice` that is the first. -/
def fileUploaded : List Request := bytesUploaded ++ [.shard (byteFile repo 0x61)]

theorem granted_bob : Granted (fun _ => .ok ()) bob.repoId :=
  ⟨bob, by decide +kernel, rfl⟩

end Sample

/-- Later uploads of xorbs keep what readers find. -/
theorem SeqInv.xorb_keeps {svc : Service} {bodies : List (List UInt8)} {st : ServerState}
    (hcoll : NoCollision svc.codec bodies) (hinv : SeqInv svc bodies st) {r : XorbRequest}
    (hr : r.body ∈ bodies) :
    (Server.handle svc st (.xorb r)).db.files = st.db.files ∧
      (Server.handle svc st (.xorb r)).db.fileTerms = st.db.fileTerms ∧
      ∀ x, st.blobs x ≠ none → (Server.handle svc st (.xorb r)).blobs x ≠ none ∧
        (Server.handle svc st (.xorb r)).db.xorbFrameLayout x = st.db.xorbFrameLayout x := by
  simp only [Server.handle]
  cases hup : uploadXorb svc st r with
  | error e => exact ⟨rfl, rfl, fun x hx => ⟨hx, rfl⟩⟩
  | ok res =>
      obtain ⟨-, hver, layout, hparse, hdb, -, hblobs⟩ := uploadXorb_cases hup
      obtain ⟨frames, hframes, rfl⟩ := parseXorb_ok hparse
      obtain ⟨hfiles, hterms, -, -, -⟩ := registerXorbLayout_frame st.db r.hash (frameLayout frames)
      refine ⟨by rw [hdb, hfiles], by rw [hdb, hterms], fun x hx => ⟨?_, ?_⟩⟩
      · rw [hblobs]
        split_ifs with hsome
        · exact hx
        · by_cases hxr : x = r.hash
          · rw [hxr, Function.update_self]
            simp
          · rw [Function.update_of_ne hxr]
            exact hx
      · unfold Db.xorbFrameLayout
        rw [hdb]
        by_cases hxr : x = r.hash
        · obtain ⟨body, hblob⟩ := Option.ne_none_iff_exists'.1 (hxr ▸ hx)
          rw [hinv.layout_same hcoll hr hframes (verifyXorb_ok hver) hblob]
        · rw [Db.framesOf_registerXorbLayout_of_ne st.db hxr]

theorem run_xorbs_keep {svc : Service} {bodies : List (List UInt8)}
    (hcoll : NoCollision svc.codec bodies) {uploads : List XorbRequest} {st t : ServerState}
    (hbodies : ∀ r ∈ uploads, r.body ∈ bodies) (hinv : SeqInv svc bodies st)
    (hrun : Machine.run (requestStep svc) st (uploads.map .xorb) = some t) :
    t.db.files = st.db.files ∧ t.db.fileTerms = st.db.fileTerms ∧
      ∀ x, st.blobs x ≠ none → t.blobs x ≠ none ∧
        t.db.xorbFrameLayout x = st.db.xorbFrameLayout x := by
  induction uploads generalizing st with
  | nil =>
      obtain rfl : st = t := Option.some.inj hrun
      exact ⟨rfl, rfl, fun x hx => ⟨hx, rfl⟩⟩
  | cons r uploads ih =>
      obtain ⟨s, hs, hrest⟩ := Machine.run_cons_eq_some hrun
      obtain rfl : handle svc st (.xorb r) = s := Option.some.inj hs
      have hr := hbodies r List.mem_cons_self
      obtain ⟨hfiles, hterms, hkeep⟩ := hinv.xorb_keeps hcoll hr
      have hinv' : SeqInv svc bodies (handle svc st (.xorb r)) :=
        hinv.handle hcoll (fun r' hr' => by
          obtain rfl := Request.xorb.inj hr'
          exact hr)
      obtain ⟨hfiles', hterms', hkeep'⟩ :=
        ih (fun r' hr' => hbodies r' (List.mem_cons_of_mem r hr')) hinv' hrest
      refine ⟨hfiles'.trans hfiles, hterms'.trans hterms, fun x hx => ?_⟩
      obtain ⟨hblob, hlayout⟩ := hkeep x hx
      obtain ⟨hblob', hlayout'⟩ := hkeep' x hblob
      exact ⟨hblob', hlayout'.trans hlayout⟩

/-- Both read paths serve the file, with the lengths they announce. -/
structure ServedWhole (svc : Service) (access : RepoRef → CoreResult Unit) (st : ServerState)
    (pick : List FileRow → Option FileRow) (repoId : String) (h : FileHash) : Prop where
  reconstruction : ∃ resp, getReconstruction st.db pick repoId h = .ok resp ∧
    ∀ t ∈ resp.terms, t.unpackedLength = framesUnpacked (st.db.xorbFrameLayout t.hash) t.range
  download : ∃ d bytes, getFileDownload svc access st pick repoId h = .ok d ∧ d.body = .ok bytes ∧
    d.contentLength = bytes.length

/-- What a shard has to meet for a hash it declares to be served: some list of the hash has terms,
    the last has the total of the first that does, and the terms of that one say what the stored
    frames of their xorbs hold, and no more than the cap. -/
def DeclaresServable (db : Db) (files : List (FileHash × List FileTerm)) (h : FileHash) : Prop :=
  ∃ first, firstList h files = some first ∧
    (∀ last, lastList h files = some last → termSum last = termSum first) ∧
    WellSized db first ∧ ∀ t ∈ first, t.unpackedSegmentBytes.toNat ≤ maxTermUnpackedBytes

/-- Serving, for a hash whose stored terms are known. -/
theorem SeqInv.forall_servedWhole_iff {svc : Service} {bodies : List (List UInt8)}
    {st : ServerState} (hinv : SeqInv svc bodies st) {access : RepoRef → CoreResult Unit}
    {repoId : String} {h : FileHash} (hgrant : Granted access repoId)
    (hsum : termSum (st.db.fileTermList h) =
      ((st.db.fileTermList h).map (fun t => t.unpackedSegmentBytes.toNat)).sum) :
    (∀ pick, LimitOne pick → ServedWhole svc access st pick repoId h) ↔
      st.db.fileInRepo h repoId = true ∧ st.db.fileTermList h ≠ [] ∧
        TotalsMatch st.db h (termSum (st.db.fileTermList h)) ∧
        WellSized st.db (st.db.fileTermList h) ∧
        ∀ t ∈ st.db.fileTermList h, t.unpackedSegmentBytes.toNat ≤ maxTermUnpackedBytes := by
  constructor
  · intro hserved
    have hlookup : ∀ pick, LimitOne pick →
        st.db.lookupFile pick h = .ok (some (st.db.fileTermList h)) := by
      intro pick hpick
      obtain ⟨resp, hresp, -⟩ := (hserved pick hpick).reconstruction
      obtain ⟨-, terms, hlookup, -⟩ := getReconstruction_eq_ok.1 hresp
      rw [(lookupFile_eq_some.1 hlookup).1]
      exact hlookup
    obtain ⟨hne, htotals⟩ := forall_lookupFile_iff.1 hlookup
    -- ranges and lengths do not depend on the row that is picked, so any one will do
    obtain ⟨⟨resp, hresp, hlens⟩, d, bytes, hd, hbody, -⟩ := hserved List.head? limitOne_head
    obtain ⟨hrepo, terms, hterms, hin, rfl⟩ := getReconstruction_eq_ok.1 hresp
    obtain ⟨-, terms', hterms', rfl⟩ := (getFileDownload_eq_ok hgrant).1 hd
    obtain rfl := (lookupFile_eq_some.1 hterms).1
    obtain rfl := (lookupFile_eq_some.1 hterms').1
    refine ⟨hrepo, hne, htotals, fun t ht => ⟨hin t ht, ?_⟩, fun t ht => ?_⟩
    · exact hlens (wireTerm t) (List.mem_map_of_mem ht)
    · exact ((hinv.body_stream.1 hbody).1 t ht).2
  · rintro ⟨hrepo, hne, htotals, hsized, hcap⟩ pick hpick
    have hlookup := forall_lookupFile_iff.2 ⟨hne, htotals⟩ pick hpick
    refine ⟨⟨reconstruction st.db (st.db.fileTermList h), ?_, ?_⟩,
      ⟨termSum (st.db.fileTermList h),
        streamTerms (fetchAndDecompressTerm svc st) (st.db.fileTermList h)⟩,
      content svc.codec st (st.db.fileTermList h), ?_, ?_, ?_⟩
    · exact getReconstruction_eq_ok.2 ⟨hrepo, _, hlookup, fun t ht => (hsized t ht).1, rfl⟩
    · intro w hw
      obtain ⟨t, ht, rfl⟩ := List.mem_map.1 hw
      exact (hsized t ht).2
    · exact (getFileDownload_eq_ok hgrant).2 ⟨hrepo, _, hlookup, rfl⟩
    · exact hinv.body_stream.2 ⟨fun t ht => ⟨(hsized t ht).1, hcap t ht⟩, rfl⟩
    · rw [hinv.content_length hsized]
      exact hsum

theorem wellSized_congr {db db' : Db} {terms : List FileTerm}
    (h : ∀ t ∈ terms, db'.xorbFrameLayout t.xorb = db.xorbFrameLayout t.xorb) :
    WellSized db' terms ↔ WellSized db terms := by
  unfold WellSized
  refine forall₂_congr (fun t ht => ?_)
  rw [h t ht]

namespace Sample

/-- The file `hash32 1` as the chunks of the xorb `hash32 0x61` before `stop`, as one byte. -/
def rangeFile (stop : UInt8) : ShardRequest := ⟨repo, shard [file 1 [(0x61, 1, 0, stop)]] [], 0⟩

theorem granted_alice : Granted (fun _ => .ok ()) repo.repoId :=
  ⟨repo, by decide +kernel, rfl⟩

end Sample

end BaleForGit.Server
