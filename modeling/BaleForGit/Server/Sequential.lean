import BaleForGit.Server.Accounting
import BaleForGit.Server.Frames
import BaleForGit.Server.Registration

set_option autoImplicit false

/-! # States that requests one at a time lead to

`SeqInv` collects what holds of a server that finishes each request before the next: blobs are
verified and have their own layout, rows and terms are of xorbs with blobs, and the term rows of a
hash are a list.

That a second body of a xorb has as many frames as the first rests on the Merkle hash: `NoCollision`
says that `xorb_hash` has no collision among the uploaded bodies. -/

namespace BaleForGit.Server

/-! ## The hash of a xorb -/

section Entries

variable (codec : Codec)

/-- What `verify_xorb_body` hashes: the hash and length of every chunk. -/
def xorbEntries (body : List UInt8) : Except XorbVerifyError (List (Hash32 × Nat)) := do
  let frames ← (parseXorbFrames body).mapError .parse
  frames.zipIdx.mapM (fun fi => do
    let decompressed ← frameChunk codec body fi.2 fi.1
    return (codec.computeDataHash decompressed, decompressed.length))

/-- `xorb_hash` has no collision among these bodies. -/
def NoCollision (bodies : List (List UInt8)) : Prop :=
  ∀ b ∈ bodies, ∀ b' ∈ bodies, ∀ es es', xorbEntries codec b = .ok es →
    xorbEntries codec b' = .ok es' → codec.xorbHash es = codec.xorbHash es' → es = es'

variable {codec}

/-- Collisions can be looked for pair by pair. -/
theorem noCollision_of_check {bodies : List (List UInt8)}
    (h : ∀ b ∈ bodies, ∀ b' ∈ bodies,
      (match xorbEntries codec b, xorbEntries codec b' with
        | .ok es, .ok es' => decide (codec.xorbHash es = codec.xorbHash es' → es = es')
        | _, _ => true) = true) : NoCollision codec bodies := by
  intro b hb b' hb' es es' hes hes' hhash
  have hpair := h b hb b' hb'
  rw [hes, hes'] at hpair
  exact of_decide_eq_true hpair hhash

/-- What a verified body is. -/
theorem verifyXorbBody_ok {body : List UInt8} {x : XorbHash}
    (h : verifyXorbBody codec body x = .ok ()) :
    ∃ frames es, parseXorbFrames body = .ok frames ∧ xorbEntries codec body = .ok es ∧
      es.length = frames.length ∧ codec.xorbHash es = x := by
  unfold verifyXorbBody at h
  cases hframes : parseXorbFrames body with
  | error e => simp [hframes, Except.mapError, bind, Except.bind] at h
  | ok frames =>
      simp only [hframes, Except.mapError, bind, Except.bind] at h
      split at h
      · simp at h
      · next es hes =>
          refine ⟨frames, es, rfl, ?_, ?_, ?_⟩
          · simp only [xorbEntries, hframes, Except.mapError, bind, Except.bind]
            exact hes
          · rw [Results.length_of_mapM hes, List.length_zipIdx]
          · split_ifs at h with hhash
            exact not_not.1 hhash

end Entries

/-! ## The invariant -/

def uploadedBodies (reqs : List Request) : List (List UInt8) :=
  reqs.filterMap (fun a => match a with
    | .xorb r => some r.body
    | _ => none)

theorem mem_uploadedBodies {reqs : List Request} {r : XorbRequest} (h : Request.xorb r ∈ reqs) :
    r.body ∈ uploadedBodies reqs :=
  List.mem_filterMap.2 ⟨.xorb r, h, rfl⟩

/-- `bodies` are the bodies that xorb uploads may have. -/
structure SeqInv (svc : Service) (bodies : List (List UInt8)) (st : ServerState) : Prop where
  agree : Agree st
  noLayout : ∀ x, st.blobs x = none → framesOf x st.db.xorbFrames = []
  verified : ∀ x body, st.blobs x = some body →
    verifyXorbBody svc.codec body x = .ok () ∧ body.length ≤ maxBodyBytes ∧ body ∈ bodies
  rowBlobs : ∀ r ∈ st.db.xorbs, st.blobs r.info.xorb ≠ none
  rowKeys : (st.db.xorbs.map XorbRow.key).Nodup
  termBlobs : ∀ t ∈ st.db.fileTerms, st.blobs t.term.xorb ≠ none ∧
    t.term.chunkIdxStart < t.term.chunkIdxEnd
  termFiles : ∀ t ∈ st.db.fileTerms, ∃ f ∈ st.db.files, f.fileHash = t.fileHash
  termLists : ∀ h, termsOf h st.db.fileTerms = termRows h (st.db.fileTermList h)

theorem seqInv_empty (svc : Service) (bodies : List (List UInt8)) :
    SeqInv svc bodies ServerState.empty where
  agree := fun x body h => by simp [ServerState.empty] at h
  noLayout := fun _ _ => rfl
  verified := fun x body h => by simp [ServerState.empty] at h
  rowBlobs := fun r hr => by simp [ServerState.empty, Db.empty] at hr
  rowKeys := List.nodup_nil
  termBlobs := fun t ht => by simp [ServerState.empty, Db.empty] at ht
  termFiles := fun t ht => by simp [ServerState.empty, Db.empty] at ht
  termLists := fun h => rfl

section Steps

variable {svc : Service} {bodies : List (List UInt8)} {st : ServerState}

theorem parseXorb_ok {r : XorbRequest} {layout : List XorbFrameRow} (h : parseXorb r = .ok layout) :
    ∃ frames, parseXorbFrames r.body = .ok frames ∧ layout = frameLayout frames := by
  unfold parseXorb at h
  cases hframes : parseXorbFrames r.body with
  | error e => simp [hframes] at h
  | ok frames =>
      simp only [hframes, Except.ok.injEq] at h
      exact ⟨frames, rfl, h.symm⟩

theorem verifyXorb_ok {r : XorbRequest} (h : verifyXorb svc r = .ok ()) :
    verifyXorbBody svc.codec r.body r.hash = .ok () := by
  unfold verifyXorb at h
  cases hv : verifyXorbBody svc.codec r.body r.hash with
  | ok u => rfl
  | error e => cases e <;> simp [hv] at h

theorem frameLayout_indexes {frames frames' : List XorbChunkFrame}
    (h : frames.length = frames'.length) :
    (frameLayout frames).map XorbFrameRow.frameIndex =
      (frameLayout frames').map XorbFrameRow.frameIndex := by
  refine List.ext_getElem (by simp [frameLayout, h]) (fun i hi hi' => ?_)
  simp [frameLayout]

/-- **A second body of a xorb adds no frames.** -/
theorem SeqInv.layout_same (hcoll : NoCollision svc.codec bodies) (hinv : SeqInv svc bodies st)
    {r : XorbRequest} (hr : r.body ∈ bodies) {frames : List XorbChunkFrame}
    (hframes : parseXorbFrames r.body = .ok frames)
    (hverify : verifyXorbBody svc.codec r.body r.hash = .ok ()) {body : List UInt8}
    (hblob : st.blobs r.hash = some body) :
    (st.db.registerXorbLayout r.hash (frameLayout frames)).xorbFrames = st.db.xorbFrames := by
  obtain ⟨frames', hparse', hlayout⟩ := hinv.agree r.hash body hblob
  obtain ⟨hverify', -, hbody⟩ := hinv.verified r.hash body hblob
  obtain ⟨f, es, hf, hes, hlen, hhash⟩ := verifyXorbBody_ok hverify
  obtain ⟨f', es', hf', hes', hlen', hhash'⟩ := verifyXorbBody_ok hverify'
  rw [hframes, Except.ok.injEq] at hf
  rw [hparse', Except.ok.injEq] at hf'
  have heq := hcoll _ hr _ hbody es es' hes hes' (hhash.trans hhash'.symm)
  have hsame : frames.length = frames'.length := by
    rw [hf, hf', ← hlen, ← hlen', heq]
  refine Db.registerXorbLayout_of_taken st.db (fun g hg => ?_)
  rw [hlayout, ← frameLayout_indexes hsame]
  exact List.mem_map_of_mem hg

theorem SeqInv.xorb (hcoll : NoCollision svc.codec bodies) (hinv : SeqInv svc bodies st)
    {r : XorbRequest} (hr : r.body ∈ bodies) {res : ServerState × Bool}
    (h : uploadXorb svc st r = .ok res) : SeqInv svc bodies res.1 := by
  obtain ⟨hcheck, hver, layout, hparse, hdb, -, hblobs⟩ := uploadXorb_cases h
  obtain ⟨frames, hframes, rfl⟩ := parseXorb_ok hparse
  have hverify := verifyXorb_ok hver
  obtain ⟨hfiles, hterms, hxorbs, -, -⟩ := registerXorbLayout_frame st.db r.hash (frameLayout frames)
  have hlist : ∀ h, res.1.db.fileTermList h = st.db.fileTermList h := by
    intro h
    unfold Db.fileTermList
    rw [hdb, hterms]
  by_cases hsome : (st.blobs r.hash).isSome = true
  · -- the xorb is there: nothing changes
    obtain ⟨body, hblob⟩ := Option.isSome_iff_exists.1 hsome
    rw [if_pos hsome] at hblobs
    have hframesEq : res.1.db.xorbFrames = st.db.xorbFrames := by
      rw [hdb]
      exact hinv.layout_same hcoll hr hframes hverify hblob
    refine ⟨fun x b hb => ?_, ?_, ?_, ?_, ?_, ?_, ?_, ?_⟩
    · rw [hblobs] at hb
      unfold Db.xorbFrameLayout
      rw [hframesEq]
      exact hinv.agree x b hb
    · rw [hblobs, hframesEq]
      exact hinv.noLayout
    · rw [hblobs]
      exact hinv.verified
    · rw [hblobs, hdb, hxorbs]
      exact hinv.rowBlobs
    · rw [hdb, hxorbs]
      exact hinv.rowKeys
    · rw [hblobs, hdb, hterms]
      exact hinv.termBlobs
    · rw [hdb, hterms, hfiles]
      exact hinv.termFiles
    · intro h
      rw [hlist h, hdb, hterms]
      exact hinv.termLists h
  · -- the first body of the xorb
    have hnone : st.blobs r.hash = none := by simpa using hsome
    rw [if_neg hsome] at hblobs
    -- rows and terms only ask for some blob, so a new one does not hurt them
    have hmono := (uploadXorb_blobs h).1
    refine ⟨fun x b hb => ?_, fun x hx => ?_, fun x b hb => ?_, ?_, ?_, ?_, ?_, ?_⟩
    · rw [hblobs] at hb
      by_cases hxr : x = r.hash
      · subst hxr
        rw [Function.update_self, Option.some.injEq] at hb
        subst hb
        refine ⟨frames, hframes, ?_⟩
        rw [hdb]
        exact Db.xorbFrameLayout_registerXorbLayout_first st.db (hinv.noLayout _ hnone)
          (frameLayout_pairwise hframes)
      · rw [Function.update_of_ne hxr] at hb
        unfold Db.xorbFrameLayout
        rw [hdb, Db.framesOf_registerXorbLayout_of_ne st.db hxr]
        exact hinv.agree x b hb
    · rw [hblobs] at hx
      by_cases hxr : x = r.hash
      · rw [hxr, Function.update_self] at hx
        simp at hx
      · rw [Function.update_of_ne hxr] at hx
        rw [hdb, Db.framesOf_registerXorbLayout_of_ne st.db hxr]
        exact hinv.noLayout x hx
    · rw [hblobs] at hb
      by_cases hxr : x = r.hash
      · rw [hxr, Function.update_self, Option.some.injEq] at hb
        rw [hxr, ← hb]
        exact ⟨hverify, checkXorb_length hcheck, hr⟩
      · rw [Function.update_of_ne hxr] at hb
        exact hinv.verified x b hb
    · rw [hdb, hxorbs]
      exact fun row hrow => hmono _ (hinv.rowBlobs row hrow)
    · rw [hdb, hxorbs]
      exact hinv.rowKeys
    · rw [hdb, hterms]
      exact fun t ht => ⟨hmono _ (hinv.termBlobs t ht).1, (hinv.termBlobs t ht).2⟩
    · rw [hdb, hterms, hfiles]
      exact hinv.termFiles
    · intro h
      rw [hlist h, hdb, hterms]
      exact hinv.termLists h

/-- The CAS blocks of a checked shard. -/
theorem SeqInv.casBlocks (hinv : SeqInv svc bodies st) {body : List UInt8} {parsed : ParsedShard}
    (hcheck : checkShard st body = .ok parsed) (now : Int) :
    SeqInv svc bodies { st with db := registerCasBlocks st.db parsed.casBlocks now } := by
  obtain ⟨hfiles, hterms, hframes, -⟩ := registerCasBlocks_frame st.db parsed.casBlocks now
  obtain ⟨-, hblocks, -⟩ := checkShard_ok hcheck
  have hlist : ∀ h, (registerCasBlocks st.db parsed.casBlocks now).fileTermList h =
      st.db.fileTermList h := by
    intro h
    unfold Db.fileTermList
    rw [hterms]
  refine ⟨fun x b hb => ?_, ?_, hinv.verified, fun row hrow => ?_, ?_, ?_, ?_, fun h => ?_⟩
  · unfold Db.xorbFrameLayout
    rw [hframes]
    exact hinv.agree x b hb
  · rw [hframes]
    exact hinv.noLayout
  · rw [registerCasBlocks_xorbs, Table.insertAll_eq_append_fresh, List.mem_append] at hrow
    rcases hrow with hold | hnew
    · exact hinv.rowBlobs row hold
    · obtain ⟨cb, hcb, rfl⟩ := List.mem_map.1 (Table.mem_fresh hnew).1
      exact hblocks cb hcb
  · rw [registerCasBlocks_xorbs]
    exact Table.nodup_insertAll hinv.rowKeys
  · rw [hterms]
    exact hinv.termBlobs
  · rw [hterms, hfiles]
    exact hinv.termFiles
  · rw [hlist h, hterms]
    exact hinv.termLists h

/-- Registering the files of a checked shard. -/
theorem SeqInv.files (hinv : SeqInv svc bodies st) (repo : RepoRef)
    {files : List (FileHash × List FileTerm)} (now : Int)
    (hblobs : ∀ f ∈ files, ∀ t ∈ f.2, st.blobs t.xorb ≠ none ∧ t.chunkIdxStart < t.chunkIdxEnd) :
    SeqInv svc bodies { st with db := st.db.registerFiles repo files now } := by
  obtain ⟨hxorbs, -, hframes, -⟩ := registerFiles_frame st.db repo files now
  refine ⟨fun x b hb => ?_, ?_, hinv.verified, ?_, ?_, fun t ht => ?_, fun t ht => ?_, fun h => ?_⟩
  · unfold Db.xorbFrameLayout
    rw [hframes]
    exact hinv.agree x b hb
  · rw [hframes]
    exact hinv.noLayout
  · rw [hxorbs]
    exact hinv.rowBlobs
  · rw [hxorbs]
    exact hinv.rowKeys
  · rcases mem_fileTerms_registerFiles st.db repo now ht with hold | ⟨terms, hterms, hterm⟩
    · exact hinv.termBlobs t hold
    · exact hblobs _ hterms _ hterm
  · cases hlast : lastList t.fileHash files with
    | some terms =>
        refine ⟨fileRow t.fileHash repo terms now, ?_, rfl⟩
        rw [mem_files_registerFiles st.db repo now rfl]
        simp only [fileRow, hlast, true_or]
    | none =>
        rcases mem_fileTerms_registerFiles st.db repo now ht with hold | ⟨terms, hterms, -⟩
        · obtain ⟨f, hf, hhash⟩ := hinv.termFiles t hold
          refine ⟨f, ?_, hhash⟩
          rw [mem_files_registerFiles st.db repo now hhash]
          simp only [hlast]
          exact hf
        · exact absurd hterms (not_mem_of_lastList_none hlast)
  · simp only
    rw [fileTermList_registerFiles, termsOf_registerFiles]
    unfold termsAfter
    by_cases hnone : termsOf h st.db.fileTerms = []
    · rw [if_pos hnone, if_pos (fileTermList_eq_nil.2 hnone)]
      unfold firstRows
      cases firstList h files with
      | none => rfl
      | some terms => rfl
    · rw [if_neg hnone, if_neg (fun hnil => hnone (fileTermList_eq_nil.1 hnil))]
      exact hinv.termLists h

theorem SeqInv.putShard (hinv : SeqInv svc bodies st) (h : ShardHash) (body : List UInt8) :
    SeqInv svc bodies (st.putShard h body) :=
  ⟨hinv.agree, hinv.noLayout, hinv.verified, hinv.rowBlobs, hinv.rowKeys, hinv.termBlobs,
    hinv.termFiles, hinv.termLists⟩

/-- **Every request keeps the invariant.** -/
theorem SeqInv.handle (hcoll : NoCollision svc.codec bodies) (hinv : SeqInv svc bodies st)
    {a : Request} (ha : ∀ r, a = .xorb r → r.body ∈ bodies) : SeqInv svc bodies (handle svc st a) := by
  cases a with
  | xorb r =>
      simp only [Server.handle]
      cases hup : uploadXorb svc st r with
      | error e => exact hinv
      | ok res => exact hinv.xorb hcoll (ha r rfl) hup
  | shard r =>
      simp only [Server.handle]
      rcases uploadShard_cases svc st r with ⟨e, -, hres⟩ | ⟨parsed, hcheck, hres⟩
      · rw [hres]
        exact hinv
      · have hinv₁ := hinv.casBlocks hcheck r.now
        rcases hres with ⟨e, hres, -⟩ | ⟨files, -, hlist, hres⟩
        · rw [hres]
          exact hinv₁
        · rw [hres]
          obtain ⟨-, -, hentries⟩ := checkShard_ok hcheck
          refine (hinv₁.putShard (svc.codec.blake3 r.body) r.body).files r.repo r.now
            (fun f hf t ht => ?_)
          obtain ⟨p, hp, e, he, hx, hs, hend⟩ := filesToRegister_xorb hlist hf ht
          rw [hx, hs, hend]
          exact hentries p hp e he
  | quota owner limit =>
      simp only [Server.handle]
      obtain ⟨hxorbs, -, hframes, hfiles, hterms⟩ := setOwnerQuota_frame st.db owner limit
      refine ⟨fun x b hb => ?_, ?_, hinv.verified, ?_, ?_, ?_, ?_, fun h => ?_⟩
      · unfold Db.xorbFrameLayout
        rw [hframes]
        exact hinv.agree x b hb
      · rw [hframes]
        exact hinv.noLayout
      · rw [hxorbs]
        exact hinv.rowBlobs
      · rw [hxorbs]
        exact hinv.rowKeys
      · rw [hterms]
        exact hinv.termBlobs
      · rw [hterms, hfiles]
        exact hinv.termFiles
      · unfold Db.fileTermList
        rw [hterms]
        exact hinv.termLists h

end Steps

/-- **Every state of every run meets the invariant.** -/
theorem run_seqInv {svc : Service} {reqs : List Request} {st t : ServerState}
    {bodies : List (List UInt8)} (hcoll : NoCollision svc.codec bodies)
    (hreqs : ∀ r, Request.xorb r ∈ reqs → r.body ∈ bodies) (hinv : SeqInv svc bodies st)
    (hrun : Machine.run (requestStep svc) st reqs = some t) : SeqInv svc bodies t := by
  induction reqs generalizing st with
  | nil =>
      simp only [Machine.run, Option.some.injEq] at hrun
      rw [← hrun]
      exact hinv
  | cons a reqs ih =>
      obtain ⟨s', hs', hrest⟩ := Machine.run_cons_eq_some hrun
      simp only [requestStep, Option.some.injEq] at hs'
      refine ih (fun r hr => hreqs r (List.mem_cons_of_mem a hr)) ?_ hrest
      rw [← hs']
      exact hinv.handle hcoll (fun r hr => hreqs r (hr ▸ List.mem_cons_self))

end BaleForGit.Server
