import BaleForGit.Server.Content
import BaleForGit.Server.Readable

set_option autoImplicit false

/-! # When a file is served

`Reads` says that both read paths succeed and give the same bytes; `reads_iff` says when, from what
the tables hold for the hash. A file is served whichever row `LIMIT 1` returns exactly when all
recorded totals of its hash are the sum of its terms. -/

namespace BaleForGit.Server

/-! ## What a reader gets -/

/-- What a client gets by fetching a range and decompressing it. -/
def fetchRange (codec : Codec) (st : ServerState) (xf : XorbHash × FetchInfo) :
    Option (List UInt8) :=
  match st.getXorbRange xf.1 xf.2.urlRange.start (xf.2.urlRange.stop + 1) with
  | .error _ => none
  | .ok body => (decompressXorbChunksInto codec body).toOption

/-- What a client gets by fetching all ranges of a response. -/
def ReconstructionResponse.fetched (codec : Codec) (st : ServerState)
    (resp : ReconstructionResponse) : Option (List UInt8) :=
  (resp.fetchInfo.mapM (fetchRange codec st)).map List.flatten

/-- The bytes of a stream that is not truncated. -/
def Download.body (d : Download) : Except String (List UInt8) :=
  (d.stream.mapM id).map List.flatten

/-- The forge lets the token read the repository. -/
def Granted (access : RepoRef → CoreResult Unit) (repoId : String) : Prop :=
  ∃ repo, parseOwnerName repoId = .ok repo ∧ access repo = .ok ()

/-- Both read paths give `bytes`, and the download announces their number. -/
structure Reads (svc : Service) (access : RepoRef → CoreResult Unit) (st : ServerState)
    (pick : List FileRow → Option FileRow) (repoId : String) (h : FileHash) (bytes : List UInt8) :
    Prop where
  reconstruction : ∃ resp, getReconstruction st.db pick repoId h = .ok resp ∧
    resp.fetched svc.codec st = some bytes
  download : ∃ d, getFileDownload svc access st pick repoId h = .ok d ∧ d.body = .ok bytes ∧
    d.contentLength = bytes.length

/-! ## Responses -/

/-- The byte range of a term within the frames. -/
def termBytes (layout : List XorbFrameRow) (t : FileTerm) : Nat × Nat :=
  (termByteRange layout t).toOption.getD (0, 0)

def fetchOf (db : Db) (t : FileTerm) : XorbHash × FetchInfo :=
  (t.xorb, ⟨termRange t, ⟨(termBytes (db.xorbFrameLayout t.xorb) t).1,
    (termBytes (db.xorbFrameLayout t.xorb) t).2 - 1⟩⟩)

/-- The response for a term list that can be served. -/
def reconstruction (db : Db) (terms : List FileTerm) : ReconstructionResponse :=
  ⟨0, terms.map wireTerm, terms.map (fetchOf db)⟩

theorem termByteRange_eq_ok {layout : List XorbFrameRow} {t : FileTerm} {range : Nat × Nat} :
    termByteRange layout t = .ok range ↔ InFrames layout t ∧ range = termBytes layout t := by
  unfold termBytes
  unfold termByteRange
  split_ifs with hin
  · simp [hin, Except.toOption, eq_comm]
  · simp [hin]

theorem reconstructTerm_eq_ok {db : Db} {terms : List FileTerm} {t : FileTerm} (ht : t ∈ terms)
    {out : ReconstructionTerm × XorbHash × FetchInfo} :
    reconstructTerm (db.xorbFrameLayouts (terms.map (fun t => t.xorb))) t = .ok out ↔
      InFrames (db.xorbFrameLayout t.xorb) t ∧ out = (wireTerm t, fetchOf db t) := by
  have hmem : t.xorb ∈ terms.map (fun t => t.xorb) := List.mem_map_of_mem ht
  unfold reconstructTerm Db.xorbFrameLayouts
  by_cases hne : db.xorbFrameLayout t.xorb = []
  · rw [if_neg (fun h => h.2 hne)]
    simp [hne, InFrames]
    intro hlt hzero
    have hpos := UInt32.lt_iff_toNat_lt.1 hlt
    rw [hzero] at hpos
    simp at hpos
  · rw [if_pos ⟨hmem, hne⟩]
    simp only
    rw [Results.bind_eq_ok]
    constructor
    · rintro ⟨range, hrange, hout⟩
      obtain ⟨hin, rfl⟩ := termByteRange_eq_ok.1 hrange
      exact ⟨hin, (Except.ok.inj hout).symm⟩
    · rintro ⟨hin, rfl⟩
      exact ⟨termBytes (db.xorbFrameLayout t.xorb) t, termByteRange_eq_ok.2 ⟨hin, rfl⟩, rfl⟩

/-- **What `get_reconstruction` answers.** -/
theorem getReconstruction_eq_ok {db : Db} {pick : List FileRow → Option FileRow} {repoId : String}
    {h : FileHash} {resp : ReconstructionResponse} :
    getReconstruction db pick repoId h = .ok resp ↔
      db.fileInRepo h repoId = true ∧ ∃ terms, db.lookupFile pick h = .ok (some terms) ∧
        (∀ t ∈ terms, InFrames (db.xorbFrameLayout t.xorb) t) ∧ resp = reconstruction db terms := by
  unfold getReconstruction
  split_ifs with hrepo
  · simp only [hrepo, true_and]
    unfold buildReconstructionResponse
    rw [Results.bind_eq_ok]
    constructor
    · rintro ⟨found, hfound, hresp⟩
      rw [Results.mapError_eq_ok] at hfound
      cases found with
      | none => simp at hresp
      | some terms =>
          obtain ⟨out, hout, hresp⟩ := Results.bind_eq_ok.1 hresp
          have hin : ∀ t ∈ terms, InFrames (db.xorbFrameLayout t.xorb) t := by
            intro t ht
            obtain ⟨p, hp⟩ := Results.exists_mapM_eq_ok.1 ⟨out, hout⟩ t ht
            exact ((reconstructTerm_eq_ok ht).1 hp).1
          have heq : out = terms.map (fun t => (wireTerm t, fetchOf db t)) := by
            refine Except.ok.inj (hout.symm.trans (Results.mapM_eq_ok_map.2 (fun t ht => ?_)))
            exact (reconstructTerm_eq_ok ht).2 ⟨hin t ht, rfl⟩
          refine ⟨terms, hfound, hin, ?_⟩
          rw [← Except.ok.inj hresp, heq]
          simp [reconstruction]
    · rintro ⟨terms, hfound, hin, rfl⟩
      refine ⟨some terms, Results.mapError_eq_ok.2 hfound, ?_⟩
      refine Results.bind_eq_ok.2 ⟨terms.map (fun t => (wireTerm t, fetchOf db t)), ?_, ?_⟩
      · exact Results.mapM_eq_ok_map.2 (fun t ht => (reconstructTerm_eq_ok ht).2 ⟨hin t ht, rfl⟩)
      · simp [reconstruction, pure, Except.pure]
  · simp [hrepo]

/-- **The ranges of a response decompress to what the terms denote.** -/
theorem SeqInv.fetched_reconstruction {svc : Service} {bodies : List (List UInt8)}
    {st : ServerState} (hinv : SeqInv svc bodies st) {terms : List FileTerm}
    (hin : ∀ t ∈ terms, InFrames (st.db.xorbFrameLayout t.xorb) t) :
    (reconstruction st.db terms).fetched svc.codec st = some (content svc.codec st terms) := by
  have hone : ∀ t ∈ terms, fetchRange svc.codec st (fetchOf st.db t) =
      some (termContent svc.codec st t) := by
    intro t ht
    obtain ⟨lo, hi, body, hrange, hlt, hbody, hbytes⟩ := hinv.readTerm (hin t ht)
    have hfound := (termByteRange_eq_ok.1 hrange).2
    unfold fetchRange fetchOf
    simp only [← hfound]
    rw [Nat.sub_add_cancel (by omega), hbody]
    simp only [hbytes, Except.toOption]
  have hall : (terms.map (fetchOf st.db)).mapM (fetchRange svc.codec st) =
      some (terms.map (termContent svc.codec st)) := by
    rw [List.mapM_map]
    clear hin
    induction terms with
    | nil => rfl
    | cons t terms ih =>
        rw [List.mapM_cons]
        simp only [Function.comp_apply, hone t List.mem_cons_self,
          ih (fun u hu => hone u (List.mem_cons_of_mem t hu))]
        rfl
  unfold ReconstructionResponse.fetched reconstruction content
  rw [hall, List.flatMap_def]
  rfl

/-! ## Downloads -/

/-- A stream is whole when every term can be fetched. -/
theorem streamTerms_mapM_id {fetch : FileTerm → Except ApiError (List UInt8)}
    {terms : List FileTerm} {parts : List (List UInt8)} :
    (streamTerms fetch terms).mapM id = .ok parts ↔ terms.mapM fetch = .ok parts := by
  induction terms generalizing parts with
  | nil => simp [streamTerms, pure, Except.pure]
  | cons t terms ih =>
      unfold streamTerms
      cases hfetch : fetch t with
      | error e => simp [List.mapM_cons, hfetch, bind, Except.bind]
      | ok bytes =>
          simp only [List.mapM_cons, hfetch, id_eq]
          constructor
          · intro hparts
            obtain ⟨b, hb, hrest⟩ := Results.bind_eq_ok.1 hparts
            obtain ⟨bs, hbs, hout⟩ := Results.bind_eq_ok.1 hrest
            refine Results.bind_eq_ok.2 ⟨b, ?_, Results.bind_eq_ok.2 ⟨bs, ih.1 hbs, ?_⟩⟩
            · rw [Except.ok.inj hb]
            · exact congrArg Except.ok (Except.ok.inj hout)
          · intro hparts
            obtain ⟨b, hb, hrest⟩ := Results.bind_eq_ok.1 hparts
            obtain ⟨bs, hbs, hout⟩ := Results.bind_eq_ok.1 hrest
            refine Results.bind_eq_ok.2 ⟨b, ?_, Results.bind_eq_ok.2 ⟨bs, ih.2 hbs, ?_⟩⟩
            · rw [Except.ok.inj hb]
            · exact congrArg Except.ok (Except.ok.inj hout)

theorem SeqInv.body_stream {svc : Service} {bodies : List (List UInt8)} {st : ServerState}
    (hinv : SeqInv svc bodies st) {terms : List FileTerm} {n : Nat} {bytes : List UInt8} :
    (⟨n, streamTerms (fetchAndDecompressTerm svc st) terms⟩ : Download).body = .ok bytes ↔
      (∀ t ∈ terms, InFrames (st.db.xorbFrameLayout t.xorb) t ∧
        t.unpackedSegmentBytes.toNat ≤ maxTermUnpackedBytes) ∧
      bytes = content svc.codec st terms := by
  -- a stream that ends well is the traversal of all terms
  have hfetch : (⟨n, streamTerms (fetchAndDecompressTerm svc st) terms⟩ : Download).body =
      .ok bytes ↔ ∃ parts, terms.mapM (fetchAndDecompressTerm svc st) = .ok parts ∧
        parts.flatten = bytes := by
    unfold Download.body
    constructor
    · intro hbody
      cases hparts : (streamTerms (fetchAndDecompressTerm svc st) terms).mapM id with
      | error e => simp [hparts, Except.map] at hbody
      | ok parts =>
          simp only [hparts, Except.map, Except.ok.injEq] at hbody
          exact ⟨parts, streamTerms_mapM_id.1 hparts, hbody⟩
    · rintro ⟨parts, hparts, rfl⟩
      simp only [streamTerms_mapM_id.2 hparts, Except.map]
  rw [hfetch]
  constructor
  · rintro ⟨parts, hparts, rfl⟩
    have hok : ∀ t ∈ terms, InFrames (st.db.xorbFrameLayout t.xorb) t ∧
        t.unpackedSegmentBytes.toNat ≤ maxTermUnpackedBytes := by
      intro t ht
      obtain ⟨b, hb⟩ := Results.exists_mapM_eq_ok.1 ⟨parts, hparts⟩ t ht
      obtain ⟨hin, hcap, -⟩ := hinv.fetchAndDecompressTerm_iff.1 hb
      exact ⟨hin, hcap⟩
    refine ⟨hok, ?_⟩
    have hmap : terms.mapM (fetchAndDecompressTerm svc st) =
        .ok (terms.map (termContent svc.codec st)) :=
      Results.mapM_eq_ok_map.2 (fun t ht =>
        hinv.fetchAndDecompressTerm_iff.2 ⟨(hok t ht).1, (hok t ht).2, rfl⟩)
    rw [Except.ok.inj (hparts.symm.trans hmap), content, List.flatMap_def]
  · rintro ⟨hok, rfl⟩
    refine ⟨terms.map (termContent svc.codec st), ?_, by rw [content, List.flatMap_def]⟩
    exact Results.mapM_eq_ok_map.2 (fun t ht =>
      hinv.fetchAndDecompressTerm_iff.2 ⟨(hok t ht).1, (hok t ht).2, rfl⟩)

theorem parseOwnerName_repoId {repoId : String} {repo : RepoRef}
    (h : parseOwnerName repoId = .ok repo) : repo.repoId = repoId := by
  unfold parseOwnerName at h
  simp only at h
  split_ifs at h
  rw [← Except.ok.inj h]

/-- **What `get_file_download` answers** to a token that may read. -/
theorem getFileDownload_eq_ok {svc : Service} {access : RepoRef → CoreResult Unit}
    {st : ServerState} {pick : List FileRow → Option FileRow} {repoId : String} {h : FileHash}
    {d : Download} (hgrant : Granted access repoId) :
    getFileDownload svc access st pick repoId h = .ok d ↔
      st.db.fileInRepo h repoId = true ∧ ∃ terms, st.db.lookupFile pick h = .ok (some terms) ∧
        d = ⟨termSum terms, streamTerms (fetchAndDecompressTerm svc st) terms⟩ := by
  obtain ⟨repo, hparse, haccess⟩ := hgrant
  unfold getFileDownload
  simp only [hparse, haccess, Except.mapError, bind, Except.bind, parseOwnerName_repoId hparse]
  cases hrepo : st.db.fileInRepo h repoId with
  | false => simp
  | true =>
      simp only [Bool.true_eq_false, if_false, true_and]
      cases hlookup : st.db.lookupFile pick h with
      | error e => simp
      | ok found =>
          cases found with
          | none => simp
          | some terms => simp [pure, Except.pure, eq_comm]

/-! ## Serving -/

/-- **When both read paths give `bytes`.** -/
theorem SeqInv.reads_iff {svc : Service} {bodies : List (List UInt8)} {st : ServerState}
    (hinv : SeqInv svc bodies st) {access : RepoRef → CoreResult Unit}
    {pick : List FileRow → Option FileRow} {repoId : String} {h : FileHash} {bytes : List UInt8}
    (hgrant : Granted access repoId) :
    Reads svc access st pick repoId h bytes ↔
      st.db.fileInRepo h repoId = true ∧ ∃ terms, st.db.lookupFile pick h = .ok (some terms) ∧
        (∀ t ∈ terms, InFrames (st.db.xorbFrameLayout t.xorb) t ∧
          t.unpackedSegmentBytes.toNat ≤ maxTermUnpackedBytes) ∧
        content svc.codec st terms = bytes ∧ termSum terms = bytes.length := by
  constructor
  · rintro ⟨-, d, hd, hbody, hlen⟩
    obtain ⟨hrepo, terms, hlookup, rfl⟩ := (getFileDownload_eq_ok hgrant).1 hd
    obtain ⟨hok, hbytes⟩ := hinv.body_stream.1 hbody
    exact ⟨hrepo, terms, hlookup, hok, hbytes.symm, hlen⟩
  · rintro ⟨hrepo, terms, hlookup, hok, hbytes, hlen⟩
    have hin : ∀ t ∈ terms, InFrames (st.db.xorbFrameLayout t.xorb) t := fun t ht => (hok t ht).1
    refine ⟨⟨reconstruction st.db terms, ?_, ?_⟩, ⟨_, (getFileDownload_eq_ok hgrant).2
      ⟨hrepo, terms, hlookup, rfl⟩, hinv.body_stream.2 ⟨hok, hbytes.symm⟩, hlen⟩⟩
    · exact getReconstruction_eq_ok.2 ⟨hrepo, terms, hlookup, hin, rfl⟩
    · rw [hinv.fetched_reconstruction hin, hbytes]

/-- **When a file is served whichever row `LIMIT 1` returns.** -/
theorem SeqInv.forall_reads_iff {svc : Service} {bodies : List (List UInt8)} {st : ServerState}
    (hinv : SeqInv svc bodies st) {access : RepoRef → CoreResult Unit} {repoId : String}
    {h : FileHash} {bytes : List UInt8} (hgrant : Granted access repoId) :
    (∀ pick, LimitOne pick → Reads svc access st pick repoId h bytes) ↔
      st.db.fileInRepo h repoId = true ∧ st.db.fileTermList h ≠ [] ∧
        TotalsMatch st.db h (termSum (st.db.fileTermList h)) ∧
        (∀ t ∈ st.db.fileTermList h, InFrames (st.db.xorbFrameLayout t.xorb) t ∧
          t.unpackedSegmentBytes.toNat ≤ maxTermUnpackedBytes) ∧
        content svc.codec st (st.db.fileTermList h) = bytes ∧
        termSum (st.db.fileTermList h) = bytes.length := by
  constructor
  · intro hreads
    have hlookup : ∀ pick, LimitOne pick →
        st.db.lookupFile pick h = .ok (some (st.db.fileTermList h)) := by
      intro pick hpick
      obtain ⟨-, terms, hlookup, -⟩ := (hinv.reads_iff hgrant).1 (hreads pick hpick)
      rw [(lookupFile_eq_some.1 hlookup).1]
      exact hlookup
    obtain ⟨hrepo, terms, hterms, hok, hbytes, hlen⟩ :=
      (hinv.reads_iff hgrant).1 (hreads List.head? limitOne_head)
    obtain ⟨hne, htotals⟩ := forall_lookupFile_iff.1 hlookup
    rw [← (lookupFile_eq_some.1 hterms).1] at hok hbytes hlen
    exact ⟨hrepo, hne, htotals, hok, hbytes, hlen⟩
  · rintro ⟨hrepo, hne, htotals, hok, hbytes, hlen⟩ pick hpick
    exact (hinv.reads_iff hgrant).2 ⟨hrepo, st.db.fileTermList h,
      forall_lookupFile_iff.2 ⟨hne, htotals⟩ pick hpick, hok, hbytes, hlen⟩

end BaleForGit.Server
