import BaleForGit.Server.Http

set_option autoImplicit false

/-! # What a request needs, does and signs

`serve_server` says once what a request can do to the server: nothing, or the upload or quota change
that it has the token or the admin's bearer for. `Genuine` is what is taken for granted of tokens and
signatures. What is registered stays: the files of a repository, their terms and the frames of a
xorb, so that what a URL was signed for can still be read off the tables later. -/

namespace BaleForGit.Server

section Authority

variable {ε : Type} (svc : HttpService ε)

/-! ## What a request needs -/

/-- The access check that a request passes. -/
def HttpAct.grant (a : HttpAct ε) : Option Grant :=
  match a.request.call with
  | .issueXetToken typeSeg ns name tokSeg rev =>
    (checkHubAccess svc a.env typeSeg ns name tokSeg rev a.request.authorization).toOption
  | _ => none

/-- Bearers that are tokens are tokens of the server, and so are signatures. -/
structure Genuine (s : Site) (a : HttpAct ε) : Prop where
  token : ∀ text c, bearer a.request.authorization = some text →
    svc.authz.jwt.decode (String.ofList text) = some c → c ∈ s.grants.map Grant.claims
  url : ∀ q, a.request.call = .getXorbTransfer q →
    Unforgeable svc.mac (s.signings.map Signing.range) q

/-- The bearer begins with the admin token. -/
def PresentsAdmin (authorization : Option (List UInt8)) : Prop :=
  ∃ admin text presented, svc.adminToken = some admin ∧ bearer authorization = some text ∧
    hexDecode (trim text) = some presented ∧ admin.bytes <+: presented

variable {svc}

theorem bearer_eq_some {authorization : Option (List UInt8)} {text : List Char} :
    bearer authorization = some text ↔ ∃ raw, authorization.bind headerText = some raw ∧
      stripPrefix "Bearer ".toList raw = some text := by
  unfold bearer
  exact Option.bind_eq_some_iff

/-- A bearer is no longer than the header that it stands in. -/
theorem length_bearer {value : List UInt8} {text : List Char} (h : bearer (some value) = some text) :
    (asBytes (String.ofList text)).length ≤ value.length := by
  obtain ⟨raw, hraw, hstrip⟩ := bearer_eq_some.1 h
  simp only [Option.bind_some] at hraw
  unfold headerText at hraw
  split_ifs at hraw with hvisible
  obtain rfl := Option.some.inj hraw
  unfold stripPrefix at hstrip
  split_ifs at hstrip
  obtain rfl := Option.some.inj hstrip
  have hascii : ∀ c ∈ value.map (fun b => Char.ofNat b.toNat), c.toNat < 128 := by
    intro c hc
    obtain ⟨b, hb, rfl⟩ := List.mem_map.1 hc
    have hb' := List.all_eq_true.1 hvisible b hb
    simp only [Bool.or_eq_true, Bool.and_eq_true, decide_eq_true_eq] at hb'
    have hlt : b.toNat < 128 := by
      rcases hb' with rfl | ⟨-, hb'⟩
      · decide
      · exact (UInt8.lt_iff_toNat_lt.1 hb').trans (by decide)
    have hall : ∀ n < 128, (Char.ofNat n).toNat < 128 := by decide
    exact hall b.toNat hlt
  unfold asBytes
  rw [String.toList_ofList, Utf8.length_bytes_ascii (fun c hc => hascii c (List.mem_of_mem_drop hc)),
    List.length_drop, List.length_map]
  exact Nat.sub_le _ _

/-- **What the middleware lets through**: a token of the server, in time, and for writing if the
    request is a `POST`. -/
theorem authMiddleware_ok {verifiedAt : UInt64} {isPost : Bool}
    {authorization : Option (List UInt8)} {claims : TokenClaims}
    (h : authMiddleware svc.authz.jwt verifiedAt isPost authorization = .ok claims) :
    ∃ text, bearer authorization = some text ∧
      svc.authz.jwt.decode (String.ofList text) = some claims.signed ∧
      verifiedAt ≤ claims.expiresAt ∧ (isPost = true → claims.scope = .write) := by
  unfold authMiddleware at h
  split at h
  · cases h
  · rename_i raw hraw
    split at h
    · cases h
    · rename_i text htext
      obtain ⟨c, hverify, h⟩ := Results.bind_eq_ok.1 h
      rw [Results.mapError_eq_ok, verify_eq_ok] at hverify
      split_ifs at h with hread
      obtain rfl := Except.ok.inj h
      refine ⟨text, bearer_eq_some.2 ⟨raw, hraw, htext⟩, hverify.1, hverify.2, fun hpost => ?_⟩
      cases hscope : c.scope with
      | read => exact absurd ⟨hpost, hscope⟩ hread
      | write => rfl

theorem repoTypeStr_injective {t t' : RepoType} (h : repoTypeStr t = repoTypeStr t') : t = t' := by
  have hparse := parseRepoType_repoTypeStr t
  rw [h, parseRepoType_repoTypeStr] at hparse
  exact (Except.ok.inj hparse).symm

theorem scopeStr_injective {s s' : Scope} (h : scopeStr s = scopeStr s') : s = s' := by
  have hparse := parseScope_scopeStr s
  rw [h, parseScope_scopeStr] at hparse
  exact (Except.ok.inj hparse).symm

/-- The claims of a grant's token are those of the grant. -/
theorem signed_eq_claims {claims : TokenClaims} {g : Grant} (h : claims.signed = g.claims) :
    claims.repo = g.repo ∧ claims.scope = g.scope ∧
      claims.expiresAt.toNat ≤ g.mintedAt.toNat + 300 := by
  unfold TokenClaims.signed Grant.claims mintClaims at h
  simp only [XetClaims.mk.injEq] at h
  obtain ⟨-, htype, hid, hrev, hscope, hexp⟩ := h
  refine ⟨?_, scopeStr_injective hscope, ?_⟩
  · have hsame := repoTypeStr_injective htype
    cases hrepo : claims.repo
    cases hg : g.repo
    rw [hrepo, hg] at hsame hid hrev
    simp only at hsame hid hrev
    rw [hsame, hid, hrev]
  · rw [hexp]
    exact tokenExp_le g.mintedAt defaultTokenTtlSecs

/-- **A token that is accepted was granted**, at most its lifetime before. -/
theorem Genuine.granted {s : Site} {a : HttpAct ε} (h : Genuine svc s a) {isPost : Bool}
    {claims : TokenClaims}
    (hauth : authMiddleware svc.authz.jwt a.env.verifiedAt isPost a.request.authorization =
      .ok claims) :
    ∃ g ∈ s.grants, g.repo = claims.repo ∧ (isPost = true → g.scope = .write) ∧
      a.env.verifiedAt.toNat ≤ g.mintedAt.toNat + 300 := by
  obtain ⟨text, hbearer, hdecode, hexp, hwrite⟩ := authMiddleware_ok hauth
  obtain ⟨g, hg, hclaims⟩ := List.mem_map.1 (h.token text _ hbearer hdecode)
  obtain ⟨hrepo, hscope, hlife⟩ := signed_eq_claims hclaims.symm
  refine ⟨g, hg, hrepo.symm, fun hpost => hscope.symm.trans (hwrite hpost), ?_⟩
  exact (UInt64.le_iff_toNat_le.1 hexp).trans hlife

/-! ## What a request does -/

/-- The uploads and quota changes that a request comes to. -/
inductive Effect (svc : HttpService ε) (a : HttpAct ε) : Request → Prop where
  | xorb (claims : TokenClaims) (hash : XorbHash) (body : List UInt8)
      (hauth : authMiddleware svc.authz.jwt a.env.verifiedAt true a.request.authorization =
        .ok claims) : Effect svc a (.xorb ⟨claims.repo, hash, body⟩)
  | shard (claims : TokenClaims) (body : List UInt8)
      (hauth : authMiddleware svc.authz.jwt a.env.verifiedAt true a.request.authorization =
        .ok claims) : Effect svc a (.shard ⟨claims.repo, body, a.env.dbNow⟩)
  | quota (owner : String) (limitBytes : Option UInt64)
      (hcall : a.request.call = .putOwnerQuota owner limitBytes)
      (hadmin : PresentsAdmin svc a.request.authorization) : Effect svc a (.quota owner limitBytes)

theorem ctEq_comm (a b : List UInt8) : ctEq a b = ctEq b a := by
  have hzip : ∀ (x y : List UInt8) (acc : UInt32),
      (x.zip y).foldl (fun acc xy => acc ||| UInt32.ofNat (xy.1 ^^^ xy.2).toNat) acc =
        (y.zip x).foldl (fun acc xy => acc ||| UInt32.ofNat (xy.1 ^^^ xy.2).toNat) acc := by
    intro x
    induction x with
    | nil =>
        intro y acc
        cases y <;> rfl
    | cons c x ih =>
        intro y acc
        cases y with
        | nil => rfl
        | cons d y =>
            rw [List.zip_cons_cons, List.zip_cons_cons, List.foldl_cons, List.foldl_cons, ih,
              UInt8.xor_comm]
  unfold ctEq
  rw [hzip, Nat.xor_comm]

/-- What passes for the admin token begins with it. -/
theorem admin_begins {admin : Hash32} {presented : List UInt8}
    (h : ctEq presented admin.bytes = true) : admin.bytes <+: presented := by
  rw [ctEq_comm] at h
  refine prefix_of_ctEq ?_ h
  rw [admin.length_eq]
  decide

theorem presentsAdmin_of_put {db db' : Db} {r : QuotaRequest}
    (h : putOwnerQuota (svc.adminToken.map Hash32.bytes) db r = .ok db') :
    PresentsAdmin svc r.authorization := by
  unfold putOwnerQuota at h
  cases hadmin : svc.adminToken with
  | none => simp [hadmin] at h
  | some admin =>
      rw [hadmin] at h
      simp only [Option.map_some] at h
      split at h
      · cases h
      · rename_i text htext
        split at h
        · cases h
        · rename_i presented hpresented
          split_ifs at h with heq
          have heq : ctEq presented admin.bytes = true := by simpa using heq
          exact ⟨admin, text, presented, hadmin, htext, hpresented, admin_begins heq⟩

/-- **What a request does to the server**: nothing, or what its effect does. -/
theorem serve_server (svc : HttpService ε) (a : HttpAct ε) (st : ServerState) :
    (serve svc a.env st a.request).server = st ∨
      ∃ r, Effect svc a r ∧ (serve svc a.env st a.request).server = handle svc.service st r := by
  unfold serve
  cases hcall : a.request.call with
  | uploadXorb hashHex body =>
      simp only [behindAuth]
      cases hauth : authMiddleware svc.authz.jwt a.env.verifiedAt true a.request.authorization with
      | error e => exact Or.inl rfl
      | ok claims =>
          simp only [handleUploadXorb]
          cases hhash : decodeFor "xorb hash" hashHex with
          | error e => exact Or.inl rfl
          | ok hash =>
              refine Or.inr ⟨_, Effect.xorb claims hash body hauth, ?_⟩
              simp only [handle]
              cases uploadXorb svc.service st ⟨claims.repo, hash, body⟩ <;> rfl
  | uploadShard body =>
      simp only [behindAuth]
      cases hauth : authMiddleware svc.authz.jwt a.env.verifiedAt true a.request.authorization with
      | error e => exact Or.inl rfl
      | ok claims => exact Or.inr ⟨_, Effect.shard claims body hauth, rfl⟩
  | getReconstruction fileHex =>
      simp only [behindAuth]
      refine Or.inl ?_
      cases authMiddleware svc.authz.jwt a.env.verifiedAt false a.request.authorization with
      | error e => rfl
      | ok claims =>
          simp only [handleGetReconstruction]
          cases decodeFor "file id" fileHex <;> rfl
  | getDedupChunk hashHex =>
      simp only [behindAuth]
      refine Or.inl ?_
      cases authMiddleware svc.authz.jwt a.env.verifiedAt false a.request.authorization <;> rfl
  | getXorbTransfer q => exact Or.inl rfl
  | getFileDownload fileHex token repo filename => exact Or.inl rfl
  | issueXetToken typeSeg ns name tokSeg rev =>
      refine Or.inl ?_
      simp only [handleIssueXetToken]
      cases checkHubAccess svc a.env typeSeg ns name tokSeg rev a.request.authorization <;> rfl
  | getOwnerUsage owner => exact Or.inl rfl
  | getRepoUsage owner repo => exact Or.inl rfl
  | putOwnerQuota owner limitBytes =>
      simp only [handlePutOwnerQuota]
      cases hput : putOwnerQuota (svc.adminToken.map Hash32.bytes) st.db
          ⟨owner, a.request.authorization, limitBytes⟩ with
      | error e => exact Or.inl rfl
      | ok db =>
          refine Or.inr ⟨_, Effect.quota owner limitBytes hcall (presentsAdmin_of_put hput), ?_⟩
          rw [putOwnerQuota_ok hput]
          rfl

/-- The access check of a request is the one it is logged with. -/
theorem serve_grants (svc : HttpService ε) (a : HttpAct ε) (st : ServerState) :
    (serve svc a.env st a.request).grants = (a.grant svc).toList := by
  unfold serve HttpAct.grant
  cases hcall : a.request.call with
  | uploadXorb hashHex body =>
      simp only [behindAuth, handleUploadXorb]
      split
      · rfl
      · split
        · rfl
        · split <;> rfl
  | uploadShard body =>
      simp only [behindAuth]
      split <;> rfl
  | getReconstruction fileHex =>
      simp only [behindAuth, handleGetReconstruction]
      split
      · rfl
      · split <;> rfl
  | getDedupChunk hashHex =>
      simp only [behindAuth]
      split <;> rfl
  | getXorbTransfer q => rfl
  | getFileDownload fileHex token repo filename => rfl
  | issueXetToken typeSeg ns name tokSeg rev =>
      simp only [handleIssueXetToken]
      cases checkHubAccess svc a.env typeSeg ns name tokSeg rev a.request.authorization <;> rfl
  | getOwnerUsage owner => rfl
  | getRepoUsage owner repo => rfl
  | putOwnerQuota owner limitBytes =>
      simp only [handlePutOwnerQuota]
      split <;> rfl

/-- **What a request signs**: ranges of a reconstruction, for the repository of its token. -/
theorem serve_signings {a : HttpAct ε} {st : ServerState} {n : Signing}
    (h : n ∈ (serve svc a.env st a.request).signings) :
    ∃ claims file range, authMiddleware svc.authz.jwt a.env.verifiedAt false
        a.request.authorization = .ok claims ∧
      n = ⟨range, file, claims.repo.repoId, a.env.verifiedAt, a.env.now⟩ ∧
      range ∈ (signedReconstruction svc.mac svc.publicBaseUrl a.env.now st.db a.env.pickFile
        claims.repo.repoId file).log := by
  unfold serve at h
  cases hcall : a.request.call with
  | uploadXorb hashHex body =>
      simp only [hcall, behindAuth, handleUploadXorb] at h
      split at h
      · cases h
      · split at h
        · cases h
        · split at h <;> cases h
  | uploadShard body =>
      simp only [hcall, behindAuth] at h
      split at h <;> cases h
  | getReconstruction fileHex =>
      simp only [hcall, behindAuth, handleGetReconstruction] at h
      split at h
      · cases h
      · rename_i claims hauth
        split at h
        · cases h
        · rename_i file hfile
          obtain ⟨range, hrange, rfl⟩ := List.mem_map.1 h
          exact ⟨claims, file, range, hauth, rfl, hrange⟩
  | getDedupChunk hashHex =>
      simp only [hcall, behindAuth] at h
      split at h <;> cases h
  | getXorbTransfer q =>
      simp only [hcall, readOnly] at h
      cases h
  | getFileDownload fileHex token repo filename =>
      simp only [hcall, readOnly] at h
      cases h
  | issueXetToken typeSeg ns name tokSeg rev =>
      simp only [hcall, handleIssueXetToken] at h
      split at h <;> cases h
  | getOwnerUsage owner =>
      simp only [hcall, readOnly] at h
      cases h
  | getRepoUsage owner repo =>
      simp only [hcall, readOnly] at h
      cases h
  | putOwnerQuota owner limitBytes =>
      simp only [hcall, handlePutOwnerQuota] at h
      split at h <;> cases h

end Authority

/-! ## What stays in the tables -/

/-- Files stay in their repositories, term lists stay as they are, and frames stay. -/
structure DbKeeps (db db' : Db) : Prop where
  files : ∀ h repoId, db.fileInRepo h repoId = true → db'.fileInRepo h repoId = true
  terms : ∀ h, db.fileTermList h ≠ [] → db'.fileTermList h = db.fileTermList h
  frames : ∀ row ∈ db.xorbFrames, row ∈ db'.xorbFrames

/-- The frames of every xorb are numbered without gaps. -/
def Gapless (db : Db) : Prop := ∀ x, ∃ n, frameIndexes db x = List.range n

theorem DbKeeps.refl (db : Db) : DbKeeps db db :=
  ⟨fun _ _ h => h, fun _ _ => rfl, fun _ h => h⟩

theorem fileInRepo_iff {db : Db} {h : FileHash} {repoId : String} :
    db.fileInRepo h repoId = true ↔ ∃ f ∈ db.files, f.fileHash = h ∧ f.repo.repoId = repoId := by
  unfold Db.fileInRepo
  simp only [List.any_eq_true, Bool.and_eq_true, decide_eq_true_eq]

theorem fileInRepo_registerFiles {db : Db} {h : FileHash} {repoId : String}
    (hin : db.fileInRepo h repoId = true) (repo : RepoRef)
    (files : List (FileHash × List FileTerm)) (now : Int) :
    (db.registerFiles repo files now).fileInRepo h repoId = true := by
  obtain ⟨f, hf, hhash, hrepo⟩ := fileInRepo_iff.1 hin
  have hrow := fun (r : FileRow) (hr : r.fileHash = h) => mem_files_registerFiles db repo now hr files
  cases hlast : lastList h files with
  | none =>
      refine fileInRepo_iff.2 ⟨f, ?_, hhash, hrepo⟩
      rw [hrow f hhash, hlast]
      exact hf
  | some terms =>
      by_cases hsame : f.repo.repoId = repo.repoId
      · refine fileInRepo_iff.2 ⟨fileRow h repo terms now, ?_, rfl, hsame.symm.trans hrepo⟩
        rw [hrow _ rfl, hlast]
        exact Or.inl rfl
      · refine fileInRepo_iff.2 ⟨f, ?_, hhash, hrepo⟩
        rw [hrow f hhash, hlast]
        exact Or.inr ⟨hf, hsame⟩

/-- The frames after an upload or a quota change. -/
theorem handle_frames (svc : Service) (st : ServerState) (a : Request) :
    (handle svc st a).db.xorbFrames = st.db.xorbFrames ∨
      ∃ r layout, parseXorb r = .ok layout ∧
        (handle svc st a).db = st.db.registerXorbLayout r.hash layout := by
  cases a with
  | xorb r =>
      simp only [handle]
      cases hup : uploadXorb svc st r with
      | error e => exact Or.inl rfl
      | ok res =>
          obtain ⟨-, -, layout, hlayout, hdb, -, -⟩ := uploadXorb_cases hup
          exact Or.inr ⟨r, layout, hlayout, hdb⟩
  | shard r =>
      simp only [handle]
      refine Or.inl ?_
      rcases uploadShard_cases svc st r with ⟨e, -, hres⟩ | ⟨parsed, -, hres⟩
      · rw [hres]
      · have hblocks := (registerCasBlocks_frame st.db parsed.casBlocks r.now).2.2.1
        rcases hres with ⟨e, hres, -⟩ | ⟨files, -, -, hres⟩
        · rw [hres]
          exact hblocks
        · rw [hres]
          exact ((registerFiles_frame _ r.repo files r.now).2.2.1).trans hblocks
  | quota owner limitBytes => exact Or.inl (setOwnerQuota_frame st.db owner limitBytes).2.2.1

theorem handle_keeps (svc : Service) (st : ServerState) (a : Request) :
    DbKeeps st.db (handle svc st a).db := by
  refine ⟨fun h repoId hin => ?_, fun h hterms => ?_, fun row hrow => ?_⟩
  · rcases handle_tables svc st a with ⟨hfiles, -⟩ | ⟨r, db, -, -, hfiles, -, hdb⟩
    · unfold Db.fileInRepo
      rw [hfiles]
      exact hin
    · rw [hdb]
      refine fileInRepo_registerFiles ?_ r.repo r.files r.now
      unfold Db.fileInRepo
      rw [hfiles]
      exact hin
  · rcases handle_tables svc st a with ⟨-, hrows⟩ | ⟨r, db, -, -, -, hrows, hdb⟩
    · unfold Db.fileTermList
      rw [hrows]
    · have hsame : db.fileTermList h = st.db.fileTermList h := by
        unfold Db.fileTermList
        rw [hrows]
      rw [hdb, fileTermList_registerFiles]
      unfold termsAfter
      rw [hsame, if_neg hterms]
  · rcases handle_frames svc st a with hframes | ⟨r, layout, -, hdb⟩
    · rw [hframes]
      exact hrow
    · rw [hdb, Db.xorbFrames_registerXorbLayout]
      exact (Table.prefix_insertAll _ _).subset hrow

theorem gapless_handle (svc : Service) {st : ServerState} (h : Gapless st.db) (a : Request) :
    Gapless (handle svc st a).db := by
  rcases handle_frames svc st a with hframes | ⟨r, layout, hlayout, hdb⟩
  · intro x
    rw [frameIndexes_congr hframes]
    exact h x
  · obtain ⟨frames, hparse, rfl⟩ := parseXorb_ok hlayout
    rw [hdb]
    intro x
    by_cases hx : x = r.hash
    · subst hx
      obtain ⟨n, hn⟩ := h r.hash
      obtain ⟨m, -, -, hm⟩ := frameIndexes_registerXorbLayout hparse hn
      exact ⟨m, hm⟩
    · unfold frameIndexes
      rw [Db.framesOf_registerXorbLayout_of_ne st.db hx]
      exact h x

/-! ## What is signed for -/

/-- The signed range is that of the frames of a term's chunks. -/
structure SignedTerm (db : Db) (t : FileTerm) (r : SignedRange) : Prop where
  hash : r.hashHex = encodeHash t.xorb
  frames : ∃ first last, ⟨t.xorb, first⟩ ∈ db.xorbFrames ∧ ⟨t.xorb, last⟩ ∈ db.xorbFrames ∧
    first.frameIndex = t.chunkIdxStart ∧ last.frameIndex.toNat + 1 = t.chunkIdxEnd.toNat ∧
    r.start.toNat = first.onDiskStart.toNat ∧
    r.endInclusive.toNat + 1 = last.onDiskStart.toNat + last.onDiskLen.toNat

/-- A URL of a reconstruction: one of a term of a file in the repository. -/
structure SignedFor (db : Db) (file : FileHash) (repoId : String) (now : UInt64) (r : SignedRange) :
    Prop where
  inRepo : db.fileInRepo file repoId = true
  term : ∃ t ∈ db.fileTermList file, SignedTerm db t r
  exp : r.exp.toNat ≤ now.toNat + 600

theorem SignedFor.mono {db db' : Db} (hkeeps : DbKeeps db db') {file : FileHash} {repoId : String}
    {now : UInt64} {r : SignedRange} (h : SignedFor db file repoId now r) :
    SignedFor db' file repoId now r := by
  obtain ⟨t, ht, hterm⟩ := h.term
  obtain ⟨first, last, hfirst, hlast, hrest⟩ := hterm.frames
  refine ⟨hkeeps.files file repoId h.inRepo, ⟨t, ?_, hterm.hash, first, last,
    hkeeps.frames _ hfirst, hkeeps.frames _ hlast, hrest⟩, h.exp⟩
  rw [hkeeps.terms file (List.ne_nil_of_mem ht)]
  exact ht

/-- A stored frame is at the position of its index. -/
theorem frameIndex_get {db : Db} (h : Gapless db) {x : XorbHash} {i : Nat}
    (hi : i < (db.xorbFrameLayout x).length) :
    ((db.xorbFrameLayout x).get ⟨i, hi⟩).frameIndex.toNat = i := by
  obtain ⟨n, hn⟩ := h x
  have hlayout := xorbFrameLayout_indexes hn
  have hlen : n = (db.xorbFrameLayout x).length := by
    rw [← List.length_range (n := n), ← hlayout, List.length_map]
  have hget : ((db.xorbFrameLayout x).map (fun f => f.frameIndex.toNat))[i]? = some i := by
    rw [hlayout, List.getElem?_range (by omega)]
  rw [List.getElem?_map, List.getElem?_eq_getElem hi] at hget
  exact Option.some.inj hget

theorem mem_frames_of_get {db : Db} {x : XorbHash} {i : Nat}
    (hi : i < (db.xorbFrameLayout x).length) :
    (⟨x, (db.xorbFrameLayout x).get ⟨i, hi⟩⟩ : FrameTableRow) ∈ db.xorbFrames := by
  have hmem := List.get_mem (db.xorbFrameLayout x) ⟨i, hi⟩
  obtain ⟨row, hrow, hframe⟩ := List.mem_map.1 hmem
  obtain ⟨hin, hx⟩ := mem_framesOf.1 ((List.mem_insertionSort _).1 hrow)
  rw [← hframe, ← hx]
  exact hin

section Signing

variable (mac : List UInt8 → Hash32) (base : List UInt8) {db : Db}

theorem signedTerm_signs (hheaders : HasHeaders db) (hgapless : Gapless db) (now : UInt64)
    (xorbs : List XorbHash) (t : FileTerm) :
    Traced.AllLogged (fun r => SignedTerm db t r ∧ r.exp.toNat ≤ now.toNat + 600)
      (signedTerm mac base now (db.xorbFrameLayouts xorbs) t) := by
  unfold signedTerm
  cases hlayout : db.xorbFrameLayouts xorbs t.xorb with
  | none => exact Traced.allLogged_lift _
  | some layout =>
      obtain rfl : layout = db.xorbFrameLayout t.xorb := by
        unfold Db.xorbFrameLayouts at hlayout
        split_ifs at hlayout
        exact (Option.some.inj hlayout).symm
      simp only
      split_ifs with hframes
      · refine Traced.allLogged_bind.2 ⟨fun r hr => ?_, fun url _ => Traced.allLogged_pure _⟩
        rw [List.mem_singleton.1 hr]
        have hfirst := frameIndex_get hgapless hframes.start_lt
        have hlast := frameIndex_get hgapless hframes.last_lt
        have hrow := mem_frames_of_get hframes.last_lt
        have hheader := hheaders _ hrow
        have hlt := UInt32.lt_iff_toNat_lt.1 hframes.1
        refine ⟨⟨rfl, _, _, mem_frames_of_get hframes.start_lt, hrow, ?_, ?_, ?_, ?_⟩, ?_⟩
        · exact UInt32.toNat_inj.1 hfirst
        · rw [hlast]
          omega
        · exact UInt32.toNat_toUInt64 _
        · have hsum := toNat_lastByte hheader
          simp only [headerLen] at hheader hsum ⊢
          rw [hsum]
          omega
        · simp only
          rw [UInt64.toNat_add]
          exact Nat.mod_le _ _
      · exact Traced.allLogged_lift _

/-- **Every URL of a reconstruction is for a term of the file.** -/
theorem signedReconstruction_signs (hheaders : HasHeaders db) (hgapless : Gapless db)
    (now : UInt64) (pick : List FileRow → Option FileRow) (repoId : String) (file : FileHash) :
    Traced.AllLogged (SignedFor db file repoId now)
      (signedReconstruction mac base now db pick repoId file) := by
  unfold signedReconstruction
  split_ifs with hrepo
  · refine Traced.allLogged_bind.2 ⟨Traced.allLogged_lift _, fun terms hterms => ?_⟩
    cases terms with
    | none => exact Traced.allLogged_lift _
    | some terms =>
        rw [Traced.lift_result, Results.mapError_eq_ok, lookupFile_eq_some] at hterms
        refine Traced.allLogged_bind.2 ⟨Traced.allLogged_mapM (fun t ht r hr => ?_),
          fun found _ => Traced.allLogged_pure _⟩
        obtain ⟨hterm, hexp⟩ := signedTerm_signs mac base hheaders hgapless now _ t r hr
        exact ⟨hrepo, ⟨t, hterms.1 ▸ ht, hterm⟩, hexp⟩
  · exact Traced.allLogged_lift _

end Signing

end BaleForGit.Server
