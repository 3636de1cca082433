import BaleForGit.Server.HttpEffects

set_option autoImplicit false

/-! # Who a request acts for

Tokens and signed URLs are taken to be unforgeable: whoever presents one has it from the server
(`Genuine`). Then everything that the server changes or gives away goes back to an access check that
the forge has passed: a write to a check of the same repository for writing, at most the lifetime of
a token before; the bytes of a transfer to a check of a repository that has a file with those bytes,
at most the lifetimes of a token and of a URL before. The forge may change its mind at any time, and
clocks may read anything. On a configured server the checks are what the tuples say, so every file is
where a tuple lets somebody write (`configured_files`). -/

namespace BaleForGit.Server

/-! ## Runs -/

section Runs

variable {ε : Type} (svc : HttpService ε)

/-- The access check of a grant was passed in one of the requests. -/
def Approved (acts : List (HttpAct ε)) (g : Grant) : Prop :=
  ∃ a ∈ acts, svc.authz.checkRepoAccess a.env.upstream g.hubBearer g.repo g.scope = .ok g.user ∧
    g.mintedAt = a.env.now

structure SiteInv (s : Site) : Prop where
  headers : HasHeaders s.server.db
  gapless : Gapless s.server.db
  files : ∀ row ∈ s.server.db.files, ∃ g ∈ s.grants, g.repo = row.repo ∧ g.scope = .write
  quotas : svc.adminToken = none → s.server.db.ownerQuotas = []
  signings : ∀ n ∈ s.signings, SignedFor s.server.db n.file n.repoId n.signedAt n.range ∧
    ∃ g ∈ s.grants, g.repo.repoId = n.repoId ∧ n.verifiedAt.toNat ≤ g.mintedAt.toNat + 300

variable {svc}

/-- Every request is answered. -/
theorem siteStep_serve (svc : HttpService ε) (s : Site) (a : HttpAct ε) :
    siteStep svc s a = some ⟨(serve svc a.env s.server a.request).server,
      s.grants ++ (serve svc a.env s.server a.request).grants,
      s.signings ++ (serve svc a.env s.server a.request).signings⟩ := rfl

/-- The site after some requests. -/
def siteAfter (svc : HttpService ε) (s : Site) (acts : List (HttpAct ε)) : Site :=
  acts.foldl (fun s a => (siteStep svc s a).getD s) s

/-- A run of requests always has an end. -/
theorem run_siteAfter (svc : HttpService ε) (acts : List (HttpAct ε)) (s : Site) :
    Machine.run (siteStep svc) s acts = some (siteAfter svc s acts) := by
  induction acts generalizing s with
  | nil => rfl
  | cons a acts ih =>
      unfold siteAfter
      simp only [Machine.run, siteStep_serve, Option.bind_some, List.foldl_cons, Option.getD_some]
      exact ih _

theorem siteStep_eq {s s' : Site} {a : HttpAct ε} (h : siteStep svc s a = some s') :
    s'.server = (serve svc a.env s.server a.request).server ∧
      s'.grants = s.grants ++ (a.grant svc).toList ∧
      s'.signings = s.signings ++ (serve svc a.env s.server a.request).signings := by
  unfold siteStep at h
  simp only [Option.some.injEq] at h
  subst h
  exact ⟨rfl, by rw [serve_grants], rfl⟩

theorem ownerQuotas_handle (st : ServerState) {r : Request} (h : ∀ owner limit, r ≠ .quota owner limit) :
    (handle svc.service st r).db.ownerQuotas = st.db.ownerQuotas := by
  cases r with
  | xorb r =>
      simp only [handle]
      cases hup : uploadXorb svc.service st r with
      | error e => rfl
      | ok res =>
          obtain ⟨-, -, layout, -, hdb, -, -⟩ := uploadXorb_cases hup
          simp only
          rw [hdb]
          exact (registerXorbLayout_frame st.db r.hash layout).2.2.2.2
  | shard r =>
      simp only [handle]
      rcases uploadShard_cases svc.service st r with ⟨e, -, hres⟩ | ⟨parsed, -, hres⟩
      · rw [hres]
      · have hblocks := (registerCasBlocks_frame st.db parsed.casBlocks r.now).2.2.2
        rcases hres with ⟨e, hres, -⟩ | ⟨files, -, -, hres⟩
        · rw [hres]
          exact hblocks
        · rw [hres]
          exact (registerFiles_frame _ r.repo files r.now).2.2.2.trans hblocks
  | quota owner limit => exact absurd rfl (h owner limit)

/-- The rows of an upload are for its repository. -/
theorem row_handle {st : ServerState} {r : Request} {row : FileRow}
    (h : row ∈ (handle svc.service st r).db.files) :
    row ∈ st.db.files ∨ ∃ req, r = .shard req ∧ row.repo = req.repo := by
  rcases handle_tables svc.service st r with ⟨hfiles, -⟩ | ⟨req, db, rfl, -, hfiles, -, hdb⟩
  · rw [hfiles] at h
    exact Or.inl h
  · rw [hdb, mem_files_registerFiles db req.repo req.now rfl] at h
    cases hlast : lastList row.fileHash req.files with
    | none =>
        rw [hlast, hfiles] at h
        exact Or.inl h
    | some terms =>
        rw [hlast] at h
        rcases h with hrow | ⟨hold, -⟩
        · refine Or.inr ⟨req, rfl, ?_⟩
          rw [hrow]
          rfl
        · rw [hfiles] at hold
          exact Or.inl hold

theorem serve_keeps (svc : HttpService ε) (a : HttpAct ε) (st : ServerState) :
    DbKeeps st.db (serve svc a.env st a.request).server.db := by
  rcases serve_server svc a st with hsame | ⟨r, -, hres⟩
  · rw [hsame]
    exact DbKeeps.refl st.db
  · rw [hres]
    exact handle_keeps svc.service st r

/-- **One request keeps the invariant**, whatever the forge says and whatever is presented. -/
theorem siteStep_inv {s s' : Site} {a : HttpAct ε} (hinv : SiteInv svc s) (hgen : Genuine svc s a)
    (hstep : siteStep svc s a = some s') : SiteInv svc s' := by
  obtain ⟨hserver, hgrants, hsignings⟩ := siteStep_eq hstep
  have hmem : ∀ g ∈ s.grants, g ∈ s'.grants := by
    intro g hg
    rw [hgrants]
    exact List.mem_append_left _ hg
  have hkeeps := serve_keeps svc a s.server
  rw [← hserver] at hkeeps
  refine ⟨?_, ?_, fun row hrow => ?_, fun hadmin => ?_, fun n hn => ?_⟩
  · rw [hserver]
    rcases serve_server svc a s.server with hsame | ⟨r, -, hres⟩
    · rw [hsame]
      exact hinv.headers
    · rw [hres]
      exact hasHeaders_handle svc.service hinv.headers r
  · rw [hserver]
    rcases serve_server svc a s.server with hsame | ⟨r, -, hres⟩
    · rw [hsame]
      exact hinv.gapless
    · rw [hres]
      exact gapless_handle svc.service hinv.gapless r
  · have hold : row ∈ s.server.db.files → ∃ g ∈ s'.grants, g.repo = row.repo ∧ g.scope = .write := by
      intro hin
      obtain ⟨g, hg, hrest⟩ := hinv.files row hin
      exact ⟨g, hmem g hg, hrest⟩
    rw [hserver] at hrow
    rcases serve_server svc a s.server with hsame | ⟨r, heffect, hres⟩
    · rw [hsame] at hrow
      exact hold hrow
    · rw [hres] at hrow
      rcases row_handle hrow with hin | ⟨req, rfl, hrepo⟩
      · exact hold hin
      · cases heffect with
        | shard claims body hauth =>
            obtain ⟨g, hg, hsame, hwrite, -⟩ := hgen.granted hauth
            exact ⟨g, hmem g hg, hsame.trans hrepo.symm, hwrite rfl⟩
  · rw [hserver]
    rcases serve_server svc a s.server with hsame | ⟨r, heffect, hres⟩
    · rw [hsame]
      exact hinv.quotas hadmin
    · rw [hres, ownerQuotas_handle]
      · exact hinv.quotas hadmin
      · rintro owner limit rfl
        cases heffect with
        | quota _ _ _ hpresents =>
            obtain ⟨admin, text, presented, hsome, -⟩ := hpresents
            rw [hadmin] at hsome
            cases hsome
  · rw [hsignings] at hn
    rcases List.mem_append.1 hn with hold | hnew
    · obtain ⟨hsigned, g, hg, hrest⟩ := hinv.signings n hold
      exact ⟨hsigned.mono hkeeps, g, hmem g hg, hrest⟩
    · obtain ⟨claims, file, range, hauth, rfl, hrange⟩ := serve_signings hnew
      obtain ⟨g, hg, hrepo, -, hlife⟩ := hgen.granted hauth
      refine ⟨?_, g, hmem g hg, congrArg RepoRef.repoId hrepo, hlife⟩
      exact (signedReconstruction_signs svc.mac svc.publicBaseUrl hinv.headers hinv.gapless
        a.env.now a.env.pickFile claims.repo.repoId file range hrange).mono hkeeps

theorem siteInv_run {acts : List (HttpAct ε)} {s : Site}
    (hgen : Machine.Admissible (siteStep svc) (Genuine svc) Site.empty acts)
    (hrun : Machine.run (siteStep svc) Site.empty acts = some s) : SiteInv svc s := by
  refine Machine.run_invariant (fun s a s' => siteStep_inv) ?_ hgen hrun
  refine ⟨fun row hrow => ?_, fun x => ⟨0, rfl⟩, fun row hrow => ?_, fun _ => rfl, fun n hn => ?_⟩
  · exact absurd hrow List.not_mem_nil
  · exact absurd hrow List.not_mem_nil
  · exact absurd hn List.not_mem_nil

/-- The grants of a run are the access checks that its requests have passed. -/
theorem grants_run {acts : List (HttpAct ε)} {s₀ s : Site}
    (hrun : Machine.run (siteStep svc) s₀ acts = some s) :
    s.grants = s₀.grants ++ acts.filterMap (HttpAct.grant svc) := by
  induction acts generalizing s₀ with
  | nil =>
      simp only [Machine.run, Option.some.injEq] at hrun
      simp [hrun]
  | cons a acts ih =>
      obtain ⟨s₁, hstep, hrest⟩ := Machine.run_cons_eq_some hrun
      rw [ih hrest, (siteStep_eq hstep).2.1, List.filterMap_cons]
      cases a.grant svc <;> simp

theorem grants_run_empty {acts : List (HttpAct ε)} {s : Site}
    (hrun : Machine.run (siteStep svc) Site.empty acts = some s) :
    s.grants = acts.filterMap (HttpAct.grant svc) := by
  have hgrants := grants_run hrun
  simpa only [Site.empty, List.nil_append] using hgrants

/-- A grant goes back to an access check of the bearer that its request presents. -/
theorem grant_eq_some {a : HttpAct ε} {g : Grant} (h : a.grant svc = some g) :
    svc.authz.checkRepoAccess a.env.upstream g.hubBearer g.repo g.scope = .ok g.user ∧
      g.mintedAt = a.env.now ∧
      ∃ text, bearer a.request.authorization = some text ∧ g.hubBearer = String.ofList text := by
  unfold HttpAct.grant at h
  split at h
  · rename_i typeSeg ns name tokSeg rev hcall
    cases hcheck : checkHubAccess svc a.env typeSeg ns name tokSeg rev a.request.authorization with
    | error e =>
        rw [hcheck] at h
        cases h
    | ok g' =>
        rw [hcheck] at h
        obtain rfl := Option.some.inj h
        unfold checkHubAccess at hcheck
        obtain ⟨repoType, -, hcheck⟩ := Results.bind_eq_ok.1 hcheck
        obtain ⟨scope, -, hcheck⟩ := Results.bind_eq_ok.1 hcheck
        simp only at hcheck
        split at hcheck
        · cases hcheck
        · rename_i text hbearer
          obtain ⟨user, huser, hcheck⟩ := Results.bind_eq_ok.1 hcheck
          rw [Results.mapError_eq_ok] at huser
          rw [← Except.ok.inj hcheck]
          exact ⟨huser, rfl, text, hbearer, rfl⟩
  · cases h

theorem approved_of_grant {acts : List (HttpAct ε)} {g : Grant}
    (h : g ∈ acts.filterMap (HttpAct.grant svc)) : Approved svc acts g := by
  obtain ⟨a, ha, hg⟩ := List.mem_filterMap.1 h
  obtain ⟨hcheck, hminted, -⟩ := grant_eq_some hg
  exact ⟨a, ha, hcheck, hminted⟩

/-- A stored file is in a repository that one of the requests was let write to. -/
theorem grant_of_file {acts : List (HttpAct ε)} {s : Site} (hinv : SiteInv svc s)
    (hrun : Machine.run (siteStep svc) Site.empty acts = some s) {row : FileRow}
    (hrow : row ∈ s.server.db.files) :
    ∃ g ∈ acts.filterMap (HttpAct.grant svc), g.repo = row.repo ∧ g.scope = .write := by
  obtain ⟨g, hg, hsame⟩ := hinv.files row hrow
  rw [grants_run_empty hrun] at hg
  exact ⟨g, hg, hsame⟩

/-! ## Changes -/

/-- An access check that was passed in one of the requests, a token's lifetime ago at most. -/
def Recent (svc : HttpService ε) (acts : List (HttpAct ε)) (a : HttpAct ε) (g : Grant) : Prop :=
  Approved svc acts g ∧ a.env.verifiedAt.toNat ≤ g.mintedAt.toNat + 300

theorem recent_of_auth {acts : List (HttpAct ε)} {s : Site} {a : HttpAct ε}
    (hrun : Machine.run (siteStep svc) Site.empty acts = some s) (hgen : Genuine svc s a)
    {isPost : Bool} {claims : TokenClaims}
    (hauth : authMiddleware svc.authz.jwt a.env.verifiedAt isPost a.request.authorization =
      .ok claims) :
    ∃ g, Recent svc acts a g ∧ g.repo = claims.repo ∧ (isPost = true → g.scope = .write) := by
  obtain ⟨g, hg, hrepo, hwrite, hlife⟩ := hgen.granted hauth
  rw [grants_run_empty hrun] at hg
  exact ⟨g, ⟨approved_of_grant hg, hlife⟩, hrepo, hwrite⟩

/-- **Whoever changes the server may.** In every run, whatever the forge says from one request to
    the next and whatever bearers are presented: a request that changes the server presents the
    admin token and sets a quota, or is an upload into a repository that the forge has let a user
    write to, at most 300 seconds before the token was checked. So every file is in a repository
    that somebody was let write to, and without an admin token no quota is ever set. -/
theorem changes_need_authority (svc : HttpService ε) (acts : List (HttpAct ε)) (s : Site)
    (hrun : Machine.run (siteStep svc) Site.empty acts = some s)
    (hgen : Machine.Admissible (siteStep svc) (Genuine svc) Site.empty acts) :
    (∀ row ∈ s.server.db.files, ∃ g, Approved svc acts g ∧ g.repo = row.repo ∧ g.scope = .write) ∧
    (svc.adminToken = none → s.server.db.ownerQuotas = []) ∧
    ∀ a s', Genuine svc s a → siteStep svc s a = some s' → s'.server ≠ s.server →
      (∃ owner limit, PresentsAdmin svc a.request.authorization ∧
        s'.server = handle svc.service s.server (.quota owner limit)) ∨
      ∃ g, Recent svc acts a g ∧ g.scope = .write ∧
        ((∃ hash body, s'.server = handle svc.service s.server (.xorb ⟨g.repo, hash, body⟩)) ∨
          ∃ body, s'.server = handle svc.service s.server (.shard ⟨g.repo, body, a.env.dbNow⟩)) := by
  have hinv := siteInv_run hgen hrun
  refine ⟨fun row hrow => ?_, hinv.quotas, fun a s' hgena hstep hne => ?_⟩
  · obtain ⟨g, hg, hrepo, hwrite⟩ := grant_of_file hinv hrun hrow
    exact ⟨g, approved_of_grant hg, hrepo, hwrite⟩
  · obtain ⟨hserver, -, -⟩ := siteStep_eq hstep
    rcases serve_server svc a s.server with hsame | ⟨r, heffect, hres⟩
    · exact absurd (hserver.trans hsame) hne
    · rw [hserver, hres]
      cases heffect with
      | xorb claims hash body hauth =>
          obtain ⟨g, hrecent, hrepo, hwrite⟩ := recent_of_auth hrun hgena hauth
          refine Or.inr ⟨g, hrecent, hwrite rfl, Or.inl ⟨hash, body, ?_⟩⟩
          rw [hrepo]
      | shard claims body hauth =>
          obtain ⟨g, hrecent, hrepo, hwrite⟩ := recent_of_auth hrun hgena hauth
          refine Or.inr ⟨g, hrecent, hwrite rfl, Or.inr ⟨body, ?_⟩⟩
          rw [hrepo]
      | quota owner limit hcall hadmin => exact Or.inl ⟨owner, limit, hadmin, rfl⟩

/-! ## Answers -/

/-- The bytes of a transfer: those of a term of a file, in a repository that the forge has let a user
    read, signed for by a reconstruction whose token was minted then. -/
def TransferEntitled (svc : HttpService ε) (acts : List (HttpAct ε)) (s : Site) (a : HttpAct ε)
    (body : List UInt8) : Prop :=
  ∃ n g t blob, Approved svc acts g ∧ g.repo.repoId = n.repoId ∧
    n.verifiedAt.toNat ≤ g.mintedAt.toNat + 300 ∧ a.env.now.toNat ≤ n.signedAt.toNat + 600 ∧
    n ∈ s.signings ∧ s.server.db.fileInRepo n.file g.repo.repoId = true ∧
    t ∈ s.server.db.fileTermList n.file ∧ SignedTerm s.server.db t n.range ∧
    s.server.blobs t.xorb = some blob ∧
    body = (blob.take (n.range.endInclusive.toNat + 1)).drop n.range.start.toNat

/-- The forge lets the token of a download read the repository, now, and the file is in it. -/
def DownloadEntitled (svc : HttpService ε) (s : Site) (a : HttpAct ε) : Prop :=
  ∃ fileHex token repoId filename file repo user,
    a.request.call = .getFileDownload fileHex token repoId filename ∧
    decodeHash fileHex = .ok file ∧ parseOwnerName repoId = .ok repo ∧
    svc.authz.checkRepoAccess a.env.upstream token repo .read = .ok user ∧
    s.server.db.fileInRepo file repo.repoId = true

/-- The caller is the admin, or has a token for a repository of the owner. -/
def OwnerEntitled (svc : HttpService ε) (acts : List (HttpAct ε)) (a : HttpAct ε) (owner : String) :
    Prop :=
  PresentsAdmin svc a.request.authorization ∨ ∃ g, Recent svc acts a g ∧ g.repo.owner = owner

/-- What an answer rests on. -/
def Entitled (svc : HttpService ε) (acts : List (HttpAct ε)) (s : Site) (a : HttpAct ε) :
    Reply → Prop
  | .uploadedXorb _ => ∃ g, Recent svc acts a g ∧ g.scope = .write
  | .uploadedShard => ∃ g, Recent svc acts a g ∧ g.scope = .write
  | .reconstruction _ _ => ∃ g file, Recent svc acts a g ∧
      s.server.db.fileInRepo file g.repo.repoId = true
  | .dedupShard _ => ∃ g, Recent svc acts a g
  | .transfer response => TransferEntitled svc acts s a response.body
  | .download _ _ => DownloadEntitled svc s a
  | .token _ => ∃ g, Approved svc [a] g
  | .ownerUsage response => OwnerEntitled svc acts a response.owner
  | .repoUsage response => ∃ owner repo, response.repoId = owner ++ "/" ++ repo ∧
      OwnerEntitled svc acts a owner
  | .quotaSet => PresentsAdmin svc a.request.authorization

theorem getXorbRange_eq_ok {st : ServerState} {x : XorbHash} {start stop : Nat} {bytes : List UInt8}
    (h : st.getXorbRange x start stop = .ok bytes) :
    ∃ body, st.blobs x = some body ∧ bytes = (body.take stop).drop start := by
  unfold ServerState.getXorbRange at h
  split_ifs at h
  split at h
  · cases h
  · rename_i body hbody
    split_ifs at h
    exact ⟨body, hbody, (Except.ok.inj h).symm⟩

/-- **Bytes go back to a grant.** -/
theorem transferEntitled {acts : List (HttpAct ε)} {s : Site} {a : HttpAct ε} {q : TransferRequest}
    {resp : TransferResponse} (hrun : Machine.run (siteStep svc) Site.empty acts = some s)
    (hinv : SiteInv svc s) (hforge : Unforgeable svc.mac (s.signings.map Signing.range) q)
    (h : getXorbTransfer svc.mac s.server a.env.now q = .ok resp) :
    TransferEntitled svc acts s a resp.body := by
  obtain ⟨xorb, header, hhash, hsig, hnow, -, -, hrange⟩ := getXorbTransfer_ok svc.mac h
  have hsigned : sign svc.mac q.claimed <+: q.sig := by
    refine prefix_of_ctEq ?_ hsig
    unfold sign
    rw [Hex.length_encode, (svc.mac q.claimed.message).length_eq]
    decide
  obtain ⟨r, hr, hmessage⟩ := List.mem_map.1 (hforge hsigned)
  obtain ⟨n, hn, rfl⟩ := List.mem_map.1 hr
  have hclaimed : n.range = q.claimed := message_injective hmessage
  obtain ⟨hfor, g, hg, hrepo, hlife⟩ := hinv.signings n hn
  obtain ⟨t, ht, hterm⟩ := hfor.term
  rw [grants_run_empty hrun] at hg
  have hxorb : xorb = t.xorb := by
    have hencoded : encodeHash xorb = encodeHash t.xorb := by
      rw [← hterm.hash, hclaimed]
      exact hhash.symm
    exact Except.ok.inj ((decodeHash_iff.2 rfl).symm.trans (decodeHash_iff.2 hencoded.symm)).symm
  obtain ⟨first, last, -, -, -, -, -, hend⟩ := hterm.frames
  have hsucc : (q.e + 1).toNat = q.e.toNat + 1 := by
    have hstart := last.onDiskStart.toNat_lt
    have hlen := last.onDiskLen.toNat_lt
    have hq : n.range.endInclusive = q.e := by
      rw [hclaimed]
      rfl
    rw [hq] at hend
    rw [UInt64.toNat_add, UInt64.toNat_one]
    omega
  rw [hsucc, hxorb] at hrange
  obtain ⟨blob, hblob, hbytes⟩ := getXorbRange_eq_ok hrange
  have hexp := hfor.exp
  have hle := UInt64.le_iff_toNat_le.1 hnow
  refine ⟨n, g, t, blob, approved_of_grant hg, hrepo, hlife, ?_, hn, ?_, ht, hterm, hblob, ?_⟩
  · rw [hclaimed] at hexp
    exact hle.trans hexp
  · rw [hrepo]
    exact hfor.inRepo
  · rw [hclaimed]
    exact hbytes

theorem downloadEntitled {s : Site} {a : HttpAct ε} {fileHex : List UInt8} {token repoId : String}
    {filename : Option String} {reply : Reply}
    (hcall : a.request.call = .getFileDownload fileHex token repoId filename)
    (h : handleGetFileDownload svc a.env s.server fileHex token repoId filename = .ok reply) :
    DownloadEntitled svc s a ∧ ∃ d disposition, reply = .download d disposition := by
  unfold handleGetFileDownload at h
  obtain ⟨file, hfile, h⟩ := Results.bind_eq_ok.1 h
  obtain ⟨repo, hrepo, h⟩ := Results.bind_eq_ok.1 h
  obtain ⟨user, huser, h⟩ := Results.bind_eq_ok.1 h
  unfold decodeFor at hfile
  rw [Results.mapError_eq_ok] at hfile huser
  split_ifs at h with hin
  obtain ⟨name, -, h⟩ := Results.bind_eq_ok.1 h
  obtain ⟨found, -, h⟩ := Results.bind_eq_ok.1 h
  refine ⟨⟨fileHex, token, repoId, filename, file, repo, user, hcall, hfile, hrepo, huser, ?_⟩, ?_⟩
  · exact (Bool.not_eq_false _).mp hin
  · cases found with
    | none => cases h
    | some terms =>
        obtain ⟨disposition, -, h⟩ := Results.bind_eq_ok.1 h
        exact ⟨_, disposition, (Except.ok.inj h).symm⟩

theorem ownerEntitled {acts : List (HttpAct ε)} {s : Site} {a : HttpAct ε} {owner : String}
    (hrun : Machine.run (siteStep svc) Site.empty acts = some s) (hgen : Genuine svc s a)
    (h : requireAdminOrOwner svc.authz.jwt svc.adminToken a.env.verifiedAt a.request.authorization
      owner = .ok ()) : OwnerEntitled svc acts a owner := by
  unfold requireAdminOrOwner at h
  split at h
  · cases h
  · rename_i text hbearer
    split_ifs at h with hadmin
    · unfold isAdmin at hadmin
      split at hadmin
      · rename_i admin presented hsome hpresented
        exact Or.inl ⟨admin, text, presented, hsome, hbearer, hpresented, admin_begins hadmin⟩
      · cases hadmin
    · obtain ⟨claims, hverify, h⟩ := Results.bind_eq_ok.1 h
      rw [Results.mapError_eq_ok, verify_eq_ok] at hverify
      split_ifs at h with howner
      obtain ⟨g, hg, hclaims⟩ := List.mem_map.1 (hgen.token text _ hbearer hverify.1)
      obtain ⟨hrepo, -, hlife⟩ := signed_eq_claims hclaims.symm
      rw [grants_run_empty hrun] at hg
      refine Or.inr ⟨g, ⟨approved_of_grant hg,
        (UInt64.le_iff_toNat_le.1 hverify.2).trans hlife⟩, ?_⟩
      rw [← hrepo]
      exact not_not.1 howner

theorem fileInRepo_of_reconstruction {db : Db} {base : List UInt8} {now : UInt64}
    {pick : List FileRow → Option FileRow} {repoId : String} {file : FileHash}
    {out : ReconstructionResponse × List (List UInt8)}
    (h : (signedReconstruction svc.mac base now db pick repoId file).result = .ok out) :
    db.fileInRepo file repoId = true := by
  unfold signedReconstruction at h
  split_ifs at h with hin
  · exact hin
  · cases h

/-- What stands behind the middleware is answered only with a token. -/
theorem behindAuth_ok {a : HttpAct ε} {st : ServerState} {isPost : Bool}
    {handler : TokenClaims → Served} {reply : Reply}
    (h : (behindAuth svc a.env st isPost a.request.authorization handler).answer = .ok reply) :
    ∃ claims, authMiddleware svc.authz.jwt a.env.verifiedAt isPost a.request.authorization =
      .ok claims ∧ (handler claims).answer = .ok reply := by
  unfold behindAuth at h
  split at h
  · cases h
  · rename_i claims hauth
    exact ⟨claims, hauth, h⟩

/-- **Every answer rests on a grant.** In every run, whatever the forge says from one request to the
    next and whatever is presented: what a request is answered with belongs to somebody whom the
    forge has let read it, or is the usage of an owner and goes to a token for one of its
    repositories, of whatever scope. A token counts for 300 seconds, a signed URL for 600 more, and
    a download as long as the forge says so. -/
theorem answers_need_authority (svc : HttpService ε) (acts : List (HttpAct ε)) (s : Site)
    (hrun : Machine.run (siteStep svc) Site.empty acts = some s)
    (hgen : Machine.Admissible (siteStep svc) (Genuine svc) Site.empty acts)
    (a : HttpAct ε) (hgena : Genuine svc s a) (reply : Reply)
    (h : (serve svc a.env s.server a.request).answer = .ok reply) :
    Entitled svc acts s a reply := by
  unfold serve at h
  cases hcall : a.request.call with
  | uploadXorb hashHex body =>
      simp only [hcall] at h
      obtain ⟨claims, hauth, h⟩ := behindAuth_ok h
      obtain ⟨g, hrecent, -, hwrite⟩ := recent_of_auth hrun hgena hauth
      unfold handleUploadXorb at h
      split at h
      · cases h
      · split at h
        · cases h
        · obtain rfl := Except.ok.inj h
          exact ⟨g, hrecent, hwrite rfl⟩
  | uploadShard body =>
      simp only [hcall] at h
      obtain ⟨claims, hauth, h⟩ := behindAuth_ok h
      obtain ⟨g, hrecent, -, hwrite⟩ := recent_of_auth hrun hgena hauth
      obtain ⟨_, -, rfl⟩ := Results.map_eq_ok.1 h
      exact ⟨g, hrecent, hwrite rfl⟩
  | getReconstruction fileHex =>
      simp only [hcall] at h
      obtain ⟨claims, hauth, h⟩ := behindAuth_ok h
      obtain ⟨g, hrecent, hrepo, -⟩ := recent_of_auth hrun hgena hauth
      unfold handleGetReconstruction at h
      split at h
      · cases h
      · rename_i file hfile
        obtain ⟨out, hout, rfl⟩ := Results.map_eq_ok.1 h
        refine ⟨g, file, hrecent, ?_⟩
        rw [hrepo]
        exact fileInRepo_of_reconstruction hout
  | getDedupChunk hashHex =>
      simp only [hcall] at h
      obtain ⟨claims, hauth, h⟩ := behindAuth_ok h
      obtain ⟨g, hrecent, -, -⟩ := recent_of_auth hrun hgena hauth
      obtain ⟨chunk, -, h⟩ := Results.bind_eq_ok.1 h
      obtain ⟨shard, -, h⟩ := Results.bind_eq_ok.1 h
      obtain rfl := Except.ok.inj h
      exact ⟨g, hrecent⟩
  | getXorbTransfer q =>
      simp only [hcall] at h
      obtain ⟨resp, hresp, rfl⟩ := Results.map_eq_ok.1 h
      exact transferEntitled hrun (siteInv_run hgen hrun) (hgena.url q hcall) hresp
  | getFileDownload fileHex token repo filename =>
      simp only [hcall] at h
      obtain ⟨hentitled, d, disposition, rfl⟩ := downloadEntitled hcall h
      exact hentitled
  | issueXetToken typeSeg ns name tokSeg rev =>
      simp only [hcall] at h
      have hgrant : a.grant svc = (checkHubAccess svc a.env typeSeg ns name tokSeg rev
          a.request.authorization).toOption := by
        unfold HttpAct.grant
        simp only [hcall]
      unfold handleIssueXetToken at h
      cases hcheck : checkHubAccess svc a.env typeSeg ns name tokSeg rev
          a.request.authorization with
      | error e => simp [hcheck] at h
      | ok g =>
          rw [hcheck] at h hgrant
          obtain ⟨minted, -, rfl⟩ := Results.map_eq_ok.1 h
          refine ⟨g, approved_of_grant (List.mem_filterMap.2 ⟨a, List.mem_singleton_self a, ?_⟩)⟩
          exact hgrant
  | getOwnerUsage owner =>
      simp only [hcall] at h
      obtain ⟨_, hcheck, h⟩ := Results.bind_eq_ok.1 h
      obtain ⟨raw, -, h⟩ := Results.bind_eq_ok.1 h
      obtain ⟨stored, -, h⟩ := Results.bind_eq_ok.1 h
      obtain ⟨quota, -, h⟩ := Results.bind_eq_ok.1 h
      obtain rfl := Except.ok.inj h
      exact ownerEntitled hrun hgena hcheck
  | getRepoUsage owner repo =>
      simp only [hcall] at h
      obtain ⟨_, hcheck, h⟩ := Results.bind_eq_ok.1 h
      obtain ⟨raw, -, h⟩ := Results.bind_eq_ok.1 h
      obtain ⟨stored, -, h⟩ := Results.bind_eq_ok.1 h
      obtain ⟨exclusive, -, h⟩ := Results.bind_eq_ok.1 h
      obtain rfl := Except.ok.inj h
      exact ⟨owner, repo, rfl, ownerEntitled hrun hgena hcheck⟩
  | putOwnerQuota owner limitBytes =>
      simp only [hcall, handlePutOwnerQuota] at h
      split at h
      · cases h
      · rename_i db hput
        obtain rfl := Except.ok.inj h
        exact presentsAdmin_of_put hput

end Runs

/-! ## A configured server -/

/-- Access is decided by the tuples of `BALE_GRANTS`, the map iterated in any order. -/
structure Configured (svc : HttpService Unit) (gs : List GrantTuple) : Prop where
  parsed : ∃ raw, (Utf8.bytes raw).length < 4294967296 ∧ parseGrants raw = .ok gs
  decides : ∃ users, users.Perm (ConfigAuthz.ofGrants gs).users ∧
    svc.authz = configAuthz svc.authz.jwt users

/-- A request is let in as the tuples say. -/
theorem Configured.grant {svc : HttpService Unit} {gs : List GrantTuple} (h : Configured svc gs)
    {a : HttpAct Unit} (hshort : ∀ value ∈ a.request.authorization, value.length < 4294967296)
    {g : Grant} (hg : a.grant svc = some g) :
    grantDecision gs g.hubBearer g.repo.repoId g.scope = .ok g.user := by
  obtain ⟨raw, hraw, hparse⟩ := h.parsed
  obtain ⟨users, hperm, hauthz⟩ := h.decides
  obtain ⟨hcheck, -, text, hbearer, htext⟩ := grant_eq_some hg
  have hlen : (asBytes g.hubBearer).length < 4294967296 := by
    cases hvalue : a.request.authorization with
    | none =>
        rw [hvalue] at hbearer
        cases hbearer
    | some value =>
        rw [hvalue] at hbearer
        rw [htext]
        exact (length_bearer hbearer).trans_lt (hshort value hvalue)
  rw [hauthz] at hcheck
  rw [← hcheck]
  exact (checkRepoAccess_ofGrants hraw hparse hperm hlen g.repo g.scope).symm

/-- **What a configured server stores**: in every run, each file is in a repository that one of the
    tuples lets somebody write to. -/
theorem configured_files {svc : HttpService Unit} {gs : List GrantTuple} (h : Configured svc gs)
    {acts : List (HttpAct Unit)} {s : Site}
    (hrun : Machine.run (siteStep svc) Site.empty acts = some s)
    (hgen : Machine.Admissible (siteStep svc) (Genuine svc) Site.empty acts)
    (hshort : ∀ a ∈ acts, ∀ value ∈ a.request.authorization, value.length < 4294967296) :
    ∀ row ∈ s.server.db.files, ∃ t ∈ gs, t.repoId = row.repo.repoId ∧ t.scope = .write := by
  intro row hrow
  obtain ⟨g, hg, hrepo, hwrite⟩ := grant_of_file (siteInv_run hgen hrun) hrun hrow
  obtain ⟨a, ha, hgrant⟩ := List.mem_filterMap.1 hg
  obtain ⟨t, ht, -, hfor, hscope⟩ := exists_tuple_of_grantDecision (h.grant (hshort a ha) hgrant)
  exact ⟨t, ht, by rw [hfor, hrepo], hscope hwrite⟩

/-! ## A run -/

namespace Sample

/-- The claims of a token that is minted for alice at 1700000000. -/
def aliceClaims : XetClaims := ⟨"alice", "model", "alice/data", "main", "write", 1700000300⟩

/-- Its JWT, under a secret of zeros. -/
def aliceToken : String :=
  "eyJ0eXAiOiJKV1QiLCJhbGciOiJIUzI1NiJ9.eyJzdWIiOiJhbGljZSIsInJlcG9fdHlwZSI6Im1vZGVsIiwicmVwb19pZCI6" ++
    "ImFsaWNlL2RhdGEiLCJyZXZpc2lvbiI6Im1haW4iLCJzY29wZSI6IndyaXRlIiwiZXhwIjoxNzAwMDAwMzAwfQ." ++
    "3Hs15cA8BByppPmXHTXSTOqnC-8bWuFEEpZdRq-D4JM"

def jwt : Jwt where
  encode c := if c = aliceClaims then .ok aliceToken else .error "other claims"
  decode token := if token = aliceToken then some aliceClaims else none

/-- The body of the forge's answer. -/
def aliceBody : List UInt8 := ascii "\x7b\"user_id\":\"alice\"\x7d".toList

def httpService : HttpService (String → RepoRef → Scope → UpstreamReply) where
  service := service
  authz := httpAuthz jwt (fun body => if body = aliceBody then some "alice" else none)
  mac := hmac
  publicBaseUrl := []
  adminToken := none
  sha256 := fun _ => hash32 0
  wrapChunkHash := fun c _ => c
  payloadFilename := fun _ => none

def httpEnv (reply : UpstreamReply) : Env (String → RepoRef → Scope → UpstreamReply) where
  verifiedAt := 1700000000
  now := 1700000000
  dbNow := 0
  upstream := fun _ _ _ => reply
  pickFile := List.head?
  pickChunk := List.head?
  sortChunks := id
  hmacKey := hash32 0

def withBearer (token : String) (call : Call) : HttpRequest :=
  ⟨call, some (ascii ("Bearer ".toList ++ token.toList))⟩

/-- The forge lets alice write, once. -/
def issue : HttpAct (String → RepoRef → Scope → UpstreamReply) :=
  ⟨httpEnv (.answered 200 (some 19) (some aliceBody)),
    withBearer "hub" (.issueXetToken "models" "alice" "data" "bale-write-token" "main")⟩

/-- The forge says no to everybody. -/
def later (call : Call) : HttpAct (String → RepoRef → Scope → UpstreamReply) :=
  ⟨httpEnv (.answered 403 none none), withBearer aliceToken call⟩

def httpUpload : HttpAct (String → RepoRef → Scope → UpstreamReply) :=
  later (.uploadXorb (encodeHash (hash32 0x61)) plainBody)

/-- The site once the token is issued. -/
def issued : Site := ⟨ServerState.empty, [⟨"hub", "alice", repo, .write, 1700000000⟩], []⟩

theorem run_issue : Machine.run (siteStep httpService) Site.empty [issue] = some issued := by
  have hgrants : (serve httpService issue.env ServerState.empty issue.request).grants =
      issued.grants := by
    decide +kernel
  have hserver : (serve httpService issue.env ServerState.empty issue.request).server =
      ServerState.empty := rfl
  have hsignings : (serve httpService issue.env ServerState.empty issue.request).signings = [] := rfl
  simp only [Machine.run, siteStep, Site.empty, Option.bind_some, List.nil_append, hgrants, hserver,
    hsignings]
  rfl

theorem genuine_issue : Machine.Admissible (siteStep httpService) (Genuine httpService) Site.empty
    [issue] := by
  have hbearer : bearer issue.request.authorization = some "hub".toList := by decide +kernel
  refine ⟨⟨fun text c htext hc => ?_, fun q hq => by cases hq⟩, fun _ _ => trivial⟩
  rw [hbearer] at htext
  obtain rfl := Option.some.inj htext
  have hnone : httpService.authz.jwt.decode (String.ofList "hub".toList) = none := by decide +kernel
  rw [hnone] at hc
  cases hc

theorem genuine_later (call : Call) (hcall : ∀ q, call ≠ .getXorbTransfer q) :
    Genuine httpService issued (later call) := by
  refine ⟨fun text c htext hc => ?_, fun q hq => absurd hq (hcall q)⟩
  have hc' : c = aliceClaims := by
    change (if String.ofList text = aliceToken then some aliceClaims else none) = some c at hc
    split_ifs at hc
    exact (Option.some.inj hc).symm
  rw [hc']
  decide +kernel

end Sample

/-- The forge has let alice write, and says no from then on: her upload is accepted all the same. -/
theorem changes_need_authority_upload : ∃ g, Recent Sample.httpService [Sample.issue]
      Sample.httpUpload g ∧ g.scope = .write := by
  obtain ⟨-, -, hchange⟩ := changes_need_authority Sample.httpService [Sample.issue] Sample.issued
    Sample.run_issue Sample.genuine_issue
  have hne : (serve Sample.httpService Sample.httpUpload.env Sample.issued.server
      Sample.httpUpload.request).server ≠ Sample.issued.server := by
    intro heq
    have hblob := congrArg (fun st : ServerState => st.blobs (Sample.hash32 0x61)) heq
    revert hblob
    decide +kernel
  obtain ⟨s', hstep⟩ : ∃ s', siteStep Sample.httpService Sample.issued Sample.httpUpload = some s' :=
    ⟨_, siteStep_serve _ _ _⟩
  rw [← (siteStep_eq hstep).1] at hne
  rcases hchange Sample.httpUpload s' (Sample.genuine_later _ (fun q hq => by cases hq)) hstep hne with
    ⟨owner, limit, ⟨admin, text, presented, hadmin, -⟩, -⟩ | ⟨g, hrecent, hwrite, -⟩
  · cases hadmin
  · exact ⟨g, hrecent, hwrite⟩

namespace Sample

/-- The shard of the file `hash32 1`, and its reconstruction. -/
def readBack : List (HttpAct (String → RepoRef → Scope → UpstreamReply)) :=
  [later (.uploadXorb (encodeHash (hash32 0x61)) plainBody),
    later (.uploadShard (byteFile repo 0x61).body),
    later (.getReconstruction (encodeHash (hash32 1)))]

theorem genuine_readBack : Machine.Admissible (siteStep httpService) (Genuine httpService) Site.empty
    (issue :: readBack) := by
  refine ⟨genuine_issue.1, fun s' hs' => ?_⟩
  have hissued : s' = issued := by
    have hrun := run_issue
    simp only [Machine.run, hs', Option.bind_some, Option.some.injEq] at hrun
    exact hrun
  -- the grant stays, and every bearer is the token of that grant
  refine Machine.admissible_of_invariant (fun s => issued.grants ⊆ s.grants)
    (fun s a ha hs => ?_) (fun s a _ s'' hs hstep => ?_) (hissued ▸ List.Subset.refl _)
  · have hlater : ∃ call, a = later call ∧ ∀ q, call ≠ .getXorbTransfer q := by
      simp only [readBack, List.mem_cons, List.not_mem_nil, or_false] at ha
      rcases ha with rfl | rfl | rfl <;> exact ⟨_, rfl, fun q hq => by cases hq⟩
    obtain ⟨call, rfl, hcall⟩ := hlater
    obtain ⟨htoken, -⟩ := genuine_later call hcall
    refine ⟨fun text c htext hc => ?_, fun q hq => absurd hq (hcall q)⟩
    exact List.map_subset _ hs (htoken text c htext hc)
  · rw [(siteStep_eq hstep).2.1]
    exact fun g hg => List.mem_append_left _ (hs hg)

end Sample

/-- The forge says no by now, and the URL of the reconstruction still reads the byte. -/
theorem answers_need_authority_transfer :
    TransferEntitled Sample.httpService (Sample.issue :: Sample.readBack)
      (siteAfter Sample.httpService Site.empty (Sample.issue :: Sample.readBack))
      (Sample.later (.getXorbTransfer Sample.transfer)) [0, 1, 0, 0, 0, 1, 0, 0, 0x61] := by
  refine answers_need_authority Sample.httpService (Sample.issue :: Sample.readBack) _
    (run_siteAfter _ _ _) Sample.genuine_readBack (Sample.later (.getXorbTransfer Sample.transfer))
    ⟨fun text c htext hc => ?_, fun q hq => ?_⟩
    (.transfer ⟨206, [0, 1, 0, 0, 0, 1, 0, 0, 0x61], 9, ascii "bytes 0-8/*".toList⟩)
    (by decide +kernel)
  · have hc' : c = Sample.aliceClaims := by
      change (if String.ofList text = Sample.aliceToken then some Sample.aliceClaims else none) =
        some c at hc
      split_ifs at hc
      exact (Option.some.inj hc).symm
    rw [hc']
    decide +kernel
  · obtain rfl : Sample.transfer = q := Call.getXorbTransfer.inj hq
    exact fun _ => by decide +kernel

end BaleForGit.Server
