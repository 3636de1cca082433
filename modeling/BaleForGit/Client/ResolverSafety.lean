import BaleForGit.Client.Resolver

set_option autoImplicit false

/-! # What a resolution asks, and where its token comes from

Each request of a resolution is allowed by those before it and by their answers (`Allowed`): a password
is asked for only when the forge wants one, and goes to the remote it was asked for; the server gets
the bearer of the forge and nothing else. `refreshes_eq` says which refreshes of a run succeed. -/

namespace BaleForGit.Resolver

open Remote

/-! ## Allowed requests -/

section Allowed

variable (w : World) (raw : RawConfig) (scope : Scope)

/-- The forge has answered the request with this outcome. -/
def Minted (outcome : AuthOutcome) : Request → Prop
  | .authenticate url creds => readAuthenticate w url (w.post url creds) = .ok outcome
  | .ssh argv => ∃ args, readSsh w args (w.ssh argv) = .ok outcome
  | .credentialFill _ _ => False
  | .exchange _ _ => False

/-- The protocol by which a password is asked for. -/
def IsProtocol (remote : RemoteUrl) (protocol : List Char) : Prop :=
  remote.scheme = .http ∧ protocol = "http".toList ∨
    remote.scheme = .https ∧ protocol = "https".toList

variable (remote : RemoteUrl) (owner repo : List Char)

/-- What may be asked, after what has been asked before. -/
inductive Allowed : List Request → Request → Prop where
  | anonymous (hscope : scope = .read) (hscheme : remote.scheme ≠ .ssh) :
      Allowed [] (.authenticate (authenticateUrl remote owner repo scope) none)
  | fill (protocol : List Char) (hprotocol : IsProtocol remote protocol) (hscope : scope = .write) :
      Allowed [] (.credentialFill (credentialInput remote protocol) raw.repoCwd)
  | fillRefused (protocol : List Char) (hprotocol : IsProtocol remote protocol)
      (hscope : scope = .read)
      (hrefused : readAuthenticate w (authenticateUrl remote owner repo scope)
        (w.post (authenticateUrl remote owner repo scope) none) = .error .needsAuth) :
      Allowed [.authenticate (authenticateUrl remote owner repo scope) none]
        (.credentialFill (credentialInput remote protocol) raw.repoCwd)
  | password (before : List Request) (protocol : List Char) (creds : List Char × List Char)
      (hprotocol : IsProtocol remote protocol)
      (hlast : before.getLast? =
        some (.credentialFill (credentialInput remote protocol) raw.repoCwd))
      (hcreds : readCredentials (w.fill (credentialInput remote protocol) raw.repoCwd) = .ok creds) :
      Allowed before (.authenticate (authenticateUrl remote owner repo scope) (some creds))
  | ssh (call : SshCall) (hcall : Remote.resolveForRemote remote scope = .ok (some call)) :
      Allowed [] (.ssh (sshSubprocess raw.sshCommand (sshArgs call)))
  | exchange (before : List Request) (last : Request) (outcome : AuthOutcome) (bearer : List Char)
      (htoken : raw.token = none) (hlast : before.getLast? = some last)
      (hminted : Minted w outcome last) (hbearer : stripBearer outcome.authorization = some bearer) :
      Allowed before (.exchange (exchangeUrl (raw.serverUrl.getD outcome.href) owner repo scope)
        bearer)

/-- Where the result of a resolution comes from. -/
inductive Obtained : List Request → ResolvedAuth → Prop where
  | configured (url token : List Char) (hurl : raw.serverUrl = some url)
      (htoken : raw.token = some token) :
      Obtained [] ⟨url, token, raw.tokenExpiration.getD (farFutureEpoch w.now)⟩
  | literal (log : List Request) (last : Request) (outcome : AuthOutcome) (token : List Char)
      (hlast : log.getLast? = some last) (hminted : Minted w outcome last)
      (htoken : raw.token = some token) :
      Obtained log ⟨raw.serverUrl.getD outcome.href, token,
        raw.tokenExpiration.getD (farFutureEpoch w.now)⟩
  | exchanged (log : List Request) (serverUrl url bearer : List Char) (auth : ResolvedAuth)
      (htoken : raw.token = none) (hlast : log.getLast? = some (.exchange url bearer))
      (hanswer : readExchange w serverUrl url (w.get url bearer) = .ok auth) : Obtained log auth

end Allowed

/-! ## The forge -/

section Forge

variable {w : World} {raw : RawConfig} {scope : Scope} {remote : RemoteUrl}
  {owner repo : List Char}

/-- A request that is answered with an outcome was made. -/
theorem authenticateHttp_ok {creds : Option (List Char × List Char)} {outcome : AuthOutcome}
    (h : (authenticateHttp w remote owner repo scope creds).result = .ok outcome) :
    (authenticateHttp w remote owner repo scope creds).log =
      [.authenticate (authenticateUrl remote owner repo scope) creds] ∧
    Minted w outcome (.authenticate (authenticateUrl remote owner repo scope) creds) := by
  unfold authenticateHttp at h ⊢
  cases hclient : w.client with
  | some cause =>
      simp only [hclient, Traced.lift_result] at h
      cases h
  | none =>
      simp only [hclient] at h
      exact ⟨rfl, h⟩

/-- A refusal is the forge's. -/
theorem authenticateHttp_refused {creds : Option (List Char × List Char)}
    (h : (authenticateHttp w remote owner repo scope creds).result = .error .needsAuth) :
    (authenticateHttp w remote owner repo scope creds).log =
      [.authenticate (authenticateUrl remote owner repo scope) creds] ∧
    readAuthenticate w (authenticateUrl remote owner repo scope)
      (w.post (authenticateUrl remote owner repo scope) creds) = .error .needsAuth := by
  unfold authenticateHttp at h ⊢
  cases hclient : w.client with
  | some cause =>
      simp only [hclient, Traced.lift_result] at h
      cases h
  | none =>
      simp only [hclient] at h
      exact ⟨rfl, h⟩

theorem authenticateHttp_licensed {P : List Request → Request → Prop} {before : List Request}
    {creds : Option (List Char × List Char)}
    (h : P before (.authenticate (authenticateUrl remote owner repo scope) creds)) :
    Traced.Licensed P before (authenticateHttp w remote owner repo scope creds) := by
  unfold authenticateHttp
  cases hclient : w.client with
  | some cause => exact Traced.licensed_of_log_nil rfl
  | none => exact Traced.licensed_single rfl h

/-- What `git credential fill` is asked, and answers. -/
theorem gitCredentialFill_cases (w : World) (remote : RemoteUrl) (cwd : Option (List Char)) :
    ((gitCredentialFill w remote cwd).log = [] ∧
      (gitCredentialFill w remote cwd).result = .error .sshRemote) ∨
    ∃ protocol, IsProtocol remote protocol ∧
      (gitCredentialFill w remote cwd).log =
        [.credentialFill (credentialInput remote protocol) cwd] ∧
      (gitCredentialFill w remote cwd).result =
        readCredentials (w.fill (credentialInput remote protocol) cwd) := by
  unfold gitCredentialFill
  cases hscheme : remote.scheme with
  | ssh => exact Or.inl ⟨rfl, rfl⟩
  | http => exact Or.inr ⟨_, Or.inl ⟨hscheme, rfl⟩, rfl, rfl⟩
  | https => exact Or.inr ⟨_, Or.inr ⟨hscheme, rfl⟩, rfl, rfl⟩

/-- **A password goes where it was asked for.** -/
theorem authenticateWithPassword_licensed {before : List Request}
    (hfill : ∀ protocol, IsProtocol remote protocol →
      Allowed w raw scope remote owner repo before
        (.credentialFill (credentialInput remote protocol) raw.repoCwd)) :
    Traced.Licensed (Allowed w raw scope remote owner repo) before
      (authenticateWithPassword w remote owner repo scope raw.repoCwd) := by
  unfold authenticateWithPassword
  rcases gitCredentialFill_cases w remote raw.repoCwd with ⟨hlog, hresult⟩ |
    ⟨protocol, hprotocol, hlog, hresult⟩
  · rw [Traced.bind_of_error hresult]
    exact Traced.licensed_of_log_nil hlog
  · refine Traced.licensed_bind (Traced.licensed_single hlog (hfill protocol hprotocol))
      (fun creds hcreds => authenticateHttp_licensed ?_)
    refine .password _ protocol creds hprotocol ?_ (hresult.symm.trans hcreds)
    rw [hlog, List.getLast?_append, List.getLast?_singleton]
    rfl

/-- An outcome is the answer to the last request. -/
def EndsMinted (w : World) (x : Traced Request AuthError AuthOutcome) : Prop :=
  ∀ outcome, x.result = .ok outcome → ∃ last, x.log.getLast? = some last ∧ Minted w outcome last

theorem authenticateHttp_minted (creds : Option (List Char × List Char)) :
    EndsMinted w (authenticateHttp w remote owner repo scope creds) := by
  intro outcome h
  obtain ⟨hlog, hminted⟩ := authenticateHttp_ok h
  exact ⟨_, by rw [hlog, List.getLast?_singleton], hminted⟩

/-- What ends with an outcome ends so after anything. -/
theorem EndsMinted.bind {α : Type} {x : Traced Request AuthError α}
    {f : α → Traced Request AuthError AuthOutcome} (h : ∀ a, x.result = .ok a → EndsMinted w (f a)) :
    EndsMinted w (x >>= f) := by
  intro outcome hresult
  cases hx : x.result with
  | error e =>
      rw [Traced.bind_of_error hx] at hresult
      cases hresult
  | ok a =>
      rw [Traced.bind_of_ok hx] at hresult ⊢
      obtain ⟨last, hlast, hminted⟩ := h a hx outcome hresult
      refine ⟨last, ?_, hminted⟩
      rw [List.getLast?_append, hlast]
      rfl

theorem authenticateWithPassword_minted :
    EndsMinted w (authenticateWithPassword w remote owner repo scope raw.repoCwd) :=
  EndsMinted.bind (fun creds _ => authenticateHttp_minted (some creds))

/-- **By HTTP**: without a password first, to read. -/
theorem authenticateHttpWithFallback_spec (hscheme : remote.scheme ≠ .ssh) :
    Traced.Licensed (Allowed w raw scope remote owner repo) []
      (authenticateHttpWithFallback w remote owner repo scope raw.repoCwd) ∧
    EndsMinted w (authenticateHttpWithFallback w remote owner repo scope raw.repoCwd) := by
  cases hscope : scope with
  | write =>
      exact ⟨authenticateWithPassword_licensed (fun protocol hprotocol =>
        .fill protocol hprotocol rfl), authenticateWithPassword_minted⟩
  | read =>
      have hfirst : Traced.Licensed (Allowed w raw .read remote owner repo) []
          (authenticateHttp w remote owner repo .read none) :=
        authenticateHttp_licensed (.anonymous rfl hscheme)
      unfold authenticateHttpWithFallback
      cases hres : (authenticateHttp w remote owner repo .read none).result with
      | ok outcome =>
          refine ⟨Traced.licensed_bind (Traced.licensed_attempt.2 hfirst) (fun a ha => ?_),
            fun outcome' hout => ?_⟩
          · obtain rfl := Except.ok.inj ha
            rw [hres]
            exact Traced.licensed_of_log_nil rfl
          · obtain ⟨hlog, hminted⟩ := authenticateHttp_ok hres
            rw [Traced.bind_of_ok (Traced.attempt_result _)] at hout ⊢
            rw [hres] at hout ⊢
            obtain rfl := Except.ok.inj hout
            refine ⟨_, ?_, hminted⟩
            rw [Traced.attempt_log, hlog]
            rfl
      | error e =>
          by_cases he : e = .needsAuth
          · subst he
            obtain ⟨hlog, hrefused⟩ := authenticateHttp_refused hres
            refine ⟨Traced.licensed_bind (Traced.licensed_attempt.2 hfirst) (fun a ha => ?_),
              EndsMinted.bind (fun a ha => ?_)⟩
            · obtain rfl := Except.ok.inj ha
              rw [hres, Traced.attempt_log, hlog]
              exact authenticateWithPassword_licensed (fun protocol hprotocol =>
                .fillRefused protocol hprotocol rfl hrefused)
            · obtain rfl := Except.ok.inj ha
              rw [hres]
              exact authenticateWithPassword_minted
          · refine ⟨Traced.licensed_bind (Traced.licensed_attempt.2 hfirst) (fun a ha => ?_),
              EndsMinted.bind (fun a ha => ?_)⟩
            · obtain rfl := Except.ok.inj ha
              rw [hres]
              split
              · exact Traced.licensed_of_log_nil rfl
              · exact absurd (by assumption) (by simpa using he)
              · exact Traced.licensed_of_log_nil rfl
            · obtain rfl := Except.ok.inj ha
              rw [hres]
              split
              · rename_i h
                cases h
              · exact absurd (by assumption) (by simpa using he)
              · intro outcome h
                cases h

/-- What `resolve_for_remote` calls ssh with. -/
theorem resolveForRemote_ssh (hname : checkedName remote = .ok (owner, repo))
    (hscheme : remote.scheme = .ssh) :
    Remote.resolveForRemote remote scope =
      .ok (some (sshAuthenticate remote owner repo scope)) := by
  unfold checkedName at hname
  obtain ⟨⟨o, r⟩, ho, hrest⟩ := Results.bind_eq_ok.1 hname
  obtain ⟨_, howner, hrest⟩ := Results.bind_eq_ok.1 hrest
  obtain ⟨_, hrepo, hpair⟩ := Results.bind_eq_ok.1 hrest
  obtain ⟨rfl, rfl⟩ := Prod.mk.inj (Except.ok.inj hpair)
  rw [Results.mapError_eq_ok] at ho howner hrepo
  unfold Remote.resolveForRemote
  rw [ho]
  simp only [Except.mapError, bind, Except.bind, howner, hrepo, hscheme]
  rfl

/-- **The forge**, by whatever scheme. -/
theorem authenticate_spec (hname : checkedName remote = .ok (owner, repo)) :
    Traced.Licensed (Allowed w raw scope remote owner repo) []
      (authenticate w raw remote owner repo scope) ∧
    EndsMinted w (authenticate w raw remote owner repo scope) := by
  unfold authenticate
  cases hscheme : remote.scheme with
  | ssh =>
      constructor
      · exact Traced.licensed_single rfl (.ssh _ (resolveForRemote_ssh hname hscheme))
      · intro outcome h
        exact ⟨_, rfl, _, h⟩
  | http => exact authenticateHttpWithFallback_spec (by simp [hscheme])
  | https => exact authenticateHttpWithFallback_spec (by simp [hscheme])

/-- The exchange is the last request, and its answer is the result. -/
theorem exchangeToken_ok {serverUrl bearer : List Char} {auth : ResolvedAuth}
    (h : (exchangeToken w serverUrl owner repo scope bearer).result = .ok auth) :
    (exchangeToken w serverUrl owner repo scope bearer).log =
      [.exchange (exchangeUrl serverUrl owner repo scope) bearer] ∧
    readExchange w serverUrl (exchangeUrl serverUrl owner repo scope)
      (w.get (exchangeUrl serverUrl owner repo scope) bearer) = .ok auth := by
  unfold exchangeToken at h ⊢
  cases hclient : w.client with
  | some cause =>
      simp only [hclient, Traced.lift_result] at h
      cases h
  | none =>
      simp only [hclient] at h
      exact ⟨rfl, h⟩

theorem exchangeToken_licensed {P : List Request → Request → Prop} {before : List Request}
    {serverUrl bearer : List Char}
    (h : P before (.exchange (exchangeUrl serverUrl owner repo scope) bearer)) :
    Traced.Licensed P before (exchangeToken w serverUrl owner repo scope bearer) := by
  unfold exchangeToken
  cases hclient : w.client with
  | some cause => exact Traced.licensed_of_log_nil rfl
  | none => exact Traced.licensed_single rfl h

end Forge

/-! ## Resolutions -/

section Resolve

variable (w : World) (raw : RawConfig) (scope : Scope) (remoteOverride : Option RemoteUrl)

/-- What is done with the outcome of the forge. -/
def useOutcome (owner repo : List Char) (auth : AuthOutcome) :
    Traced Request AuthError ResolvedAuth :=
  match stripBearer auth.authorization with
  | none => Traced.lift (.error .notBearer)
  | some bearer =>
    match raw.token with
    | some token =>
      pure ⟨raw.serverUrl.getD auth.href, token, raw.tokenExpiration.getD (farFutureEpoch w.now)⟩
    | none => exchangeToken w (raw.serverUrl.getD auth.href) owner repo scope bearer

variable {w raw scope remoteOverride} {remote : RemoteUrl} {owner repo : List Char}

theorem resolveThroughForge_eq (hremote : remoteFor w raw remoteOverride = .ok remote)
    (hname : checkedName remote = .ok (owner, repo)) :
    resolveThroughForge w raw scope remoteOverride =
      authenticate w raw remote owner repo scope >>= useOutcome w raw scope owner repo := by
  unfold resolveThroughForge
  rw [hremote, Traced.bind_of_ok (Traced.lift_result _), hname]
  simp only [Traced.lift_log, List.nil_append]
  rw [Traced.bind_of_ok (Traced.lift_result _)]
  simp only [Traced.lift_log, List.nil_append]
  rfl

theorem useOutcome_licensed {before : List Request} {last : Request} {auth : AuthOutcome}
    (hlast : before.getLast? = some last) (hminted : Minted w auth last) :
    Traced.Licensed (Allowed w raw scope remote owner repo) before
      (useOutcome w raw scope owner repo auth) := by
  unfold useOutcome
  cases hbearer : stripBearer auth.authorization with
  | none => exact Traced.licensed_of_log_nil rfl
  | some bearer =>
      cases htoken : raw.token with
      | some token => exact Traced.licensed_of_log_nil rfl
      | none =>
          exact exchangeToken_licensed (.exchange before last auth bearer htoken hlast hminted hbearer)

/-- Where the token comes from, once the forge has answered. -/
theorem useOutcome_obtained {before : List Request} {last : Request} {outcome : AuthOutcome}
    {auth : ResolvedAuth} (hlast : before.getLast? = some last) (hminted : Minted w outcome last)
    (h : (useOutcome w raw scope owner repo outcome).result = .ok auth) :
    Obtained w raw (before ++ (useOutcome w raw scope owner repo outcome).log) auth := by
  unfold useOutcome at h ⊢
  cases hbearer : stripBearer outcome.authorization with
  | none =>
      rw [hbearer] at h
      cases h
  | some bearer =>
      cases htoken : raw.token with
      | some token =>
          simp only [hbearer, htoken, Traced.pure_result, Except.ok.injEq] at h
          subst h
          simp only [Traced.pure_log, List.append_nil]
          exact .literal before last outcome token hlast hminted htoken
      | none =>
          simp only [hbearer, htoken] at h
          obtain ⟨hlog, hanswer⟩ := exchangeToken_ok h
          refine .exchanged _ _ _ bearer auth htoken ?_ hanswer
          simp only [hlog, List.getLast?_append, List.getLast?_singleton, Option.some_or]

/-- Nothing is asked without a remote whose owner and name are checked. -/
theorem resolveThroughForge_cases :
    ((resolveThroughForge w raw scope remoteOverride).log = [] ∧
      ∃ e, (resolveThroughForge w raw scope remoteOverride).result = .error e) ∨
    ∃ remote owner repo, remoteFor w raw remoteOverride = .ok remote ∧
      checkedName remote = .ok (owner, repo) := by
  unfold resolveThroughForge
  cases hremote : remoteFor w raw remoteOverride with
  | error e =>
      rw [Traced.bind_of_error (Traced.lift_result _)]
      exact Or.inl ⟨rfl, e, rfl⟩
  | ok remote =>
      rw [Traced.bind_of_ok (Traced.lift_result _)]
      cases hname : checkedName remote with
      | error e =>
          rw [Traced.bind_of_error (Traced.lift_result _)]
          exact Or.inl ⟨rfl, e, rfl⟩
      | ok name => exact Or.inr ⟨remote, name.1, name.2, rfl, hname⟩

theorem resolveThroughForge_spec (hremote : remoteFor w raw remoteOverride = .ok remote)
    (hname : checkedName remote = .ok (owner, repo)) :
    Traced.Licensed (Allowed w raw scope remote owner repo) []
      (resolveThroughForge w raw scope remoteOverride) ∧
    ∀ auth, (resolveThroughForge w raw scope remoteOverride).result = .ok auth →
      Obtained w raw (resolveThroughForge w raw scope remoteOverride).log auth := by
  rw [resolveThroughForge_eq hremote hname]
  obtain ⟨hlicensed, hminted⟩ := @authenticate_spec w raw scope remote owner repo hname
  refine ⟨Traced.licensed_bind hlicensed (fun outcome houtcome => ?_), fun auth hauth => ?_⟩
  · obtain ⟨last, hlast, hmint⟩ := hminted outcome houtcome
    rw [List.nil_append]
    exact useOutcome_licensed hlast hmint
  · cases houtcome : (authenticate w raw remote owner repo scope).result with
    | error e =>
        rw [Traced.bind_of_error houtcome] at hauth
        cases hauth
    | ok outcome =>
        obtain ⟨last, hlast, hmint⟩ := hminted outcome houtcome
        rw [Traced.bind_of_ok houtcome] at hauth ⊢
        exact useOutcome_obtained hlast hmint hauth

/-- **Resolutions.** Nothing is asked when URL and token are configured, or without a remote whose
    owner and name are checked; every request is allowed by those before it, and the token is the
    configured one or the answer to the last request. -/
theorem resolve_allowed (w : World) (raw : RawConfig) (scope : Scope)
    (remoteOverride : Option RemoteUrl) :
    (raw.serverUrl ≠ none → raw.token ≠ none →
      (resolveForRemote w raw scope remoteOverride).log = []) ∧
    ((resolveForRemote w raw scope remoteOverride).log ≠ [] → ∃ remote owner repo,
      remoteFor w raw remoteOverride = .ok remote ∧ checkedName remote = .ok (owner, repo) ∧
      Traced.Licensed (Allowed w raw scope remote owner repo) []
        (resolveForRemote w raw scope remoteOverride)) ∧
    ∀ auth, (resolveForRemote w raw scope remoteOverride).result = .ok auth →
      Obtained w raw (resolveForRemote w raw scope remoteOverride).log auth := by
  have hforge : ((resolveThroughForge w raw scope remoteOverride).log ≠ [] →
      ∃ remote owner repo, remoteFor w raw remoteOverride = .ok remote ∧
        checkedName remote = .ok (owner, repo) ∧
        Traced.Licensed (Allowed w raw scope remote owner repo) []
          (resolveThroughForge w raw scope remoteOverride)) ∧
      ∀ auth, (resolveThroughForge w raw scope remoteOverride).result = .ok auth →
        Obtained w raw (resolveThroughForge w raw scope remoteOverride).log auth := by
    rcases @resolveThroughForge_cases w raw scope remoteOverride with ⟨hlog, e, he⟩ |
      ⟨remote, owner, repo, hremote, hname⟩
    · refine ⟨fun hne => absurd hlog hne, fun auth hauth => ?_⟩
      rw [he] at hauth
      cases hauth
    · obtain ⟨hlicensed, hobtained⟩ := @resolveThroughForge_spec w raw scope remoteOverride remote
        owner repo hremote hname
      exact ⟨fun _ => ⟨remote, owner, repo, hremote, hname, hlicensed⟩, hobtained⟩
  unfold resolveForRemote
  cases hurl : raw.serverUrl with
  | none => exact ⟨fun hne => absurd rfl hne, hforge⟩
  | some url =>
      cases htoken : raw.token with
      | none => exact ⟨fun _ hne => absurd rfl hne, hforge⟩
      | some token =>
          refine ⟨fun _ _ => rfl, fun hne => absurd rfl hne, fun auth hauth => ?_⟩
          obtain rfl := Except.ok.inj hauth
          exact .configured url token hurl htoken

end Resolve

/-! ## Refreshes -/

section Refresh

/-- The same refresher, but for its counter. -/
def ForgeTokenRefresher.Same (r r' : ForgeTokenRefresher) : Prop :=
  r'.raw = r.raw ∧ r'.scope = r.scope ∧ r'.remote = r.remote

/-- What a refresh resolves, in the world as it is then. -/
def ForgeTokenRefresher.resolved (r : ForgeTokenRefresher) (p : World × Nat) :
    Except AuthError ResolvedAuth := (resolveForRemote p.1 r.raw r.scope r.remote).result

/-- The token lapses within the buffer. -/
def Lapses (auth : ResolvedAuth) (now : Nat) : Prop :=
  auth.tokenExpiration ≤ min (now + refreshBufferSec) u64Max

instance (auth : ResolvedAuth) (now : Nat) : Decidable (Lapses auth now) :=
  inferInstanceAs (Decidable (_ ≤ _))

def ForgeTokenRefresher.lapsed (r : ForgeTokenRefresher) (p : World × Nat) : Bool :=
  match r.resolved p with
  | .error _ => false
  | .ok auth => decide (Lapses auth p.2)

def ForgeTokenRefresher.fresh (r : ForgeTokenRefresher) (p : World × Nat) : Bool :=
  match r.resolved p with
  | .error _ => false
  | .ok auth => !decide (Lapses auth p.2)

/-- How many tokens had lapsed since the last that had not. -/
def ForgeTokenRefresher.lapsedInARow (r : ForgeTokenRefresher) (ws : List (World × Nat)) : Nat :=
  ((ws.reverse.takeWhile (fun p => !r.fresh p)).filter r.lapsed).length

variable {r : ForgeTokenRefresher}

theorem refresh_same (r : ForgeTokenRefresher) (p : World × Nat) :
    r.Same (r.refresh p.1 p.2).1 := by
  unfold ForgeTokenRefresher.refresh
  split
  · exact ⟨rfl, rfl, rfl⟩
  · split
    · simp only
      split
      · exact ⟨rfl, rfl, rfl⟩
      · exact ⟨rfl, rfl, rfl⟩
    · exact ⟨rfl, rfl, rfl⟩

theorem refreshes_cons (r : ForgeTokenRefresher) (p : World × Nat) (ws : List (World × Nat)) :
    r.refreshes (p :: ws) = (((r.refresh p.1 p.2).1.refreshes ws).1,
      (r.refresh p.1 p.2).2 :: ((r.refresh p.1 p.2).1.refreshes ws).2) := rfl

theorem refreshes_append (r : ForgeTokenRefresher) (ws : List (World × Nat)) (p : World × Nat) :
    r.refreshes (ws ++ [p]) =
      (((r.refreshes ws).1.refresh p.1 p.2).1,
        (r.refreshes ws).2 ++ [((r.refreshes ws).1.refresh p.1 p.2).2]) := by
  induction ws generalizing r with
  | nil => rfl
  | cons q ws ih =>
      rw [List.cons_append, refreshes_cons, refreshes_cons, ih]
      rfl

theorem refreshes_same (r : ForgeTokenRefresher) (ws : List (World × Nat)) :
    r.Same (r.refreshes ws).1 := by
  induction ws generalizing r with
  | nil => exact ⟨rfl, rfl, rfl⟩
  | cons q ws ih =>
      obtain ⟨hraw, hscope, hremote⟩ := ih (r.refresh q.1 q.2).1
      obtain ⟨hraw', hscope', hremote'⟩ := refresh_same r q
      exact ⟨hraw.trans hraw', hscope.trans hscope', hremote.trans hremote'⟩

theorem length_refreshes (r : ForgeTokenRefresher) (ws : List (World × Nat)) :
    (r.refreshes ws).2.length = ws.length := by
  induction ws generalizing r with
  | nil => rfl
  | cons q ws ih => exact congrArg Nat.succ (ih (r.refresh q.1 q.2).1)

/-- What a refresh does: its counter, and whether it succeeds. -/
theorem refresh_spec (r : ForgeTokenRefresher) (p : World × Nat) :
    match r.resolved p with
    | .error e => r.refresh p.1 p.2 = (r, .error (.resolve e))
    | .ok auth =>
      if Lapses auth p.2 then
        (r.refresh p.1 p.2).1.consecutiveExpired = (r.consecutiveExpired + 1) % u32Bound ∧
        (r.refresh p.1 p.2).2 =
          if (r.consecutiveExpired + 1) % u32Bound > maxExpiredRefreshes then
            .error (.expired auth.tokenExpiration p.2 ((r.consecutiveExpired + 1) % u32Bound))
          else .ok (auth.token, auth.tokenExpiration)
      else
        (r.refresh p.1 p.2).1.consecutiveExpired = 0 ∧
        (r.refresh p.1 p.2).2 = .ok (auth.token, auth.tokenExpiration) := by
  unfold ForgeTokenRefresher.resolved ForgeTokenRefresher.refresh Lapses
  cases hres : (resolveForRemote p.1 r.raw r.scope r.remote).result with
  | error e => rfl
  | ok auth =>
      simp only
      split_ifs <;> exact ⟨rfl, rfl⟩

theorem lapsedInARow_append (r : ForgeTokenRefresher) (ws : List (World × Nat))
    (p : World × Nat) : r.lapsedInARow (ws ++ [p]) =
      match r.resolved p with
      | .error _ => r.lapsedInARow ws
      | .ok auth => if Lapses auth p.2 then r.lapsedInARow ws + 1 else 0 := by
  unfold ForgeTokenRefresher.lapsedInARow
  rw [List.reverse_append, List.reverse_singleton, List.singleton_append]
  cases hres : r.resolved p with
  | error e =>
      have hfresh : r.fresh p = false := by
        unfold ForgeTokenRefresher.fresh
        rw [hres]
      have hlapsed : r.lapsed p = false := by
        unfold ForgeTokenRefresher.lapsed
        rw [hres]
      rw [List.takeWhile_cons_of_pos (by simp [hfresh]), List.filter_cons_of_neg (by simp [hlapsed])]
  | ok auth =>
      have hfresh : r.fresh p = !decide (Lapses auth p.2) := by
        unfold ForgeTokenRefresher.fresh
        rw [hres]
      have hlapsed : r.lapsed p = decide (Lapses auth p.2) := by
        unfold ForgeTokenRefresher.lapsed
        rw [hres]
      simp only
      split_ifs with hlapses
      · rw [List.takeWhile_cons_of_pos (by simp [hfresh, hlapses]),
          List.filter_cons_of_pos (by simp [hlapsed, hlapses]), List.length_cons]
      · rw [List.takeWhile_cons_of_neg (by simp [hfresh, hlapses])]
        rfl

theorem ForgeTokenRefresher.Same.resolved {r' : ForgeTokenRefresher} (h : r.Same r')
    (p : World × Nat) : r'.resolved p = r.resolved p := by
  obtain ⟨hraw, hscope, hremote⟩ := h
  unfold ForgeTokenRefresher.resolved
  rw [hraw, hscope, hremote]

/-- **The counter** is the tokens that had lapsed in a row, by induction on the refreshes. -/
theorem consecutiveExpired_eq (hnew : r.consecutiveExpired = 0) (ws : List (World × Nat)) :
    (r.refreshes ws).1.consecutiveExpired = r.lapsedInARow ws % u32Bound := by
  induction ws using List.reverseRecOn with
  | nil => exact hnew
  | append_singleton ws p ih =>
      have hspec := refresh_spec (r.refreshes ws).1 p
      rw [(refreshes_same r ws).resolved] at hspec
      rw [refreshes_append, lapsedInARow_append]
      cases hres : r.resolved p with
      | error e =>
          simp only [hres] at hspec
          simp only [hspec, ih]
      | ok auth =>
          simp only [hres] at hspec
          simp only
          by_cases hlapses : Lapses auth p.2
          · rw [if_pos hlapses] at hspec
            rw [if_pos hlapses, hspec.1, ih, Nat.mod_add_mod]
          · rw [if_neg hlapses] at hspec
            rw [if_neg hlapses, hspec.1, Nat.zero_mod]

/-- The answer to each refresh of a run. -/
theorem refreshes_getElem (ws : List (World × Nat)) {i : Nat} {p : World × Nat}
    (hp : ws[i]? = some p) :
    (r.refreshes ws).2[i]? = some ((r.refreshes (ws.take i)).1.refresh p.1 p.2).2 := by
  induction ws using List.reverseRecOn with
  | nil => simp at hp
  | append_singleton ws q ih =>
      rw [refreshes_append]
      rcases Nat.lt_trichotomy i ws.length with hi | rfl | hi
      · rw [List.getElem?_append_left hi] at hp
        rw [List.getElem?_append_left (by rw [length_refreshes]; exact hi), ih hp,
          List.take_append_of_le_length (Nat.le_of_lt hi)]
      · rw [List.getElem?_concat_length] at hp
        obtain rfl := Option.some.inj hp
        have hlast : (r.refreshes ws).2.length = ws.length := length_refreshes r ws
        rw [List.take_left, ← hlast, List.getElem?_concat_length]
      · have hbound := (List.getElem?_eq_some_iff.1 hp).1
        rw [List.length_append, List.length_singleton] at hbound
        omega

theorem ForgeTokenRefresher.Same.fresh {r' : ForgeTokenRefresher} (h : r.Same r')
    (p : World × Nat) : r'.fresh p = r.fresh p := by
  unfold ForgeTokenRefresher.fresh
  rw [h.resolved]

/-- Without a fresh token, the counter says how many more refreshes succeed. -/
theorem length_ok_le (ws : List (World × Nat)) (hfresh : ∀ p ∈ ws, r.fresh p = false)
    (hshort : r.consecutiveExpired + ws.length < u32Bound) :
    ((r.refreshes ws).2.filter Except.isOk).length ≤ maxExpiredRefreshes - r.consecutiveExpired := by
  induction ws generalizing r with
  | nil => exact Nat.zero_le _
  | cons p ws ih =>
      rw [List.length_cons] at hshort
      have hrest : ∀ q ∈ ws, (r.refresh p.1 p.2).1.fresh q = false := fun q hq =>
        ((refresh_same r p).fresh q).trans (hfresh q (List.mem_cons_of_mem p hq))
      have hspec := refresh_spec r p
      have hp := hfresh p List.mem_cons_self
      unfold ForgeTokenRefresher.fresh at hp
      rw [refreshes_cons]
      cases hres : r.resolved p with
      | error e =>
          simp only [hres] at hspec
          rw [hspec] at hrest ⊢
          have hlen : r.consecutiveExpired + ws.length < u32Bound := by omega
          exact ih hrest hlen
      | ok auth =>
          simp only [hres, Bool.not_eq_false', decide_eq_true_eq] at hspec hp
          rw [if_pos hp, Nat.mod_eq_of_lt (by omega)] at hspec
          have hle := ih hrest (by omega)
          rw [hspec.1] at hle
          rw [hspec.2]
          split_ifs with hmany
          · rw [List.filter_cons_of_neg (by simp [Except.isOk, Except.toBool])]
            omega
          · rw [List.filter_cons_of_pos rfl, List.length_cons]
            omega

/-- **Which refreshes succeed**, in any run of a new refresher: those whose token is fresh, and of those
    whose token has lapsed the first three in a row. So without a fresh token three do at most. -/
theorem refreshes_ok_iff (hnew : r.consecutiveExpired = 0) (ws : List (World × Nat)) :
    (∀ i p, ws[i]? = some p → ∃ answer, (r.refreshes ws).2[i]? = some answer ∧
      ∀ token, answer = .ok token ↔ ∃ auth, r.resolved p = .ok auth ∧
        token = (auth.token, auth.tokenExpiration) ∧
        (Lapses auth p.2 →
          r.lapsedInARow (ws.take (i + 1)) % u32Bound ≤ maxExpiredRefreshes)) ∧
    ((∀ p ∈ ws, r.fresh p = false) → ws.length < u32Bound →
      ((r.refreshes ws).2.filter Except.isOk).length ≤ maxExpiredRefreshes) := by
  refine ⟨?_, fun hfresh hshort => ?_⟩
  case refine_2 =>
    have hle := @length_ok_le r ws hfresh (by omega)
    rwa [hnew] at hle
  intro i p hp
  refine ⟨_, refreshes_getElem ws hp, fun token => ?_⟩
  have htake : ws.take (i + 1) = ws.take i ++ [p] := by
    rw [List.take_add_one, hp]
    rfl
  have hspec := refresh_spec (r.refreshes (ws.take i)).1 p
  rw [(refreshes_same r _).resolved] at hspec
  rw [htake, lapsedInARow_append]
  cases hres : r.resolved p with
  | error e =>
      simp only [hres] at hspec
      rw [hspec]
      simp
  | ok auth =>
      simp only [hres] at hspec
      simp only [Except.ok.injEq, exists_eq_left']
      by_cases hlapses : Lapses auth p.2
      · rw [if_pos hlapses] at hspec
        rw [if_pos hlapses, hspec.2, consecutiveExpired_eq hnew, Nat.mod_add_mod]
        by_cases hmany : (r.lapsedInARow (ws.take i) + 1) % u32Bound > maxExpiredRefreshes
        · rw [if_pos hmany]
          simp [hlapses, Nat.not_le.2 hmany]
        · rw [if_neg hmany]
          simp [Nat.not_lt.1 hmany, eq_comm]
      · rw [if_neg hlapses] at hspec
        rw [hspec.2]
        simp [hlapses, eq_comm]

/-- A configured token that lapses five seconds after the clock has started. -/
def lapsing : ForgeTokenRefresher :=
  ⟨⟨some "https://bale".toList, some "token".toList, some 5, none, none⟩, .read, none, 0⟩

/-- Nobody answers. -/
def silent : World where
  origin _ := .error []
  client := none
  post _ _ := .failed []
  get _ _ := .failed []
  fill _ _ := .failed []
  ssh _ := .failed []
  decodeHttp _ := none
  decodeSsh _ := none
  decodeToken _ := none
  now := 0

theorem refreshes_ok_three :
    (lapsing.refreshes (List.replicate 4 (silent, 0))).2.map Except.isOk =
      [true, true, true, false] ∧
    ((lapsing.refreshes (List.replicate 4 (silent, 0))).2.filter Except.isOk).length ≤
      maxExpiredRefreshes := by
  refine ⟨by decide, (refreshes_ok_iff rfl _).2 (fun p hp => ?_) (by decide)⟩
  rw [List.eq_of_mem_replicate hp]
  decide

end Refresh

end BaleForGit.Resolver
