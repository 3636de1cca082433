import Mathlib.Data.List.Flatten
import BaleForGit.Library.Fields
import BaleForGit.Library.Maps
import BaleForGit.Library.Utf8
import BaleForGit.Server.Transfer

set_option autoImplicit false

/-! # Tokens and hub access (`bale-server-tokens`, `bale-server-authz-http`, `bale-server-authz-mem`)

A Bale token is a JWT under the server's secret; `Jwt` is the library that signs and reads it, with
the expiry left to `verify`. Whether a hub bearer may have one is asked of an upstream service
(`HttpAuthz`) or of a table read from `BALE_GRANTS` (`ConfigAuthz`). The table is built by a sequence
of grants and searched by comparing every key; `config_decides` says what it decides, in terms of the
tuples of the text. -/

namespace BaleForGit.Server

/-- `Scope`. -/
inductive Scope where
  | read
  | write
deriving DecidableEq, Repr

/-- `str::as_bytes`. -/
def asBytes (text : String) : List UInt8 := Utf8.bytes text.toList

/-! ## Tokens -/

structure XetClaims where
  sub : String
  repoType : String
  repoId : String
  revision : String
  scope : String
  exp : UInt64
deriving DecidableEq

structure TokenClaims where
  user : String
  repo : RepoRef
  scope : Scope
  expiresAt : UInt64
deriving DecidableEq

/-- `jsonwebtoken` with HS256 under one secret: `encode` signs, `decode` checks the signature and
    reads the claims. -/
structure Jwt where
  encode : XetClaims → Except String String
  decode : String → Option XetClaims

def repoTypeStr : RepoType → String
  | .model => "model"
  | .dataset => "dataset"
  | .space => "space"

def parseRepoType (s : String) : CoreResult RepoType :=
  if s = "model" then .ok .model
  else if s = "dataset" then .ok .dataset
  else if s = "space" then .ok .space
  else .error (.badRequest ("bad repo_type: " ++ s))

def scopeStr : Scope → String
  | .read => "read"
  | .write => "write"

def parseScope (s : String) : CoreResult Scope :=
  if s = "read" then .ok .read
  else if s = "write" then .ok .write
  else .error (.badRequest ("bad scope: " ++ s))

/-- `DEFAULT_TOKEN_TTL_SECS`. -/
def defaultTokenTtlSecs : UInt64 := 300

/-- The expiry of a token that is minted at `now`: a saturating sum. -/
def tokenExp (now ttlSecs : UInt64) : UInt64 :=
  UInt64.ofNat (saturatingAdd now.toNat ttlSecs.toNat)

/-- The claims that `mint` signs. -/
def mintClaims (now : UInt64) (user : String) (repo : RepoRef) (scope : Scope) (ttlSecs : UInt64) :
    XetClaims :=
  ⟨user, repoTypeStr repo.repoType, repo.repoId, repo.revision, scopeStr scope,
    tokenExp now ttlSecs⟩

/-- `tokens::mint`. -/
def mint (jwt : Jwt) (now : UInt64) (user : String) (repo : RepoRef) (scope : Scope)
    (ttlSecs : UInt64) : CoreResult (String × UInt64) :=
  match jwt.encode (mintClaims now user repo scope ttlSecs) with
  | .error e => .error (.internal ("jwt encode: " ++ e))
  | .ok token => .ok (token, tokenExp now ttlSecs)

/-- `tokens::verify`. The library rejects an `exp` before the present second; leeway is 0. -/
def verify (jwt : Jwt) (now : UInt64) (token : String) : CoreResult TokenClaims :=
  match jwt.decode token with
  | none => .error .unauthorized
  | some c =>
    if c.exp < now then .error .unauthorized
    else do
      let repoType ← parseRepoType c.repoType
      let scope ← parseScope c.scope
      return ⟨c.sub, ⟨repoType, c.repoId, c.revision⟩, scope, c.exp⟩

@[simp] theorem parseRepoType_repoTypeStr (t : RepoType) : parseRepoType (repoTypeStr t) = .ok t := by
  cases t <;> rfl

@[simp] theorem parseScope_scopeStr (s : Scope) : parseScope (scopeStr s) = .ok s := by
  cases s <;> rfl

theorem parseRepoType_eq_ok {s : String} {t : RepoType} :
    parseRepoType s = .ok t ↔ s = repoTypeStr t := by
  constructor
  · intro h
    unfold parseRepoType at h
    split_ifs at h with hmodel hdataset hspace
    · rw [← Except.ok.inj h, hmodel]
      rfl
    · rw [← Except.ok.inj h, hdataset]
      rfl
    · rw [← Except.ok.inj h, hspace]
      rfl
  · rintro rfl
    exact parseRepoType_repoTypeStr t

theorem parseScope_eq_ok {s : String} {scope : Scope} :
    parseScope s = .ok scope ↔ s = scopeStr scope := by
  constructor
  · intro h
    unfold parseScope at h
    split_ifs at h with hread hwrite
    · rw [← Except.ok.inj h, hread]
      rfl
    · rw [← Except.ok.inj h, hwrite]
      rfl
  · rintro rfl
    exact parseScope_scopeStr scope

/-- The claims as `mint` writes them. -/
def TokenClaims.signed (c : TokenClaims) : XetClaims :=
  ⟨c.user, repoTypeStr c.repo.repoType, c.repo.repoId, c.repo.revision, scopeStr c.scope,
    c.expiresAt⟩

/-- **What is verified**: signed claims that have not expired. -/
theorem verify_eq_ok {jwt : Jwt} {now : UInt64} {token : String} {claims : TokenClaims} :
    verify jwt now token = .ok claims ↔
      jwt.decode token = some claims.signed ∧ now ≤ claims.expiresAt := by
  unfold verify
  cases hdecode : jwt.decode token with
  | none => simp
  | some c =>
      simp only [Option.some.injEq]
      split_ifs with hexp
      · refine iff_of_false (by simp) ?_
        rintro ⟨rfl, hle⟩
        exact UInt64.not_le.2 hexp hle
      · rw [Results.bind_eq_ok]
        simp only [parseRepoType_eq_ok, Results.bind_eq_ok, parseScope_eq_ok]
        constructor
        · rintro ⟨repoType, htype, scope, hscope, hclaims⟩
          obtain rfl := (Except.ok.inj hclaims).symm
          refine ⟨?_, UInt64.not_lt.1 hexp⟩
          unfold TokenClaims.signed
          simp only [← htype, ← hscope]
        · rintro ⟨rfl, -⟩
          exact ⟨claims.repo.repoType, rfl, claims.scope, rfl, rfl⟩

theorem tokenExp_le (now ttlSecs : UInt64) : (tokenExp now ttlSecs).toNat ≤ now.toNat + ttlSecs.toNat := by
  unfold tokenExp saturatingAdd
  rw [UInt64.toNat_ofNat']
  exact (Nat.mod_le _ _).trans (Nat.min_le_left _ _)

/-! ## The upstream service -/

/-- What comes back from `POST {base_url}/check_access`: a failed call, or a status, the announced
    length, and the body unless reading it fails. -/
inductive UpstreamReply where
  | failed (e : String)
  | answered (status : Nat) (contentLength : Option Nat) (body : Option (List UInt8))
deriving DecidableEq

/-- `MAX_UPSTREAM_RESPONSE_BYTES`. -/
def maxUpstreamResponseBytes : Nat := 65536

/-- `HttpAuthz::check_repo_access`. `userIdOf` decodes `CheckAccessResponse`. -/
def httpCheckRepoAccess (userIdOf : List UInt8 → Option String) (reply : UpstreamReply) :
    CoreResult String :=
  match reply with
  | .failed e => .error (.internal ("upstream call: " ++ e))
  | .answered status contentLength body =>
    if 200 ≤ status ∧ status < 300 then
      if contentLength.any (fun n => decide (n > maxUpstreamResponseBytes)) = true then
        .error (.internal "upstream response too large")
      else match body with
        | none => .error (.internal "upstream body read failed")
        | some bytes =>
          if bytes.length > maxUpstreamResponseBytes then
            .error (.internal "upstream response too large")
          else match userIdOf bytes with
            | none => .error (.internal "upstream body decode failed")
            | some user => .ok user
    else if status = 401 then .error .unauthorized
    else if status = 403 then .error .forbidden
    else .error (.internal ("upstream status " ++ toString status ++ " for check_access"))

/-! ## The table of grants -/

structure ConfigUser where
  userId : String
  repos : List (String × Scope)

/-- `ConfigAuthz`, without the secret: the users by hub token. -/
structure ConfigAuthz where
  users : List (String × ConfigUser)

def ConfigAuthz.new : ConfigAuthz := ⟨[]⟩

/-- One tuple of `BALE_GRANTS`. -/
structure GrantTuple where
  hubToken : String
  userId : String
  repoId : String
  scope : Scope
deriving DecidableEq

/-- `ConfigAuthz::grant`; the user of a known token stays. -/
def ConfigAuthz.grant (authz : ConfigAuthz) (g : GrantTuple) : ConfigAuthz :=
  let entry := (Maps.get authz.users g.hubToken).getD ⟨g.userId, []⟩
  ⟨Maps.insert authz.users g.hubToken { entry with repos := Maps.insert entry.repos g.repoId g.scope }⟩

/-- The loop over all users: the last whose token compares equal. -/
def ConfigAuthz.findUser (authz : ConfigAuthz) (hubBearer : String) : Option ConfigUser :=
  authz.users.foldl (fun found kv =>
    if ctEq (asBytes kv.1) (asBytes hubBearer) = true then some kv.2 else found) none

/-- `ConfigAuthz::check_repo_access`. -/
def ConfigAuthz.checkRepoAccess (authz : ConfigAuthz) (hubBearer : String) (repo : RepoRef)
    (requested : Scope) : CoreResult String :=
  match authz.findUser hubBearer with
  | none => .error .unauthorized
  | some u =>
    match Maps.get u.repos repo.repoId with
    | none => .error .forbidden
    | some granted =>
      if requested = .write ∧ granted = .read then .error .forbidden else .ok u.userId

/-- The scope field of a tuple. -/
def grantScope (idx : Nat) (field : List Char) : Except String Scope :=
  if field = "read".toList then .ok .read
  else if field = "write".toList then .ok .write
  else .error ("invalid scope '" ++ String.ofList field ++ "' in BALE_GRANTS tuple #" ++ toString idx)

/-- One tuple of the text. -/
def parseGrant (tuple : List Char × Nat) : Except String GrantTuple :=
  match tuple.1.splitOn ':' with
  | [hubToken, user, repoId, field] => do
    let scope ← grantScope tuple.2 field
    return ⟨String.ofList hubToken, String.ofList user, String.ofList repoId, scope⟩
  | parts => .error ("BALE_GRANTS tuple #" ++ toString tuple.2 ++
      " malformed: expected 'hub_token:user:repo_id:scope' with 4 fields, got " ++
      toString parts.length)

/-- The tuples of `BALE_GRANTS`, up to the first that is malformed. -/
def parseGrants (raw : List Char) : Except String (List GrantTuple) :=
  (((raw.splitOn ',').filter (fun t => !t.isEmpty)).zipIdx).mapM parseGrant

/-- The table that the server starts with. -/
def ConfigAuthz.ofGrants (gs : List GrantTuple) : ConfigAuthz :=
  gs.foldl ConfigAuthz.grant ConfigAuthz.new

/-! ## What the table decides -/

/-- Who a hub token stands for: the user of its first tuple. -/
def tokenUser (gs : List GrantTuple) (token : String) : Option String :=
  (gs.find? (fun g => decide (g.hubToken = token))).map GrantTuple.userId

/-- What a hub token may do with a repository: the scope of its last tuple for it. -/
def tokenScope (gs : List GrantTuple) (token repoId : String) : Option Scope :=
  (gs.reverse.find? (fun g => decide (g.hubToken = token ∧ g.repoId = repoId))).map GrantTuple.scope

/-- The decision, read off the tuples. -/
def grantDecision (gs : List GrantTuple) (token repoId : String) (requested : Scope) :
    CoreResult String :=
  match tokenUser gs token with
  | none => .error .unauthorized
  | some user =>
    match tokenScope gs token repoId with
    | none => .error .forbidden
    | some granted => if requested = .write ∧ granted = .read then .error .forbidden else .ok user

/-- A tuple as it is written. -/
def GrantTuple.text (g : GrantTuple) : List Char :=
  g.hubToken.toList ++ ':' :: (g.userId.toList ++ ':' :: (g.repoId.toList ++
    ':' :: (scopeStr g.scope).toList))

/-- The table holds what the tuples say. -/
structure ConfigAuthz.Holds (authz : ConfigAuthz) (gs : List GrantTuple) : Prop where
  valid : Maps.Valid authz.users
  user : ∀ token, (Maps.get authz.users token).map ConfigUser.userId = tokenUser gs token
  repos : ∀ token u, Maps.get authz.users token = some u → ∀ repoId,
    Maps.get u.repos repoId = tokenScope gs token repoId

theorem tokenUser_append (gs : List GrantTuple) (g : GrantTuple) (token : String) :
    tokenUser (gs ++ [g]) token =
      (tokenUser gs token).or (if g.hubToken = token then some g.userId else none) := by
  unfold tokenUser
  rw [List.find?_append, Option.map_or]
  by_cases h : g.hubToken = token <;> simp [h]

theorem tokenScope_append (gs : List GrantTuple) (g : GrantTuple) (token repoId : String) :
    tokenScope (gs ++ [g]) token repoId =
      if g.hubToken = token ∧ g.repoId = repoId then some g.scope
      else tokenScope gs token repoId := by
  unfold tokenScope
  rw [List.reverse_append, List.reverse_singleton, List.singleton_append, List.find?_cons]
  by_cases h : g.hubToken = token ∧ g.repoId = repoId
  · simp [h]
  · simp [h]

/-- A token without tuples has no scope anywhere. -/
theorem tokenScope_of_unknown {gs : List GrantTuple} {token : String} (h : tokenUser gs token = none)
    (repoId : String) : tokenScope gs token repoId = none := by
  unfold tokenUser at h
  unfold tokenScope
  rw [Option.map_eq_none_iff, List.find?_eq_none] at h ⊢
  intro g hg
  have hne := h g (List.mem_reverse.1 hg)
  simp only [decide_eq_true_eq] at hne ⊢
  exact fun hboth => hne hboth.1

/-- **One grant**: the first user of a token and the last scope of a repository count. -/
theorem ConfigAuthz.Holds.grant {authz : ConfigAuthz} {gs : List GrantTuple} (h : authz.Holds gs)
    (g : GrantTuple) : (authz.grant g).Holds (gs ++ [g]) where
  valid := h.valid.insert _ _
  user := by
    intro token
    rw [tokenUser_append, ← h.user token]
    by_cases htoken : token = g.hubToken
    · subst htoken
      unfold ConfigAuthz.grant
      simp only [Maps.get_insert_self, if_true]
      cases Maps.get authz.users g.hubToken <;> rfl
    · unfold ConfigAuthz.grant
      simp only [Maps.get_insert_of_ne _ htoken, if_neg (Ne.symm htoken), Option.or_none]
  repos := by
    intro token u hu repoId
    rw [tokenScope_append]
    by_cases htoken : token = g.hubToken
    · subst htoken
      unfold ConfigAuthz.grant at hu
      simp only [Maps.get_insert_self, Option.some.injEq] at hu
      have hrepos : ∀ r, Maps.get ((Maps.get authz.users g.hubToken).getD ⟨g.userId, []⟩).repos r =
          tokenScope gs g.hubToken r := by
        intro r
        cases hold : Maps.get authz.users g.hubToken with
        | none =>
            have hnone := h.user g.hubToken
            rw [hold] at hnone
            exact (tokenScope_of_unknown hnone.symm r).symm
        | some old => exact h.repos g.hubToken old hold r
      rw [← hu]
      by_cases hrepo : repoId = g.repoId
      · subst hrepo
        simp
      · simp only [Maps.get_insert_of_ne _ hrepo, hrepos, Ne.symm hrepo, and_false, if_false]
    · unfold ConfigAuthz.grant at hu
      simp only [Maps.get_insert_of_ne _ htoken] at hu
      simp only [Ne.symm htoken, false_and, if_false]
      exact h.repos token u hu repoId

theorem ConfigAuthz.holds_ofGrants (gs : List GrantTuple) : (ConfigAuthz.ofGrants gs).Holds gs := by
  induction gs using List.reverseRecOn with
  | nil =>
      refine ⟨Maps.valid_nil, fun token => rfl, fun token u hu => ?_⟩
      cases hu
  | append_singleton gs g ih =>
      unfold ConfigAuthz.ofGrants at ih ⊢
      rw [List.foldl_append]
      exact ih.grant g

/-- The comparison of short secrets is exact. -/
theorem ctEq_iff {a b : List UInt8} (ha : a.length < 4294967296) (hb : b.length < 4294967296) :
    ctEq a b = true ↔ a = b := by
  constructor
  · intro h
    have hpre := prefix_of_ctEq ha h
    unfold ctEq at h
    have hlen := congrArg UInt32.toNat (foldl_or_eq_zero (beq_iff_eq.1 h)).1
    rw [UInt32.toNat_ofNat', Nat.xor_mod_two_pow] at hlen
    have hsame := xor_eq_zero_iff.1 hlen
    exact hpre.eq_of_length (by omega)
  · rintro rfl
    unfold ctEq
    rw [Nat.xor_self, beq_iff_eq]
    have hzero : ∀ l : List UInt8,
        (l.zip l).foldl (fun acc xy => acc ||| UInt32.ofNat (xy.1 ^^^ xy.2).toNat) 0 = 0 := by
      intro l
      induction l with
      | nil => rfl
      | cons x l ih =>
          rw [List.zip_cons_cons, List.foldl_cons]
          simpa using ih
    exact hzero a

theorem asBytes_inj {s t : String} : asBytes s = asBytes t ↔ s = t := by
  unfold asBytes
  rw [Utf8.bytes_inj]
  exact String.toList_inj

/-! ## Reading the tuples -/

theorem grantScope_eq_ok {idx : Nat} {field : List Char} {scope : Scope} :
    grantScope idx field = .ok scope ↔ field = (scopeStr scope).toList := by
  constructor
  · intro h
    unfold grantScope at h
    split_ifs at h with hread hwrite
    · rw [← Except.ok.inj h, hread]
      rfl
    · rw [← Except.ok.inj h, hwrite]
      rfl
  · rintro rfl
    cases scope <;> rfl

theorem GrantTuple.text_eq (g : GrantTuple) : g.text = [':'].intercalate
    [g.hubToken.toList, g.userId.toList, g.repoId.toList, (scopeStr g.scope).toList] := by
  unfold GrantTuple.text
  simp [List.intercalate_cons_cons, List.intercalate_singleton]

/-- The fields of a tuple hold no colon. -/
def GrantTuple.Plain (g : GrantTuple) : Prop :=
  ':' ∉ g.hubToken.toList ∧ ':' ∉ g.userId.toList ∧ ':' ∉ g.repoId.toList

/-- What is read as a tuple is the text of the tuple. -/
theorem parseGrant_eq_ok {tuple : List Char × Nat} {g : GrantTuple} :
    parseGrant tuple = .ok g ↔ tuple.1 = g.text ∧ g.Plain := by
  constructor
  · intro h
    unfold parseGrant at h
    split at h
    · rename_i hubToken user repoId field hsplit
      obtain ⟨scope, hscope, hg⟩ := Results.bind_eq_ok.1 h
      obtain rfl := (Except.ok.inj hg).symm
      obtain ⟨htext, hplain⟩ := (Fields.splitOn_eq_iff (by simp)).1 hsplit
      rw [GrantTuple.text_eq]
      unfold GrantTuple.Plain
      simp only [String.toList_ofList, ← grantScope_eq_ok.1 hscope]
      simp only [List.mem_cons, List.not_mem_nil, or_false, forall_eq_or_imp, forall_eq] at hplain
      exact ⟨htext, hplain.1, hplain.2.1, hplain.2.2.1⟩
    · cases h
  · rintro ⟨htuple, hplain⟩
    have hscope : ':' ∉ (scopeStr g.scope).toList := by
      cases g.scope <;> decide
    have hsplit : tuple.1.splitOn ':' = [g.hubToken.toList, g.userId.toList, g.repoId.toList,
        (scopeStr g.scope).toList] := by
      refine (Fields.splitOn_eq_iff (by simp)).2 ⟨htuple.trans g.text_eq, ?_⟩
      simp only [List.mem_cons, List.not_mem_nil, or_false, forall_eq_or_imp, forall_eq]
      exact ⟨hplain.1, hplain.2.1, hplain.2.2, hscope⟩
    unfold parseGrant
    simp only [hsplit]
    rw [grantScope_eq_ok.2 rfl]
    simp [bind, Except.bind, pure, Except.pure, String.ofList_toList]

/-- The tuples of the text, as texts. -/
def grantTexts (raw : List Char) : List (List Char) :=
  (raw.splitOn ',').filter (fun t => !t.isEmpty)

/-- **The text is read as the tuples it consists of.** -/
theorem parseGrants_eq_ok {raw : List Char} {gs : List GrantTuple} :
    parseGrants raw = .ok gs ↔ grantTexts raw = gs.map GrantTuple.text ∧ ∀ g ∈ gs, g.Plain := by
  have htexts : ∀ (l : List (List Char × Nat)) (gs : List GrantTuple), l.mapM parseGrant = .ok gs ↔
      l.map Prod.fst = gs.map GrantTuple.text ∧ ∀ g ∈ gs, g.Plain := by
    intro l
    induction l with
    | nil =>
        intro gs
        cases gs <;> simp [pure, Except.pure]
    | cons t l ih =>
        intro gs
        rw [List.mapM_cons, Results.bind_eq_ok]
        simp only [Results.bind_eq_ok, parseGrant_eq_ok, ih]
        constructor
        · rintro ⟨g, ⟨ht, hplain⟩, rest, ⟨hrest, hall⟩, hgs⟩
          obtain rfl := (Except.ok.inj hgs).symm
          exact ⟨by rw [List.map_cons, List.map_cons, ht, hrest],
            List.forall_mem_cons.2 ⟨hplain, hall⟩⟩
        · rintro ⟨hmap, hall⟩
          cases gs with
          | nil => cases hmap
          | cons g rest =>
              obtain ⟨ht, hrest⟩ := List.cons.inj hmap
              obtain ⟨hplain, hall⟩ := List.forall_mem_cons.1 hall
              exact ⟨g, ⟨ht, hplain⟩, rest, ⟨hrest, hall⟩, rfl⟩
  unfold parseGrants
  rw [htexts, List.zipIdx_map_fst]
  rfl

/-- The tokens are no longer than the text. -/
theorem length_hubToken {raw : List Char} {gs : List GrantTuple} (h : parseGrants raw = .ok gs)
    {g : GrantTuple} (hg : g ∈ gs) : (asBytes g.hubToken).length ≤ (Utf8.bytes raw).length := by
  have hmem : g.text ∈ grantTexts raw := by
    rw [(parseGrants_eq_ok.1 h).1]
    exact List.mem_map_of_mem hg
  have hsub := Fields.sublist_of_mem_splitOn (List.mem_filter.1 hmem).1
  have htoken : g.hubToken.toList.Sublist g.text := List.sublist_append_left _ _
  exact ((htoken.trans hsub).flatMap String.utf8EncodeChar).length_le

theorem mem_users_ofGrants {gs : List GrantTuple} {kv : String × ConfigUser}
    (h : kv ∈ (ConfigAuthz.ofGrants gs).users) : ∃ g ∈ gs, g.hubToken = kv.1 := by
  have hholds := ConfigAuthz.holds_ofGrants gs
  have huser := hholds.user kv.1
  rw [Maps.get_of_mem hholds.valid h] at huser
  obtain ⟨g, hg, -⟩ := Option.map_eq_some_iff.1 huser.symm
  exact ⟨g, List.mem_of_find?_eq_some hg, by simpa using List.find?_some hg⟩

/-- The loop finds the entry of the bearer, in whatever order the map is iterated. -/
theorem checkRepoAccess_ofGrants {raw : List Char} (hraw : (Utf8.bytes raw).length < 4294967296)
    {gs : List GrantTuple} (h : parseGrants raw = .ok gs) {users : List (String × ConfigUser)}
    (hperm : users.Perm (ConfigAuthz.ofGrants gs).users) {hubBearer : String}
    (hbearer : (asBytes hubBearer).length < 4294967296) (repo : RepoRef) (requested : Scope) :
    (ConfigAuthz.mk users).checkRepoAccess hubBearer repo requested =
      grantDecision gs hubBearer repo.repoId requested := by
  have hholds := ConfigAuthz.holds_ofGrants gs
  have hvalid := hholds.valid.perm hperm
  have hfind : (ConfigAuthz.mk users).findUser hubBearer =
      Maps.get (ConfigAuthz.ofGrants gs).users hubBearer := by
    rw [← Maps.get_perm hholds.valid hperm]
    refine Maps.foldl_match hvalid (p := fun k => ctEq (asBytes k) (asBytes hubBearer))
      (fun e he => ?_)
    obtain ⟨g, hg, htoken⟩ := mem_users_ofGrants (hperm.mem_iff.1 he)
    have hlen := length_hubToken h hg
    rw [htoken] at hlen
    rw [ctEq_iff (by omega) hbearer, asBytes_inj]
  unfold ConfigAuthz.checkRepoAccess grantDecision
  rw [hfind, ← hholds.user hubBearer]
  cases hget : Maps.get (ConfigAuthz.ofGrants gs).users hubBearer with
  | none => rfl
  | some u =>
      simp only [Option.map_some, hholds.repos hubBearer u hget]

/-- Who is let in has a tuple for it. -/
theorem exists_tuple_of_grantDecision {gs : List GrantTuple} {token repoId user : String}
    {requested : Scope} (h : grantDecision gs token repoId requested = .ok user) :
    ∃ g ∈ gs, g.hubToken = token ∧ g.repoId = repoId ∧ (requested = .write → g.scope = .write) := by
  unfold grantDecision at h
  split at h
  · cases h
  · split at h
    · cases h
    · rename_i granted hscope
      split_ifs at h with hrefused
      obtain ⟨g, hfind, rfl⟩ := Option.map_eq_some_iff.1 hscope
      have hmem := List.mem_of_find?_eq_some hfind
      have hfor := List.find?_some hfind
      simp only [decide_eq_true_eq] at hfor
      obtain ⟨htoken, hrepo⟩ := hfor
      refine ⟨g, List.mem_reverse.1 hmem, htoken, hrepo, fun hwrite => ?_⟩
      cases hg : g.scope with
      | read => exact absurd ⟨hwrite, hg⟩ hrefused
      | write => rfl

/-- **What a configured server decides.** The table is read from the tuples that the text consists of
    and searched in whatever order the map is iterated; what it answers to a bearer is what the
    tuples say: the user of the first tuple of the token, if the last tuple for the repository allows
    the scope. -/
theorem config_decides (raw : List Char) (hraw : (Utf8.bytes raw).length < 4294967296)
    (gs : List GrantTuple) :
    (parseGrants raw = .ok gs ↔ grantTexts raw = gs.map GrantTuple.text ∧ ∀ g ∈ gs, g.Plain) ∧
    ∀ users hubBearer repo requested, parseGrants raw = .ok gs →
      users.Perm (ConfigAuthz.ofGrants gs).users → (asBytes hubBearer).length < 4294967296 →
      (ConfigAuthz.mk users).checkRepoAccess hubBearer repo requested =
        grantDecision gs hubBearer repo.repoId requested := by
  refine ⟨parseGrants_eq_ok, fun users hubBearer repo requested h hperm hbearer => ?_⟩
  exact checkRepoAccess_ofGrants hraw h hperm hbearer repo requested

/-- Two tuples for one token, in a map iterated the other way round: the second user is ignored,
    the second scope counts. -/
theorem config_decides_two :
    let gs : List GrantTuple := [⟨"t", "alice", "alice/data", .read⟩,
      ⟨"s", "carol", "carol/data", .read⟩, ⟨"t", "bob", "alice/data", .write⟩]
    (ConfigAuthz.mk (ConfigAuthz.ofGrants gs).users.reverse).checkRepoAccess "t"
      ⟨.model, "alice/data", "main"⟩ .write = .ok "alice" := by
  intro gs
  have hlen : (Utf8.bytes
      "t:alice:alice/data:read,s:carol:carol/data:read,t:bob:alice/data:write".toList).length <
      4294967296 := by decide +kernel
  exact (config_decides _ hlen gs).2 _ "t" _ _ (by decide +kernel) (List.reverse_perm _)
    (by decide +kernel)

end BaleForGit.Server
