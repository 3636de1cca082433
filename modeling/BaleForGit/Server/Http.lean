import BaleForGit.Server.Authz
import BaleForGit.Server.Dedup
import BaleForGit.Server.QuotaAdmin
import BaleForGit.Server.ShardCodec

set_option autoImplicit false

/-! # The HTTP layer (`bale-server-http`)

All routes of the server over one state. The `/v1` routes for xorbs, shards, reconstructions and
chunks run behind `auth_middleware`, which puts the claims of the token before the handler; usage and
quotas have a check of their own, a transfer is authorized by its signature, a download by asking the
forge about the token in its URL, and a token is issued after asking about the hub bearer.

What a request meets is `Env`: the clock when its token is checked and when its handler runs, what
the forge answers, and the choices of the database and of the random generator. -/

namespace BaleForGit.Server

/-- An implementation of `RepoAuthz` that mints and verifies with `bale-server-tokens`; `ε` is what
    the outside says while access is checked. -/
structure RepoAuthz (ε : Type) where
  jwt : Jwt
  checkRepoAccess : ε → String → RepoRef → Scope → CoreResult String

/-- `HttpAuthz`. -/
def httpAuthz (jwt : Jwt) (userIdOf : List UInt8 → Option String) :
    RepoAuthz (String → RepoRef → Scope → UpstreamReply) :=
  ⟨jwt, fun upstream hubBearer repo scope =>
    httpCheckRepoAccess userIdOf (upstream hubBearer repo scope)⟩

/-- `ConfigAuthz`; nothing is asked outside. -/
def configAuthz (jwt : Jwt) (users : List (String × ConfigUser)) : RepoAuthz Unit :=
  ⟨jwt, fun _ => (ConfigAuthz.mk users).checkRepoAccess⟩

/-- `Service`, with what it calls of other crates: SHA-256, the keyed hash of chunk hashes, and the
    decoding of a forge JWT's payload. -/
structure HttpService (ε : Type) where
  service : Service
  authz : RepoAuthz ε
  mac : List UInt8 → Hash32
  publicBaseUrl : List UInt8
  adminToken : Option Hash32
  sha256 : List UInt8 → Hash32
  wrapChunkHash : ChunkHash → Hash32 → ChunkHash
  payloadFilename : List Char → Option String

structure Env (ε : Type) where
  verifiedAt : UInt64
  now : UInt64
  dbNow : Int
  upstream : ε
  pickFile : List FileRow → Option FileRow
  pickChunk : List ChunkTableRow → Option ChunkTableRow
  sortChunks : List ChunkTableRow → List ChunkTableRow
  hmacKey : Hash32

/-- A route with what its extractors read. -/
inductive Call where
  | uploadXorb (hashHex body : List UInt8)
  | uploadShard (body : List UInt8)
  | getReconstruction (fileHex : List UInt8)
  | getDedupChunk (hashHex : List UInt8)
  | getXorbTransfer (q : TransferRequest)
  | getFileDownload (fileHex : List UInt8) (token repo : String) (filename : Option String)
  | issueXetToken (typeSeg ns name tokSeg rev : String)
  | getOwnerUsage (owner : String)
  | getRepoUsage (owner repo : String)
  | putOwnerQuota (owner : String) (limitBytes : Option UInt64)

structure HttpRequest where
  call : Call
  authorization : Option (List UInt8)

structure XetTokenResponse where
  accessToken : String
  exp : UInt64
  casUrl : List UInt8
deriving DecidableEq

structure OwnerUsageResponse where
  owner : String
  rawBytes : Nat
  storedBytes : Nat
  dedupSavingsBytes : Nat
  quotaBytes : Option Nat
deriving DecidableEq

structure RepoUsageResponse where
  repoId : String
  rawBytes : Nat
  storedBytes : Nat
  dedupSavingsBytes : Nat
  exclusiveBytes : Nat
deriving DecidableEq

inductive Reply where
  | uploadedXorb (wasInserted : Bool)
  | uploadedShard
  | reconstruction (response : ReconstructionResponse) (urls : List (List UInt8))
  | dedupShard (bytes : List UInt8)
  | transfer (response : TransferResponse)
  | download (d : Download) (contentDisposition : Option (List Char))
  | token (response : XetTokenResponse)
  | ownerUsage (response : OwnerUsageResponse)
  | repoUsage (response : RepoUsageResponse)
  | quotaSet
deriving DecidableEq

/-! ## Who may call -/

/-- `auth_middleware`: the claims that the handler sees. -/
def authMiddleware (jwt : Jwt) (verifiedAt : UInt64) (isPost : Bool)
    (authorization : Option (List UInt8)) : Except ApiError TokenClaims :=
  match authorization.bind headerText with
  | none => .error (unauthorized "missing bearer")
  | some raw =>
    match stripPrefix "Bearer ".toList raw with
    | none => .error (unauthorized "expected 'Bearer <token>'")
    | some token => do
      let claims ← (verify jwt verifiedAt (String.ofList token)).mapError ApiError.ofCore
      if isPost = true ∧ claims.scope = .read then
        .error ⟨403, "this endpoint requires a write-scope token"⟩
      else .ok claims

/-- The bearer is the admin token, in hexadecimal. -/
def isAdmin (adminToken : Option Hash32) (bearer : List Char) : Bool :=
  match adminToken, hexDecode (trim bearer) with
  | some admin, some presented => ctEq presented admin.bytes
  | _, _ => false

/-- `require_admin_or_owner`. -/
def requireAdminOrOwner (jwt : Jwt) (adminToken : Option Hash32) (verifiedAt : UInt64)
    (authorization : Option (List UInt8)) (owner : String) : Except ApiError Unit :=
  match bearer authorization with
  | none => .error (unauthorized "missing bearer")
  | some bearer =>
    if isAdmin adminToken bearer = true then .ok ()
    else do
      let claims ← (verify jwt verifiedAt (String.ofList bearer)).mapError ApiError.ofCore
      if claims.repo.owner ≠ owner then .error ⟨403, "token not scoped to this owner"⟩ else .ok ()

def parseHfRepoType (seg : String) : Except ApiError RepoType :=
  if seg = "models" then .ok .model
  else if seg = "datasets" then .ok .dataset
  else if seg = "spaces" then .ok .space
  else .error (badReq ("unknown repo type segment: " ++ seg))

def parseHfTokenScope (seg : String) : Except ApiError Scope :=
  if seg = "bale-read-token" then .ok .read
  else if seg = "bale-write-token" then .ok .write
  else .error (badReq ("unknown token segment: " ++ seg))

/-- An access check that was passed, for a token minted at `mintedAt`. -/
structure Grant where
  hubBearer : String
  user : String
  repo : RepoRef
  scope : Scope
  mintedAt : UInt64
deriving DecidableEq

/-- What the token of a grant says. -/
def Grant.claims (g : Grant) : XetClaims :=
  mintClaims g.mintedAt g.user g.repo g.scope defaultTokenTtlSecs

/-! ## Names of downloads -/

/-- `extract_filename_sha256`: the claim in the second of the parts between dots. -/
def extractFilenameSha256 (payloadFilename : List Char → Option String) (token : String) :
    Option String :=
  match splitOnce '.' token.toList with
  | none => none
  | some (_, rest) =>
    match payloadFilename (rest.takeWhile (fun c => c ≠ '.')) with
    | none => none
    | some claim => if claim = "" then none else some claim

/-- The name is kept when its hash is the one in the token, and dropped when the token has none. -/
def validatedFilename (sha256 : List UInt8 → Hash32) (filename claim : Option String) :
    Except ApiError (Option String) :=
  match filename, claim with
  | some name, some claim =>
    if ¬ ctEq (Hex.encode (sha256 (asBytes name)).bytes) (asBytes claim) = true then
      .error (badReq "filename does not match token binding")
    else .ok (some name)
  | _, _ => .ok none

/-- `char::is_ascii_graphic`. -/
def isAsciiGraphic (c : Char) : Bool := 33 ≤ c.toNat && c.toNat ≤ 126

/-- `sanitize_filename`. -/
def sanitizeFilename (name : String) : List Char :=
  (name.toList.filter (fun c => isAsciiGraphic c || c = ' ')).filter
    (fun c => !(c = '"' || c = '\\'))

/-- `HeaderValue::try_from`: no control bytes but tabs. -/
def headerValue (text : List Char) : Except String (List Char) :=
  if (Utf8.bytes text).all (fun b => b = 9 || (32 ≤ b && b ≠ 127)) = true then .ok text
  else .error "failed to parse header value"

/-- The `content-disposition` of a download. -/
def contentDisposition (name : Option String) : Except ApiError (Option (List Char)) :=
  match name with
  | none => .ok none
  | some name =>
    ((headerValue ("attachment; filename=\"".toList ++ sanitizeFilename name ++ ['"'])).map
      some).mapError (fun e => ⟨400, "filename: " ++ e⟩)

/-! ## Handlers -/

/-- A call of `build_signed_url`, and the reconstruction that it was for. -/
structure Signing where
  range : SignedRange
  file : FileHash
  repoId : String
  verifiedAt : UInt64
  signedAt : UInt64
deriving DecidableEq

/-- What a request leaves. -/
structure Served where
  server : ServerState
  answer : Except ApiError Reply
  grants : List Grant
  signings : List Signing

section Handlers

variable {ε : Type} (svc : HttpService ε) (env : Env ε) (st : ServerState)

/-- `decode_hash`, with the handler's name for what is malformed. -/
def decodeFor (what : String) (hex : List UInt8) : Except ApiError Hash32 :=
  (decodeHash hex).mapError (fun e => badReq ("malformed " ++ what ++ ": " ++ e.display))

/-- `upload_xorb`, with the claims of the token. -/
def handleUploadXorb (claims : TokenClaims) (hashHex body : List UInt8) : Served :=
  match decodeFor "xorb hash" hashHex with
  | .error e => ⟨st, .error e, [], []⟩
  | .ok hash =>
    match uploadXorb svc.service st ⟨claims.repo, hash, body⟩ with
    | .error e => ⟨st, .error e, [], []⟩
    | .ok (st', wasInserted) => ⟨st', .ok (.uploadedXorb wasInserted), [], []⟩

/-- `upload_shard`, with the claims of the token. -/
def handleUploadShard (claims : TokenClaims) (body : List UInt8) : Served :=
  let out := uploadShard svc.service st ⟨claims.repo, body, env.dbNow⟩
  ⟨out.1, out.2.map (fun _ => .uploadedShard), [], []⟩

/-- `get_reconstruction`, with the claims of the token. -/
def handleGetReconstruction (claims : TokenClaims) (fileHex : List UInt8) : Served :=
  match decodeFor "file id" fileHex with
  | .error e => ⟨st, .error e, [], []⟩
  | .ok file =>
    let out := signedReconstruction svc.mac svc.publicBaseUrl env.now st.db env.pickFile
      claims.repo.repoId file
    ⟨st, out.result.map (fun r => .reconstruction r.1 r.2), [],
      out.log.map (fun range => ⟨range, file, claims.repo.repoId, env.verifiedAt, env.now⟩)⟩

/-- `get_dedup_chunk`. -/
def handleGetDedupChunk (hashHex : List UInt8) : Except ApiError Reply := do
  let chunk ← decodeFor "chunk hash" hashHex
  let shard ← getDedupChunk svc.wrapChunkHash st env.pickChunk env.sortChunks env.hmacKey env.now
    chunk
  return .dedupShard (serialize shard)

/-- `get_file_download`. -/
def handleGetFileDownload (fileHex : List UInt8) (token repoId : String) (filename : Option String) :
    Except ApiError Reply := do
  let file ← decodeFor "file id" fileHex
  let repo ← parseOwnerName repoId
  let _ ← (svc.authz.checkRepoAccess env.upstream token repo .read).mapError ApiError.ofCore
  if st.db.fileInRepo file repo.repoId = false then .error fileNotFound
  else
    let name ← validatedFilename svc.sha256 filename
      (extractFilenameSha256 svc.payloadFilename token)
    match ← (st.db.lookupFile env.pickFile file).mapError ApiError.ofCore with
    | none => .error fileNotFound
    | some terms =>
      let disposition ← contentDisposition name
      return .download ⟨termSum terms, streamTerms (fetchAndDecompressTerm svc.service st) terms⟩
        disposition

/-- The checks of `issue_xet_token`: what the token will be for. -/
def checkHubAccess (typeSeg ns name tokSeg rev : String) (authorization : Option (List UInt8)) :
    Except ApiError Grant := do
  let repoType ← parseHfRepoType typeSeg
  let scope ← parseHfTokenScope tokSeg
  let repo : RepoRef := ⟨repoType, ns ++ "/" ++ name, rev⟩
  match bearer authorization with
  | none => .error (unauthorized "missing hub bearer token")
  | some hubBearer => do
    let hubBearer := String.ofList hubBearer
    let user ← (svc.authz.checkRepoAccess env.upstream hubBearer repo scope).mapError
      ApiError.ofCore
    return ⟨hubBearer, user, repo, scope, env.now⟩

/-- `issue_xet_token`. -/
def handleIssueXetToken (typeSeg ns name tokSeg rev : String)
    (authorization : Option (List UInt8)) : Served :=
  match checkHubAccess svc env typeSeg ns name tokSeg rev authorization with
  | .error e => ⟨st, .error e, [], []⟩
  | .ok g =>
    ⟨st, ((mint svc.authz.jwt env.now g.user g.repo g.scope defaultTokenTtlSecs).mapError
      ApiError.ofCore).map (fun minted => .token ⟨minted.1, minted.2, svc.publicBaseUrl⟩), [g], []⟩

/-- `get_owner_usage`. -/
def handleGetOwnerUsage (owner : String) (authorization : Option (List UInt8)) :
    Except ApiError Reply := do
  requireAdminOrOwner svc.authz.jwt svc.adminToken env.verifiedAt authorization owner
  let raw ← (st.db.rawBytesForOwner owner).mapError ApiError.ofCore
  let stored ← (st.db.storedBytesForOwner owner).mapError ApiError.ofCore
  let quota ← effectiveQuota st.db svc.service.defaultQuotaBytes owner
  return .ownerUsage ⟨owner, raw, stored, raw - stored, quota⟩

/-- `get_repo_usage`. -/
def handleGetRepoUsage (owner repo : String) (authorization : Option (List UInt8)) :
    Except ApiError Reply := do
  requireAdminOrOwner svc.authz.jwt svc.adminToken env.verifiedAt authorization owner
  let repoId := owner ++ "/" ++ repo
  let raw ← (st.db.rawBytesForRepo repoId).mapError ApiError.ofCore
  let stored ← (st.db.storedBytesForRepo repoId).mapError ApiError.ofCore
  let exclusive ← (st.db.exclusiveStoredBytesForRepo repoId).mapError ApiError.ofCore
  return .repoUsage ⟨repoId, raw, stored, raw - stored, exclusive⟩

/-- `put_owner_quota`. -/
def handlePutOwnerQuota (owner : String) (limitBytes : Option UInt64)
    (authorization : Option (List UInt8)) : Served :=
  match putOwnerQuota (svc.adminToken.map Hash32.bytes) st.db ⟨owner, authorization, limitBytes⟩ with
  | .error e => ⟨st, .error e, [], []⟩
  | .ok db => ⟨{ st with db := db }, .ok .quotaSet, [], []⟩

/-- A handler that only reads. -/
def readOnly (answer : Except ApiError Reply) : Served := ⟨st, answer, [], []⟩

/-- A handler behind the middleware. -/
def behindAuth (isPost : Bool) (authorization : Option (List UInt8))
    (handler : TokenClaims → Served) : Served :=
  match authMiddleware svc.authz.jwt env.verifiedAt isPost authorization with
  | .error e => readOnly st (.error e)
  | .ok claims => handler claims

/-- `router`. -/
def serve (q : HttpRequest) : Served :=
  match q.call with
  | .uploadXorb hashHex body =>
    behindAuth svc env st true q.authorization
      (fun claims => handleUploadXorb svc st claims hashHex body)
  | .uploadShard body =>
    behindAuth svc env st true q.authorization
      (fun claims => handleUploadShard svc env st claims body)
  | .getReconstruction fileHex =>
    behindAuth svc env st false q.authorization
      (fun claims => handleGetReconstruction svc env st claims fileHex)
  | .getDedupChunk hashHex =>
    behindAuth svc env st false q.authorization
      (fun _ => readOnly st (handleGetDedupChunk svc env st hashHex))
  | .getXorbTransfer t => readOnly st ((getXorbTransfer svc.mac st env.now t).map .transfer)
  | .getFileDownload fileHex token repo filename =>
    readOnly st (handleGetFileDownload svc env st fileHex token repo filename)
  | .issueXetToken typeSeg ns name tokSeg rev =>
    handleIssueXetToken svc env st typeSeg ns name tokSeg rev q.authorization
  | .getOwnerUsage owner => readOnly st (handleGetOwnerUsage svc env st owner q.authorization)
  | .getRepoUsage owner repo =>
    readOnly st (handleGetRepoUsage svc env st owner repo q.authorization)
  | .putOwnerQuota owner limitBytes =>
    handlePutOwnerQuota svc st owner limitBytes q.authorization

end Handlers

/-! ## Runs -/

/-- The server, the access checks it has passed and the URLs it has signed. -/
structure Site where
  server : ServerState
  grants : List Grant
  signings : List Signing

def Site.empty : Site := ⟨ServerState.empty, [], []⟩

/-- A request, and what it meets. -/
structure HttpAct (ε : Type) where
  env : Env ε
  request : HttpRequest

def siteStep {ε : Type} (svc : HttpService ε) (s : Site) (a : HttpAct ε) : Option Site :=
  let out := serve svc a.env s.server a.request
  some ⟨out.server, s.grants ++ out.grants, s.signings ++ out.signings⟩

end BaleForGit.Server
