import Mathlib.Data.List.DropRight
import BaleForGit.Client.Remote
import BaleForGit.Library.Traced

set_option autoImplicit false

/-! # Resolving server and token (`resolver.rs`)

What is not configured is asked for: the forge for a server and a bearer, by way of ssh or of HTTP
with or without a password, and the server for a token. A resolution keeps the trace of what it asks
(`Request`); the answers are those of the environment (`World`), and so is what `serde_json` makes of a
body. Texts are lists of characters.

The refresher resolves again when a token is about to lapse. -/

namespace BaleForGit.Resolver

open Remote

/-! ## What is asked, and what is answered -/

inductive Request where
  /-- A POST to the forge, with a user and a password or without. -/
  | authenticate (url : List Char) (creds : Option (List Char × List Char))
  /-- `git credential fill`: its input, and where it runs. -/
  | credentialFill (stdin : List Char) (cwd : Option (List Char))
  /-- A subprocess, with its arguments. -/
  | ssh (argv : List (List Char))
  /-- A GET from the server, with a bearer. -/
  | exchange (url bearer : List Char)
deriving DecidableEq, Repr

inductive HttpAnswer where
  | failed (cause : List Char)
  | response (status : Nat) (body : List Char)
deriving DecidableEq, Repr

inductive ProcessAnswer where
  | failed (cause : List Char)
  | exited (success : Bool) (stdout stderr : List Char)
deriving DecidableEq, Repr

/-- `AuthenticateHTTPResponse`. -/
structure AuthenticateHTTPResponse where
  href : List Char
  header : List Char → Option (List Char)

/-- `SshAuthenticateResponse`; the authorization is empty where there is none. -/
structure SshAuthenticateResponse where
  href : List Char
  authorization : List Char
  header : List Char → Option (List Char)

/-- `TokenExchangeResponse`. -/
structure TokenExchangeResponse where
  accessToken : List Char
  exp : Nat
  casUrl : Option (List Char)
deriving DecidableEq, Repr

structure World where
  /-- The fetch URL of `origin`, of the repository at a path. -/
  origin : Option (List Char) → Except (List Char) (List Char)
  /-- The HTTP client cannot be built. -/
  client : Option (List Char)
  post : List Char → Option (List Char × List Char) → HttpAnswer
  get : List Char → List Char → HttpAnswer
  fill : List Char → Option (List Char) → ProcessAnswer
  ssh : List (List Char) → ProcessAnswer
  decodeHttp : List Char → Option AuthenticateHTTPResponse
  decodeSsh : List Char → Option SshAuthenticateResponse
  decodeToken : List Char → Option TokenExchangeResponse
  now : Nat

/-- What is configured, as far as it is read here; `repoCwd` is the parent of the git directory. -/
structure RawConfig where
  serverUrl : Option (List Char)
  token : Option (List Char)
  tokenExpiration : Option Nat
  repoCwd : Option (List Char)
  sshCommand : Option (List Char)
deriving DecidableEq, Repr

structure ResolvedAuth where
  serverUrl : List Char
  token : List Char
  tokenExpiration : Nat
deriving DecidableEq, Repr

/-- `SshAuthOutcome`. -/
structure AuthOutcome where
  href : List Char
  authorization : List Char
deriving DecidableEq, Repr

inductive AuthError where
  | origin (cause : List Char)
  | remote (e : ResolveError)
  | client (cause : List Char)
  | send (url cause : List Char)
  /-- 401 or 403. -/
  | needsAuth
  | status (url : List Char) (status : Nat) (body : List Char)
  | decode
  | noAuthorization
  | notBearer
  | sshRemote
  | spawn (cause : List Char)
  | fill (stderr : List Char)
  | ssh (args : List (List Char)) (stderr : List Char)
  | noPassword
deriving DecidableEq, Repr

/-! ## Texts -/

/-- `trim_end_matches('/')`. -/
def trimEndSlashes (text : List Char) : List Char := text.rdropWhile (fun c => c == '/')

/-- `str::strip_prefix`. -/
def stripStart (start text : List Char) : Option (List Char) :=
  if start.isPrefixOf text then some (text.drop start.length) else none

/-- A line that ended with a newline, without a carriage return before that. -/
def stripCr (line : List Char) : List Char :=
  if line.getLast? = some '\r' then line.dropLast else line

/-- `str::lines`; the last line may lack its newline. -/
def lines (text : List Char) : List (List Char) :=
  let parts := text.splitOn '\n'
  parts.dropLast.map stripCr ++ (parts.getLast?.toList.filter (fun line => line ≠ []))

/-- `strip_bearer`. -/
def stripBearer (authz : List Char) : Option (List Char) :=
  (stripStart "Bearer ".toList authz).map trim

/-- `far_future_epoch`. -/
def farFutureEpoch (now : Nat) : Nat := now + 100 * 365 * 24 * 60 * 60

/-- `host_with_port`. -/
def hostWithPort (r : RemoteUrl) (default : Nat) : List Char :=
  match r.port with
  | some p => if p ≠ default then r.host ++ ':' :: (toString p).toList else r.host
  | none => r.host

/-- `https_base`. -/
def httpsBase (r : RemoteUrl) : List Char :=
  match r.scheme with
  | .http => "http://".toList ++ hostWithPort r 80
  | .https => "https://".toList ++ hostWithPort r 443
  | .ssh => "https://".toList ++ r.host

def authenticateUrl (r : RemoteUrl) (owner repo : List Char) (scope : Scope) : List Char :=
  httpsBase r ++ '/' :: owner ++ '/' :: repo ++ ".git/info/bale/authenticate?op=".toList ++ scope.op

/-- `Scope::url_segment`. -/
def urlSegment : Scope → List Char
  | .read => "bale-read-token".toList
  | .write => "bale-write-token".toList

def exchangeUrl (serverUrl owner repo : List Char) (scope : Scope) : List Char :=
  trimEndSlashes serverUrl ++ "/api/models/".toList ++ owner ++ '/' :: repo ++
    '/' :: urlSegment scope ++ "/main".toList

/-! ## The forge -/

section Forge

variable (w : World)

/-- What `authenticate_http` makes of its answer. -/
def readAuthenticate (url : List Char) : HttpAnswer → Except AuthError AuthOutcome
  | .failed cause => .error (.send url cause)
  | .response status body =>
    if status = 401 ∨ status = 403 then .error .needsAuth
    else if status < 200 ∨ 300 ≤ status then .error (.status url status (trim body))
    else match w.decodeHttp body with
      | none => .error .decode
      | some parsed =>
        match parsed.header "Authorization".toList with
        | none => .error .noAuthorization
        | some authz => .ok ⟨trimEndSlashes parsed.href, authz⟩

def authenticateHttp (remote : RemoteUrl) (owner repo : List Char) (scope : Scope)
    (creds : Option (List Char × List Char)) : Traced Request AuthError AuthOutcome :=
  let url := authenticateUrl remote owner repo scope
  match w.client with
  | some cause => Traced.lift (.error (.client cause))
  | none => ⟨[.authenticate url creds], readAuthenticate w url (w.post url creds)⟩

/-- The input of `git credential fill`; a blank line ends it. -/
def credentialInput (remote : RemoteUrl) (protocol : List Char) : List Char :=
  "protocol=".toList ++ protocol ++ "\nhost=".toList ++ remote.host ++ "\n".toList ++
    (match remote.port with
      | some port => "port=".toList ++ (toString port).toList ++ "\n".toList
      | none => []) ++ "\n".toList

/-- The last value that a line of the output gives for a key. -/
def lastValue (key : List Char) (output : List (List Char)) : Option (List Char) :=
  (output.filterMap (stripStart key)).getLast?

/-- The user and the password in the output. -/
def readCredentials : ProcessAnswer → Except AuthError (List Char × List Char)
  | .failed cause => .error (.spawn cause)
  | .exited success stdout stderr =>
    if !success then .error (.fill (trim stderr))
    else match lastValue "password=".toList (lines stdout) with
      | none => .error .noPassword
      | some password =>
        -- a helper may have stored a token alone
        .ok ((lastValue "username=".toList (lines stdout)).getD "git".toList, password)

def gitCredentialFill (remote : RemoteUrl) (cwd : Option (List Char)) :
    Traced Request AuthError (List Char × List Char) :=
  match remote.scheme with
  | .ssh => Traced.lift (.error .sshRemote)
  | .http =>
    let stdin := credentialInput remote "http".toList
    ⟨[.credentialFill stdin cwd], readCredentials (w.fill stdin cwd)⟩
  | .https =>
    let stdin := credentialInput remote "https".toList
    ⟨[.credentialFill stdin cwd], readCredentials (w.fill stdin cwd)⟩

/-- The forge is asked with a password. -/
def authenticateWithPassword (remote : RemoteUrl) (owner repo : List Char) (scope : Scope)
    (cwd : Option (List Char)) : Traced Request AuthError AuthOutcome := do
  let creds ← gitCredentialFill w remote cwd
  authenticateHttp w remote owner repo scope (some creds)

/-- To read, the forge is first asked without one. -/
def authenticateHttpWithFallback (remote : RemoteUrl) (owner repo : List Char) (scope : Scope)
    (cwd : Option (List Char)) : Traced Request AuthError AuthOutcome :=
  match scope with
  | .read => do
    match ← (authenticateHttp w remote owner repo scope none).attempt with
    | .ok outcome => return outcome
    | .error .needsAuth => authenticateWithPassword w remote owner repo scope cwd
    | .error e => Traced.lift (.error e)
  | .write => authenticateWithPassword w remote owner repo scope cwd

/-- The arguments of ssh. -/
def sshArgs (call : SshCall) : List (List Char) := call.options ++ [call.destination, call.command]

/-- `ssh_subprocess`: a configured command goes through the shell. -/
def sshSubprocess (sshCommand : Option (List Char)) (args : List (List Char)) : List (List Char) :=
  match (sshCommand.map trim).filter (fun cmd => cmd ≠ []) with
  | some cmd => ["/bin/sh".toList, "-c".toList, cmd ++ " \"$@\"".toList, cmd] ++ args
  | none => "ssh".toList :: args

/-- What `ssh_authenticate` makes of its answer. -/
def readSsh (args : List (List Char)) : ProcessAnswer → Except AuthError AuthOutcome
  | .failed cause => .error (.spawn cause)
  | .exited success stdout stderr =>
    if !success then .error (.ssh args (trim stderr))
    else match w.decodeSsh stdout with
      | none => .error .decode
      | some parsed =>
        let fallback := if parsed.authorization ≠ [] then some parsed.authorization else none
        match (parsed.header "Authorization".toList).or fallback with
        | none => .error .noAuthorization
        | some authz => .ok ⟨trimEndSlashes parsed.href, authz⟩

/-- `ssh_authenticate`. -/
def authenticateSsh (remote : RemoteUrl) (owner repo : List Char) (scope : Scope)
    (sshCommand : Option (List Char)) : Traced Request AuthError AuthOutcome :=
  let args := sshArgs (sshAuthenticate remote owner repo scope)
  let argv := sshSubprocess sshCommand args
  ⟨[.ssh argv], readSsh w args (w.ssh argv)⟩

/-! ## The token -/

/-- What `exchange_token` makes of its answer. -/
def readExchange (serverUrl url : List Char) : HttpAnswer → Except AuthError ResolvedAuth
  | .failed cause => .error (.send url cause)
  | .response status body =>
    if status < 200 ∨ 300 ≤ status then .error (.status url status (trim body))
    else match w.decodeToken body with
      | none => .error .decode
      | some parsed =>
        .ok ⟨trimEndSlashes (parsed.casUrl.getD serverUrl), parsed.accessToken, parsed.exp⟩

def exchangeToken (serverUrl owner repo : List Char) (scope : Scope) (forgeBearer : List Char) :
    Traced Request AuthError ResolvedAuth :=
  let url := exchangeUrl serverUrl owner repo scope
  match w.client with
  | some cause => Traced.lift (.error (.client cause))
  | none => ⟨[.exchange url forgeBearer], readExchange w serverUrl url (w.get url forgeBearer)⟩

/-- `parse_origin`. -/
def parseOrigin (cwd : Option (List Char)) : Except AuthError RemoteUrl :=
  match w.origin cwd with
  | .error cause => .error (.origin cause)
  | .ok url => (parseRemote url).mapError (fun e => .remote (.remote e))

/-- The remote that the token is for. -/
def remoteFor (raw : RawConfig) (remoteOverride : Option RemoteUrl) : Except AuthError RemoteUrl :=
  match remoteOverride with
  | some r => .ok r
  | none => parseOrigin w raw.repoCwd

/-- The owner and the name, both checked. -/
def checkedName (remote : RemoteUrl) : Except AuthError (List Char × List Char) := do
  let (owner, repo) ← remote.ownerAndRepo.mapError (fun e => .remote (.remote e))
  (validateSegment "owner" owner).mapError AuthError.remote
  (validateSegment "repo" repo).mapError AuthError.remote
  return (owner, repo)

/-- The forge, as the scheme of the remote says. -/
def authenticate (raw : RawConfig) (remote : RemoteUrl) (owner repo : List Char) (scope : Scope) :
    Traced Request AuthError AuthOutcome :=
  match remote.scheme with
  | .ssh => authenticateSsh w remote owner repo scope raw.sshCommand
  | .http => authenticateHttpWithFallback w remote owner repo scope raw.repoCwd
  | .https => authenticateHttpWithFallback w remote owner repo scope raw.repoCwd

/-- `resolve_for_remote`, when not all is configured. -/
def resolveThroughForge (raw : RawConfig) (scope : Scope) (remoteOverride : Option RemoteUrl) :
    Traced Request AuthError ResolvedAuth := do
  let remote ← Traced.lift (remoteFor w raw remoteOverride)
  let (owner, repo) ← Traced.lift (checkedName remote)
  let auth ← authenticate w raw remote owner repo scope
  match stripBearer auth.authorization with
  | none => Traced.lift (.error .notBearer)
  | some bearer =>
    let serverUrl := raw.serverUrl.getD auth.href
    match raw.token with
    | some token =>
      return ⟨serverUrl, token, raw.tokenExpiration.getD (farFutureEpoch w.now)⟩
    | none => exchangeToken w serverUrl owner repo scope bearer

/-- `resolve_for_remote`. -/
def resolveForRemote (raw : RawConfig) (scope : Scope) (remoteOverride : Option RemoteUrl) :
    Traced Request AuthError ResolvedAuth :=
  match raw.serverUrl, raw.token with
  | some url, some token =>
    pure ⟨url, token, raw.tokenExpiration.getD (farFutureEpoch w.now)⟩
  | _, _ => resolveThroughForge w raw scope remoteOverride

end Forge

/-! ## The refresher -/

/-- `REFRESH_BUFFER_SEC`. -/
def refreshBufferSec : Nat := 30

/-- `MAX_EXPIRED_REFRESHES`. -/
def maxExpiredRefreshes : Nat := 3

/-- 2^32, one more than the greatest `u32`. -/
def u32Bound : Nat := 4294967296

/-- 2^64 - 1. -/
def u64Max : Nat := 18446744073709551615

inductive RefreshError where
  | resolve (e : AuthError)
  | expired (exp now n : Nat)
deriving DecidableEq, Repr

/-- `ForgeTokenRefresher`, with its counter. -/
structure ForgeTokenRefresher where
  raw : RawConfig
  scope : Scope
  remote : Option RemoteUrl
  consecutiveExpired : Nat
deriving DecidableEq, Repr

/-- `refresh`, in the world as it is then; `now` is read after the resolution. -/
def ForgeTokenRefresher.refresh (r : ForgeTokenRefresher) (w : World) (now : Nat) :
    ForgeTokenRefresher × Except RefreshError (List Char × Nat) :=
  match (resolveForRemote w r.raw r.scope r.remote).result with
  | .error e => (r, .error (.resolve e))
  | .ok resolved =>
    if resolved.tokenExpiration ≤ min (now + refreshBufferSec) u64Max then
      let n := (r.consecutiveExpired + 1) % u32Bound
      let r := { r with consecutiveExpired := n }
      if n > maxExpiredRefreshes then (r, .error (.expired resolved.tokenExpiration now n))
      else (r, .ok (resolved.token, resolved.tokenExpiration))
    else ({ r with consecutiveExpired := 0 }, .ok (resolved.token, resolved.tokenExpiration))

/-- One refresh after the other. -/
def ForgeTokenRefresher.refreshes (r : ForgeTokenRefresher) : List (World × Nat) →
    ForgeTokenRefresher × List (Except RefreshError (List Char × Nat))
  | [] => (r, [])
  | (w, now) :: rest =>
    let (r, answer) := r.refresh w now
    let (r, answers) := ForgeTokenRefresher.refreshes r rest
    (r, answer :: answers)

end BaleForGit.Resolver
