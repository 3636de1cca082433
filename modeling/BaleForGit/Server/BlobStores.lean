import BaleForGit.Library.Maps
import BaleForGit.Library.Replies
import BaleForGit.Server.FsStoreSafety
import BaleForGit.Server.Reconstruct

set_option autoImplicit false

/-! # The blob stores (`BlobStore`)

What a blob store is for: under a name, the first body that was put there stays. The three stores,
one request at a time and with nothing failing: the files of `FsBlobStore`, the maps of
`MemBlobStore`, and the objects that `S3BlobStore` keeps with a service that is not ours, of which
only the documented behaviour is used. -/

namespace BaleForGit.Server

open FsStore (BlobKind BlobName FileSystem Path Put Choice rangeOf fanout)

/-! ## What a blob store is for -/

inductive BlobOp where
  | putXorb (hash : XorbHash) (body : List UInt8)
  | xorbExists (hash : XorbHash)
  | getXorbRange (hash : XorbHash) (start stop : Nat)
  | putShard (hash : ShardHash) (body : List UInt8)
  | getShard (hash : ShardHash)
deriving DecidableEq

inductive BlobAnswer where
  | putXorb (r : CoreResult Bool)
  | xorbExists (r : CoreResult Bool)
  | putShard (r : CoreResult Unit)
  | bytes (r : CoreResult (List UInt8))
deriving DecidableEq

/-- The blobs by name. -/
abbrev Blobs := BlobName → Option (List UInt8)

/-- The first body stays. -/
def Blobs.put (m : Blobs) (name : BlobName) (body : List UInt8) : Blobs :=
  fun n => if n = name then some ((m name).getD body) else m n

/-- A half-open range of what is there. -/
def rangeAnswer (body : Option (List UInt8)) (start stop : Nat) : CoreResult (List UInt8) :=
  if stop < start then .error (.badRequest "inverted byte range")
  else match body with
    | none => .error .notFound
    | some body => rangeOf body start stop

def wholeAnswer (body : Option (List UInt8)) : CoreResult (List UInt8) :=
  match body with
  | none => .error .notFound
  | some body => .ok body

def Blobs.step (m : Blobs) : BlobOp → Blobs × BlobAnswer
  | .putXorb hash body =>
    (m.put ⟨.xorbs, hash⟩ body, .putXorb (.ok (m ⟨.xorbs, hash⟩).isNone))
  | .xorbExists hash => (m, .xorbExists (.ok (m ⟨.xorbs, hash⟩).isSome))
  | .getXorbRange hash start stop =>
    (m, .bytes (rangeAnswer (m ⟨.xorbs, hash⟩) start stop))
  | .putShard hash body => (m.put ⟨.shards, hash⟩ body, .putShard (.ok ()))
  | .getShard hash => (m, .bytes (wholeAnswer (m ⟨.shards, hash⟩)))

/-- What is put, and where. -/
def BlobOp.put? : BlobOp → Option Put
  | .putXorb hash body => some ⟨⟨.xorbs, hash⟩, body⟩
  | .putShard hash body => some ⟨⟨.shards, hash⟩, body⟩
  | _ => none

/-! ## `bale-server-storage-mem` -/

structure MemBlobStore where
  xorbs : List (Hash32 × List UInt8)
  shards : List (Hash32 × List UInt8)
  storedBytes : Nat
  maxBytes : Option Nat

namespace MemBlobStore

def new : MemBlobStore := ⟨[], [], 0, none⟩

def withMaxBytes (st : MemBlobStore) (maxBytes : Nat) : MemBlobStore :=
  { st with maxBytes := some maxBytes }

/-- `reserve`; the loop is over once nobody else adds. -/
def reserve (st : MemBlobStore) (n : Nat) : CoreResult MemBlobStore :=
  match st.maxBytes with
  | none => .ok st
  | some max =>
    if 18446744073709551616 ≤ st.storedBytes + n then
      .error (.badRequest "mem store byte counter overflow")
    else if st.storedBytes + n > max then
      .error (.badRequest "mem store capacity exhausted")
    else .ok { st with storedBytes := st.storedBytes + n }

def putXorb (st : MemBlobStore) (hash : XorbHash) (body : List UInt8) :
    MemBlobStore × CoreResult Bool :=
  if (Maps.get st.xorbs hash).isSome then (st, .ok false)
  else match st.reserve body.length with
    | .error e => (st, .error e)
    | .ok st => ({ st with xorbs := Maps.insert st.xorbs hash body }, .ok true)

/-- A body that is there already is written over. -/
def putShard (st : MemBlobStore) (hash : ShardHash) (body : List UInt8) :
    MemBlobStore × CoreResult Unit :=
  if (Maps.get st.shards hash).isSome then
    ({ st with shards := Maps.insert st.shards hash body }, .ok ())
  else match st.reserve body.length with
    | .error e => (st, .error e)
    | .ok st => ({ st with shards := Maps.insert st.shards hash body }, .ok ())

def getXorbRange (st : MemBlobStore) (hash : XorbHash) (start stop : Nat) :
    CoreResult (List UInt8) :=
  if stop < start then .error (.badRequest "inverted byte range")
  else match Maps.get st.xorbs hash with
    | none => .error .notFound
    | some body =>
      if start > body.length then .error (.badRequest "range start past end")
      else .ok ((body.take (min stop body.length)).drop start)

def getShard (st : MemBlobStore) (hash : ShardHash) : CoreResult (List UInt8) :=
  match Maps.get st.shards hash with
  | none => .error .notFound
  | some body => .ok body

def step (st : MemBlobStore) : BlobOp → MemBlobStore × BlobAnswer
  | .putXorb hash body => ((st.putXorb hash body).1, .putXorb (st.putXorb hash body).2)
  | .xorbExists hash => (st, .xorbExists (.ok (Maps.get st.xorbs hash).isSome))
  | .getXorbRange hash start stop => (st, .bytes (st.getXorbRange hash start stop))
  | .putShard hash body => ((st.putShard hash body).1, .putShard (st.putShard hash body).2)
  | .getShard hash => (st, .bytes (st.getShard hash))

end MemBlobStore

/-! ## `bale-server-storage-s3` -/

/-- The errors of the SDK that the store tells apart: `HeadObjectError::NotFound`,
    `GetObjectError::NoSuchKey`, and all others, as they are shown. -/
inductive SdkError where
  | notFound
  | noSuchKey
  | other (text : String)
deriving DecidableEq

def displaySdkError : SdkError → String
  | .notFound => "service error: NotFound"
  | .noSuchKey => "service error: NoSuchKey"
  | .other text => text

/-- What the SDK sends and what it gets back, for one bucket. -/
structure ObjectService (σ : Type) where
  headObject : σ → String → Except SdkError Unit
  putObject : σ → String → List UInt8 → Except SdkError σ
  /-- The range, where there is one, as the text of the header. -/
  getObject : σ → String → Option String → Except SdkError (List UInt8)

/-- The `Range` header, both ends included. -/
def rangeHeader (first last : Nat) : String := "bytes=" ++ toString first ++ "-" ++ toString last

/-- What is documented of an object service: an object is there once it is put, and a range that
    begins past its end cannot be satisfied. -/
structure ObjectService.Documented {σ : Type} (svc : ObjectService σ)
    (objects : σ → String → Option (List UInt8)) : Prop where
  headSome : ∀ s key body, objects s key = some body → svc.headObject s key = .ok ()
  headNone : ∀ s key, objects s key = none → svc.headObject s key = .error .notFound
  put : ∀ s key body, ∃ s', svc.putObject s key body = .ok s' ∧
    ∀ k, objects s' k = if k = key then some body else objects s k
  getNone : ∀ s key range, objects s key = none → svc.getObject s key range = .error .noSuchKey
  getWhole : ∀ s key body, objects s key = some body → svc.getObject s key none = .ok body
  getRange : ∀ s key body first last, objects s key = some body → first ≤ last →
    first < body.length →
    svc.getObject s key (some (rangeHeader first last)) = .ok ((body.take (last + 1)).drop first)
  getPast : ∀ s key body first last, objects s key = some body → first ≤ last →
    body.length ≤ first →
    ∃ text, svc.getObject s key (some (rangeHeader first last)) = .error (.other text)

namespace S3BlobStore

variable {σ : Type} (svc : ObjectService σ) (pfx : String)

/-- `S3BlobStore::fanout`. -/
def key (name : BlobName) : String :=
  let hex := name.hash.debug
  pfx ++ name.kind.dir ++ "/" ++ String.ofList (hex.toList.take 2) ++ "/" ++
    String.ofList ((hex.toList.drop 2).take 2) ++ "/" ++ hex

def objectExists (s : σ) (key : String) : CoreResult Bool :=
  match svc.headObject s key with
  | .ok () => .ok true
  | .error .notFound => .ok false
  | .error e => .error (.internal ("s3 head_object " ++ key ++ ": " ++ displaySdkError e))

def putObject (s : σ) (key : String) (body : List UInt8) : CoreResult σ :=
  (svc.putObject s key body).mapError
    (fun e => .internal ("s3 put_object " ++ key ++ ": " ++ displaySdkError e))

/-- `GET`, as both reads send it. -/
def getObject (s : σ) (key : String) (range : Option String) : CoreResult (List UInt8) :=
  (svc.getObject s key range).mapError (fun e =>
    if e = .noSuchKey then .notFound
    else .internal ("s3 get_object " ++ key ++ ": " ++ displaySdkError e))

/-- `HEAD`, then `PUT` if nothing is there. -/
def putIfAbsent (s : σ) (key : String) (body : List UInt8) : σ × CoreResult Bool :=
  match objectExists svc s key with
  | .error e => (s, .error e)
  | .ok true => (s, .ok false)
  | .ok false =>
    match putObject svc s key body with
    | .error e => (s, .error e)
    | .ok s => (s, .ok true)

def getXorbRange (s : σ) (hash : XorbHash) (start stop : Nat) : CoreResult (List UInt8) :=
  if stop < start then .error (.badRequest "inverted byte range")
  -- an empty range needs no object
  else if stop = start then .ok []
  else getObject svc s (key pfx ⟨.xorbs, hash⟩) (some (rangeHeader start (stop - 1)))

def step (s : σ) : BlobOp → σ × BlobAnswer
  | .putXorb hash body =>
    let r := putIfAbsent svc s (key pfx ⟨.xorbs, hash⟩) body
    (r.1, .putXorb r.2)
  | .xorbExists hash => (s, .xorbExists (objectExists svc s (key pfx ⟨.xorbs, hash⟩)))
  | .getXorbRange hash start stop => (s, .bytes (getXorbRange svc pfx s hash start stop))
  | .putShard hash body =>
    let r := putIfAbsent svc s (key pfx ⟨.shards, hash⟩) body
    (r.1, .putShard (r.2.map (fun _ => ())))
  | .getShard hash => (s, .bytes (getObject svc s (key pfx ⟨.shards, hash⟩) none))

end S3BlobStore

/-! ## `bale-server-storage-fs`, one request at a time -/

namespace FsStore

variable (display : Path → String)

/-- A put, call after call. -/
def finishPut (fs : FileSystem) (w : Writer) (c : Choice) : Nat → FileSystem × PutPhase
  | 0 => (fs, w.phase)
  | n + 1 =>
    let next := w.next display fs c
    finishPut next.1 ⟨w.put, next.2⟩ c n

def PutPhase.answer : PutPhase → CoreResult Bool
  | .done answer => answer
  | _ => .error (.internal "")

/-- A read, call after call. -/
def finishGet (fs : FileSystem) (r : Reader) (c : Choice) : Nat → GetPhase
  | 0 => r.phase
  | n + 1 => finishGet fs ⟨r.name, r.want, r.next fs c⟩ c n

def GetPhase.answer : GetPhase → CoreResult (List UInt8)
  | .done answer => answer
  | _ => .error (.internal "")

/-- No call fails, and the name of the temporary file is `uuid`. -/
def step1 (fs : FileSystem) (a : BlobOp × String) : FileSystem × BlobAnswer :=
  match a.1 with
  | .putXorb hash body =>
    let r := finishPut display fs ⟨⟨⟨.xorbs, hash⟩, body⟩, .stat⟩ ⟨none, body.length, a.2⟩ 7
    (r.1, .putXorb r.2.answer)
  | .xorbExists hash => (fs, .xorbExists (.ok (fs.entries (fanout ⟨.xorbs, hash⟩)).isSome))
  | .getXorbRange hash start stop =>
    (fs, .bytes (finishGet fs (Reader.start ⟨.xorbs, hash⟩ (.range start stop)) ⟨none, 0, ""⟩
      4).answer)
  | .putShard hash body =>
    let r := finishPut display fs ⟨⟨⟨.shards, hash⟩, body⟩, .stat⟩ ⟨none, body.length, a.2⟩ 7
    (r.1, .putShard (r.2.answer.map (fun _ => ())))
  | .getShard hash =>
    (fs, .bytes (finishGet fs (Reader.start ⟨.shards, hash⟩ .whole) ⟨none, 0, ""⟩ 4).answer)

end FsStore

end BaleForGit.Server
