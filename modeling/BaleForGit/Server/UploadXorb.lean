import Mathlib.Logic.Function.Basic
import BaleForGit.Library.Machine
import BaleForGit.Server.Metadata
import BaleForGit.Server.Xorb

set_option autoImplicit false

/-! # Uploading a xorb (`upload_xorb`, `put_xorb`)

The server keeps xorb bodies in a blob store and where their frames lie in the metadata store. An
upload checks the quota, parses and verifies the body, registers its frame layout, and then puts the
blob unless there is one. `uploadXorb` is one upload from start to end; `uploadStep` takes it apart
into the operations on the two stores, so that any number of uploads can interleave and any of them
can stop half-way.

The layout is written once and the blob is written by whoever finds none, so that the two need not
come from the same body. -/

namespace BaleForGit.Server

/-! ## One upload -/

/-- The two stores. -/
structure ServerState where
  blobs : XorbHash → Option (List UInt8)
  shards : ShardHash → Option (List UInt8)
  db : Db

def ServerState.empty : ServerState := ⟨fun _ => none, fun _ => none, Db.empty⟩

/-- What is fixed for a running server: the code of xet-core, and the quota for owners without one
    of their own. -/
structure Service where
  codec : Codec
  defaultQuotaBytes : Option Nat

/-- `MAX_BODY_BYTES`. -/
def maxBodyBytes : Nat := 67108864

structure XorbRequest where
  repo : RepoRef
  hash : XorbHash
  body : List UInt8
deriving DecidableEq

/-- `effective_quota`. -/
def effectiveQuota (db : Db) (default : Option Nat) (owner : String) :
    Except ApiError (Option Nat) := do
  let own ← (db.getOwnerQuota owner).mapError ApiError.ofCore
  return own.or default

def quotaExceeded (owner : String) (used quota wouldAdd : Nat) : ApiError :=
  ⟨429, "storage quota exceeded for owner '" ++ owner ++ "': " ++ toString used ++
    " bytes stored + " ++ toString wouldAdd ++ " new would exceed the " ++ toString quota ++
    "-byte limit"⟩

def XorbParseError.display : XorbParseError → String
  | .empty => "xorb contained no chunk frames"
  | .truncated i need remain => "frame " ++ toString i ++ " truncated: declared " ++ toString need ++
      " bytes, only " ++ toString remain ++ " remain"
  | .badCompressionScheme i scheme => "frame " ++ toString i ++
      " has invalid compression scheme " ++ toString scheme
  | .tooLarge actual max => "xorb body exceeds " ++ toString max ++ " bytes (" ++
      toString actual ++ " given)"

def XorbVerifyError.display : XorbVerifyError → String
  | .parse e => e.display
  | .decompressFailed i message => "frame " ++ toString i ++ " failed to decompress: " ++ message
  | .lengthMismatch i declared actual => "frame " ++ toString i ++
      " length mismatch: header declared " ++ toString declared ++ ", decompressed " ++
      toString actual
  | .hashMismatch => "xorb content hash does not match URL hash"

/-- The rows of `xorb_frames` for the parsed frames. -/
def frameLayout (frames : List XorbChunkFrame) : List XorbFrameRow :=
  frames.zipIdx.map (fun fi =>
    ⟨UInt32.ofNat fi.2, fi.1.onDiskStart, fi.1.onDiskLen, fi.1.uncompressedLen⟩)

section Upload

variable (svc : Service)

/-- The size and quota checks; a xorb that is already there is not charged. -/
def checkXorb (st : ServerState) (r : XorbRequest) : Except ApiError Unit := do
  if r.body.length > maxBodyBytes then .error (badReq "xorb exceeds 64 MiB limit")
  else
    match ← effectiveQuota st.db svc.defaultQuotaBytes r.repo.owner with
    | none => .ok ()
    | some quota =>
      if (st.blobs r.hash).isSome then .ok ()
      else
        let used ← (st.db.storedBytesForOwner r.repo.owner).mapError ApiError.ofCore
        if saturatingAdd used r.body.length > quota then
          .error (quotaExceeded r.repo.owner used quota r.body.length)
        else .ok ()

/-- The layout of a body. -/
def parseXorb (r : XorbRequest) : Except ApiError (List XorbFrameRow) :=
  match parseXorbFrames r.body with
  | .error e => .error (badReq ("malformed xorb body: " ++ e.display))
  | .ok frames => .ok (frameLayout frames)

def verifyXorb (r : XorbRequest) : Except ApiError Unit :=
  match verifyXorbBody svc.codec r.body r.hash with
  | .ok _ => .ok ()
  | .error .hashMismatch => .error (badReq "xorb body does not match URL hash")
  | .error e => .error (badReq ("xorb body verification failed: " ++ e.display))

/-- `put_xorb`, when no blob was found. -/
def ServerState.putXorb (st : ServerState) (x : XorbHash) (body : List UInt8) : ServerState :=
  { st with blobs := Function.update st.blobs x (some body) }

/-- `upload_xorb`; the answer says whether the blob was inserted. -/
def uploadXorb (st : ServerState) (r : XorbRequest) : Except ApiError (ServerState × Bool) := do
  checkXorb svc st r
  let layout ← parseXorb r
  verifyXorb svc r
  let st := { st with db := st.db.registerXorbLayout r.hash layout }
  if (st.blobs r.hash).isSome then .ok (st, false)
  else .ok (st.putXorb r.hash r.body, true)

/-! ## Interleaved uploads -/

/-- Where an upload has got to. -/
inductive UploadPc where
  | idle
  | received (r : XorbRequest)
  | checked (r : XorbRequest)
  | parsed (r : XorbRequest) (layout : List XorbFrameRow)
  | verified (r : XorbRequest) (layout : List XorbFrameRow)
  | registered (r : XorbRequest) (layout : List XorbFrameRow)
  | absent (r : XorbRequest) (layout : List XorbFrameRow)
  | answered (res : Except ApiError Bool)

structure Uploads where
  server : ServerState
  pcs : Nat → UploadPc

/-- `stop` is a store error or a crash; it can come between any two steps. -/
inductive UploadAct where
  | receive (i : Nat) (r : XorbRequest)
  | step (i : Nat)
  | stop (i : Nat)

def Uploads.setPc (s : Uploads) (i : Nat) (pc : UploadPc) : Uploads :=
  { s with pcs := Function.update s.pcs i pc }

/-- The next operation of upload `i`. -/
def uploadStep (s : Uploads) (i : Nat) : Option Uploads :=
  match s.pcs i with
  | .idle => none
  | .received r =>
    match checkXorb svc s.server r with
    | .error e => some (s.setPc i (.answered (.error e)))
    | .ok _ => some (s.setPc i (.checked r))
  | .checked r =>
    match parseXorb r with
    | .error e => some (s.setPc i (.answered (.error e)))
    | .ok layout => some (s.setPc i (.parsed r layout))
  | .parsed r layout =>
    match verifyXorb svc r with
    | .error e => some (s.setPc i (.answered (.error e)))
    | .ok _ => some (s.setPc i (.verified r layout))
  | .verified r layout =>
    some ({ s with server := { s.server with
      db := s.server.db.registerXorbLayout r.hash layout } }.setPc i (.registered r layout))
  | .registered r layout =>
    if (s.server.blobs r.hash).isSome then some (s.setPc i (.answered (.ok false)))
    else some (s.setPc i (.absent r layout))
  | .absent r _ =>
    some ({ s with server := s.server.putXorb r.hash r.body }.setPc i (.answered (.ok true)))
  | .answered _ => none

def uploadsStep (s : Uploads) (a : UploadAct) : Option Uploads :=
  match a with
  | .receive i r =>
    match s.pcs i with
    | .idle => some (s.setPc i (.received r))
    | _ => none
  | .step i => uploadStep svc s i
  | .stop i => some (s.setPc i .idle)

/-- A server with no blob and no layout yet, and any other metadata. -/
def Uploads.fresh (db : Db) : Uploads where
  server := ⟨fun _ => none, fun _ => none, { db with xorbFrames := [] }⟩
  pcs := fun _ => .idle

/-- **An upload that nothing interrupts is `uploadXorb`.** -/
theorem run_upload (s : Uploads) (i : Nat) (r : XorbRequest) (hidle : s.pcs i = .idle) :
    ∃ n, (Machine.run (uploadsStep svc) s (.receive i r :: List.replicate n (.step i))).map
        (fun s' => (s'.server, s'.pcs i)) =
      some (match uploadXorb svc s.server r with
        | .ok (st, inserted) => (st, .answered (.ok inserted))
        | .error e => (s.server, .answered (.error e))) := by
  unfold uploadXorb
  cases hcheck : checkXorb svc s.server r with
  | error e =>
      exact ⟨1, by simp [Machine.run, uploadsStep, uploadStep, hidle, hcheck, List.replicate,
        Uploads.setPc, bind, Except.bind]⟩
  | ok _ =>
      cases hparse : parseXorb r with
      | error e =>
          exact ⟨2, by simp [Machine.run, uploadsStep, uploadStep, hidle, hcheck, hparse,
            List.replicate, Uploads.setPc, bind, Except.bind]⟩
      | ok layout =>
          cases hverify : verifyXorb svc r with
          | error e =>
              exact ⟨3, by simp [Machine.run, uploadsStep, uploadStep, hidle, hcheck, hparse,
                hverify, List.replicate, Uploads.setPc, bind, Except.bind]⟩
          | ok _ =>
              by_cases hblob : (s.server.blobs r.hash).isSome = true
              · exact ⟨5, by simp [Machine.run, uploadsStep, uploadStep, hidle, hcheck, hparse,
                  hverify, hblob, List.replicate, Uploads.setPc, bind, Except.bind]⟩
              · exact ⟨6, by simp [Machine.run, uploadsStep, uploadStep, hidle, hcheck, hparse,
                  hverify, hblob, List.replicate, Uploads.setPc, ServerState.putXorb, bind,
                  Except.bind]⟩

end Upload

/-! ## What an upload does -/

/-- An accepted xorb upload passed its checks, has registered its layout, and has put its blob if
    there was none. -/
theorem uploadXorb_cases {svc : Service} {st : ServerState} {r : XorbRequest} {res : ServerState × Bool}
    (h : uploadXorb svc st r = .ok res) :
    checkXorb svc st r = .ok () ∧ verifyXorb svc r = .ok () ∧ ∃ layout, parseXorb r = .ok layout ∧
      res.1.db = st.db.registerXorbLayout r.hash layout ∧ res.1.shards = st.shards ∧
      res.1.blobs = (if (st.blobs r.hash).isSome then st.blobs
        else Function.update st.blobs r.hash (some r.body)) := by
  unfold uploadXorb at h
  cases hcheck : checkXorb svc st r with
  | error e => simp [hcheck, bind, Except.bind] at h
  | ok _ =>
      cases hparse : parseXorb r with
      | error e => simp [hcheck, hparse, bind, Except.bind] at h
      | ok layout =>
          cases hverify : verifyXorb svc r with
          | error e => simp [hcheck, hparse, hverify, bind, Except.bind] at h
          | ok _ =>
              refine ⟨rfl, rfl, layout, rfl, ?_⟩
              simp only [hcheck, hparse, hverify, bind, Except.bind] at h
              split_ifs at h with hblob <;> simp only [Except.ok.injEq] at h <;> subst h
              · exact ⟨rfl, rfl, by rw [if_pos hblob]⟩
              · exact ⟨rfl, rfl, by rw [if_neg hblob]; rfl⟩

theorem checkXorb_length {svc : Service} {st : ServerState} {r : XorbRequest}
    (h : checkXorb svc st r = .ok ()) : r.body.length ≤ maxBodyBytes := by
  unfold checkXorb at h
  by_contra hlong
  simp [Nat.lt_of_not_le hlong] at h

/-- An accepted upload keeps the blobs that are there, and has one of its own. -/
theorem uploadXorb_blobs {svc : Service} {st : ServerState} {r : XorbRequest}
    {res : ServerState × Bool} (h : uploadXorb svc st r = .ok res) :
    (∀ x, st.blobs x ≠ none → res.1.blobs x ≠ none) ∧ res.1.blobs r.hash ≠ none := by
  obtain ⟨-, -, layout, -, -, -, hblobs⟩ := uploadXorb_cases h
  rw [hblobs]
  split_ifs with hsome
  · exact ⟨fun _ hx => hx, Option.ne_none_iff_isSome.2 hsome⟩
  · refine ⟨fun x hx => ?_, by simp⟩
    by_cases hxr : x = r.hash
    · rw [hxr, Function.update_self]
      simp
    · rw [Function.update_of_ne hxr]
      exact hx

/-- The tables that a layout does not touch. -/
theorem registerXorbLayout_frame (db : Db) (x : XorbHash) (layout : List XorbFrameRow) :
    (db.registerXorbLayout x layout).files = db.files ∧
      (db.registerXorbLayout x layout).fileTerms = db.fileTerms ∧
      (db.registerXorbLayout x layout).xorbs = db.xorbs ∧
      (db.registerXorbLayout x layout).chunks = db.chunks ∧
      (db.registerXorbLayout x layout).ownerQuotas = db.ownerQuotas := by
  unfold Db.registerXorbLayout
  split_ifs <;> exact ⟨rfl, rfl, rfl, rfl, rfl⟩

/-- An accepted xorb upload writes neither files nor terms. -/
theorem uploadXorb_tables {svc : Service} {st : ServerState} {r : XorbRequest}
    {res : ServerState × Bool} (h : uploadXorb svc st r = .ok res) :
    res.1.db.files = st.db.files ∧ res.1.db.fileTerms = st.db.fileTerms := by
  obtain ⟨-, -, layout, -, hdb, -, -⟩ := uploadXorb_cases h
  obtain ⟨hfiles, hterms, -, -, -⟩ := registerXorbLayout_frame st.db r.hash layout
  rw [hdb]
  exact ⟨hfiles, hterms⟩

end BaleForGit.Server
