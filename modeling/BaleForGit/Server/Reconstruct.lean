import BaleForGit.Server.Sequential

set_option autoImplicit false

/-! # Reading a file (`get_reconstruction`, `get_file_download`)

Both read paths look the term list of a file up, find for every term the bytes of its frames in the
stored layout of the xorb, and refuse a term that goes beyond it. `get_reconstruction` answers with
the terms and the byte ranges to fetch; `get_file_download` announces the total of the unpacked
lengths and then streams the decompressed terms, so that a failure there truncates the stream.

URLs and their signatures are in `Transfer`; the name that a download is saved under is left out. -/

namespace BaleForGit.Server

/-! ## Byte ranges of terms -/

/-- `MAX_TERM_UNPACKED_BYTES`. -/
def maxTermUnpackedBytes : Nat := 134217728

def fileNotFound : ApiError := ⟨404, "file not found"⟩

def layoutMissing : ApiError :=
  ⟨500, "xorb on-disk layout missing — upload predates layout indexing"⟩

def badTermRange : ApiError := ⟨500, "term chunk range invalid or exceeds xorb's known frames"⟩

/-- The chunks of a term are frames of the layout. -/
def InFrames (layout : List XorbFrameRow) (t : FileTerm) : Prop :=
  t.chunkIdxStart < t.chunkIdxEnd ∧ t.chunkIdxEnd.toNat ≤ layout.length

instance (layout : List XorbFrameRow) (t : FileTerm) : Decidable (InFrames layout t) :=
  inferInstanceAs (Decidable (_ ∧ _))

theorem InFrames.start_lt {layout : List XorbFrameRow} {t : FileTerm} (h : InFrames layout t) :
    t.chunkIdxStart.toNat < layout.length := by
  have hlt := UInt32.lt_iff_toNat_lt.1 h.1
  have hle := h.2
  omega

theorem InFrames.last_lt {layout : List XorbFrameRow} {t : FileTerm} (h : InFrames layout t) :
    t.chunkIdxEnd.toNat - 1 < layout.length := by
  have hlt := UInt32.lt_iff_toNat_lt.1 h.1
  have hle := h.2
  omega

/-- From the first byte of the term's first frame to the end of its last. -/
def termByteRange (layout : List XorbFrameRow) (t : FileTerm) : Except ApiError (Nat × Nat) :=
  if h : InFrames layout t then
    let startFrame := layout.get ⟨t.chunkIdxStart.toNat, h.start_lt⟩
    let lastFrame := layout.get ⟨t.chunkIdxEnd.toNat - 1, h.last_lt⟩
    .ok (startFrame.onDiskStart.toNat, lastFrame.onDiskStart.toNat + lastFrame.onDiskLen.toNat)
  else .error badTermRange

/-! ## Reconstruction -/

structure RangeJson where
  start : Nat
  stop : Nat
deriving DecidableEq

/-- `CASReconstructionTerm`, with the hash itself for its hex. -/
structure ReconstructionTerm where
  hash : XorbHash
  unpackedLength : Nat
  range : RangeJson
deriving DecidableEq

/-- `CASReconstructionFetchInfo`. -/
structure FetchInfo where
  range : RangeJson
  urlRange : RangeJson
deriving DecidableEq

/-- `QueryReconstructionResponse`; the entries of `fetchInfo` are grouped by xorb. -/
structure ReconstructionResponse where
  offsetIntoFirstRange : Nat
  terms : List ReconstructionTerm
  fetchInfo : List (XorbHash × FetchInfo)
deriving DecidableEq

def termRange (t : FileTerm) : RangeJson := ⟨t.chunkIdxStart.toNat, t.chunkIdxEnd.toNat⟩

def wireTerm (t : FileTerm) : ReconstructionTerm :=
  ⟨t.xorb, t.unpackedSegmentBytes.toNat, termRange t⟩

/-- One term of the response and where to fetch it. -/
def reconstructTerm (layouts : XorbHash → Option (List XorbFrameRow)) (t : FileTerm) :
    Except ApiError (ReconstructionTerm × XorbHash × FetchInfo) :=
  match layouts t.xorb with
  | none => .error layoutMissing
  | some layout => do
    let (byteStart, byteEnd) ← termByteRange layout t
    return (wireTerm t, t.xorb, ⟨termRange t, ⟨byteStart, byteEnd - 1⟩⟩)

/-- `build_reconstruction_response`. -/
def buildReconstructionResponse (db : Db) (pick : List FileRow → Option FileRow) (h : FileHash) :
    Except ApiError ReconstructionResponse := do
  match ← (db.lookupFile pick h).mapError ApiError.ofCore with
  | none => .error fileNotFound
  | some terms =>
    let layouts := db.xorbFrameLayouts (terms.map (fun t => t.xorb))
    let found ← terms.mapM (reconstructTerm layouts)
    return ⟨0, found.map Prod.fst, found.map Prod.snd⟩

/-- `get_reconstruction`, with a token for `repoId`. -/
def getReconstruction (db : Db) (pick : List FileRow → Option FileRow) (repoId : String)
    (h : FileHash) : Except ApiError ReconstructionResponse :=
  if db.fileInRepo h repoId then buildReconstructionResponse db pick h else .error fileNotFound

/-! ## Download -/

/-- `get_xorb_range`. -/
def ServerState.getXorbRange (st : ServerState) (x : XorbHash) (start stop : Nat) :
    CoreResult (List UInt8) :=
  if stop < start then .error (.badRequest "inverted byte range")
  else match st.blobs x with
    | none => .error .notFound
    | some body =>
      if start > body.length then .error (.badRequest "range start past end")
      else .ok ((body.take stop).drop start)

/-- `decompress_xorb_chunks_into`, from an empty buffer. -/
def decompressXorbChunksInto (codec : Codec) (body : List UInt8) :
    Except XorbVerifyError (List UInt8) := do
  let frames ← (parseXorbFrames body).mapError .parse
  let chunks ← frames.zipIdx.mapM (fun fi => frameChunk codec body fi.2 fi.1)
  return chunks.flatten

/-- `fetch_and_decompress_term`. -/
def fetchAndDecompressTerm (svc : Service) (st : ServerState) (t : FileTerm) :
    Except ApiError (List UInt8) := do
  let layout := st.db.xorbFrameLayout t.xorb
  if layout.isEmpty then .error layoutMissing
  else
    let (byteStart, byteEnd) ← termByteRange layout t
    if t.unpackedSegmentBytes.toNat > maxTermUnpackedBytes then
      .error ⟨500, "term unpacked size exceeds per-term cap"⟩
    else
      let body ← (st.getXorbRange t.xorb byteStart byteEnd).mapError ApiError.ofCore
      (decompressXorbChunksInto svc.codec body).mapError
        (fun e => ⟨500, "decompress term: " ++ e.display⟩)

/-- The items of the stream: the first failure is the last of them. -/
def streamTerms (fetch : FileTerm → Except ApiError (List UInt8)) :
    List FileTerm → List (Except String (List UInt8))
  | [] => []
  | t :: terms =>
    match fetch t with
    | .error e => [.error ("term reconstruction failed: " ++ e.message)]
    | .ok bytes => .ok bytes :: streamTerms fetch terms

structure Download where
  contentLength : Nat
  stream : List (Except String (List UInt8))
deriving DecidableEq

/-- `parse_owner_name`. -/
def parseOwnerName (repo : String) : Except ApiError RepoRef :=
  let owner := repo.toList.takeWhile (fun c => c ≠ '/')
  let name := repo.toList.drop (owner.length + 1)
  if '/' ∈ repo.toList ∧ owner ≠ [] ∧ name ≠ [] then .ok ⟨.model, repo, "main"⟩
  else .error (badReq "repo must be 'owner/name'")

/-- `get_file_download`, of a URL without a filename. `access` is what the forge says to the
    token. -/
def getFileDownload (svc : Service) (access : RepoRef → CoreResult Unit) (st : ServerState)
    (pick : List FileRow → Option FileRow) (repoId : String) (h : FileHash) :
    Except ApiError Download := do
  let repo ← parseOwnerName repoId
  (access repo).mapError ApiError.ofCore
  if st.db.fileInRepo h repo.repoId = false then .error fileNotFound
  else match ← (st.db.lookupFile pick h).mapError ApiError.ofCore with
    | none => .error fileNotFound
    | some terms => return ⟨termSum terms, streamTerms (fetchAndDecompressTerm svc st) terms⟩

end BaleForGit.Server
