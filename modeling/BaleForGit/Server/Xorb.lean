import BaleForGit.Server.Types

set_option autoImplicit false

/-! # Xorb bodies (`bale-server-shard/src/xorb.rs`)

A xorb body is a sequence of frames, each an 8-byte header and a compressed payload, and possibly a
trailer: the first byte that is not zero where a frame would start ends the frames.
`verifyXorbBody` decompresses every frame and compares the Merkle hash of the chunks with the hash
in the URL; the compression and the trailer do not enter that hash, so one hash has many bodies.

Decompression and hashing are outside this repository: `Codec`. -/

namespace BaleForGit.Server

/-- `XorbChunkFrame`. -/
structure XorbChunkFrame where
  onDiskStart : UInt32
  onDiskLen : UInt32
  uncompressedLen : UInt32
  compressionScheme : UInt8
deriving DecidableEq, Repr

inductive XorbParseError where
  | empty
  | truncated (frameIndex need remain : Nat)
  | badCompressionScheme (frameIndex : Nat) (scheme : UInt8)
  | tooLarge (actual max : Nat)
deriving DecidableEq, Repr

inductive XorbVerifyError where
  | parse (e : XorbParseError)
  | decompressFailed (frameIndex : Nat) (message : String)
  | lengthMismatch (frameIndex declared actual : Nat)
  | hashMismatch
deriving DecidableEq, Repr

def headerLen : Nat := 8

/-- `u32::MAX`. -/
def u32Max : Nat := 4294967295

/-- `u24_le` of the three bytes from `i` on. -/
def u24Le (b : List UInt8) (i : Nat) : UInt32 :=
  (b.getD i 0).toUInt32 ||| ((b.getD (i + 1) 0).toUInt32 <<< 8) |||
    ((b.getD (i + 2) 0).toUInt32 <<< 16)

/-- The loop of `parse_xorb_frames` from `pos` on, with the frames found so far. Every round
    advances by a header at least, so the length of the body bounds the rounds. -/
def parseFrames (body : List UInt8) : Nat → Nat → List XorbChunkFrame →
    Except XorbParseError (List XorbChunkFrame)
  | 0, _, frames => .ok frames
  | rounds + 1, pos, frames =>
    if pos + headerLen ≤ body.length then
      let header := (body.drop pos).take headerLen
      -- footer or unknown trailer
      if header.getD 0 0 ≠ 0 then .ok frames
      else
        let compressedLength := u24Le header 1
        let compressionScheme := header.getD 4 0
        let uncompressedLength := u24Le header 5
        if 2 < compressionScheme then
          .error (.badCompressionScheme frames.length compressionScheme)
        else
          let frameLen := headerLen + compressedLength.toNat
          if pos + frameLen > body.length then
            .error (.truncated frames.length frameLen (body.length - pos))
          else
            parseFrames body rounds (pos + frameLen) (frames ++
              [⟨UInt32.ofNat pos, UInt32.ofNat frameLen, uncompressedLength, compressionScheme⟩])
    else .ok frames

/-- `parse_xorb_frames`. -/
def parseXorbFrames (body : List UInt8) : Except XorbParseError (List XorbChunkFrame) :=
  if body.length > u32Max then .error (.tooLarge body.length u32Max)
  else match parseFrames body body.length 0 [] with
    | .error e => .error e
    | .ok frames => if frames.isEmpty then .error .empty else .ok frames

inductive CompressionScheme where
  | none
  | lz4
  | byteGrouping4Lz4
deriving DecidableEq, Repr

/-- What xet-core and blake3 do: decompression, the hash of a chunk, the Merkle hash of a xorb, and
    the hash that shards are filed under. -/
structure Codec where
  decompressFromSlice : CompressionScheme → List UInt8 → Except String (List UInt8)
  computeDataHash : List UInt8 → Hash32
  xorbHash : List (Hash32 × Nat) → Hash32
  blake3 : List UInt8 → Hash32

section Verify

variable (codec : Codec)

def schemeOf (i : Nat) : UInt8 → Except XorbVerifyError CompressionScheme
  | 0 => .ok .none
  | 1 => .ok .lz4
  | 2 => .ok .byteGrouping4Lz4
  | other => .error (.parse (.badCompressionScheme i other))

/-- The chunk of one frame, decompressed and checked against the declared length. -/
def frameChunk (body : List UInt8) (i : Nat) (f : XorbChunkFrame) :
    Except XorbVerifyError (List UInt8) := do
  let payload := (body.take (f.onDiskStart.toNat + f.onDiskLen.toNat)).drop
    (f.onDiskStart.toNat + headerLen)
  let scheme ← schemeOf i f.compressionScheme
  match codec.decompressFromSlice scheme payload with
  | .error message => .error (.decompressFailed i message)
  | .ok decompressed =>
    if decompressed.length ≠ f.uncompressedLen.toNat then
      .error (.lengthMismatch i f.uncompressedLen.toNat decompressed.length)
    else .ok decompressed

/-- `verify_xorb_body`. -/
def verifyXorbBody (body : List UInt8) (expected : XorbHash) : Except XorbVerifyError Unit := do
  let frames ← (parseXorbFrames body).mapError .parse
  let entries ← frames.zipIdx.mapM (fun fi => do
    let decompressed ← frameChunk codec body fi.2 fi.1
    return (codec.computeDataHash decompressed, decompressed.length))
  if codec.xorbHash entries ≠ expected then .error .hashMismatch else .ok ()

end Verify

/-! ## Frames take eight bytes each -/

theorem parseFrames_length {body : List UInt8} {rounds pos : Nat} {acc frames : List XorbChunkFrame}
    (hpos : pos ≤ body.length) (hacc : acc.length * headerLen ≤ pos)
    (h : parseFrames body rounds pos acc = .ok frames) :
    frames.length * headerLen ≤ body.length := by
  induction rounds generalizing pos acc with
  | zero =>
      simp only [parseFrames, Except.ok.injEq] at h
      subst h
      omega
  | succ rounds ih =>
      simp only [parseFrames] at h
      split_ifs at h with hfit hfoot hscheme hlen
      · simp only [Except.ok.injEq] at h
        subst h
        omega
      · refine ih (by omega) ?_ h
        rw [List.length_append, List.length_singleton, Nat.add_mul]
        omega
      · simp only [Except.ok.injEq] at h
        subst h
        omega

/-- What a body that parses has passed. -/
theorem parseXorbFrames_eq_ok {body : List UInt8} {frames : List XorbChunkFrame}
    (h : parseXorbFrames body = .ok frames) :
    frames ≠ [] ∧ parseFrames body body.length 0 [] = .ok frames ∧ body.length ≤ u32Max := by
  unfold parseXorbFrames at h
  split_ifs at h with hlarge
  cases hp : parseFrames body body.length 0 [] with
  | error e => simp [hp] at h
  | ok got =>
      simp only [hp] at h
      split_ifs at h with hempty
      obtain rfl := Except.ok.inj h
      exact ⟨fun heq => hempty (by simp [heq]), rfl, Nat.le_of_not_lt hlarge⟩

/-- A parsed body has frames, fewer than `u32` can count. -/
theorem parseXorbFrames_length {body : List UInt8} {frames : List XorbChunkFrame}
    (h : parseXorbFrames body = .ok frames) :
    frames ≠ [] ∧ frames.length * headerLen ≤ body.length ∧ body.length ≤ u32Max := by
  obtain ⟨hne, hp, hmax⟩ := parseXorbFrames_eq_ok h
  exact ⟨hne, parseFrames_length (Nat.zero_le _) (by simp) hp, hmax⟩

end BaleForGit.Server
