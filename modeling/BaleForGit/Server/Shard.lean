import BaleForGit.Server.Types

set_option autoImplicit false

/-! # Shards (`bale-server-shard/src/lib.rs`)

A shard declares files, each a list of terms, and CAS blocks, each the chunks of a xorb, in entries
of 48 bytes; both sections end with a bookend whose hash is all ones, and a footer may follow.
`parse` reads it through a cursor that fails when the buffer ends. The counts in the entries are
checked against what is left of the buffer before anything is read, so a parsed file has at most as
many terms as entries fit into the shard. -/

namespace BaleForGit.Server

inductive ShardError where
  | truncated (offset needed : Nat)
  | badHeaderVersion (version : UInt64)
  | badFooterVersion (version : UInt64)
  | badFooterOffset (declared : UInt64) (len : Nat)
  | tooLarge (len : Nat)
deriving DecidableEq, Repr

def ShardError.display : ShardError → String
  | .truncated offset needed => "shard truncated: needed " ++ toString needed ++
      " more bytes at offset " ++ toString offset
  | .badHeaderVersion v => "unsupported header version " ++ toString v
  | .badFooterVersion v => "unsupported footer version " ++ toString v
  | .badFooterOffset declared len => "declared footer offset " ++ toString declared ++
      " exceeds shard length " ++ toString len
  | .tooLarge len => "shard too large (" ++ toString len ++ " bytes, max 64 MiB)"

def entrySize : Nat := 48
def footerSize : UInt64 := 200
def mdbShardHeaderVersion : UInt64 := 2
def mdbShardFooterVersion : UInt64 := 1
def flagWithVerification : UInt32 := 0x80000000
def flagWithMetadataExt : UInt32 := 0x40000000
def maxShardBytes : Nat := 67108864

structure ShardHeader where
  tag : List UInt8
  version : UInt64
  footerSize : UInt64
deriving DecidableEq

structure FileTermEntry where
  xorb : XorbHash
  casFlags : UInt32
  unpackedSegmentBytes : UInt32
  chunkIdxStart : UInt32
  chunkIdxEnd : UInt32
deriving DecidableEq

structure ParsedFile where
  fileHash : FileHash
  fileFlags : UInt32
  entries : List FileTermEntry
  verifications : List Hash32
  sha256 : Option Hash32
deriving DecidableEq

structure CasChunkEntry where
  chunkHash : ChunkHash
  byteStart : UInt32
  unpackedSegmentBytes : UInt32
deriving DecidableEq

structure ParsedCasBlock where
  xorb : XorbHash
  casFlags : UInt32
  numBytesInCas : UInt32
  numBytesOnDisk : UInt32
  chunks : List CasChunkEntry
deriving DecidableEq

structure ShardFooter where
  version : UInt64
  fileInfoOffset : UInt64
  casInfoOffset : UInt64
  chunkHashHmacKey : Hash32
  shardCreationTimestamp : UInt64
  shardKeyExpiry : UInt64
  footerOffset : UInt64
deriving DecidableEq

structure ParsedShard where
  header : ShardHeader
  files : List ParsedFile
  casBlocks : List ParsedCasBlock
  footer : Option ShardFooter
deriving DecidableEq

/-! ## The cursor -/

/-- A read from a buffer at a position. -/
def Cursor (α : Type) : Type := List UInt8 → Nat → Except ShardError (α × Nat)

instance : Monad Cursor where
  pure a := fun _ pos => .ok (a, pos)
  bind x f := fun buf pos =>
    match x buf pos with
    | .error e => .error e
    | .ok (a, pos') => f a buf pos'

namespace Cursor

def fail {α : Type} (e : ShardError) : Cursor α := fun _ _ => .error e

def pos : Cursor Nat := fun _ p => .ok (p, p)

def remaining : Cursor Nat := fun buf p => .ok (buf.length - p, p)

/-- `need`, then the slice. -/
def take (n : Nat) : Cursor (List UInt8) := fun buf p =>
  if buf.length - p < n then .error (.truncated p (n - (buf.length - p)))
  else .ok ((buf.drop p).take n, p + n)

def skip (n : Nat) : Cursor Unit := do
  let _ ← take n
  return ()

/-- Little-endian value of a byte string. -/
def leNat (bytes : List UInt8) : Nat := bytes.foldr (fun b acc => b.toNat + 256 * acc) 0

def u32 : Cursor UInt32 := do return UInt32.ofNat (leNat (← take 4))

def u64 : Cursor UInt64 := do return UInt64.ofNat (leNat (← take 8))

/-- `copy_from_slice` into a hash; slices of 32 bytes are all it is used on. -/
def hashOf (bytes : List UInt8) : Hash32 :=
  ⟨(bytes ++ List.replicate 32 0).take 32, by simp⟩

def hash : Cursor Hash32 := do return hashOf (← take 32)

/-- `for _ in 0..n`. -/
def many {α : Type} (x : Cursor α) : Nat → Cursor (List α)
  | 0 => pure []
  | n + 1 => do
    let a ← x
    let rest ← many x n
    return a :: rest

theorem bind_eq_ok {α β : Type} {x : Cursor α} {f : α → Cursor β} {buf : List UInt8} {p p' : Nat}
    {b : β} (h : (x >>= f) buf p = .ok (b, p')) :
    ∃ a q, x buf p = .ok (a, q) ∧ f a buf q = .ok (b, p') := by
  have heq : (x >>= f) buf p = match x buf p with
      | .error e => Except.error e
      | .ok (a, q) => f a buf q := rfl
  rw [heq] at h
  cases hx : x buf p with
  | error e => simp [hx] at h
  | ok r =>
      obtain ⟨a, q⟩ := r
      simp only [hx] at h
      exact ⟨a, q, rfl, h⟩

theorem pure_eq_ok {α : Type} {a b : α} {buf : List UInt8} {p p' : Nat}
    (h : (pure a : Cursor α) buf p = .ok (b, p')) : a = b ∧ p = p' := by
  change Except.ok (a, p) = .ok (b, p') at h
  simpa using h

theorem length_many {α : Type} {x : Cursor α} {n : Nat} {buf : List UInt8} {p p' : Nat}
    {as : List α} (h : many x n buf p = .ok (as, p')) : as.length = n := by
  induction n generalizing p as p' with
  | zero =>
      obtain ⟨rfl, -⟩ := pure_eq_ok h
      rfl
  | succ n ih =>
      obtain ⟨a, q, -, h⟩ := bind_eq_ok h
      obtain ⟨rest, q', hrest, h⟩ := bind_eq_ok h
      obtain ⟨rfl, -⟩ := pure_eq_ok h
      rw [List.length_cons, ih hrest]

end Cursor

/-! ## Parsing -/

/-- `swap_u64_groups`. -/
def swapU64Groups (h : Hash32) : Hash32 :=
  Cursor.hashOf ((List.range 4).flatMap (fun g => ((h.bytes.drop (8 * g)).take 8).reverse))

def isBookendHash (h : Hash32) : Bool := h.bytes.all (fun b => b == 0xff)

/-- The allocation guard: as many entries as declared must fit. -/
def guardEntries (numEntries : UInt32) : Cursor Unit := do
  let remaining ← Cursor.remaining
  if numEntries.toNat > remaining / entrySize then
    let pos ← Cursor.pos
    Cursor.fail (.truncated pos (numEntries.toNat * entrySize - remaining))
  else return ()

def fileTermEntry : Cursor FileTermEntry := do
  let xorb ← Cursor.hash
  let casFlags ← Cursor.u32
  let unpackedSegmentBytes ← Cursor.u32
  let chunkIdxStart ← Cursor.u32
  let chunkIdxEnd ← Cursor.u32
  return ⟨xorb, casFlags, unpackedSegmentBytes, chunkIdxStart, chunkIdxEnd⟩

def verificationEntry : Cursor Hash32 := do
  let rangeHash ← Cursor.hash
  Cursor.skip 16
  return rangeHash

/-- One file of the file-info section; `none` is the bookend. -/
def parseFile : Cursor (Option ParsedFile) := do
  let fileHash ← Cursor.hash
  let fileFlags ← Cursor.u32
  let numEntries ← Cursor.u32
  Cursor.skip 8
  if isBookendHash fileHash then return none
  else
    guardEntries numEntries
    let entries ← Cursor.many fileTermEntry numEntries.toNat
    let verifications ← (if fileFlags &&& flagWithVerification ≠ 0 then do
        guardEntries numEntries
        Cursor.many verificationEntry numEntries.toNat
      else return [])
    let sha256 ← (if fileFlags &&& flagWithMetadataExt ≠ 0 then do
        let h ← Cursor.hash
        Cursor.skip 16
        return some (swapU64Groups h)
      else return none)
    return some ⟨fileHash, fileFlags, entries, verifications, sha256⟩

def casChunkEntry : Cursor CasChunkEntry := do
  let chunkHash ← Cursor.hash
  let byteStart ← Cursor.u32
  let unpackedSegmentBytes ← Cursor.u32
  Cursor.skip 8
  return ⟨chunkHash, byteStart, unpackedSegmentBytes⟩

/-- One block of the CAS-info section; `none` is the bookend. -/
def parseCasBlock : Cursor (Option ParsedCasBlock) := do
  let casHash ← Cursor.hash
  let casFlags ← Cursor.u32
  let numEntries ← Cursor.u32
  let numBytesInCas ← Cursor.u32
  let numBytesOnDisk ← Cursor.u32
  if isBookendHash casHash then return none
  else
    guardEntries numEntries
    let chunks ← Cursor.many casChunkEntry numEntries.toNat
    return some ⟨casHash, casFlags, numBytesInCas, numBytesOnDisk, chunks⟩

/-- A section: items up to the bookend. Every item takes an entry at least, so a section has fewer
    items than the buffer has bytes. -/
def parseSection {α : Type} (item : Cursor (Option α)) : Nat → Cursor (List α)
  | 0 => do Cursor.fail (.truncated (← Cursor.pos) entrySize)
  | rounds + 1 => do
    match ← item with
    | none => return []
    | some a => do
      let rest ← parseSection item rounds
      return a :: rest

def parseFooter (len : Nat) : Cursor ShardFooter := do
  let version ← Cursor.u64
  if version ≠ mdbShardFooterVersion then Cursor.fail (.badFooterVersion version)
  else
    let fileInfoOffset ← Cursor.u64
    let casInfoOffset ← Cursor.u64
    Cursor.skip 48
    let hmacKey ← Cursor.hash
    let shardCreationTimestamp ← Cursor.u64
    let shardKeyExpiry ← Cursor.u64
    Cursor.skip 72
    let footerOffset ← Cursor.u64
    if footerOffset.toNat > len then Cursor.fail (.badFooterOffset footerOffset len)
    else
      return ⟨version, fileInfoOffset, casInfoOffset, hmacKey, shardCreationTimestamp,
        shardKeyExpiry, footerOffset⟩

def parseShard (len : Nat) : Cursor ParsedShard := do
  let tag ← Cursor.take 32
  let version ← Cursor.u64
  if version ≠ mdbShardHeaderVersion then Cursor.fail (.badHeaderVersion version)
  else
    let size ← Cursor.u64
    let files ← parseSection parseFile len
    let casBlocks ← parseSection parseCasBlock len
    let footer ← (if size = footerSize then do return some (← parseFooter len) else return none)
    return ⟨⟨tag, version, size⟩, files, casBlocks, footer⟩

/-- `parse`. -/
def parse (bytes : List UInt8) : Except ShardError ParsedShard :=
  if bytes.length > maxShardBytes then .error (.tooLarge bytes.length)
  else (parseShard bytes.length bytes 0).map Prod.fst

/-! ## Terms of a parsed file -/

theorem guardEntries_ok {n : UInt32} {buf : List UInt8} {p p' : Nat}
    (h : guardEntries n buf p = .ok ((), p')) : n.toNat * entrySize ≤ buf.length := by
  obtain ⟨remaining, q, hr, h⟩ := Cursor.bind_eq_ok h
  have hrem : buf.length - p = remaining := by
    unfold Cursor.remaining at hr
    exact (Prod.mk.inj (Except.ok.inj hr)).1
  split_ifs at h with hlarge
  · obtain ⟨pos, q', -, h⟩ := Cursor.bind_eq_ok h
    simp [Cursor.fail] at h
  · have hle : n.toNat * entrySize ≤ remaining :=
      (Nat.le_div_iff_mul_le (by decide)).1 (Nat.le_of_not_lt hlarge)
    omega

theorem parseFile_entries {buf : List UInt8} {p p' : Nat} {f : ParsedFile}
    (h : parseFile buf p = .ok (some f, p')) : f.entries.length * entrySize ≤ buf.length := by
  obtain ⟨fileHash, q₁, -, h⟩ := Cursor.bind_eq_ok h
  obtain ⟨fileFlags, q₂, -, h⟩ := Cursor.bind_eq_ok h
  obtain ⟨numEntries, q₃, -, h⟩ := Cursor.bind_eq_ok h
  obtain ⟨_, q₄, -, h⟩ := Cursor.bind_eq_ok h
  by_cases hend : isBookendHash fileHash = true
  · rw [if_pos hend] at h
    obtain ⟨hnone, -⟩ := Cursor.pure_eq_ok h
    simp at hnone
  · rw [if_neg hend] at h
    obtain ⟨_, q₅, hguard, h⟩ := Cursor.bind_eq_ok h
    obtain ⟨entries, q₆, hentries, h⟩ := Cursor.bind_eq_ok h
    obtain ⟨verifications, q₇, -, h⟩ := Cursor.bind_eq_ok h
    obtain ⟨sha256, q₈, -, h⟩ := Cursor.bind_eq_ok h
    obtain ⟨hsome, -⟩ := Cursor.pure_eq_ok h
    rw [Option.some.injEq] at hsome
    subst hsome
    rw [Cursor.length_many hentries]
    exact guardEntries_ok hguard

/-- What holds of every item holds of a section. -/
theorem parseSection_forall {α : Type} {item : Cursor (Option α)} {P : α → Prop} {buf : List UInt8}
    (hitem : ∀ p p' a, item buf p = .ok (some a, p') → P a) {rounds p p' : Nat} {as : List α}
    (h : parseSection item rounds buf p = .ok (as, p')) : ∀ a ∈ as, P a := by
  induction rounds generalizing p as p' with
  | zero =>
      obtain ⟨q, q', -, h⟩ := Cursor.bind_eq_ok h
      simp [Cursor.fail] at h
  | succ rounds ih =>
      obtain ⟨found, q, hfound, h⟩ := Cursor.bind_eq_ok h
      cases found with
      | none =>
          obtain ⟨rfl, -⟩ := Cursor.pure_eq_ok h
          simp
      | some a =>
          obtain ⟨rest, q', hrest, h⟩ := Cursor.bind_eq_ok h
          obtain ⟨rfl, -⟩ := Cursor.pure_eq_ok h
          intro x hx
          rcases List.mem_cons.1 hx with rfl | hx
          · exact hitem p q x hfound
          · exact ih hrest x hx

/-- What is parsed is what its two sections hold. -/
theorem parse_sections {bytes : List UInt8} {shard : ParsedShard} (h : parse bytes = .ok shard) :
    bytes.length ≤ maxShardBytes ∧ ∃ p q r,
      parseSection parseFile bytes.length bytes p = .ok (shard.files, q) ∧
      parseSection parseCasBlock bytes.length bytes q = .ok (shard.casBlocks, r) := by
  unfold parse at h
  split_ifs at h with hlarge
  refine ⟨Nat.le_of_not_lt hlarge, ?_⟩
  cases hp : parseShard bytes.length bytes 0 with
  | error e => simp [hp, Except.map] at h
  | ok r =>
      obtain ⟨got, p'⟩ := r
      simp only [hp, Except.map, Except.ok.injEq] at h
      subst h
      obtain ⟨tag, q₁, -, hp⟩ := Cursor.bind_eq_ok hp
      obtain ⟨version, q₂, -, hp⟩ := Cursor.bind_eq_ok hp
      split_ifs at hp
      · simp [Cursor.fail] at hp
      · obtain ⟨size, q₃, -, hp⟩ := Cursor.bind_eq_ok hp
        obtain ⟨files, q₄, hfiles, hp⟩ := Cursor.bind_eq_ok hp
        obtain ⟨casBlocks, q₅, hblocks, hp⟩ := Cursor.bind_eq_ok hp
        obtain ⟨footer, q₆, -, hp⟩ := Cursor.bind_eq_ok hp
        obtain ⟨rfl, -⟩ := Cursor.pure_eq_ok hp
        exact ⟨q₃, q₄, q₅, hfiles, hblocks⟩

/-- **A parsed file has no more terms than entries fit into a shard.** -/
theorem parse_entries {bytes : List UInt8} {shard : ParsedShard} (h : parse bytes = .ok shard) :
    ∀ f ∈ shard.files, f.entries.length * entrySize ≤ maxShardBytes := by
  obtain ⟨hsize, p, q, r, hfiles, -⟩ := parse_sections h
  intro f hf
  have hlen := parseSection_forall (fun p p' f hf => parseFile_entries hf) hfiles f hf
  exact Nat.le_trans hlen hsize

theorem parseCasBlock_chunks {buf : List UInt8} {p p' : Nat} {cb : ParsedCasBlock}
    (h : parseCasBlock buf p = .ok (some cb, p')) : cb.chunks.length < 4294967296 := by
  obtain ⟨casHash, q₁, -, h⟩ := Cursor.bind_eq_ok h
  obtain ⟨casFlags, q₂, -, h⟩ := Cursor.bind_eq_ok h
  obtain ⟨numEntries, q₃, -, h⟩ := Cursor.bind_eq_ok h
  obtain ⟨numBytesInCas, q₄, -, h⟩ := Cursor.bind_eq_ok h
  obtain ⟨numBytesOnDisk, q₅, -, h⟩ := Cursor.bind_eq_ok h
  by_cases hend : isBookendHash casHash = true
  · rw [if_pos hend] at h
    obtain ⟨hnone, -⟩ := Cursor.pure_eq_ok h
    simp at hnone
  · rw [if_neg hend] at h
    obtain ⟨_, q₆, -, h⟩ := Cursor.bind_eq_ok h
    obtain ⟨chunks, q₇, hchunks, h⟩ := Cursor.bind_eq_ok h
    obtain ⟨hsome, -⟩ := Cursor.pure_eq_ok h
    rw [Option.some.injEq] at hsome
    subst hsome
    rw [Cursor.length_many hchunks]
    exact numEntries.toNat_lt

/-- **The chunks of a parsed block can be counted in 32 bits.** -/
theorem parse_chunks {bytes : List UInt8} {shard : ParsedShard} (h : parse bytes = .ok shard) :
    ∀ cb ∈ shard.casBlocks, cb.chunks.length < 4294967296 := by
  obtain ⟨-, p, q, r, -, hblocks⟩ := parse_sections h
  exact parseSection_forall (fun p p' cb hcb => parseCasBlock_chunks hcb) hblocks

end BaleForGit.Server
