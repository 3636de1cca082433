import Mathlib.Data.Finset.Basic
import BaleForGit.Pointer

set_option autoImplicit false

/-! # The clean cache (`clean_cache.rs`)

One entry for each path, verified by size and chunk fingerprints before its pointer is handed out
again. Entries are kept under the hash of the pathname, `Key`; the fingerprint is xxh3-64, the
parameter `chunkHash`. The arithmetic on chunk bounds is 64-bit and wraps, as in a release build,
and an out-of-order slice panics, which is `none`. -/

namespace BaleForGit

/-- A fingerprinted range `[start..end]` of the file. -/
structure Chunk where
  start : UInt64
  stop : UInt64
  hash : String
deriving DecidableEq, Repr

/-- `pointer` is the pointer JSON, returned verbatim on a hit. -/
structure CacheEntry where
  v : Nat
  size : Nat
  chunks : List Chunk
  pointer : String
deriving DecidableEq, Repr

/-- `CURRENT_VERSION`. -/
def currentVersion : Nat := 3

/-- `CHUNK_SIZE`. -/
def chunkSize : Nat := 1 <<< 20

/-! ## Fingerprints -/

/-- `format!("{:016x}", n)`. -/
def hex16 (n : UInt64) : String :=
  let digits := Nat.toDigits 16 n.toNat
  String.ofList (List.replicate (16 - digits.length) '0' ++ digits)

/-- Value of a hexadecimal digit, either case. -/
def hexDigit (c : Char) : Option Nat :=
  if '0' ≤ c ∧ c ≤ '9' then some (c.toNat - 48)
  else if 'a' ≤ c ∧ c ≤ 'f' then some (c.toNat - 87)
  else if 'A' ≤ c ∧ c ≤ 'F' then some (c.toNat - 55)
  else none

/-- `u64::from_str_radix(s, 16)`: an optional `+`, then at least one digit, below `2 ^ 64`. -/
def fromStrRadix16 (s : String) : Option UInt64 :=
  let digits := match s.toList with
    | '+' :: rest => rest
    | all => all
  if digits.isEmpty then none
  else
    let value := digits.foldl (fun acc c =>
      acc.bind (fun n => (hexDigit c).map (fun d => n * 16 + d))) (some 0)
    value.bind (fun n => if n < UInt64.size then some (UInt64.ofNat n) else none)

section Chunks

variable (chunkHash : List UInt8 → UInt64)

/-- The loop of `compute_chunks_from_slice` and of `compute_chunks`, from position `pos`. -/
def chunksFrom (bytes : List UInt8) : Nat → Nat → List Chunk
  | 0, _ => []
  | fuel + 1, pos =>
    if pos < bytes.length then
      let stop := min (pos + chunkSize) bytes.length
      ⟨UInt64.ofNat pos, UInt64.ofNat stop, hex16 (chunkHash ((bytes.take stop).drop pos))⟩ ::
        chunksFrom bytes fuel stop
    else []

/-- `compute_chunks_from_slice`: every round consumes at least one byte. -/
def computeChunks (bytes : List UInt8) : List Chunk :=
  match chunksFrom chunkHash bytes bytes.length 0 with
  | [] => [⟨0, 0, hex16 (chunkHash [])⟩]
  | chunks => chunks

/-- Bytes the chunks claim to cover. -/
def covered (cached : List Chunk) : UInt64 :=
  cached.foldl (fun acc c => acc + (c.stop - c.start)) 0

/-- The loop of `verify_chunks_in_memory`. -/
def verifyEach (bytes : List UInt8) : List Chunk → Option Bool
  | [] => some true
  | c :: rest =>
    match fromStrRadix16 c.hash with
    | none => some false
    | some expected =>
      if c.hash.utf8ByteSize ≠ 16 then some false
      else if c.stop.toNat > bytes.length then some false
      else if c.start > c.stop then none
      else if chunkHash ((bytes.take c.stop.toNat).drop c.start.toNat) ≠ expected then some false
      else verifyEach bytes rest

/-- `verify_chunks_in_memory`. -/
def verifyChunksInMemory (cached : List Chunk) (bytes : List UInt8) : Option Bool :=
  if cached.isEmpty then some false
  else if covered cached ≠ UInt64.ofNat bytes.length then some false
  else verifyEach chunkHash bytes cached

end Chunks

/-! ## Entries on disk -/

/-- The entry files of a git dir, by key. -/
abbrev CleanCache (Key : Type) := Key → Option CacheEntry

namespace CleanCache

variable {Key : Type}

def empty : CleanCache Key := fun _ => none

/-- `load`: entries of another version are invisible. -/
def load (cache : CleanCache Key) (key : Key) : Option CacheEntry :=
  match cache key with
  | none => none
  | some entry => if entry.v ≠ currentVersion then none else some entry

def save [DecidableEq Key] (cache : CleanCache Key) (key : Key) (entry : CacheEntry) :
    CleanCache Key :=
  fun k => if k = key then some entry else cache k

/-- The file hash that `forget_hashes` reads off an entry. -/
def forgets (serde : Serde) (hashes : Finset String) (entry : CacheEntry) : Bool :=
  match serde.hashField entry.pointer with
  | none => false
  | some h => decide (h ∈ hashes)

/-- `forget_hashes`: drop the entries whose pointer names one of `hashes`. -/
def forgetHashes (serde : Serde) (cache : CleanCache Key) (hashes : Finset String) :
    CleanCache Key :=
  if hashes = ∅ then cache
  else fun k => (cache k).filter (fun entry => !forgets serde hashes entry)

theorem load_eq_some {cache : CleanCache Key} {key : Key} {entry : CacheEntry}
    (h : cache.load key = some entry) : cache key = some entry := by
  unfold load at h
  cases hc : cache key with
  | none => rw [hc] at h; exact absurd h (by simp)
  | some e =>
      rw [hc] at h
      simp only at h
      split_ifs at h
      exact h

theorem save_eq_some [DecidableEq Key] {cache : CleanCache Key} {key k : Key}
    {entry e : CacheEntry} (h : cache.save key entry k = some e) :
    e = entry ∨ cache k = some e := by
  unfold save at h
  split_ifs at h
  · exact Or.inl (Option.some.inj h).symm
  · exact Or.inr h

/-- What is left after forgetting was there before and names none of the hashes. -/
theorem forgetHashes_eq_some {serde : Serde} {cache : CleanCache Key} {hashes : Finset String}
    {k : Key} {e : CacheEntry} (h : cache.forgetHashes serde hashes k = some e) :
    cache k = some e ∧ ∀ h', serde.hashField e.pointer = some h' → h' ∉ hashes := by
  unfold forgetHashes at h
  split_ifs at h with hempty
  · exact ⟨h, fun h' _ => hempty ▸ Finset.notMem_empty h'⟩
  · rw [Option.filter_eq_some_iff] at h
    refine ⟨h.1, fun h' hf hmem => ?_⟩
    have hno := h.2
    simp [forgets, hf, hmem] at hno

end CleanCache

end BaleForGit
