import Mathlib.Algebra.Ring.Nat
import Mathlib.Data.List.Basic

set_option autoImplicit false

/-! # Server types (`bale-server-core`)

The domain types of the CAS server: hashes, repositories, file terms, xorb frames, and the errors of
the stores and of the HTTP layer. -/

namespace BaleForGit.Server

/-- `Hash32`; the newtypes over it only tell what is hashed. -/
structure Hash32 where
  bytes : List UInt8
  length_eq : bytes.length = 32
deriving DecidableEq

abbrev ChunkHash := Hash32
abbrev XorbHash := Hash32
abbrev FileHash := Hash32
abbrev ShardHash := Hash32

inductive RepoType where
  | model
  | dataset
  | space
deriving DecidableEq, Repr

structure RepoRef where
  repoType : RepoType
  repoId : String
  revision : String
deriving DecidableEq, Repr

/-- `RepoRef::owner`: what stands before the first `/`, or all of `repo_id`. -/
def RepoRef.owner (repo : RepoRef) : String :=
  String.ofList (repo.repoId.toList.takeWhile (fun c => c ≠ '/'))

/-- One term of a file: a range of chunks of a xorb. -/
structure FileTerm where
  xorb : XorbHash
  chunkIdxStart : UInt32
  chunkIdxEnd : UInt32
  unpackedSegmentBytes : UInt32
  verification : Option Hash32
deriving DecidableEq

/-- One chunk of a xorb, as a shard declares it. -/
structure ChunkRow where
  chunkHash : ChunkHash
  chunkIndex : UInt32
  byteStart : UInt32
  unpackedSegmentBytes : UInt32
deriving DecidableEq

structure XorbInfo where
  xorb : XorbHash
  numChunks : UInt32
  numBytesInCas : UInt32
  numBytesOnDisk : UInt32
deriving DecidableEq

/-- Where a frame lies in the stored body of its xorb. -/
structure XorbFrameRow where
  frameIndex : UInt32
  onDiskStart : UInt32
  onDiskLen : UInt32
  uncompressedLen : UInt32
deriving DecidableEq

/-! ## Errors -/

inductive CoreError where
  | notFound
  | conflict (message : String)
  | badRequest (message : String)
  | unauthorized
  | forbidden
  | internal (message : String)
deriving DecidableEq, Repr

abbrev CoreResult (α : Type) := Except CoreError α

/-- HTTP status and message. -/
structure ApiError where
  status : Nat
  message : String
deriving DecidableEq, Repr

/-- `impl From<CoreError> for ApiError`. -/
def ApiError.ofCore : CoreError → ApiError
  | .notFound => ⟨404, "not found"⟩
  | .badRequest m => ⟨400, m⟩
  | .conflict m => ⟨409, m⟩
  | .unauthorized => ⟨401, "unauthorized"⟩
  | .forbidden => ⟨403, "forbidden"⟩
  | .internal m => ⟨500, m⟩

def badReq (message : String) : ApiError := ⟨400, message⟩

/-! ## Machine integers -/

/-- `n as i64`, for `n : u64`. -/
def asI64 (n : Nat) : Int := Int.bmod n 18446744073709551616

/-- `u64::saturating_add`. -/
def saturatingAdd (a b : Nat) : Nat := min (a + b) 18446744073709551615

/-- Adding up `u32` values that fit loses nothing. -/
theorem toNat_foldl_add (l : List UInt32) (acc : UInt32)
    (h : acc.toNat + (l.map UInt32.toNat).sum < 4294967296) :
    (l.foldl (· + ·) acc).toNat = acc.toNat + (l.map UInt32.toNat).sum := by
  induction l generalizing acc with
  | nil => rfl
  | cons n l ih =>
      simp only [List.map_cons, List.sum_cons] at h ⊢
      have hadd : (acc + n).toNat = acc.toNat + n.toNat := by
        rw [UInt32.toNat_add, Nat.mod_eq_of_lt]
        omega
      rw [List.foldl_cons, ih (acc + n) (by omega), hadd]
      omega

theorem asI64_of_lt {n : Nat} (h : n < 9223372036854775808) : asI64 n = n := by
  unfold asI64
  rw [Int.bmod_eq_of_le] <;> omega

/-! ## Samples -/

namespace Sample

/-- The hash of one repeated byte. -/
def hash32 (b : UInt8) : Hash32 := ⟨List.replicate 32 b, List.length_replicate ..⟩

def repo : RepoRef := ⟨.model, "alice/data", "main"⟩

/-- The first chunk of the xorb `hash32 x`, of `n` bytes. -/
def term (x : UInt8) (n : UInt32) : FileTerm := ⟨hash32 x, 0, 1, n, none⟩

end Sample

end BaleForGit.Server
