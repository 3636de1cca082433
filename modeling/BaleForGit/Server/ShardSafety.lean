import Mathlib.Data.List.GetD
import BaleForGit.Server.ShardCodec

set_option autoImplicit false

/-! # Parsing hostile shards

`parse` reads bytes that anyone may upload. Here it is written once more with every operation that
could go wrong made visible: slices and indexes out of bounds, 64-bit subtractions and additions
that leave their range, a preallocation for more entries than are left in the buffer, and a section
loop that has not ended after as many rounds as the buffer has bytes. Each of them is a `Fault`, an
outcome apart from the errors that `parse` returns.

`Refines` says that a checked reader has no fault wherever the cursor stands, and is the reader of
the plain model; readers that refine compose (`Refines.bind`), so `parseChecked` is `parse`. -/

namespace BaleForGit.Server

inductive Fault where
  | slice
  | index
  | underflow
  | overflow
  | allocation
  | rounds
deriving DecidableEq, Repr

inductive Outcome (α : Type) where
  | done (r : α)
  | fault (f : Fault)

/-- A read that may have a fault. -/
def Checked (α : Type) : Type := List UInt8 → Nat → Outcome (Except ShardError (α × Nat))

instance : Monad Checked where
  pure a := fun _ pos => .done (.ok (a, pos))
  bind x f := fun buf pos =>
    match x buf pos with
    | .fault e => .fault e
    | .done (.error e) => .done (.error e)
    | .done (.ok (a, pos')) => f a buf pos'

/-! ## Operations that are checked -/

namespace Checked

def fault {α : Type} (e : Fault) : Checked α := fun _ _ => .fault e

def fail {α : Type} (e : ShardError) : Checked α := fun _ _ => .done (.error e)

def pos : Checked Nat := fun _ p => .done (.ok (p, p))

def len : Checked Nat := fun buf p => .done (.ok (buf.length, p))

/-- `usize::MAX`. -/
def usizeMax : Nat := 18446744073709551615

/-- `a - b`, of `usize`. -/
def sub (a b : Nat) : Checked Nat := if b ≤ a then pure (a - b) else fault .underflow

/-- `a + b`, of `usize`. -/
def add (a b : Nat) : Checked Nat := if a + b ≤ usizeMax then pure (a + b) else fault .overflow

/-- `usize::saturating_mul`. -/
def saturatingMul (a b : Nat) : Nat := min (a * b) usizeMax

/-- `remaining`: `saturating_sub`. -/
def remaining : Checked Nat := do return (← len) - (← pos)

/-- `&self.buf[start..stop]`. -/
def slice (start stop : Nat) : Checked (List UInt8) := fun buf p =>
  if start ≤ stop ∧ stop ≤ buf.length then .done (.ok ((buf.take stop).drop start, p))
  else .fault .slice

/-- `self.pos += n`, to `p`. -/
def seek (p : Nat) : Checked Unit := fun _ _ => .done (.ok ((), p))

/-- `s[i]`, for each index of a list. -/
def indexes (s : List UInt8) : List Nat → Checked (List UInt8)
  | [] => pure []
  | i :: is => do
    let b ← (if h : i < s.length then pure (s.get ⟨i, h⟩) else fault .index)
    let bs ← indexes s is
    return b :: bs

/-- `need`. -/
def need (n : Nat) : Checked Unit := do
  let left ← remaining
  if left < n then
    let p ← pos
    let rest ← sub (← len) p
    fail (.truncated p (← sub n rest))
  else return ()

/-- `take`. -/
def take (n : Nat) : Checked (List UInt8) := do
  need n
  let start ← pos
  let s ← slice start (← add start n)
  seek (← add start n)
  return s

def skip (n : Nat) : Checked Unit := do
  let _ ← take n
  return ()

def u32 : Checked UInt32 := do
  let s ← take 4
  return UInt32.ofNat (Cursor.leNat (← indexes s [0, 1, 2, 3]))

def u64 : Checked UInt64 := do
  let s ← take 8
  return UInt64.ofNat (Cursor.leNat (← indexes s [0, 1, 2, 3, 4, 5, 6, 7]))

/-- `copy_from_slice` into an array of 32 bytes. -/
def copyFromSlice (s : List UInt8) : Checked (List UInt8) :=
  if s.length = 32 then pure s else fault .slice

def hash : Checked Hash32 := do
  let s ← take 32
  let out ← copyFromSlice s
  return Cursor.hashOf out

def many {α : Type} (x : Checked α) : Nat → Checked (List α)
  | 0 => pure []
  | n + 1 => do
    let a ← x
    let rest ← many x n
    return a :: rest

/-- `Vec::with_capacity(n)` and `reserve(n)`: no more entries than are left in the buffer. -/
def withCapacity (n : Nat) : Checked Unit := do
  if n ≤ (← remaining) / entrySize then return () else fault .allocation

/-- The truncation error of the allocation guards. -/
def failGuard (numEntries : UInt32) : Checked Unit := do
  let p ← pos
  fail (.truncated p (← sub (saturatingMul numEntries.toNat entrySize) (← remaining)))

/-- The guard of the file-info section, in `u32`, and the allocation. -/
def guardFile (numEntries : UInt32) : Checked Unit := do
  let maxEntries := UInt32.ofNat ((← remaining) / entrySize)
  if numEntries > maxEntries then failGuard numEntries else withCapacity numEntries.toNat

/-- The guard of the verifications and of the CAS-info section, in `usize`, and the allocation. -/
def guardEntries (numEntries : UInt32) : Checked Unit := do
  if numEntries.toNat > (← remaining) / entrySize then failGuard numEntries
  else withCapacity numEntries.toNat

/-- `swap_u64_groups`: `out[group * 8 + i] = input[group * 8 + (7 - i)]`. -/
def swapU64Groups (h : Hash32) : Checked Hash32 := do
  let out ← indexes h.bytes ((List.range 4).flatMap (fun g =>
    (List.range 8).map (fun i => g * 8 + (7 - i))))
  return Cursor.hashOf out

end Checked

/-! ## The parser, checked -/

namespace Checked

def fileTermEntry : Checked FileTermEntry := do
  let xorb ← hash
  let casFlags ← u32
  let unpackedSegmentBytes ← u32
  let chunkIdxStart ← u32
  let chunkIdxEnd ← u32
  return ⟨xorb, casFlags, unpackedSegmentBytes, chunkIdxStart, chunkIdxEnd⟩

def verificationEntry : Checked Hash32 := do
  let rangeHash ← hash
  skip 16
  return rangeHash

def parseFile : Checked (Option ParsedFile) := do
  let fileHash ← hash
  let fileFlags ← u32
  let numEntries ← u32
  skip 8
  if isBookendHash fileHash then return none
  else
    guardFile numEntries
    let entries ← many fileTermEntry numEntries.toNat
    let verifications ← (if fileFlags &&& flagWithVerification ≠ 0 then do
        guardEntries numEntries
        many verificationEntry numEntries.toNat
      else return [])
    let sha256 ← (if fileFlags &&& flagWithMetadataExt ≠ 0 then do
        let h ← hash
        skip 16
        return some (← swapU64Groups h)
      else return none)
    return some ⟨fileHash, fileFlags, entries, verifications, sha256⟩

def casChunkEntry : Checked CasChunkEntry := do
  let chunkHash ← hash
  let byteStart ← u32
  let unpackedSegmentBytes ← u32
  skip 8
  return ⟨chunkHash, byteStart, unpackedSegmentBytes⟩

def parseCasBlock : Checked (Option ParsedCasBlock) := do
  let casHash ← hash
  let casFlags ← u32
  let numEntries ← u32
  let numBytesInCas ← u32
  let numBytesOnDisk ← u32
  if isBookendHash casHash then return none
  else
    guardEntries numEntries
    let chunks ← many casChunkEntry numEntries.toNat
    return some ⟨casHash, casFlags, numBytesInCas, numBytesOnDisk, chunks⟩

/-- The section loop: it has `rounds` rounds to end in. -/
def parseSection {α : Type} (item : Checked (Option α)) : Nat → Checked (List α)
  | 0 => fault .rounds
  | rounds + 1 => do
    match ← item with
    | none => return []
    | some a => do
      let rest ← parseSection item rounds
      return a :: rest

def parseFooter (length : Nat) : Checked ShardFooter := do
  let version ← u64
  if version ≠ mdbShardFooterVersion then fail (.badFooterVersion version)
  else
    let fileInfoOffset ← u64
    let casInfoOffset ← u64
    skip 48
    let hmacKey ← hash
    let shardCreationTimestamp ← u64
    let shardKeyExpiry ← u64
    skip 72
    let footerOffset ← u64
    if footerOffset.toNat > length then fail (.badFooterOffset footerOffset length)
    else
      return ⟨version, fileInfoOffset, casInfoOffset, hmacKey, shardCreationTimestamp,
        shardKeyExpiry, footerOffset⟩

def parseShard (length : Nat) : Checked ParsedShard := do
  let tag ← take 32
  let tag ← copyFromSlice tag
  let version ← u64
  if version ≠ mdbShardHeaderVersion then fail (.badHeaderVersion version)
  else
    let size ← u64
    let files ← parseSection parseFile length
    let casBlocks ← parseSection parseCasBlock length
    let footer ← (if size = footerSize then do return some (← parseFooter length)
      else return none)
    return ⟨⟨tag, version, size⟩, files, casBlocks, footer⟩

end Checked

/-- `parse`, with its faults. -/
def parseChecked (bytes : List UInt8) : Outcome (Except ShardError ParsedShard) :=
  if bytes.length > maxShardBytes then .done (.error (.tooLarge bytes.length))
  else match Checked.parseShard bytes.length bytes 0 with
    | .fault f => .fault f
    | .done r => .done (r.map Prod.fst)

/-! ## Refinement -/

/-- From any position at least `lo` in a buffer of a shard's size, `x` has no fault and is `c`, which
    moves forward within the buffer. -/
def Refines {α : Type} (buf : List UInt8) (lo : Nat) (x : Checked α) (c : Cursor α) : Prop :=
  buf.length ≤ maxShardBytes → ∀ p, lo ≤ p → p ≤ buf.length →
    x buf p = .done (c buf p) ∧ ∀ a q, c buf p = .ok (a, q) → p ≤ q ∧ q ≤ buf.length

theorem Checked.bind_done {α β : Type} {x : Checked α} {f : α → Checked β} {buf : List UInt8}
    {p q : Nat} {a : α} (h : x buf p = .done (.ok (a, q))) : (x >>= f) buf p = f a buf q := by
  simp only [bind, h]

theorem Checked.bind_error {α β : Type} {x : Checked α} {f : α → Checked β} {buf : List UInt8}
    {p : Nat} {e : ShardError} (h : x buf p = .done (.error e)) :
    (x >>= f) buf p = Outcome.done (Except.error e) := by
  simp only [bind, h]

theorem Cursor.bind_error {α β : Type} {x : Cursor α} {f : α → Cursor β} {buf : List UInt8}
    {p : Nat} {e : ShardError} (h : x buf p = .error e) : (x >>= f) buf p = .error e := by
  simp only [bind, h]

namespace Refines

variable {α β : Type} {buf : List UInt8} {lo : Nat}

theorem pure (a : α) : Refines buf lo (Pure.pure a) (Pure.pure a) := by
  intro _ p _ hp
  refine ⟨rfl, fun b q h => ?_⟩
  obtain ⟨-, rfl⟩ := Cursor.pure_eq_ok h
  exact ⟨Nat.le_refl _, hp⟩

theorem fail (e : ShardError) : Refines buf lo (Checked.fail e : Checked α) (Cursor.fail e) :=
  fun _ _ _ _ => ⟨rfl, fun _ _ h => by simp [Cursor.fail] at h⟩

/-- The next reader starts where the first one stops, with what that one has read. -/
theorem bind_of {x : Checked α} {c : Cursor α} {f : α → Checked β} {g : α → Cursor β} {lo' : Nat}
    {P : α → Prop} (hx : Refines buf lo x c)
    (hpost : ∀ p a q, lo ≤ p → p ≤ buf.length → p ≤ q → c buf p = .ok (a, q) → lo' ≤ q ∧ P a)
    (hf : ∀ a, P a → Refines buf lo' (f a) (g a)) : Refines buf lo (x >>= f) (c >>= g) := by
  intro hmax p hp hle
  obtain ⟨heq, hstop⟩ := hx hmax p hp hle
  cases hc : c buf p with
  | error e =>
      rw [hc] at heq
      rw [Checked.bind_error heq, Cursor.bind_error hc]
      exact ⟨rfl, fun _ _ h => by simp at h⟩
  | ok r =>
      obtain ⟨a, q⟩ := r
      rw [hc] at heq
      obtain ⟨hpq, hq⟩ := hstop a q hc
      rw [Checked.bind_done heq, Cursor.bind_ok hc]
      obtain ⟨hlo, ha⟩ := hpost p a q hp hle hpq hc
      obtain ⟨heq', hstop'⟩ := hf a ha hmax q hlo hq
      refine ⟨heq', fun b r h => ?_⟩
      obtain ⟨hqr, hr⟩ := hstop' b r h
      exact ⟨Nat.le_trans hpq hqr, hr⟩

theorem bind {x : Checked α} {c : Cursor α} {f : α → Checked β} {g : α → Cursor β}
    (hx : Refines buf lo x c) (hf : ∀ a, Refines buf lo (f a) (g a)) : Refines buf lo (x >>= f) (c >>= g) :=
  hx.bind_of (P := fun _ => True) (fun _ _ _ hlo _ hpq _ => ⟨Nat.le_trans hlo hpq, trivial⟩)
    (fun a _ => hf a)

theorem ite {c : Prop} [Decidable c] {x y : Checked α} {x' y' : Cursor α}
    (hx : c → Refines buf lo x x') (hy : ¬ c → Refines buf lo y y') :
    Refines buf lo (if c then x else y) (if c then x' else y') := by
  by_cases hc : c
  · simpa only [if_pos hc] using hx hc
  · simpa only [if_neg hc] using hy hc

/-! ## Single reads -/

theorem take (n : Nat) (hn : n ≤ maxShardBytes) : Refines buf lo (Checked.take n) (Cursor.take n) := by
  intro hmax p _ hp
  unfold maxShardBytes at hmax hn
  have hrem : Checked.remaining buf p = .done (.ok (buf.length - p, p)) := rfl
  have hadd : Checked.add p n buf p = .done (.ok (p + n, p)) := by
    unfold Checked.add Checked.usizeMax
    rw [if_pos (by omega)]
    rfl
  by_cases hshort : buf.length - p < n
  · have hrest : Checked.sub buf.length p buf p = .done (.ok (buf.length - p, p)) := by
      unfold Checked.sub
      rw [if_pos hp]
      rfl
    have hneeded : Checked.sub n (buf.length - p) buf p =
        .done (.ok (n - (buf.length - p), p)) := by
      unfold Checked.sub
      rw [if_pos (Nat.le_of_lt hshort)]
      rfl
    have hneed : Checked.need n buf p =
        .done (.error (.truncated p (n - (buf.length - p)))) := by
      unfold Checked.need
      rw [Checked.bind_done hrem, if_pos hshort, Checked.bind_done (a := p) (q := p) rfl,
        Checked.bind_done (a := buf.length) (q := p) rfl, Checked.bind_done hrest,
        Checked.bind_done hneeded]
      rfl
    unfold Checked.take Cursor.take
    rw [Checked.bind_error hneed, if_pos hshort]
    exact ⟨rfl, fun _ _ h => by simp at h⟩
  · have hneed : Checked.need n buf p = .done (.ok ((), p)) := by
      unfold Checked.need
      rw [Checked.bind_done hrem, if_neg hshort]
      rfl
    have hslice : Checked.slice p (p + n) buf p = .done (.ok ((buf.drop p).take n, p)) := by
      unfold Checked.slice
      rw [if_pos ⟨Nat.le_add_right _ _, by omega⟩, List.drop_take, Nat.add_sub_cancel_left]
    unfold Checked.take Cursor.take
    rw [Checked.bind_done hneed, Checked.bind_done (a := p) (q := p) rfl, Checked.bind_done hadd,
      Checked.bind_done hslice, Checked.bind_done hadd, if_neg hshort]
    refine ⟨rfl, fun a q h => ?_⟩
    rw [← (Prod.mk.inj (Except.ok.inj h)).2]
    omega

theorem bind_take {n : Nat} {f : List UInt8 → Checked β} {g : List UInt8 → Cursor β}
    (hn : n ≤ maxShardBytes) (hf : ∀ s, s.length = n → Refines buf (lo + n) (f s) (g s)) :
    Refines buf lo (Checked.take n >>= f) (Cursor.take n >>= g) := by
  refine bind_of (P := fun s => s.length = n) (take n hn) (fun p s q hlo _ _ h => ?_) hf
  unfold Cursor.take at h
  split_ifs at h with hshort
  obtain ⟨rfl, rfl⟩ := Prod.mk.inj (Except.ok.inj h)
  refine ⟨by omega, ?_⟩
  rw [List.length_take, List.length_drop]
  omega

theorem mono {lo' : Nat} {x : Checked α} {c : Cursor α} (h : Refines buf lo x c) (hlo : lo ≤ lo') :
    Refines buf lo' x c :=
  fun hmax p hp => h hmax p (Nat.le_trans hlo hp)

theorem skip {n : Nat} (hn : n ≤ maxShardBytes) :
    Refines buf lo (Checked.skip n) (Cursor.skip n) :=
  bind_take hn (fun _ _ => pure ())

theorem indexes_eq (s : List UInt8) (is : List Nat) (hin : ∀ i ∈ is, i < s.length) (p : Nat) :
    Checked.indexes s is buf p = .done (.ok (is.map (fun i => s.getD i 0), p)) := by
  induction is with
  | nil => rfl
  | cons i is ih =>
      have hi := hin i List.mem_cons_self
      have hrest := ih (fun j hj => hin j (List.mem_cons_of_mem i hj))
      unfold Checked.indexes
      rw [dif_pos hi, Checked.bind_done (a := s.get ⟨i, hi⟩) (q := p) rfl,
        Checked.bind_done hrest, List.map_cons, List.getD_eq_getElem s 0 hi]
      rfl

/-- Indexing that stays in bounds is a value. -/
theorem bind_indexes {s : List UInt8} {is : List Nat} {f : List UInt8 → Checked β} {c : Cursor β}
    (hin : ∀ i ∈ is, i < s.length) (hf : Refines buf lo (f (is.map (fun i => s.getD i 0))) c) :
    Refines buf lo (Checked.indexes s is >>= f) c := by
  intro hmax p hp hle
  rw [Checked.bind_done (indexes_eq s is hin p)]
  exact hf hmax p hp hle

theorem map_getD_range (s : List UInt8) : (List.range s.length).map (fun i => s.getD i 0) = s := by
  refine List.ext_getElem (by simp) (fun i hi _ => ?_)
  rw [List.length_map, List.length_range] at hi
  rw [List.getElem_map, List.getElem_range, List.getD_eq_getElem s 0 hi]

theorem u32 : Refines buf lo Checked.u32 Cursor.u32 := by
  refine bind_take (by decide) (fun s hs => bind_indexes ?_ ?_)
  · rw [hs]
    decide
  · have hall := map_getD_range s
    rw [hs] at hall
    rw [show [0, 1, 2, 3] = List.range 4 from rfl, hall]
    exact pure _

theorem u64 : Refines buf lo Checked.u64 Cursor.u64 := by
  refine bind_take (by decide) (fun s hs => bind_indexes ?_ ?_)
  · rw [hs]
    decide
  · have hall := map_getD_range s
    rw [hs] at hall
    rw [show [0, 1, 2, 3, 4, 5, 6, 7] = List.range 8 from rfl, hall]
    exact pure _

theorem bind_copy {s : List UInt8} {f : List UInt8 → Checked β} {c : Cursor β} (hs : s.length = 32)
    (hf : Refines buf lo (f s) c) : Refines buf lo (Checked.copyFromSlice s >>= f) c := by
  intro hmax p hp hle
  have hcopy : Checked.copyFromSlice s buf p = .done (.ok (s, p)) := by
    unfold Checked.copyFromSlice
    rw [if_pos hs]
    rfl
  rw [Checked.bind_done hcopy]
  exact hf hmax p hp hle

theorem hash : Refines buf lo Checked.hash Cursor.hash :=
  bind_take (by decide) (fun _ hs => bind_copy hs (pure _))

theorem many {x : Checked α} {c : Cursor α} (hx : Refines buf lo x c) (n : Nat) :
    Refines buf lo (Checked.many x n) (Cursor.many c n) := by
  induction n with
  | zero => exact pure []
  | succ n ih => exact hx.bind (fun a => ih.bind (fun rest => pure (a :: rest)))

/-- `input[group * 8 + (7 - i)]` for all `i` is the group backwards. -/
theorem group_reverse (s : List UInt8) {g : Nat} (hg : 8 * g + 8 ≤ s.length) :
    (List.range 8).map (fun i => s.getD (g * 8 + (7 - i)) 0) = ((s.drop (8 * g)).take 8).reverse := by
  refine List.ext_getElem ?_ (fun i hi _ => ?_)
  · simp only [List.length_map, List.length_range, List.length_reverse, List.length_take,
      List.length_drop]
    omega
  · rw [List.length_map, List.length_range] at hi
    rw [List.getElem_map, List.getElem_range, List.getElem_reverse, List.getElem_take,
      List.getElem_drop, List.getD_eq_getElem s 0 (by omega)]
    congr 1
    simp only [List.length_take, List.length_drop]
    omega

/-- `swap_u64_groups` stays within its arrays. -/
theorem bind_swap {h : Hash32} {f : Hash32 → Checked β} {c : Cursor β}
    (hf : Refines buf lo (f (Server.swapU64Groups h)) c) :
    Refines buf lo (Checked.swapU64Groups h >>= f) c := by
  have hlen := h.length_eq
  have hin : ∀ i ∈ (List.range 4).flatMap (fun g => (List.range 8).map (fun i => g * 8 + (7 - i))),
      i < h.bytes.length := by
    rw [hlen]
    decide
  have hvalue : ∀ p, Checked.swapU64Groups h buf p =
      .done (.ok (Server.swapU64Groups h, p)) := by
    intro p
    unfold Checked.swapU64Groups
    rw [Checked.bind_done (indexes_eq h.bytes _ hin p)]
    have hgroups : ((List.range 4).flatMap (fun g => (List.range 8).map
        (fun i => g * 8 + (7 - i)))).map (fun i => h.bytes.getD i 0) =
          (List.range 4).flatMap (fun g => ((h.bytes.drop (8 * g)).take 8).reverse) := by
      rw [List.map_flatMap]
      refine List.flatMap_congr (fun g hg => ?_)
      rw [List.map_map]
      exact group_reverse h.bytes (by have := List.mem_range.1 hg; omega)
    rw [hgroups]
    rfl
  intro hmax p hp hle
  rw [Checked.bind_done (hvalue p)]
  exact hf hmax p hp hle

/-! ## Allocation guards -/

/-- Where the guard of an allocation fails, more bytes are declared than are left. -/
theorem failGuard_eq {n : UInt32} {p : Nat} (hlarge : n.toNat > (buf.length - p) / entrySize) :
    Checked.failGuard n buf p =
      .done (.error (.truncated p (n.toNat * entrySize - (buf.length - p)))) := by
  have hn := n.toNat_lt
  have hmul : Checked.saturatingMul n.toNat entrySize = n.toNat * entrySize := by
    unfold Checked.saturatingMul Checked.usizeMax entrySize
    omega
  have hsub : Checked.sub (n.toNat * entrySize) (buf.length - p) buf p =
      .done (.ok (n.toNat * entrySize - (buf.length - p), p)) := by
    unfold entrySize at hlarge ⊢
    unfold Checked.sub
    rw [if_pos (by omega)]
    rfl
  unfold Checked.failGuard
  rw [Checked.bind_done (a := p) (q := p) rfl, hmul,
    Checked.bind_done (a := buf.length - p) (q := p) rfl, Checked.bind_done hsub]
  rfl

/-- Where it does not, the entries are allocated. -/
theorem withCapacity_eq {n p : Nat} (hsmall : ¬ n > (buf.length - p) / entrySize) :
    Checked.withCapacity n buf p = .done (.ok ((), p)) := by
  unfold Checked.withCapacity
  rw [Checked.bind_done (a := buf.length - p) (q := p) rfl, if_pos (Nat.le_of_not_lt hsmall)]
  rfl

theorem guardEntries (n : UInt32) :
    Refines buf lo (Checked.guardEntries n) (Server.guardEntries n) := by
  intro _ p _ hle
  unfold Checked.guardEntries Server.guardEntries
  rw [Checked.bind_done (a := buf.length - p) (q := p) rfl,
    Cursor.bind_ok (a := buf.length - p) (q := p) rfl]
  by_cases hlarge : n.toNat > (buf.length - p) / entrySize
  · rw [if_pos hlarge, if_pos hlarge, failGuard_eq hlarge]
    exact ⟨rfl, fun _ _ h => by simp [Cursor.bind_ok (a := p) (q := p) (x := Cursor.pos) rfl,
      Cursor.fail] at h⟩
  · rw [if_neg hlarge, if_neg hlarge, withCapacity_eq hlarge]
    have hpure : Refines buf 0 (Pure.pure ()) (Pure.pure ()) := pure ()
    exact hpure ‹_› p (Nat.zero_le p) hle

/-- `as u32` keeps the number of entries that are left in a shard. -/
theorem guardFile (n : UInt32) : Refines buf lo (Checked.guardFile n) (Server.guardEntries n) := by
  intro hmax p hp hle
  have hfits : UInt32.ofNat ((buf.length - p) / entrySize) < n ↔
      n.toNat > (buf.length - p) / entrySize := by
    unfold maxShardBytes at hmax
    unfold entrySize
    rw [UInt32.lt_iff_toNat_lt, UInt32.toNat_ofNat', Nat.mod_eq_of_lt (by omega)]
  have hguard : Refines buf lo (Checked.guardEntries n) (Server.guardEntries n) := guardEntries n
  obtain ⟨heq, hstop⟩ := hguard hmax p hp hle
  refine ⟨?_, hstop⟩
  rw [← heq]
  unfold Checked.guardFile Checked.guardEntries
  rw [Checked.bind_done (a := buf.length - p) (q := p) rfl,
    Checked.bind_done (a := buf.length - p) (q := p) rfl]
  simp only [gt_iff_lt, hfits]

/-! ## Sections and shards -/

theorem fileTermEntry : Refines buf lo Checked.fileTermEntry Server.fileTermEntry :=
  hash.bind (fun _ => u32.bind (fun _ => u32.bind (fun _ => u32.bind (fun _ => u32.bind
    (fun _ => pure _)))))

theorem verificationEntry : Refines buf lo Checked.verificationEntry Server.verificationEntry :=
  hash.bind (fun _ => (skip (by decide)).bind (fun _ => pure _))

theorem casChunkEntry : Refines buf lo Checked.casChunkEntry Server.casChunkEntry :=
  hash.bind (fun _ => u32.bind (fun _ => u32.bind (fun _ => (skip (by decide)).bind
    (fun _ => pure _))))

theorem parseFile : Refines buf lo Checked.parseFile Server.parseFile := by
  refine hash.bind (fun fileHash => u32.bind (fun fileFlags => u32.bind (fun numEntries =>
    (skip (by decide)).bind (fun _ => ite (fun _ => pure none) (fun _ => ?_)))))
  refine (guardFile numEntries).bind (fun _ => (fileTermEntry.many _).bind (fun entries => ?_))
  refine bind (ite (fun _ => ?_) (fun _ => pure [])) (fun verifications => bind (ite (fun _ => ?_)
    (fun _ => pure none)) (fun _ => pure _))
  · exact (guardEntries numEntries).bind (fun _ => verificationEntry.many _)
  · exact hash.bind (fun h => (skip (by decide)).bind (fun _ => bind_swap (pure _)))

theorem parseCasBlock : Refines buf lo Checked.parseCasBlock Server.parseCasBlock := by
  refine hash.bind (fun casHash => u32.bind (fun _ => u32.bind (fun numEntries => u32.bind (fun _ =>
    u32.bind (fun _ => ite (fun _ => pure none) (fun _ => ?_))))))
  exact (guardEntries numEntries).bind (fun _ => (casChunkEntry.many _).bind (fun _ => pure _))

/-- The loop ends: every round moves forward in what is left of the buffer. -/
theorem parseSection {x : Checked (Option α)} {c : Cursor (Option α)} {rounds : Nat}
    (hx : ∀ lo, Refines buf lo x c)
    (hforward : ∀ p found q, p ≤ buf.length → c buf p = .ok (found, q) → p < q)
    (hrounds : buf.length < rounds + lo) :
    Refines buf lo (Checked.parseSection x rounds) (Server.parseSection c rounds) := by
  induction rounds generalizing lo with
  | zero =>
      intro _ p hp hle
      exact absurd (Nat.le_trans hp hle) (by omega)
  | succ rounds ih =>
      have hlo : buf.length < rounds + (lo + 1) := by omega
      have hrest := ih hlo
      have hpost : ∀ p found q, lo ≤ p → p ≤ buf.length → p ≤ q → c buf p = .ok (found, q) →
          lo + 1 ≤ q ∧ True := by
        intro p found q hp hle _ h
        have hpq := hforward p found q hle h
        exact ⟨by omega, trivial⟩
      refine (hx lo).bind_of hpost (fun found _ => ?_)
      cases found with
      | none => exact pure []
      | some a => exact hrest.bind (fun rest => pure (a :: rest))

theorem parseFooter (length : Nat) :
    Refines buf lo (Checked.parseFooter length) (Server.parseFooter length) := by
  refine u64.bind (fun version => ite (fun _ => fail _) (fun _ => u64.bind (fun _ => u64.bind
    (fun _ => (skip (by decide)).bind (fun _ => hash.bind (fun _ => u64.bind (fun _ => u64.bind
      (fun _ => (skip (by decide)).bind (fun _ => u64.bind (fun footerOffset => ?_))))))))))
  exact ite (fun _ => fail _) (fun _ => pure _)

theorem parseShard : Refines buf 0 (Checked.parseShard buf.length) (Server.parseShard buf.length) := by
  refine bind_take (by decide) (fun tag htag => bind_copy htag (u64.bind (fun version =>
    ite (fun _ => fail _) (fun _ => u64.bind (fun size => ?_)))))
  have hfile : ∀ p found q, p ≤ buf.length → Server.parseFile buf p = .ok (found, q) → p < q := by
    intro p found q hp h
    obtain ⟨-, hfound⟩ := takesItem_parseFile buf p found q hp h
    cases found with
    | none => unfold entrySize at hfound; omega
    | some f =>
        obtain ⟨hq, hwf⟩ := hfound
        have hlen := entries_le_serializeFile hwf
        unfold entrySize at hlen
        omega
  have hblock : ∀ p found q, p ≤ buf.length → Server.parseCasBlock buf p = .ok (found, q) →
      p < q := by
    intro p found q hp h
    obtain ⟨-, hfound⟩ := takesItem_parseCasBlock buf p found q hp h
    cases found with
    | none => unfold entrySize at hfound; omega
    | some cb =>
        have hlen := chunks_le_serializeCasBlock cb
        unfold entrySize at hlen
        omega
  refine (parseSection (fun _ => parseFile) hfile (by omega)).bind (fun files =>
    (parseSection (fun _ => parseCasBlock) hblock (by omega)).bind (fun casBlocks => ?_))
  refine bind (ite (fun _ => ?_) (fun _ => pure none)) (fun footer => pure _)
  exact (parseFooter _).bind (fun ft => pure (some ft))

end Refines

/-- **No fault is reachable, whatever the bytes are.** -/
theorem parseChecked_eq (bytes : List UInt8) : parseChecked bytes = .done (parse bytes) := by
  unfold parseChecked parse
  split_ifs with hlarge
  · rfl
  · have hparse : Refines bytes 0 (Checked.parseShard bytes.length)
        (Server.parseShard bytes.length) := Refines.parseShard
    obtain ⟨heq, -⟩ := hparse (Nat.le_of_not_lt hlarge) 0 (Nat.le_refl 0) (Nat.zero_le _)
    rw [heq]

/-! ## Entries of a parsed shard -/

/-- File terms, verifications and chunks. -/
def ParsedShard.numEntries (s : ParsedShard) : Nat :=
  (s.files.map (fun f => f.entries.length + f.verifications.length)).sum +
    (s.casBlocks.map (fun cb => cb.chunks.length)).sum

theorem sum_entries_le {α : Type} (enc : α → List UInt8) (count : α → Nat) (as : List α)
    (henc : ∀ a ∈ as, count a * entrySize ≤ (enc a).length) :
    (as.map count).sum * entrySize ≤ (as.flatMap enc).length := by
  induction as with
  | nil => simp
  | cons a as ih =>
      have hrest := ih (fun b hb => henc b (List.mem_cons_of_mem a hb))
      have hfirst := henc a List.mem_cons_self
      rw [List.map_cons, List.sum_cons, List.flatMap_cons, List.length_append, Nat.add_mul]
      exact Nat.add_le_add hfirst hrest

theorem numEntries_le {s : ParsedShard} (hwf : ShardWf s) :
    s.numEntries * entrySize ≤ (serialize s).length := by
  have hfiles := sum_entries_le serializeFile
    (fun f => f.entries.length + f.verifications.length) s.files
    (fun f hf => Nat.le_trans (Nat.le_add_left _ _) (entries_le_serializeFile (hwf.files f hf)))
  have hblocks := sum_entries_le serializeCasBlock (fun cb => cb.chunks.length) s.casBlocks
    (fun cb _ => Nat.le_trans (Nat.le_add_left _ _) (chunks_le_serializeCasBlock cb))
  unfold ParsedShard.numEntries
  rw [length_serialize, Nat.add_mul]
  omega

/-- **Parsing is safe on hostile bytes**: it ends, without a fault, and what it accepts has no more
    entries than the bytes have room for. -/
theorem parse_is_safe (bytes : List UInt8) :
    parseChecked bytes = .done (parse bytes) ∧
      ∀ p, parse bytes = .ok p → entrySize * p.numEntries ≤ bytes.length := by
  refine ⟨parseChecked_eq bytes, fun p hp => ?_⟩
  obtain ⟨hwf, hlen, -⟩ := parse_shardWf hp
  rw [Nat.mul_comm]
  exact Nat.le_trans (numEntries_le hwf) hlen

theorem parse_is_safe_verified :
    Sample.verifiedShard.numEntries = 3 ∧
      parseChecked (serialize Sample.verifiedShard) = .done (.ok Sample.verifiedShard.withOffsets) ∧
      entrySize * 3 ≤ (serialize Sample.verifiedShard).length := by
  have hread := parse_serialize Sample.verifiedShard_wf (by decide +kernel)
  obtain ⟨hsafe, hcount⟩ := parse_is_safe (serialize Sample.verifiedShard)
  rw [hread] at hsafe
  exact ⟨rfl, hsafe, hcount _ hread⟩

end BaleForGit.Server
