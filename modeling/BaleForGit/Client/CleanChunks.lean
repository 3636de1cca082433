import Mathlib.Tactic.IntervalCases
import BaleForGit.Client.CleanCache
import BaleForGit.Library.Tiling

set_option autoImplicit false

/-! # The chunk index (`clean_cache.rs`)

The index of a payload has a fingerprint for each range of `chunkRanges`. `compute_chunks` builds it
from a file, `compute_chunks_from_slice` from a buffer, and both build the same
(`computeChunksFile_eq`). Against the index of one payload, `verify_chunks_in_memory` accepts
another exactly if the lengths and all fingerprints agree, and it never panics
(`verifyChunksInMemory_computeChunks`). -/

namespace BaleForGit

open Tiling

/-! ## Fingerprints are read back -/

theorem hexDigit_digitChar {d : Nat} (hd : d < 16) : hexDigit d.digitChar = some d := by
  interval_cases d <;> rfl

/-- The digits of a number, read back. -/
theorem foldl_hexDigit_toDigits (n : Nat) :
    (Nat.toDigits 16 n).foldl (fun acc c =>
      acc.bind (fun m => (hexDigit c).map (fun d => m * 16 + d))) (some 0) = some n := by
  induction n using Nat.strong_induction_on with
  | _ n ih =>
      rw [Nat.toDigits_eq_if (by decide)]
      by_cases hn : n < 16
      · rw [if_pos hn]
        simp [hexDigit_digitChar hn]
      · rw [if_neg hn, List.foldl_append, ih (n / 16) (by omega)]
        have hlast := hexDigit_digitChar (Nat.mod_lt n (show 0 < 16 by decide))
        simp only [List.foldl_cons, List.foldl_nil, Option.bind_some, hlast, Option.map_some,
          Option.some.injEq]
        omega

theorem hexDigit_of_mem_toDigits (n : Nat) : ∀ c ∈ Nat.toDigits 16 n, hexDigit c ≠ none := by
  induction n using Nat.strong_induction_on with
  | _ n ih =>
      intro c hc
      rw [Nat.toDigits_eq_if (by decide)] at hc
      by_cases hn : n < 16
      · rw [if_pos hn, List.mem_singleton] at hc
        rw [hc, hexDigit_digitChar hn]
        simp
      · rw [if_neg hn] at hc
        rcases List.mem_append.1 hc with hc | hc
        · exact ih (n / 16) (by omega) c hc
        · rw [List.mem_singleton.1 hc, hexDigit_digitChar (Nat.mod_lt n (by decide))]
          simp

theorem toList_hex16 (n : UInt64) : (hex16 n).toList =
    List.replicate (16 - (Nat.toDigits 16 n.toNat).length) '0' ++ Nat.toDigits 16 n.toNat := by
  unfold hex16
  exact String.toList_ofList

theorem hexDigit_of_mem_hex16 (n : UInt64) : ∀ c ∈ (hex16 n).toList, hexDigit c ≠ none := by
  intro c hc
  rw [toList_hex16] at hc
  rcases List.mem_append.1 hc with hc | hc
  · rw [List.eq_of_mem_replicate hc]
    decide
  · exact hexDigit_of_mem_toDigits _ c hc

/-- A text of digits has no sign to skip. -/
theorem fromStrRadix16_of_digits {s : String} (h : ∀ c ∈ s.toList, hexDigit c ≠ none)
    (hne : s.toList ≠ []) : fromStrRadix16 s =
      (s.toList.foldl (fun acc c =>
        acc.bind (fun n => (hexDigit c).map (fun d => n * 16 + d))) (some 0)).bind
          (fun n => if n < UInt64.size then some (UInt64.ofNat n) else none) := by
  unfold fromStrRadix16
  split
  next digits rest hs =>
    exact absurd rfl (h '+' (by rw [hs]; exact List.mem_cons_self))
  next => simp [hne]

/-- **A fingerprint is read back as it was written.** -/
theorem fromStrRadix16_hex16 (n : UInt64) : fromStrRadix16 (hex16 n) = some n := by
  have hzeros : ∀ k : Nat, (List.replicate k '0').foldl (fun acc c =>
      acc.bind (fun m => (hexDigit c).map (fun d => m * 16 + d))) (some 0) = some 0 := by
    intro k
    induction k with
    | zero => rfl
    | succ k ih => exact ih
  rw [fromStrRadix16_of_digits (hexDigit_of_mem_hex16 n) (by simp [toList_hex16]), toList_hex16,
    List.foldl_append, hzeros, foldl_hexDigit_toDigits, Option.bind_some, if_pos n.toNat_lt,
    UInt64.ofNat_toNat]

theorem utf8Size_of_hexDigit {c : Char} (h : hexDigit c ≠ none) : c.utf8Size = 1 := by
  rw [Char.utf8Size_eq_one_iff, UInt32.le_iff_toNat_le]
  unfold hexDigit at h
  simp only [Char.le_def, UInt32.le_iff_toNat_le] at h
  have hbound : c.toNat ≤ 102 := by
    by_contra hlt
    rw [if_neg (by simp; omega), if_neg (by simp; omega), if_neg (by simp; omega)] at h
    exact h rfl
  exact Nat.le_trans hbound (by decide)

theorem utf8ByteSize_of_digits {l : List Char} (h : ∀ c ∈ l, hexDigit c ≠ none) :
    (String.ofList l).utf8ByteSize = l.length := by
  induction l with
  | nil => rfl
  | cons c l ih =>
      rw [← List.singleton_append, String.ofList_append, String.utf8ByteSize_append,
        ih fun x hx => h x (List.mem_cons_of_mem c hx), ← String.singleton_eq_ofList,
        String.utf8ByteSize_singleton, utf8Size_of_hexDigit (h c List.mem_cons_self)]
      simp
      omega

theorem utf8ByteSize_hex16 (n : UInt64) : (hex16 n).utf8ByteSize = 16 := by
  have hlen : (Nat.toDigits 16 n.toNat).length ≤ 16 :=
    (Nat.length_toDigits_le_iff (by decide) (by decide)).2 n.toNat_lt
  have hsize := utf8ByteSize_of_digits (hexDigit_of_mem_hex16 n)
  rw [String.ofList_toList, toList_hex16, List.length_append, List.length_replicate] at hsize
  omega

/-! ## The ranges of an index -/

/-- The rounds of the loop from position `pos`, in a payload of `size` bytes. -/
def rangesFrom (size : Nat) : Nat → Nat → List (Nat × Nat)
  | 0, _ => []
  | fuel + 1, pos =>
    if pos < size then
      (pos, min (pos + chunkSize) size) :: rangesFrom size fuel (min (pos + chunkSize) size)
    else []

/-- The ranges of an index. That of an empty payload has one, so that there is something to verify. -/
def chunkRanges (size : Nat) : List (Nat × Nat) :=
  match rangesFrom size size 0 with
  | [] => [(0, 0)]
  | ranges => ranges

theorem tiles_rangesFrom {size fuel pos : Nat} (hpos : pos ≤ size) (hfuel : size ≤ pos + fuel) :
    Tiles size pos (rangesFrom size fuel pos) := by
  have hstep : 0 < chunkSize := by decide
  induction fuel generalizing pos with
  | zero => exact Nat.le_antisymm hpos hfuel
  | succ fuel ih =>
      unfold rangesFrom
      split_ifs with hlt
      · exact ⟨rfl, by simp only [Nat.le_min]; omega, ih (Nat.min_le_right ..) (by omega)⟩
      · exact Nat.le_antisymm hpos (Nat.le_of_not_lt hlt)

/-- **The ranges leave nothing out**, the last partial chunk included. -/
theorem tiles_chunkRanges (size : Nat) : Tiles size 0 (chunkRanges size) := by
  have h := tiles_rangesFrom (Nat.zero_le size) (Nat.le_of_eq (Nat.zero_add size).symm)
  unfold chunkRanges
  split
  next hnil =>
    rw [hnil] at h
    exact ⟨rfl, Nat.le_refl 0, h⟩
  next => exact h

theorem chunkRanges_ne_nil (size : Nat) : chunkRanges size ≠ [] := by
  unfold chunkRanges
  split
  next => simp
  next hne => exact hne

section Chunks

variable (chunkHash : List UInt8 → UInt64)

/-- The chunk of a range. -/
def fingerprint (bytes : List UInt8) (r : Nat × Nat) : Chunk :=
  ⟨UInt64.ofNat r.1, UInt64.ofNat r.2, hex16 (chunkHash (slice bytes r))⟩

theorem chunksFrom_eq_map (bytes : List UInt8) (fuel pos : Nat) :
    chunksFrom chunkHash bytes fuel pos =
      (rangesFrom bytes.length fuel pos).map (fingerprint chunkHash bytes) := by
  induction fuel generalizing pos with
  | zero => rfl
  | succ fuel ih =>
      unfold chunksFrom rangesFrom
      split_ifs
      · rw [List.map_cons, ← ih]
        rfl
      · rfl

/-- **An index is the fingerprints of its ranges.** -/
theorem computeChunks_eq_map (bytes : List UInt8) :
    computeChunks chunkHash bytes =
      (chunkRanges bytes.length).map (fingerprint chunkHash bytes) := by
  unfold computeChunks chunkRanges
  rw [chunksFrom_eq_map]
  cases rangesFrom bytes.length bytes.length 0 with
  | nil => simp [fingerprint, slice]
  | cons r rs => rfl

theorem computeChunks_ne_nil (bytes : List UInt8) : computeChunks chunkHash bytes ≠ [] := by
  rw [computeChunks_eq_map]
  simpa using chunkRanges_ne_nil bytes.length

/-! ## The index of a file -/

/-- `read_exact` of `len` bytes where the cursor is: the bytes, and the rest of the file. -/
def readExact (rest : List UInt8) (len : Nat) : Option (List UInt8 × List UInt8) :=
  if len ≤ rest.length then some (rest.take len, rest.drop len) else none

/-- The loop of `compute_chunks` from position `pos`, where `rest` is still to read. -/
def readChunks (size : Nat) : Nat → Nat → List UInt8 → Option (List Chunk)
  | 0, _, _ => some []
  | fuel + 1, pos, rest =>
    if pos < size then
      let toRead := min (size - pos) chunkSize
      match readExact rest toRead with
      | none => none
      | some (buf, rest') =>
        (readChunks size fuel (pos + toRead) rest').map (fun chunks =>
          ⟨UInt64.ofNat pos, UInt64.ofNat (pos + toRead), hex16 (chunkHash buf)⟩ :: chunks)
    else some []

/-- `compute_chunks` of a file said to have `size` bytes; `none` is its read error. -/
def computeChunksFile (file : List UInt8) (size : Nat) : Option (List Chunk) :=
  match readChunks chunkHash size size 0 file with
  | none => none
  | some [] => some [⟨0, 0, hex16 (chunkHash [])⟩]
  | some chunks => some chunks

/-- With the cursor at `pos`, the file loop makes the chunks of the buffer loop. -/
theorem readChunks_drop (bytes : List UInt8) (fuel pos : Nat) :
    readChunks chunkHash bytes.length fuel pos (bytes.drop pos) =
      some (chunksFrom chunkHash bytes fuel pos) := by
  induction fuel generalizing pos with
  | zero => rfl
  | succ fuel ih =>
      unfold readChunks chunksFrom
      split_ifs with hpos
      · have hstop : pos + min (bytes.length - pos) chunkSize =
            min (pos + chunkSize) bytes.length := by omega
        have hread : readExact (bytes.drop pos) (min (bytes.length - pos) chunkSize) =
            some ((bytes.take (min (pos + chunkSize) bytes.length)).drop pos,
              bytes.drop (min (pos + chunkSize) bytes.length)) := by
          rw [readExact, if_pos (by rw [List.length_drop]; omega), List.drop_drop, ← hstop,
            List.drop_take, Nat.add_sub_cancel_left]
        simp only [hread, hstop, ih, Option.map_some]
      · rfl

/-- **Both builders make the same index.** -/
theorem computeChunksFile_eq (bytes : List UInt8) :
    computeChunksFile chunkHash bytes bytes.length = some (computeChunks chunkHash bytes) := by
  have hloop := readChunks_drop chunkHash bytes bytes.length 0
  rw [List.drop_zero] at hloop
  unfold computeChunksFile computeChunks
  rw [hloop]
  cases chunksFrom chunkHash bytes bytes.length 0 with
  | nil => rfl
  | cons chunk chunks => rfl

/-! ## The verdict -/

/-- The lengths agree, as 64-bit numbers, and so do the fingerprints of all ranges. -/
def SameChunks (content payload : List UInt8) : Prop :=
  UInt64.ofNat content.length = UInt64.ofNat payload.length ∧
    ∀ r ∈ chunkRanges content.length,
      chunkHash (slice payload r) = chunkHash (slice content r)

instance (content payload : List UInt8) : Decidable (SameChunks chunkHash content payload) :=
  inferInstanceAs (Decidable (_ ∧ _))

theorem covered_fingerprints (bytes : List UInt8) {size pos : Nat} {rs : List (Nat × Nat)}
    (h : Tiles size pos rs) (acc : UInt64) :
    (rs.map (fingerprint chunkHash bytes)).foldl (fun acc c => acc + (c.stop - c.start)) acc =
      acc + (UInt64.ofNat size - UInt64.ofNat pos) := by
  induction rs generalizing pos acc with
  | nil =>
      obtain rfl : pos = size := h
      simp
  | cons r rs ih =>
      obtain ⟨rfl, -, hrest⟩ := h
      rw [List.map_cons, List.foldl_cons, ih hrest]
      simp only [fingerprint]
      grind

/-- What an index covers is the length of its payload. -/
theorem covered_computeChunks (bytes : List UInt8) :
    covered (computeChunks chunkHash bytes) = UInt64.ofNat bytes.length := by
  rw [computeChunks_eq_map, covered, covered_fingerprints chunkHash bytes (tiles_chunkRanges _)]
  simp

/-- Over ranges that the payload has, the loop compares fingerprints. -/
theorem verifyEach_fingerprints {content payload : List UInt8} {rs : List (Nat × Nat)}
    (hrs : ∀ r ∈ rs, r.1 ≤ r.2 ∧ r.2 ≤ payload.length ∧ r.2 < UInt64.size) :
    verifyEach chunkHash payload (rs.map (fingerprint chunkHash content)) =
      some (decide (∀ r ∈ rs, chunkHash (slice payload r) = chunkHash (slice content r))) := by
  induction rs with
  | nil => simp [verifyEach]
  | cons r rs ih =>
      obtain ⟨hle, hlen, hsize⟩ := hrs r List.mem_cons_self
      have hstop : (UInt64.ofNat r.2).toNat = r.2 := UInt64.toNat_ofNat_of_lt' hsize
      have hstart : (UInt64.ofNat r.1).toNat = r.1 :=
        UInt64.toNat_ofNat_of_lt' (Nat.lt_of_le_of_lt hle hsize)
      have horder : ¬ UInt64.ofNat r.1 > UInt64.ofNat r.2 := by
        rw [gt_iff_lt, UInt64.lt_iff_toNat_lt, hstart, hstop]
        omega
      have hslice : (payload.take r.2).drop r.1 = slice payload r := rfl
      rw [List.map_cons, verifyEach]
      simp only [fingerprint, fromStrRadix16_hex16, utf8ByteSize_hex16, hstop, hstart, hslice]
      rw [if_neg (by simp), if_neg (by omega), if_neg horder]
      by_cases hsame : chunkHash (slice payload r) = chunkHash (slice content r)
      · rw [if_neg (not_not.2 hsame)]
        rw [ih fun q hq => hrs q (List.mem_cons_of_mem r hq)]
        simp [hsame]
      · rw [if_pos hsame]
        simp [hsame]

/-- Ranges of `content` are ranges of any payload of its length. -/
theorem chunkRanges_bounds {content payload : List UInt8} (hsize : content.length < UInt64.size)
    (hlen : UInt64.ofNat content.length = UInt64.ofNat payload.length) :
    ∀ r ∈ chunkRanges content.length,
      r.1 ≤ r.2 ∧ r.2 ≤ payload.length ∧ r.2 < UInt64.size := by
  have hmod := congrArg UInt64.toNat hlen
  rw [UInt64.toNat_ofNat_of_lt' hsize, UInt64.toNat_ofNat'] at hmod
  have hle : content.length ≤ payload.length := hmod ▸ Nat.mod_le _ _
  intro r hr
  obtain ⟨horder, hstop⟩ := (tiles_chunkRanges content.length).bounds r hr
  exact ⟨horder, Nat.le_trans hstop hle, Nat.lt_of_le_of_lt hstop hsize⟩

/-- **The verdict in memory**, and no panic. -/
theorem verifyChunksInMemory_computeChunks {content : List UInt8} (payload : List UInt8)
    (hsize : content.length < UInt64.size) :
    verifyChunksInMemory chunkHash (computeChunks chunkHash content) payload =
      some (decide (SameChunks chunkHash content payload)) := by
  unfold verifyChunksInMemory
  rw [if_neg (by simpa using computeChunks_ne_nil chunkHash content), covered_computeChunks]
  by_cases hlen : UInt64.ofNat content.length = UInt64.ofNat payload.length
  · rw [if_neg (not_not.2 hlen), computeChunks_eq_map,
      verifyEach_fingerprints chunkHash (chunkRanges_bounds hsize hlen), Option.some.injEq,
      decide_eq_decide]
    exact (and_iff_right hlen).symm
  · rw [if_pos hlen, decide_eq_false fun h : SameChunks chunkHash content payload => hlen h.1]

/-- Without collisions between their chunks, payloads of one length with the same fingerprints are
    equal. -/
theorem eq_of_sameChunks {content payload : List UInt8}
    (hinj : ∀ r ∈ chunkRanges content.length,
      chunkHash (slice payload r) = chunkHash (slice content r) → slice payload r = slice content r)
    (hlen : payload.length = content.length) (h : SameChunks chunkHash content payload) :
    payload = content := by
  have hdrop := drop_eq_of_slices hlen rfl (tiles_chunkRanges content.length)
    fun r hr => hinj r hr (h.2 r hr)
  simpa using hdrop

theorem SameChunks.refl (content : List UInt8) : SameChunks chunkHash content content :=
  ⟨rfl, fun _ _ => rfl⟩

end Chunks

end BaleForGit
