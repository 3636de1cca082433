import BaleForGit.Client.CleanChunks
import BaleForGit.Library.StopFlag

set_option autoImplicit false

/-! # Verification of a spilled payload (`verify_chunks`)

The chunks are visited in the order of `priority_order`: the first, the last, and the others
shuffled by a generator whose seed comes from the clock and the process id. That order is cut into
stripes, one thread each, and the threads share the flag `mismatch`; a schedule says which thread
moves, and whether its look at the flag is stale. On the index of a payload the verdict is that of
`verify_chunks_in_memory`, whatever the seed and the schedule (`verifyChunks_computeChunks`). -/

namespace BaleForGit

open Tiling

/-- `MIDDLE_SAMPLES`. -/
def middleSamples : Nat := 3

/-- `VERIFY_PARALLELISM`. -/
def verifyParallelism : Nat := 3

/-! ## The order -/

/-- A draw of the generator: the state it leaves, which is also the number drawn. -/
def xorshift (state : UInt64) : UInt64 :=
  let state := state ^^^ (state <<< 13)
  let state := state ^^^ (state >>> 7)
  state ^^^ (state <<< 17)

/-- `swap(i, j)`. In the shuffle both positions exist. -/
def swapAt (l : List Nat) (i j : Nat) : List Nat :=
  match l[i]?, l[j]? with
  | some x, some y => (l.set i y).set j x
  | _, _ => l

/-- The loop of the shuffle, over the positions `i`. -/
def shuffle : UInt64 → List Nat → List Nat → List Nat
  | _, [], middle => middle
  | state, i :: rest, middle =>
    shuffle (xorshift state) rest (swapAt middle i ((xorshift state).toNat % (i + 1)))

/-- `priority_order`. -/
def priorityOrder (seed : UInt64) (n : Nat) : List Nat :=
  if n = 0 then []
  else if n ≤ 2 then List.range n
  else
    let state := if seed = 0 then 1 else seed
    let middle := List.range' 1 (n - 2)
    let middle := shuffle state (List.range' 1 (middle.length - 1)).reverse middle
    let sampleTake := min middle.length middleSamples
    0 :: (n - 1) :: (middle.take sampleTake ++ middle.drop sampleTake)

theorem swapAt_perm (l : List Nat) (i j : Nat) : (swapAt l i j).Perm l := by
  unfold swapAt
  split
  next x y hx hy =>
    obtain ⟨hi, rfl⟩ := List.getElem?_eq_some_iff.1 hx
    obtain ⟨hj, rfl⟩ := List.getElem?_eq_some_iff.1 hy
    exact List.set_set_perm hi hj
  next => exact List.Perm.refl l

theorem shuffle_perm (state : UInt64) (rounds middle : List Nat) :
    (shuffle state rounds middle).Perm middle := by
  induction rounds generalizing state middle with
  | nil => exact List.Perm.refl middle
  | cons i rest ih => exact (ih _ _).trans (swapAt_perm middle i _)

/-- **The order visits every chunk once**, whatever the seed. -/
theorem priorityOrder_perm (seed : UInt64) (n : Nat) :
    (priorityOrder seed n).Perm (List.range n) := by
  unfold priorityOrder
  by_cases hzero : n = 0
  · rw [if_pos hzero, hzero]
    exact List.Perm.refl _
  by_cases hn : n ≤ 2
  · rw [if_neg hzero, if_pos hn]
  · have hrange : List.range n = 0 :: (List.range' 1 (n - 2) ++ [n - 1]) := by
      obtain ⟨k, rfl⟩ := Nat.exists_eq_add_of_lt (Nat.lt_of_not_le hn)
      rw [List.range_eq_range', show 2 + k + 1 = k + 1 + 1 + 1 by omega, List.range'_succ,
        List.range'_concat]
      simp
      omega
    rw [if_neg hzero, if_neg hn, hrange]
    simp only [List.take_append_drop]
    refine List.Perm.cons 0 (List.Perm.trans ?_ (List.perm_append_singleton _ _).symm)
    exact List.Perm.cons (n - 1) (shuffle_perm _ _ _)

/-- `order.chunks(size)`. -/
def chunksOf (size : Nat) : Nat → List Nat → List (List Nat)
  | 0, _ => []
  | fuel + 1, order =>
    if order.isEmpty then [] else order.take size :: chunksOf size fuel (order.drop size)

/-- The parts of the order that the threads take. -/
def stripes (order : List Nat) : List (List Nat) :=
  chunksOf (max ((order.length + verifyParallelism - 1) / verifyParallelism) 1) order.length order

theorem flatten_chunksOf {size fuel : Nat} {order : List Nat} (hsize : 0 < size)
    (hfuel : order.length ≤ fuel) : (chunksOf size fuel order).flatten = order := by
  induction fuel generalizing order with
  | zero => exact (List.eq_nil_of_length_eq_zero (Nat.le_zero.1 hfuel)).symm
  | succ fuel ih =>
      unfold chunksOf
      split_ifs with hnil
      · exact (List.isEmpty_iff.1 hnil).symm
      · rw [List.flatten_cons, ih (by rw [List.length_drop]; omega), List.take_append_drop]

/-- **No chunk falls between two stripes.** -/
theorem flatten_stripes (order : List Nat) : (stripes order).flatten = order :=
  flatten_chunksOf (Nat.lt_of_lt_of_le Nat.zero_lt_one (Nat.le_max_right _ _)) (Nat.le_refl _)

/-- To check the stripes is to check every chunk. -/
theorem forall_stripes {seed : UInt64} {n : Nat} {P : Nat → Prop} :
    (∀ stripe ∈ stripes (priorityOrder seed n), ∀ idx ∈ stripe, P idx) ↔ ∀ idx < n, P idx := by
  have hmem : ∀ idx, (∃ stripe ∈ stripes (priorityOrder seed n), idx ∈ stripe) ↔ idx < n := by
    intro idx
    rw [← List.mem_flatten, flatten_stripes, (priorityOrder_perm seed n).mem_iff, List.mem_range]
  constructor
  · intro h idx hidx
    obtain ⟨stripe, hstripe, hin⟩ := (hmem idx).2 hidx
    exact h stripe hstripe idx hin
  · intro h stripe hstripe idx hin
    exact h idx ((hmem idx).1 ⟨stripe, hstripe, hin⟩)

section Verify

variable (chunkHash : List UInt8 → UInt64)

/-! ## The threads -/

/-- The decoding loop. -/
def decodeHashes : List Chunk → Option (List UInt64)
  | [] => some []
  | c :: rest =>
    match fromStrRadix16 c.hash with
    | none => none
    | some h => if c.hash.utf8ByteSize = 16 then (decodeHashes rest).map (h :: ·) else none

/-- `read_exact_at`; `none` is its error when the file ends early. -/
def readExactAt (file : List UInt8) (len offset : Nat) : Option (List UInt8) :=
  if len ≤ (file.drop offset).length then some ((file.drop offset).take len) else none

/-- A round of `verify_stripe`: `false` where the thread raises the flag, which it also does after a
    read error. A chunk that ends before it starts is as long as the subtraction wraps to, and is
    taken to fail its read: no builder makes one. -/
def stripeCheck (file : List UInt8) (cached : List Chunk) (decoded : List UInt64) (idx : Nat) :
    Bool :=
  match cached[idx]?, decoded[idx]? with
  | some c, some expected =>
    match readExactAt file (c.stop - c.start).toNat c.start.toNat with
    | none => false
    | some buf => chunkHash buf == expected
  | _, _ => false

/-- `verify_chunks`; `none` when the schedule is not one of a run to the end of all threads. -/
def verifyChunks (cached : List Chunk) (file : List UInt8) (fileSize : Nat) (seed : UInt64)
    (schedule : List (Nat × Bool)) : Option Bool :=
  if cached.isEmpty then some false
  else if covered cached ≠ UInt64.ofNat fileSize then some false
  else match decodeHashes cached with
    | none => some false
    | some decoded =>
      match Machine.run (StopFlag.step (stripeCheck chunkHash file cached decoded))
          (StopFlag.start (stripes (priorityOrder seed cached.length))) schedule with
      | none => none
      | some s => if StopFlag.Finished s then some (!s.stopped) else none

/-! ## The verdict -/

theorem decodeHashes_fingerprints (content : List UInt8) (rs : List (Nat × Nat)) :
    decodeHashes (rs.map (fingerprint chunkHash content)) =
      some (rs.map (fun r => chunkHash (slice content r))) := by
  induction rs with
  | nil => rfl
  | cons r rs ih =>
      rw [List.map_cons, decodeHashes, ih]
      simp only [fingerprint, fromStrRadix16_hex16, utf8ByteSize_hex16, if_true, Option.map_some,
        List.map_cons]

/-- A read at a range the file has is its slice. -/
theorem readExactAt_slice {file : List UInt8} {r : Nat × Nat} (horder : r.1 ≤ r.2)
    (hlen : r.2 ≤ file.length) (hsize : r.2 < UInt64.size) :
    readExactAt file (UInt64.ofNat r.2 - UInt64.ofNat r.1).toNat (UInt64.ofNat r.1).toNat =
      some (slice file r) := by
  have hstart := UInt64.toNat_ofNat_of_lt' (Nat.lt_of_le_of_lt horder hsize)
  have hstop := UInt64.toNat_ofNat_of_lt' hsize
  have hle : UInt64.ofNat r.1 ≤ UInt64.ofNat r.2 := by
    rw [UInt64.le_iff_toNat_le, hstart, hstop]
    exact horder
  rw [UInt64.toNat_sub_of_le _ _ hle, hstart, hstop, readExactAt,
    if_pos (by rw [List.length_drop]; omega), slice, List.drop_take]

/-- At the index of a range, a thread compares the fingerprints of that range. -/
theorem stripeCheck_fingerprints {content file : List UInt8} {rs : List (Nat × Nat)}
    (hrs : ∀ r ∈ rs, r.1 ≤ r.2 ∧ r.2 ≤ file.length ∧ r.2 < UInt64.size) {idx : Nat}
    (hidx : idx < rs.length) :
    stripeCheck chunkHash file (rs.map (fingerprint chunkHash content))
      (rs.map (fun r => chunkHash (slice content r))) idx = true ↔
        chunkHash (slice file rs[idx]) = chunkHash (slice content rs[idx]) := by
  obtain ⟨horder, hlen, hsize⟩ := hrs _ (List.getElem_mem hidx)
  unfold stripeCheck
  simp only [List.getElem?_map, List.getElem?_eq_getElem hidx, Option.map_some, fingerprint,
    readExactAt_slice horder hlen hsize, beq_iff_eq]

/-- The threads' checks of an index, over a file of the same length as a 64-bit number. -/
theorem forall_stripeCheck {content file : List UInt8} {seed : UInt64}
    (hsize : content.length < UInt64.size)
    (hlen : UInt64.ofNat content.length = UInt64.ofNat file.length) :
    (∀ stripe ∈ stripes (priorityOrder seed (chunkRanges content.length).length),
      ∀ idx ∈ stripe,
        stripeCheck chunkHash file
          ((chunkRanges content.length).map (fingerprint chunkHash content))
          ((chunkRanges content.length).map (fun r => chunkHash (slice content r))) idx = true) ↔
      SameChunks chunkHash content file := by
  have hbounds := chunkRanges_bounds hsize hlen
  rw [forall_stripes, SameChunks, and_iff_right hlen, List.forall_mem_iff_forall_getElem]
  exact forall₂_congr fun idx hidx => stripeCheck_fingerprints chunkHash hbounds hidx

/-- **The verdict of the threads** on an index: whatever the seed and the schedule, that of the
    verification in memory. -/
theorem verifyChunks_computeChunks {content file : List UInt8} {seed : UInt64}
    {schedule : List (Nat × Bool)} {verdict : Bool} (hsize : content.length < UInt64.size)
    (h : verifyChunks chunkHash (computeChunks chunkHash content) file file.length seed schedule =
      some verdict) :
    verdict = decide (SameChunks chunkHash content file) := by
  unfold verifyChunks at h
  rw [if_neg (by simpa using computeChunks_ne_nil chunkHash content), covered_computeChunks] at h
  by_cases hlen : UInt64.ofNat content.length = UInt64.ofNat file.length
  · rw [if_neg (not_not.2 hlen), computeChunks_eq_map, decodeHashes_fingerprints,
      List.length_map] at h
    simp only at h
    split at h
    · cases h
    · next s hrun =>
        split_ifs at h with hfin
        have hflag := StopFlag.stopped_iff hrun hfin
        rw [forall_stripeCheck chunkHash hsize hlen] at hflag
        rw [← Option.some.inj h]
        by_cases hsame : SameChunks chunkHash content file
        · rw [hflag.2 hsame, decide_eq_true hsame]
          rfl
        · rw [Bool.eq_true_of_not_eq_false (mt hflag.1 hsame), decide_eq_false hsame]
          rfl
  · rw [if_pos hlen] at h
    rw [← Option.some.inj h, decide_eq_false fun hsame => hlen hsame.1]

/-- **The threads come to an end**: a schedule that has not reached it can go on. -/
theorem exists_verifyChunks (cached : List Chunk) (file : List UInt8) (fileSize : Nat)
    (seed : UInt64) :
    ∃ schedule verdict, verifyChunks chunkHash cached file fileSize seed schedule =
      some verdict := by
  unfold verifyChunks
  split_ifs
  · exact ⟨[], false, rfl⟩
  · exact ⟨[], false, rfl⟩
  · cases decodeHashes cached with
    | none => exact ⟨[], false, rfl⟩
    | some decoded =>
        obtain ⟨schedule, s, hrun, hfin⟩ := StopFlag.exists_finish
          (stripeCheck chunkHash file cached decoded)
          (StopFlag.start (stripes (priorityOrder seed cached.length)))
        refine ⟨schedule, !s.stopped, ?_⟩
        simp only [hrun, if_pos hfin]

end Verify

end BaleForGit
