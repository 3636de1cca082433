import BaleForGit.Client.CleanVerify

set_option autoImplicit false

/-! # Verification against any entry (`verify_chunks_in_memory`, `verify_chunks`)

An entry is decoded from a file, and nothing is asked of its ranges. Both verifications add up their
lengths first. Here that arithmetic is checked, as in a build with overflow checks: `none` is a
panic. Then they compare the fingerprints, which says something about the whole payload as long as
no byte is in two ranges (`verifiesSoundly_iff`). -/

namespace BaleForGit

open Tiling

/-! ## The sum -/

/-- `a - b`. -/
def checkedSub (a b : UInt64) : Option UInt64 := if b ≤ a then some (a - b) else none

/-- `a + b`. -/
def checkedAdd (a b : UInt64) : Option UInt64 :=
  if a.toNat + b.toNat < UInt64.size then some (a + b) else none

/-- `cached.iter().map(|c| c.end - c.start).sum()`. -/
def coveredFrom : UInt64 → List Chunk → Option UInt64
  | acc, [] => some acc
  | acc, c :: rest =>
    match checkedSub c.stop c.start with
    | none => none
    | some len =>
      match checkedAdd acc len with
      | none => none
      | some acc => coveredFrom acc rest

def coveredChecked (cached : List Chunk) : Option UInt64 := coveredFrom 0 cached

/-- The range of a chunk. -/
def Chunk.range (c : Chunk) : Nat × Nat := (c.start.toNat, c.stop.toNat)

/-- The lengths of the ranges, together. -/
def totalLength (cached : List Chunk) : Nat :=
  ((cached.map Chunk.range).map (fun r => r.2 - r.1)).sum

/-- **When the sum is computed**: no range ends before it starts, and the total fits. -/
theorem coveredFrom_eq_some {cached : List Chunk} {acc n : UInt64} :
    coveredFrom acc cached = some n ↔
      (∀ c ∈ cached, c.start ≤ c.stop) ∧ acc.toNat + totalLength cached = n.toNat := by
  induction cached generalizing acc with
  | nil => simp [coveredFrom, totalLength, UInt64.toNat_inj]
  | cons c rest ih =>
      have htotal : totalLength (c :: rest) =
          (c.stop.toNat - c.start.toNat) + totalLength rest := rfl
      unfold coveredFrom checkedSub
      by_cases horder : c.start ≤ c.stop
      · have hlen := UInt64.toNat_sub_of_le _ _ horder
        rw [if_pos horder, List.forall_mem_cons, htotal, and_iff_right horder]
        simp only [checkedAdd]
        by_cases hfit : acc.toNat + (c.stop - c.start).toNat < UInt64.size
        · have hadd : (acc + (c.stop - c.start)).toNat =
              acc.toNat + (c.stop.toNat - c.start.toNat) := by
            rw [UInt64.toNat_add, Nat.mod_eq_of_lt hfit, hlen]
          rw [if_pos hfit]
          simp only [ih, hadd, Nat.add_assoc]
        · have hn := n.toNat_lt
          have hbig : ¬ acc.toNat + (c.stop.toNat - c.start.toNat + totalLength rest) =
              n.toNat := by
            rw [hlen] at hfit
            change ¬ _ < 2 ^ 64 at hfit
            omega
          rw [if_neg hfit]
          simp [hbig]
      · rw [if_neg horder, List.forall_mem_cons]
        simp [horder]

theorem coveredChecked_eq_some {cached : List Chunk} {n : UInt64} :
    coveredChecked cached = some n ↔
      (∀ c ∈ cached, c.start ≤ c.stop) ∧ totalLength cached = n.toNat := by
  unfold coveredChecked
  rw [coveredFrom_eq_some, UInt64.toNat_zero, Nat.zero_add]

/-- The sum is compared with a size. -/
theorem eq_size_iff {cached : List Chunk} {n : UInt64} {size : Nat}
    (h : coveredChecked cached = some n) (hbound : size < UInt64.size) :
    n = UInt64.ofNat size ↔ totalLength cached = size := by
  rw [(coveredChecked_eq_some.1 h).2, ← UInt64.toNat_inj, UInt64.toNat_ofNat_of_lt' hbound]

/-- A sum that is computed is the wrapping one. -/
theorem foldl_covered {cached : List Chunk} {acc n : UInt64} (h : coveredFrom acc cached = some n) :
    cached.foldl (fun acc c => acc + (c.stop - c.start)) acc = n := by
  induction cached generalizing acc with
  | nil => exact Option.some.inj h
  | cons c rest ih =>
      unfold coveredFrom checkedSub checkedAdd at h
      split_ifs at h with horder
      simp only at h
      split_ifs at h with hfit
      exact ih h

theorem covered_of_checked {cached : List Chunk} {n : UInt64} (h : coveredChecked cached = some n) :
    covered cached = n :=
  foldl_covered h

section Verify

variable (chunkHash : List UInt8 → UInt64)

/-! ## The two verifications -/

/-- `verify_chunks_in_memory`; `none` is a panic. -/
def verifyInMemoryChecked (cached : List Chunk) (bytes : List UInt8) : Option Bool :=
  if cached.isEmpty then some false
  else match coveredChecked cached with
    | none => none
    | some covered =>
      if covered ≠ UInt64.ofNat bytes.length then some false
      else verifyEach chunkHash bytes cached

/-- `verify_chunks`; `none` is a panic, and `some none` where the schedule is not one of a run to
    the end of all threads. The arithmetic of the threads is on ranges that were summed up. -/
def verifyChunksChecked (cached : List Chunk) (file : List UInt8) (fileSize : Nat) (seed : UInt64)
    (schedule : List (Nat × Bool)) : Option (Option Bool) :=
  if cached.isEmpty then some (some false)
  else match coveredChecked cached with
    | none => none
    | some covered =>
      if covered ≠ UInt64.ofNat fileSize then some (some false)
      else match decodeHashes cached with
        | none => some (some false)
        | some decoded =>
          match Machine.run (StopFlag.step (stripeCheck chunkHash file cached decoded))
              (StopFlag.start (stripes (priorityOrder seed cached.length))) schedule with
          | none => some none
          | some s => if StopFlag.Finished s then some (some (!s.stopped)) else some none

theorem verifyInMemoryChecked_panics {cached : List Chunk} (hne : cached ≠ [])
    (h : coveredChecked cached = none) (bytes : List UInt8) :
    verifyInMemoryChecked chunkHash cached bytes = none := by
  unfold verifyInMemoryChecked
  rw [if_neg (by simpa using hne), h]

theorem verifyInMemoryChecked_eq {cached : List Chunk} {n : UInt64}
    (h : coveredChecked cached = some n) (bytes : List UInt8) :
    verifyInMemoryChecked chunkHash cached bytes = verifyChunksInMemory chunkHash cached bytes := by
  unfold verifyInMemoryChecked verifyChunksInMemory
  rw [h, covered_of_checked h]

theorem verifyChunksChecked_eq {cached : List Chunk} {n : UInt64}
    (h : coveredChecked cached = some n) (file : List UInt8) (fileSize : Nat) (seed : UInt64)
    (schedule : List (Nat × Bool)) :
    verifyChunksChecked chunkHash cached file fileSize seed schedule =
      some (verifyChunks chunkHash cached file fileSize seed schedule) := by
  unfold verifyChunksChecked verifyChunks
  rw [h, covered_of_checked h]
  cases cached.isEmpty with
  | true => rfl
  | false =>
      by_cases hsize : n = UInt64.ofNat fileSize
      · simp only [hsize, ne_eq, not_true_eq_false, if_false, Bool.false_eq_true]
        cases decodeHashes cached with
        | none => rfl
        | some decoded =>
            simp only
            cases Machine.run (StopFlag.step (stripeCheck chunkHash file cached decoded))
              (StopFlag.start (stripes (priorityOrder seed cached.length))) schedule with
            | none => rfl
            | some s =>
                simp only
                split_ifs <;> rfl
      · simp [hsize]

/-! ## The verdicts -/

/-- The text of the chunk is the fingerprint of the bytes in its range. -/
def Matches (payload : List UInt8) (c : Chunk) : Prop :=
  c.hash.utf8ByteSize = 16 ∧ fromStrRadix16 c.hash = some (chunkHash (slice payload c.range))

/-- The payload has all bytes of the range. -/
def Present (payload : List UInt8) (c : Chunk) : Prop :=
  c.stop.toNat ≤ payload.length ∨ c.start = c.stop

instance (payload : List UInt8) (c : Chunk) : Decidable (Matches chunkHash payload c) :=
  inferInstanceAs (Decidable (_ ∧ _))

instance (payload : List UInt8) (c : Chunk) : Decidable (Present payload c) :=
  inferInstanceAs (Decidable (_ ∨ _))

/-- Over ranges in order, the loop in memory does not panic. -/
theorem verifyEach_ordered (payload : List UInt8) {cached : List Chunk}
    (horder : ∀ c ∈ cached, c.start ≤ c.stop) :
    ∃ verdict, verifyEach chunkHash payload cached = some verdict ∧ (verdict = true ↔
      ∀ c ∈ cached, Matches chunkHash payload c ∧ c.stop.toNat ≤ payload.length) := by
  induction cached with
  | nil => exact ⟨true, rfl, by simp⟩
  | cons c rest ih =>
      obtain ⟨hc, hrest⟩ := List.forall_mem_cons.1 horder
      -- a chunk that fails decides
      have hfalse : ¬ (Matches chunkHash payload c ∧ c.stop.toNat ≤ payload.length) →
          ((false = true) ↔ ∀ d ∈ c :: rest,
            Matches chunkHash payload d ∧ d.stop.toNat ≤ payload.length) := by
        intro hnot
        rw [List.forall_mem_cons]
        simp [hnot]
      unfold verifyEach
      cases hhash : fromStrRadix16 c.hash with
      | none => exact ⟨false, rfl, hfalse fun h => by simp [h.1.2] at hhash⟩
      | some expected =>
          simp only
          split_ifs with hlen hstop hrange hne
          · exact ⟨false, rfl, hfalse fun h => hlen h.1.1⟩
          · exact ⟨false, rfl, hfalse fun h => Nat.not_lt.2 h.2 hstop⟩
          · exact absurd hc (UInt64.not_le.2 hrange)
          · refine ⟨false, rfl, hfalse fun h => hne ?_⟩
            rw [h.1.2] at hhash
            exact Option.some.inj hhash
          · obtain ⟨verdict, hverdict, hiff⟩ := ih hrest
            have hmatch : Matches chunkHash payload c ∧ c.stop.toNat ≤ payload.length := by
              refine ⟨⟨not_not.1 hlen, ?_⟩, Nat.not_lt.1 hstop⟩
              rw [hhash, ← not_not.1 hne]
              rfl
            refine ⟨verdict, hverdict, ?_⟩
            rw [hiff, List.forall_mem_cons, and_iff_right hmatch]

theorem exists_not_matches {cached : List Chunk} (h : decodeHashes cached = none)
    (payload : List UInt8) : ∃ c ∈ cached, ¬ Matches chunkHash payload c := by
  induction cached with
  | nil => cases h
  | cons c rest ih =>
      unfold decodeHashes at h
      cases hhash : fromStrRadix16 c.hash with
      | none =>
          refine ⟨c, List.mem_cons_self, fun hmatch => ?_⟩
          rw [hmatch.2] at hhash
          cases hhash
      | some expected =>
          rw [hhash] at h
          simp only at h
          split_ifs at h with hlen
          · rw [Option.map_eq_none_iff] at h
            obtain ⟨d, hd, hnot⟩ := ih h
            exact ⟨d, List.mem_cons_of_mem c hd, hnot⟩
          · exact ⟨c, List.mem_cons_self, fun hmatch => hlen hmatch.1⟩

theorem decodeHashes_getElem {cached : List Chunk} {decoded : List UInt64}
    (h : decodeHashes cached = some decoded) {idx : Nat} {c : Chunk} (hc : cached[idx]? = some c) :
    ∃ expected, decoded[idx]? = some expected ∧ c.hash.utf8ByteSize = 16 ∧
      fromStrRadix16 c.hash = some expected := by
  induction cached generalizing decoded idx with
  | nil => cases hc
  | cons d rest ih =>
      unfold decodeHashes at h
      cases hhash : fromStrRadix16 d.hash with
      | none =>
          rw [hhash] at h
          cases h
      | some expected =>
          rw [hhash] at h
          simp only at h
          split_ifs at h with hlen
          obtain ⟨tail, htail, rfl⟩ := Option.map_eq_some_iff.1 h
          cases idx with
          | zero =>
              obtain rfl := Option.some.inj hc
              exact ⟨expected, rfl, hlen, hhash⟩
          | succ idx => exact ih htail hc

/-- A read at a range in order is its slice, when the file has all of it. -/
theorem readExactAt_range (file : List UInt8) {c : Chunk} (horder : c.start ≤ c.stop) :
    (Present file c → readExactAt file (c.stop - c.start).toNat c.start.toNat =
      some (slice file c.range)) ∧
    (¬ Present file c → readExactAt file (c.stop - c.start).toNat c.start.toNat = none) := by
  have hlen := UInt64.toNat_sub_of_le _ _ horder
  have hle := UInt64.le_iff_toNat_le.1 horder
  have hslice : slice file c.range =
      (file.drop c.start.toNat).take (c.stop.toNat - c.start.toNat) := List.drop_take
  have hpresent : Present file c ↔
      c.stop.toNat - c.start.toNat ≤ (file.drop c.start.toNat).length := by
    unfold Present
    rw [List.length_drop, ← UInt64.toNat_inj]
    omega
  unfold readExactAt
  rw [hlen, hslice, hpresent]
  exact ⟨fun h => if_pos h, fun h => if_neg h⟩

/-- **A round of a thread** compares the fingerprint of a range that the file has. -/
theorem stripeCheck_iff {file : List UInt8} {cached : List Chunk} {decoded : List UInt64}
    (hdecoded : decodeHashes cached = some decoded) {idx : Nat} {c : Chunk}
    (hc : cached[idx]? = some c) (horder : c.start ≤ c.stop) :
    stripeCheck chunkHash file cached decoded idx = true ↔
      Matches chunkHash file c ∧ Present file c := by
  obtain ⟨expected, hexpected, hlen, hhash⟩ := decodeHashes_getElem hdecoded hc
  unfold stripeCheck Matches
  rw [hc, hexpected, hhash]
  simp only
  by_cases hpresent : Present file c
  · rw [(readExactAt_range file horder).1 hpresent]
    simp only [beq_iff_eq, hpresent, hlen, true_and, and_true, Option.some.injEq]
    exact eq_comm
  · rw [(readExactAt_range file horder).2 hpresent]
    simp [hpresent]

/-- **The verdict in memory.** -/
theorem verifyInMemoryChecked_iff {cached : List Chunk} {payload : List UInt8} {n : UInt64}
    (hne : cached ≠ []) (hbound : payload.length < UInt64.size)
    (h : coveredChecked cached = some n) :
    ∃ verdict, verifyInMemoryChecked chunkHash cached payload = some verdict ∧ (verdict = true ↔
      totalLength cached = payload.length ∧
        ∀ c ∈ cached, Matches chunkHash payload c ∧ c.stop.toNat ≤ payload.length) := by
  have horder := (coveredChecked_eq_some.1 h).1
  have hsize := eq_size_iff h hbound
  unfold verifyInMemoryChecked
  rw [if_neg (by simpa using hne), h]
  simp only
  split_ifs with hdiff
  · exact ⟨false, rfl, by simp [mt hsize.2 hdiff]⟩
  · rw [and_iff_right (hsize.1 (not_not.1 hdiff))]
    exact verifyEach_ordered chunkHash payload horder

/-- **The verdict of the threads**, whatever the seed and the schedule. -/
theorem verifyChunksChecked_iff {cached : List Chunk} {payload : List UInt8} {n seed : UInt64}
    {schedule : List (Nat × Bool)} {verdict : Bool} (hne : cached ≠ [])
    (hbound : payload.length < UInt64.size) (h : coveredChecked cached = some n)
    (hrun : verifyChunksChecked chunkHash cached payload payload.length seed schedule =
      some (some verdict)) :
    verdict = true ↔ totalLength cached = payload.length ∧
      ∀ c ∈ cached, Matches chunkHash payload c ∧ Present payload c := by
  have horder := (coveredChecked_eq_some.1 h).1
  have hsize := eq_size_iff h hbound
  unfold verifyChunksChecked at hrun
  rw [if_neg (by simpa using hne), h] at hrun
  simp only at hrun
  split_ifs at hrun with hdiff
  · obtain rfl := Option.some.inj (Option.some.inj hrun)
    simp [mt hsize.2 hdiff]
  rw [and_iff_right (hsize.1 (not_not.1 hdiff))]
  cases hdecoded : decodeHashes cached with
  | none =>
      rw [hdecoded] at hrun
      obtain rfl := Option.some.inj (Option.some.inj hrun)
      obtain ⟨c, hc, hnot⟩ := exists_not_matches chunkHash hdecoded payload
      simp only [Bool.false_eq_true, false_iff]
      exact fun hall => hnot (hall c hc).1
  | some decoded =>
      rw [hdecoded] at hrun
      simp only at hrun
      split at hrun
      · cases hrun
      · next s hs =>
          split_ifs at hrun with hfin
          · obtain rfl := Option.some.inj (Option.some.inj hrun)
            rw [Bool.not_eq_true', StopFlag.stopped_iff hs hfin, forall_stripes,
              List.forall_mem_iff_forall_getElem]
            refine forall₂_congr fun idx hidx => ?_
            exact stripeCheck_iff chunkHash hdecoded (List.getElem?_eq_getElem hidx)
              (horder _ (List.getElem_mem hidx))
          · cases Option.some.inj hrun

/-! ## Soundness -/

/-- Every byte is in a chunk whose fingerprint is that of its range. -/
def Vouched (cached : List Chunk) (payload : List UInt8) : Prop :=
  ∀ i < payload.length, ∃ c ∈ cached,
    Matches chunkHash payload c ∧ c.start.toNat ≤ i ∧ i < c.stop.toNat

/-- Both verifications finish, with one verdict, and if it is `true` every byte is vouched for. -/
def VerifiesSoundly (cached : List Chunk) (payload : List UInt8) : Prop :=
  ∃ verdict, verifyInMemoryChecked chunkHash cached payload = some verdict ∧
    (∀ seed,
      (∃ schedule, verifyChunksChecked chunkHash cached payload payload.length seed schedule =
        some (some verdict)) ∧
      ∀ schedule,
        verifyChunksChecked chunkHash cached payload payload.length seed schedule = some none ∨
        verifyChunksChecked chunkHash cached payload payload.length seed schedule =
          some (some verdict)) ∧
    (verdict = true → Vouched chunkHash cached payload)

/-- No range ends before it starts, and the lengths can be added up. When they add up to the size of
    the payload and all fingerprints agree, no range ends beyond it and no byte is in two. -/
def LaidOut (cached : List Chunk) (payload : List UInt8) : Prop :=
  (∀ c ∈ cached, c.start ≤ c.stop) ∧ totalLength cached < UInt64.size ∧
    (totalLength cached = payload.length →
      (∀ c ∈ cached, Matches chunkHash payload c ∧ Present payload c) →
      (∀ c ∈ cached, c.stop.toNat ≤ payload.length) ∧
        ∀ i < payload.length, depth (cached.map Chunk.range) i ≤ 1)

/-- **A byte is missed exactly if another is in two chunks**, when the lengths add up. -/
theorem vouched_iff {cached : List Chunk} {payload : List UInt8}
    (htotal : totalLength cached = payload.length)
    (hall : ∀ c ∈ cached, Matches chunkHash payload c ∧ c.stop.toNat ≤ payload.length) :
    Vouched chunkHash cached payload ↔
      ∀ i < payload.length, depth (cached.map Chunk.range) i ≤ 1 := by
  have hstop : ∀ r ∈ cached.map Chunk.range, r.2 ≤ payload.length := by
    intro r hr
    obtain ⟨c, hc, rfl⟩ := List.mem_map.1 hr
    exact (hall c hc).2
  rw [← covers_iff hstop htotal]
  refine forall₂_congr fun i hi => ?_
  constructor
  · rintro ⟨c, hc, -, hin⟩
    exact ⟨c.range, List.mem_map_of_mem hc, hin⟩
  · rintro ⟨r, hr, hin⟩
    obtain ⟨c, hc, rfl⟩ := List.mem_map.1 hr
    exact ⟨c, hc, (hall c hc).1, hin⟩

/-- What the threads come to. -/
theorem threads_iff {cached : List Chunk} {payload : List UInt8} {n : UInt64} (hne : cached ≠ [])
    (hbound : payload.length < UInt64.size) (h : coveredChecked cached = some n) (verdict : Bool) :
    (∀ seed,
      (∃ schedule, verifyChunksChecked chunkHash cached payload payload.length seed schedule =
        some (some verdict)) ∧
      ∀ schedule,
        verifyChunksChecked chunkHash cached payload payload.length seed schedule = some none ∨
        verifyChunksChecked chunkHash cached payload payload.length seed schedule =
          some (some verdict)) ↔
    (verdict = true ↔ totalLength cached = payload.length ∧
      ∀ c ∈ cached, Matches chunkHash payload c ∧ Present payload c) := by
  constructor
  · intro hall
    obtain ⟨⟨schedule, hrun⟩, -⟩ := hall 0
    exact verifyChunksChecked_iff chunkHash hne hbound h hrun
  · intro hverdict seed
    have hsame : ∀ schedule v,
        verifyChunksChecked chunkHash cached payload payload.length seed schedule =
          some (some v) → v = verdict := by
      intro schedule v hrun
      exact Bool.eq_iff_iff.2
        ((verifyChunksChecked_iff chunkHash hne hbound h hrun).trans hverdict.symm)
    constructor
    · obtain ⟨schedule, v, hrun⟩ := exists_verifyChunks chunkHash cached payload payload.length seed
      have hchecked := verifyChunksChecked_eq chunkHash h payload payload.length seed schedule
      rw [hrun] at hchecked
      exact ⟨schedule, hsame schedule v hchecked ▸ hchecked⟩
    · intro schedule
      have hchecked := verifyChunksChecked_eq chunkHash h payload payload.length seed schedule
      cases hrun : verifyChunks chunkHash cached payload payload.length seed schedule with
      | none => exact Or.inl (hrun ▸ hchecked)
      | some v =>
          rw [hrun] at hchecked
          exact Or.inr (hsame schedule v hchecked ▸ hchecked)

theorem verifiesSoundly_nil (payload : List UInt8) : VerifiesSoundly chunkHash [] payload :=
  ⟨false, rfl, fun _ => ⟨⟨[], rfl⟩, fun _ => Or.inr rfl⟩, fun h => absurd h (by decide)⟩

/-- With chunks to add up, soundness is that they are laid out. -/
theorem verifiesSoundly_cons {cached : List Chunk} {payload : List UInt8} (hne : cached ≠ [])
    (hbound : payload.length < UInt64.size) :
    VerifiesSoundly chunkHash cached payload ↔ LaidOut chunkHash cached payload := by
  cases h : coveredChecked cached with
  | none =>
      constructor
      · rintro ⟨verdict, hverdict, -⟩
        rw [verifyInMemoryChecked_panics chunkHash hne h] at hverdict
        cases hverdict
      · rintro ⟨horder, hfits, -⟩
        have hsome := coveredChecked_eq_some.2
          ⟨horder, (UInt64.toNat_ofNat_of_lt' hfits).symm⟩
        rw [h] at hsome
        cases hsome
  | some n =>
      obtain ⟨horder, htotal⟩ := coveredChecked_eq_some.1 h
      obtain ⟨verdict, hverdict, hiff⟩ := verifyInMemoryChecked_iff chunkHash hne hbound h
      have hfits : totalLength cached < UInt64.size := htotal ▸ n.toNat_lt
      unfold VerifiesSoundly LaidOut
      rw [and_iff_right horder, and_iff_right hfits]
      constructor
      · rintro ⟨v, hv, hthreads, hvouched⟩ hsize hall
        rw [threads_iff chunkHash hne hbound h] at hthreads
        rw [hverdict] at hv
        obtain rfl := Option.some.inj hv
        have htrue := hthreads.2 ⟨hsize, hall⟩
        have hmatches := (hiff.1 htrue).2
        exact ⟨fun c hc => (hmatches c hc).2,
          (vouched_iff chunkHash hsize hmatches).1 (hvouched htrue)⟩
      · intro hlaid
        refine ⟨verdict, hverdict, (threads_iff chunkHash hne hbound h _).2 ?_, fun htrue => ?_⟩
        · rw [hiff]
          refine and_congr_right fun hsize => ⟨fun hall c hc => ?_, fun hall c hc => ?_⟩
          · exact ⟨(hall c hc).1, Or.inl (hall c hc).2⟩
          · exact ⟨(hall c hc).1, (hlaid hsize hall).1 c hc⟩
        · obtain ⟨hsize, hmatches⟩ := hiff.1 htrue
          have hall : ∀ c ∈ cached, Matches chunkHash payload c ∧ Present payload c :=
            fun c hc => ⟨(hmatches c hc).1, Or.inl (hmatches c hc).2⟩
          exact (vouched_iff chunkHash hsize hmatches).2 (hlaid hsize hall).2

/-- **When the verification against an entry is sound**: exactly when it has no chunks or they are
    laid out. -/
theorem verifiesSoundly_iff {entry : CacheEntry} {payload : List UInt8}
    (hsize : payload.length = entry.size) (hbound : entry.size < UInt64.size) :
    VerifiesSoundly chunkHash entry.chunks payload ↔
      entry.chunks = [] ∨ LaidOut chunkHash entry.chunks payload := by
  by_cases hne : entry.chunks = []
  · rw [hne]
    exact iff_of_true (verifiesSoundly_nil chunkHash payload) (Or.inl rfl)
  · rw [verifiesSoundly_cons chunkHash hne (hsize ▸ hbound)]
    exact (or_iff_right hne).symm

end Verify

/-! ## Entries of the payload `ab` -/

namespace Sample

def twoBytes : List UInt8 := [97, 98]

/-- xxh3-64 of `a`, of `ab` and of nothing. -/
def xxh3Texts (bytes : List UInt8) : UInt64 :=
  if bytes = [97] then 0xe6c632b61e964e1f
  else if bytes = twoBytes then 0xa873719c24d5735c
  else 0x2d06800538d394c2

def wholeEntry : CacheEntry := ⟨currentVersion, 2, [⟨0, 2, "a873719c24d5735c"⟩], ""⟩

/-- The first byte twice, the second not at all. -/
def overlapEntry : CacheEntry :=
  ⟨currentVersion, 2, [⟨0, 1, "e6c632b61e964e1f"⟩, ⟨0, 1, "e6c632b61e964e1f"⟩], ""⟩

/-- The whole payload, and nothing after its end. -/
def beyondEntry : CacheEntry :=
  ⟨currentVersion, 2, [⟨0, 2, "a873719c24d5735c"⟩, ⟨5, 5, "2d06800538d394c2"⟩], ""⟩

def invertedEntry : CacheEntry := ⟨currentVersion, 2, [⟨1, 0, "2d06800538d394c2"⟩], ""⟩

end Sample

open Sample in
theorem verifiesSoundly_whole : VerifiesSoundly xxh3Texts wholeEntry.chunks twoBytes := by
  have hlaid : LaidOut xxh3Texts wholeEntry.chunks twoBytes :=
    ⟨by decide, by decide, fun _ _ => ⟨by decide, by decide⟩⟩
  exact (@verifiesSoundly_iff xxh3Texts wholeEntry twoBytes rfl (by decide)).2 (Or.inr hlaid)

open Sample in
/-- **A byte that no chunk has is accepted**, two chunks that end in different verdicts, and one that
    panics. -/
theorem overlap_accepted :
    (verifyInMemoryChecked xxh3Texts overlapEntry.chunks twoBytes = some true ∧
      ¬ Vouched xxh3Texts overlapEntry.chunks twoBytes) ∧
    ¬ VerifiesSoundly xxh3Texts overlapEntry.chunks twoBytes ∧
    ¬ VerifiesSoundly xxh3Texts beyondEntry.chunks twoBytes ∧
    ¬ VerifiesSoundly xxh3Texts invertedEntry.chunks twoBytes := by
  have hbound : twoBytes.length < UInt64.size := by decide
  refine ⟨⟨by decide, ?_⟩, ?_, ?_, ?_⟩
  · intro hvouched
    obtain ⟨c, hc, -, -, hstop⟩ := hvouched 1 (by decide)
    have hshort : ∀ c ∈ overlapEntry.chunks, ¬ 1 < c.stop.toNat := by decide
    exact hshort c hc hstop
  · rw [verifiesSoundly_cons xxh3Texts (by decide) hbound]
    intro hlaid
    have honce := (hlaid.2.2 (by decide) (by decide)).2 0 (by decide)
    exact absurd honce (by decide)
  · rw [verifiesSoundly_cons xxh3Texts (by decide) hbound]
    intro hlaid
    have hstop := (hlaid.2.2 (by decide) (by decide)).1
    exact absurd hstop (by decide)
  · rw [verifiesSoundly_cons xxh3Texts (by decide) hbound]
    intro hlaid
    exact absurd hlaid.1 (by decide)

end BaleForGit
