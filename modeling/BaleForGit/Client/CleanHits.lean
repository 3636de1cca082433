import Mathlib.Logic.Function.Basic
import BaleForGit.Client.CleanVerify
import BaleForGit.Client.Site

set_option autoImplicit false

/-! # Clean-cache hits are exact

Three functions save an entry: `handle_clean_in_memory`, `handle_clean` and
`populate_clean_cache_from_smudge`; `forget_hashes` removes entries. `CacheAct` is a call of one of
them, and the clean cache is what a list of calls leaves. The entry that a call saved for a pathname
stays until a later one replaces or removes it, and as long as it does, a payload of that pathname
hits exactly if it is the content that the entry was saved from (`clean_cache_exact`), in memory as
well as spilled. -/

namespace BaleForGit

open Tiling

/-! ## Payloads -/

/-- Where `drain_clean_payload` left the payload. The verification of a spilled one depends on the
    seed of `priority_order` and on how its threads are scheduled. -/
inductive PayloadKind where
  | inMemory
  | spilled (seed : UInt64) (schedule : List (Nat × Bool))

section Payloads

variable (chunkHash : List UInt8 → UInt64)

/-- The verification that `do_clean` calls. -/
def verifyPayload (kind : PayloadKind) (cached : List Chunk) (payload : List UInt8) :
    Option Bool :=
  match kind with
  | .inMemory => verifyChunksInMemory chunkHash cached payload
  | .spilled seed schedule =>
    verifyChunks chunkHash cached payload payload.length seed schedule

/-- The index that `handle_clean_in_memory` or `handle_clean` builds. -/
def indexPayload (kind : PayloadKind) (payload : List UInt8) : Option (List Chunk) :=
  match kind with
  | .inMemory => some (computeChunks chunkHash payload)
  | .spilled _ _ => computeChunksFile chunkHash payload payload.length

/-- The schedule of a spilled payload runs its threads to their end. -/
def PayloadKind.Ends (cached : List Chunk) (payload : List UInt8) : PayloadKind → Prop
  | .inMemory => True
  | .spilled seed schedule =>
    verifyChunks chunkHash cached payload payload.length seed schedule ≠ none

theorem indexPayload_eq (kind : PayloadKind) (payload : List UInt8) :
    indexPayload chunkHash kind payload = some (computeChunks chunkHash payload) := by
  cases kind with
  | inMemory => rfl
  | spilled seed schedule => exact computeChunksFile_eq chunkHash payload

/-- **One verdict for all payloads**, in memory or spilled. -/
theorem verifyPayload_computeChunks {kind : PayloadKind} {content payload : List UInt8}
    (hsize : content.length < UInt64.size)
    (hends : kind.Ends chunkHash (computeChunks chunkHash content) payload) :
    verifyPayload chunkHash kind (computeChunks chunkHash content) payload =
      some (decide (SameChunks chunkHash content payload)) := by
  cases kind with
  | inMemory => exact verifyChunksInMemory_computeChunks chunkHash payload hsize
  | spilled seed schedule =>
      obtain ⟨verdict, hverdict⟩ := Option.ne_none_iff_exists'.1 hends
      rw [verifyPayload, hverdict, verifyChunks_computeChunks chunkHash hsize hverdict]

end Payloads

/-! ## The calls that change the cache -/

inductive CacheAct where
  | handleCleanInMemory (pathname : String) (bytes : List UInt8) (pointer : String)
      (fileSize : UInt64)
  | handleClean (pathname : String) (file : List UInt8) (pointer : String) (fileSize : UInt64)
  | populateFromSmudge (pathname : String) (file : List UInt8) (pointerBytes : List UInt8)
      (fileSize : UInt64)
  | forgetHashes (hashes : Finset String)

namespace CacheAct

/-- The call is for this pathname, content and pointer text, and states the length of the content. -/
inductive SavesFrom (pathname : String) (content : List UInt8) (pointer : String) : CacheAct → Prop
  | inMemory {fileSize : UInt64} (size : fileSize.toNat = content.length) :
      SavesFrom pathname content pointer (.handleCleanInMemory pathname content pointer fileSize)
  | file {fileSize : UInt64} (size : fileSize.toNat = content.length) :
      SavesFrom pathname content pointer (.handleClean pathname content pointer fileSize)
  | smudge {pointerBytes : List UInt8} {fileSize : UInt64}
      (text : fromUtf8 pointerBytes = some pointer) (size : fileSize.toNat = content.length) :
      SavesFrom pathname content pointer
        (.populateFromSmudge pathname content pointerBytes fileSize)

variable (chunkHash : List UInt8 → UInt64)

/-- The entry that a call saves, with its pathname: none after a read error, or for a pointer that is
    not UTF-8. -/
def saved : CacheAct → Option (String × CacheEntry)
  | .handleCleanInMemory pathname bytes pointer fileSize =>
    some (pathname,
      ⟨currentVersion, fileSize.toNat, computeChunks chunkHash bytes, pointer⟩)
  | .handleClean pathname file pointer fileSize =>
    (computeChunksFile chunkHash file fileSize.toNat).map (fun chunks =>
      (pathname, ⟨currentVersion, fileSize.toNat, chunks, pointer⟩))
  | .populateFromSmudge pathname file pointerBytes fileSize =>
    (fromUtf8 pointerBytes).bind (fun pointer =>
      (computeChunksFile chunkHash file fileSize.toNat).map (fun chunks =>
        (pathname, ⟨currentVersion, fileSize.toNat, chunks, pointer⟩)))
  | .forgetHashes _ => none

/-- The hashes that a call forgets. -/
def forgotten : CacheAct → Finset String
  | .forgetHashes hashes => hashes
  | _ => ∅

/-- The call neither replaces the entry of this pathname nor removes it for its pointer. -/
def Leaves (serde : Serde) (pathname pointer : String) (a : CacheAct) : Prop :=
  (∀ entry, a.saved chunkHash ≠ some (pathname, entry)) ∧
    ∀ h, serde.hashField pointer = some h → h ∉ a.forgotten

variable {Obj Key : Type} [DecidableEq Key] (deps : Deps Obj Key)

/-- The cache after a call: one that fails to save forgets nothing either. -/
def apply (cache : CleanCache Key) (a : CacheAct) : CleanCache Key :=
  match a.saved chunkHash with
  | some (pathname, entry) => cache.save (deps.pathKey pathname) entry
  | none => cache.forgetHashes deps.serde a.forgotten

end CacheAct

/-- The entry that every call saves for this content and pointer text. -/
def savedEntry (chunkHash : List UInt8 → UInt64) (content : List UInt8) (pointer : String) :
    CacheEntry :=
  ⟨currentVersion, content.length, computeChunks chunkHash content, pointer⟩

theorem CacheAct.SavesFrom.saved {chunkHash : List UInt8 → UInt64} {pathname pointer : String}
    {content : List UInt8} {a : CacheAct} (h : a.SavesFrom pathname content pointer) :
    a.saved chunkHash = some (pathname, savedEntry chunkHash content pointer) := by
  cases h with
  | inMemory size => simp only [CacheAct.saved, savedEntry, size]
  | file size =>
      simp only [CacheAct.saved, savedEntry, size, computeChunksFile_eq, Option.map_some]
  | smudge text size =>
      simp only [CacheAct.saved, savedEntry, text, size, computeChunksFile_eq, Option.map_some,
        Option.bind_some]

/-- A stated size is a 64-bit number. -/
theorem CacheAct.SavesFrom.length_lt {pathname pointer : String} {content : List UInt8}
    {a : CacheAct} (h : a.SavesFrom pathname content pointer) :
    content.length < UInt64.size := by
  cases h with
  | inMemory size => exact size ▸ UInt64.toNat_lt_size _
  | file size => exact size ▸ UInt64.toNat_lt_size _
  | smudge text size => exact size ▸ UInt64.toNat_lt_size _

namespace CleanCache

variable {Key : Type}

theorem save_self [DecidableEq Key] (cache : CleanCache Key) (key : Key) (entry : CacheEntry) :
    cache.save key entry key = some entry := if_pos rfl

theorem save_of_ne [DecidableEq Key] (cache : CleanCache Key) {key k : Key} (entry : CacheEntry)
    (h : k ≠ key) : cache.save key entry k = cache k := if_neg h

/-- An entry whose hash is not among the forgotten ones stays. -/
theorem forgetHashes_keeps {serde : Serde} {cache : CleanCache Key} {hashes : Finset String}
    {k : Key} {entry : CacheEntry} (hentry : cache k = some entry)
    (h : ∀ h', serde.hashField entry.pointer = some h' → h' ∉ hashes) :
    cache.forgetHashes serde hashes k = some entry := by
  unfold forgetHashes
  split_ifs
  · exact hentry
  · simp only [hentry, Option.filter_some]
    rw [if_pos]
    unfold forgets
    cases hfield : serde.hashField entry.pointer with
    | none => rfl
    | some h' => simpa using h h' hfield

end CleanCache

section Hits

variable {Obj Key : Type} [DecidableEq Key] {deps : Deps Obj Key}
  {chunkHash : List UInt8 → UInt64}

/-- **A call that leaves an entry keeps it.** Pathnames have keys of their own. -/
theorem CacheAct.apply_keeps (hpath : Function.Injective deps.pathKey) {cache : CleanCache Key}
    {pathname : String} {entry : CacheEntry} {a : CacheAct}
    (hentry : cache (deps.pathKey pathname) = some entry)
    (ha : a.Leaves chunkHash deps.serde pathname entry.pointer) :
    a.apply chunkHash deps cache (deps.pathKey pathname) = some entry := by
  unfold CacheAct.apply
  cases hsaved : a.saved chunkHash with
  | none => exact CleanCache.forgetHashes_keeps hentry ha.2
  | some other =>
      obtain ⟨name, e⟩ := other
      have hne : deps.pathKey pathname ≠ deps.pathKey name := by
        intro hkey
        obtain rfl := hpath hkey
        exact ha.1 e hsaved
      simp only [CleanCache.save_of_ne cache e hne, hentry]

theorem CacheAct.foldl_keeps (hpath : Function.Injective deps.pathKey) {cache : CleanCache Key}
    {pathname : String} {entry : CacheEntry} {later : List CacheAct}
    (hentry : cache (deps.pathKey pathname) = some entry)
    (hlater : ∀ a ∈ later, a.Leaves chunkHash deps.serde pathname entry.pointer) :
    later.foldl (fun cache a => a.apply chunkHash deps cache) cache (deps.pathKey pathname) =
      some entry := by
  induction later generalizing cache with
  | nil => exact hentry
  | cons a later ih =>
      rw [List.foldl_cons]
      exact ih (CacheAct.apply_keeps hpath hentry (hlater a List.mem_cons_self))
        fun b hb => hlater b (List.mem_cons_of_mem a hb)

/-- **The entry of the last save is there.** -/
theorem CacheAct.entry_after (hpath : Function.Injective deps.pathKey) {pathname pointer : String}
    {content : List UInt8} {saving : CacheAct} {later : List CacheAct} (cache : CleanCache Key)
    (hsaving : saving.SavesFrom pathname content pointer)
    (hlater : ∀ a ∈ later, a.Leaves chunkHash deps.serde pathname pointer) :
    (saving :: later).foldl (fun cache a => a.apply chunkHash deps cache) cache
      (deps.pathKey pathname) = some (savedEntry chunkHash content pointer) := by
  rw [List.foldl_cons]
  refine CacheAct.foldl_keeps hpath ?_ hlater
  unfold CacheAct.apply
  rw [hsaving.saved]
  exact CleanCache.save_self cache _ _

/-! ## The filter over this cache -/

/-- The calls of the filter, with the chunk functions for a payload of this kind. A file is as long
    as its size says, so its index is always built (`indexPayload_eq`). -/
def Deps.withChunks (deps : Deps Obj Key) (chunkHash : List UInt8 → UInt64) (kind : PayloadKind) :
    Deps Obj Key :=
  { deps with
    chunkIndex := fun payload => (indexPayload chunkHash kind payload).getD []
    verify := verifyPayload chunkHash kind }

/-- What a full clean leaves in the cache is what its handler's call leaves. -/
theorem fullClean_cache (kind : PayloadKind) (dir : BaleDir Key) (store : Finset Obj)
    (pathname : String) {payload : List UInt8} (now : Nat) (hsize : payload.length < UInt64.size) :
    let out := fullClean (deps.withChunks chunkHash kind) dir store pathname payload now
    let fileSize := UInt64.ofNat payload.length
    out.dir.cache =
      match kind with
      | .inMemory => (CacheAct.handleCleanInMemory pathname payload out.pointer fileSize).apply
          chunkHash deps dir.cache
      | .spilled _ _ => (CacheAct.handleClean pathname payload out.pointer fileSize).apply
          chunkHash deps dir.cache := by
  have hlen : (UInt64.ofNat payload.length).toNat = payload.length :=
    UInt64.toNat_ofNat_of_lt' hsize
  cases kind with
  | inMemory =>
      simp only [fullClean, cleanEntry, Deps.withChunks, indexPayload, CacheAct.apply,
        CacheAct.saved, hlen, Option.getD_some]
  | spilled seed schedule =>
      simp only [fullClean, cleanEntry, Deps.withChunks, indexPayload, CacheAct.apply,
        CacheAct.saved, hlen, computeChunksFile_eq, Option.getD_some, Option.map_some]

/-- What a smudge leaves in the cache is what `populate_clean_cache_from_smudge` leaves, which
    always reads a file. -/
theorem smudgeLocal_cache (kind : PayloadKind) {cache cache' : CleanCache Key} {store : Finset Obj}
    {pathname : String} {pointerBuf bytes : List UInt8}
    (h : smudgeLocal (deps.withChunks chunkHash kind) cache store pathname pointerBuf =
      some (cache', bytes)) (hsize : bytes.length < UInt64.size) :
    cache' = (CacheAct.populateFromSmudge pathname bytes pointerBuf
      (UInt64.ofNat bytes.length)).apply chunkHash deps cache := by
  have hlen : (UInt64.ofNat bytes.length).toNat = bytes.length :=
    UInt64.toNat_ofNat_of_lt' hsize
  obtain ⟨info, -, -, hcache⟩ := smudgeLocal_eq_some _ h
  rw [hcache]
  simp only [Deps.withChunks, indexPayload_eq, Option.getD_some, CacheAct.apply, CacheAct.saved,
    hlen, computeChunksFile_eq, Option.map_some]
  cases fromUtf8 pointerBuf with
  | none => simp only [Option.bind_none, CacheAct.forgotten, CleanCache.forgetHashes, if_true,
      Option.elim_none]
  | some pointer => simp only [Option.bind_some, Option.elim_some]

omit [DecidableEq Key] in
/-- **The check of `do_clean`** against a saved entry. -/
theorem cacheLookup_saved {cache : CleanCache Key} {pathname pointer : String}
    {content payload : List UInt8} {kind : PayloadKind}
    (hentry : cache (deps.pathKey pathname) = some (savedEntry chunkHash content pointer))
    (hsize : content.length < UInt64.size)
    (hinj : ∀ r ∈ chunkRanges content.length,
      chunkHash (slice payload r) = chunkHash (slice content r) → slice payload r = slice content r)
    (hends : kind.Ends chunkHash (computeChunks chunkHash content) payload) :
    cacheLookup (deps.withChunks chunkHash kind) cache pathname payload =
      some (if payload = content then some (savedEntry chunkHash content pointer) else none) := by
  have hload : cache.load ((deps.withChunks chunkHash kind).pathKey pathname) =
      some (savedEntry chunkHash content pointer) := by
    unfold CleanCache.load
    simp only [Deps.withChunks, hentry, savedEntry, ne_eq, not_true_eq_false, if_false]
  have hverify : (deps.withChunks chunkHash kind).verify (computeChunks chunkHash content) payload =
      some (decide (SameChunks chunkHash content payload)) :=
    verifyPayload_computeChunks chunkHash hsize hends
  unfold cacheLookup
  simp only [hload]
  by_cases hlen : content.length = payload.length
  · simp only [savedEntry, hlen, ne_eq, not_true_eq_false, if_false]
    rw [← hlen, hverify]
    by_cases hsame : SameChunks chunkHash content payload
    · obtain rfl := eq_of_sameChunks chunkHash hinj hlen.symm hsame
      simp [hsame]
    · have hne : payload ≠ content := fun heq => hsame (heq ▸ SameChunks.refl chunkHash payload)
      simp [hsame, hne]
  · have hne : payload ≠ content := fun heq => hlen (heq ▸ rfl)
    simp [savedEntry, hlen, hne]

/-- **Clean-cache hits are exact.** After a call that saved an entry for a pathname from `content`
    and `pointer`, and calls that leave it, the check accepts the payload `content` and no other, in
    memory and spilled, for every seed and every schedule that runs to its end, and there is one for
    every seed. A hit answers with `pointer` and changes neither cache nor store; anything else is a
    full clean. The fingerprints are taken not to collide. -/
theorem clean_cache_exact (deps : Deps Obj Key) (chunkHash : List UInt8 → UInt64)
    (hpath : Function.Injective deps.pathKey) {pathname pointer : String}
    {content : List UInt8} {saving : CacheAct} {later : List CacheAct} {before : CleanCache Key}
    {dir : BaleDir Key} (payload : List UInt8)
    (hsaving : saving.SavesFrom pathname content pointer)
    (hlater : ∀ a ∈ later, a.Leaves chunkHash deps.serde pathname pointer)
    (hdir : dir.cache =
      (saving :: later).foldl (fun cache a => a.apply chunkHash deps cache) before)
    (hinj : ∀ r ∈ chunkRanges content.length,
      chunkHash (slice payload r) = chunkHash (slice content r) →
        slice payload r = slice content r) :
    (∀ kind, PayloadKind.Ends chunkHash (computeChunks chunkHash content) payload kind →
      (∃ hit, cacheLookup (deps.withChunks chunkHash kind) dir.cache pathname payload = some hit ∧
        (hit.isSome = true ↔ payload = content)) ∧
      ∀ store now, ∃ out,
        doClean (deps.withChunks chunkHash kind) dir store pathname payload now = some out ∧
          (payload = content →
            out.pointer = pointer ∧ out.dir.cache = dir.cache ∧ out.store = store) ∧
          (payload ≠ content →
            out = fullClean (deps.withChunks chunkHash kind) dir store pathname payload now)) ∧
    computeChunksFile chunkHash payload payload.length = some (computeChunks chunkHash payload) ∧
    ∀ seed,
      (∃ schedule, PayloadKind.Ends chunkHash (computeChunks chunkHash content) payload
        (.spilled seed schedule)) ∧
      ∀ schedule verdict,
        verifyChunks chunkHash (computeChunks chunkHash content) payload payload.length seed
          schedule = some verdict →
        verifyChunksInMemory chunkHash (computeChunks chunkHash content) payload =
          some verdict := by
  have hsize := hsaving.length_lt
  have hentry : dir.cache (deps.pathKey pathname) = some (savedEntry chunkHash content pointer) := by
    rw [hdir]
    exact CacheAct.entry_after hpath before hsaving hlater
  refine ⟨fun kind hends => ?_, computeChunksFile_eq chunkHash payload, fun seed => ⟨?_, ?_⟩⟩
  · have hlookup := cacheLookup_saved hentry hsize hinj hends
    refine ⟨⟨_, hlookup, by split_ifs with heq <;> simp [heq]⟩, fun store now => ?_⟩
    unfold doClean
    rw [hlookup]
    by_cases heq : payload = content
    · rw [if_pos heq]
      exact ⟨_, rfl, fun _ => ⟨rfl, rfl, rfl⟩, fun hne => absurd heq hne⟩
    · rw [if_neg heq]
      exact ⟨_, rfl, fun h => absurd h heq, fun _ => rfl⟩
  · obtain ⟨schedule, verdict, hrun⟩ := exists_verifyChunks chunkHash
      (computeChunks chunkHash content) payload payload.length seed
    exact ⟨schedule, fun hnone => by rw [hnone] at hrun; cases hrun⟩
  · intro schedule verdict hrun
    rw [verifyChunks_computeChunks chunkHash hsize hrun]
    exact verifyChunksInMemory_computeChunks chunkHash payload hsize

end Hits

namespace Sample

/-- xxh3-64 of one to three bytes. -/
def xxh3 (bytes : List UInt8) : UInt64 :=
  let byte := fun i => (bytes.getD i 0).toUInt64
  let n := bytes.length
  let combined := (byte 0 <<< 16) ||| (byte (n / 2) <<< 24) ||| byte (n - 1) |||
    (UInt64.ofNat n <<< 8)
  let h := combined ^^^ 0x87275A9B
  let h := (h ^^^ (h >>> 33)) * 0xC2B2AE3D27D4EB4F
  let h := (h ^^^ (h >>> 29)) * 0x165667B19E3779F9
  h ^^^ (h >>> 32)

/-- The cache after a clean of one file and then of another. -/
def cleaned : BaleDir String where
  markers := Markers.empty
  cache := [CacheAct.handleClean "one.bin" [97] "pointer of a" 1,
    CacheAct.handleCleanInMemory "two.bin" [98] "pointer of b" 1].foldl
      (fun cache a => a.apply xxh3 deps cache) CleanCache.empty

end Sample

theorem clean_cache_exact_sample :
    (∃ out, doClean (Sample.deps.withChunks Sample.xxh3
        (.spilled 7 [(0, false), (0, true), (0, false)])) Sample.cleaned ∅ "one.bin" [97] 5 =
          some out ∧ out.pointer = "pointer of a") ∧
      ∃ hit, cacheLookup (Sample.deps.withChunks Sample.xxh3 .inMemory) Sample.cleaned.cache
        "one.bin" [98] = some hit ∧ ¬ hit.isSome = true := by
  have hlater : ∀ a ∈ [CacheAct.handleCleanInMemory "two.bin" [98] "pointer of b" 1],
      a.Leaves Sample.xxh3 Sample.deps.serde "one.bin" "pointer of a" := by
    intro a ha
    rw [List.mem_singleton.1 ha]
    exact ⟨fun entry => by simp [CacheAct.saved], fun h _ => by simp [CacheAct.forgotten]⟩
  have hcleaned : Sample.cleaned.cache =
      [CacheAct.handleClean "one.bin" [97] "pointer of a" 1,
        CacheAct.handleCleanInMemory "two.bin" [98] "pointer of b" 1].foldl
          (fun cache a => a.apply Sample.xxh3 Sample.deps cache) CleanCache.empty := rfl
  have hranges : chunkRanges [(97 : UInt8)].length = [(0, 1)] := by decide
  constructor
  · obtain ⟨hkind, -⟩ := clean_cache_exact Sample.deps Sample.xxh3 Function.injective_id [97]
      (.file rfl) hlater hcleaned (fun r hr h => rfl)
    obtain ⟨-, hclean⟩ := hkind (.spilled 7 [(0, false), (0, true), (0, false)])
      (by unfold PayloadKind.Ends; decide +kernel)
    obtain ⟨out, hout, hhit, -⟩ := hclean ∅ 5
    exact ⟨out, hout, (hhit rfl).1⟩
  · obtain ⟨hkind, -⟩ := clean_cache_exact Sample.deps Sample.xxh3 Function.injective_id [98]
      (.file rfl) hlater hcleaned (by
        rw [hranges]
        intro r hr h
        rw [List.mem_singleton.1 hr] at h
        exact absurd h (by decide +kernel))
    obtain ⟨⟨hit, hhit, hiff⟩, -⟩ := hkind .inMemory trivial
    exact ⟨hit, hhit, fun h => absurd (hiff.1 h) (by decide)⟩

end BaleForGit
