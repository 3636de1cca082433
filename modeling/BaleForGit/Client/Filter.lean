import BaleForGit.Client.Store

set_option autoImplicit false

/-! # The clean and smudge filters (`filter_process.rs`)

`doClean` turns a worktree file into a pointer. On a clean-cache hit it hands out the cached pointer
again, at most touching the marker; on a miss it writes the objects, the marker and a new cache
entry. `smudgeLocal` is the local-mode path of `handle_smudge`: it reconstructs the file from the
store and seeds the clean cache, without a marker. A repository that only ever ran in local mode
has no cached manifest, so the hot path of `handle_smudge` never applies to it.

Both are sequential here; the steps of `doClean` that other processes can interleave with are taken
apart in the race model, which uses the same pieces. -/

namespace BaleForGit

variable {Obj Key : Type} [DecidableEq Key] (deps : Deps Obj Key)

/-! ## Clean -/

/-- The cache lookup of `do_clean`: a panic of the verifier is `none`, a miss `some none`. -/
def cacheLookup (cache : CleanCache Key) (pathname : String) (payload : List UInt8) :
    Option (Option CacheEntry) :=
  match cache.load (deps.pathKey pathname) with
  | none => some none
  | some entry =>
    if entry.size ≠ payload.length then some none
    else match deps.verify entry.chunks payload with
      | none => none
      | some true => some (some entry)
      | some false => some none

/-- The marker update of a cache hit: touch the marker of the cached pointer's hash, if the pointer
    parses and the marker exists. -/
def touchCached (markers : Markers) (entry : CacheEntry) (now : Nat) : Markers :=
  match parsePointer deps.serde.fromStr (asBytes entry.pointer) with
  | .ok info => markers.touchIfExists info.hash now
  | .error _ => markers

/-- The entry that a full clean of `payload` saves. -/
def cleanEntry (payload : List UInt8) (info : XetFileInfo) : CacheEntry :=
  ⟨currentVersion, payload.length, deps.chunkIndex payload, encodePointerString deps.serde info⟩

/-- What a clean request leaves: the pointer it answers with, the git dir and the store. -/
structure CleanOutcome (Obj Key : Type) where
  pointer : String
  dir : BaleDir Key
  store : Finset Obj

/-- `handle_clean` and `handle_clean_in_memory`. -/
def fullClean (dir : BaleDir Key) (store : Finset Obj) (pathname : String) (payload : List UInt8)
    (now : Nat) : CleanOutcome Obj Key :=
  let (store', info) := deps.xet.clean store payload
  let entry := cleanEntry deps payload info
  ⟨entry.pointer,
    ⟨dir.markers.markFileStaged info.hash payload.length now,
      dir.cache.save (deps.pathKey pathname) entry⟩, store'⟩

/-- `do_clean`. -/
def doClean (dir : BaleDir Key) (store : Finset Obj) (pathname : String) (payload : List UInt8)
    (now : Nat) : Option (CleanOutcome Obj Key) :=
  match cacheLookup deps dir.cache pathname payload with
  | none => none
  | some (some entry) =>
    some ⟨entry.pointer, { dir with markers := touchCached deps dir.markers entry now }, store⟩
  | some none => some (fullClean deps dir store pathname payload now)

omit [DecidableEq Key] in
theorem cacheLookup_hit {cache : CleanCache Key} {pathname : String} {payload : List UInt8}
    {entry : CacheEntry} (h : cacheLookup deps cache pathname payload = some (some entry)) :
    cache (deps.pathKey pathname) = some entry := by
  unfold cacheLookup at h
  cases hload : cache.load (deps.pathKey pathname) with
  | none => simp [hload] at h
  | some e =>
      simp only [hload] at h
      split_ifs at h
      · simp at h
      · cases hv : deps.verify e.chunks payload with
        | none => simp [hv] at h
        | some b =>
            cases b with
            | false => simp [hv] at h
            | true =>
                simp only [hv, Option.some.injEq] at h
                exact h ▸ CleanCache.load_eq_some hload

omit [DecidableEq Key] in
@[simp] theorem files_touchCached (markers : Markers) (entry : CacheEntry) (now : Nat) :
    (touchCached deps markers entry now).files = markers.files := by
  unfold touchCached
  split
  · exact Markers.files_touchIfExists _ _ _
  · rfl

omit [DecidableEq Key] in
@[simp] theorem listStaged_touchCached (markers : Markers) (entry : CacheEntry) (now : Nat) :
    (touchCached deps markers entry now).listStaged = markers.listStaged := by
  unfold Markers.listStaged
  rw [files_touchCached]

/-- **The two ways a clean answers**: the cached pointer of a hit, which changes no marker file, no
    cache entry and no object, or a full clean. -/
theorem doClean_cases {dir : BaleDir Key} {store : Finset Obj} {pathname : String}
    {payload : List UInt8} {now : Nat} {out : CleanOutcome Obj Key}
    (h : doClean deps dir store pathname payload now = some out) :
    (∃ entry, dir.cache (deps.pathKey pathname) = some entry ∧ out.pointer = entry.pointer ∧
        out.dir.markers.listStaged = dir.markers.listStaged ∧ out.dir.cache = dir.cache ∧
          out.store = store) ∨
      out = fullClean deps dir store pathname payload now := by
  unfold doClean at h
  cases hlook : cacheLookup deps dir.cache pathname payload with
  | none => simp [hlook] at h
  | some found =>
      cases found with
      | none =>
          simp only [hlook, Option.some.injEq] at h
          exact Or.inr h.symm
      | some entry =>
          simp only [hlook, Option.some.injEq] at h
          subst h
          exact Or.inl ⟨entry, cacheLookup_hit deps hlook, rfl,
            listStaged_touchCached deps dir.markers entry now, rfl, rfl⟩

/-! ## Smudge -/

/-- The local-mode path of `handle_smudge` on a pointer blob: the file and the seeded cache; `none`
    is an error answer. -/
def smudgeLocal (cache : CleanCache Key) (store : Finset Obj) (pathname : String)
    (pointerBuf : List UInt8) : Option (CleanCache Key × List UInt8) :=
  match parsePointer deps.serde.fromStr pointerBuf with
  | .error _ => none
  | .ok info =>
    match info.fileSize with
    | none => none
    | some fileSize =>
      if !is64LowerHex info.hash then none
      else match deps.xet.downloadToWriter store info fileSize with
        | none => none
        | some bytes =>
          if bytes.length ≠ fileSize then none
          else
            -- `populate_clean_cache_from_smudge`
            match fromUtf8 pointerBuf with
            | none => some (cache, bytes)
            | some pointer =>
              some (cache.save (deps.pathKey pathname)
                ⟨currentVersion, fileSize, deps.chunkIndex bytes, pointer⟩, bytes)

/-- **What a successful smudge has read**, and the entry it seeds if the pointer is text. -/
theorem smudgeLocal_eq_some {cache cache' : CleanCache Key} {store : Finset Obj}
    {pathname : String} {pointerBuf bytes : List UInt8}
    (h : smudgeLocal deps cache store pathname pointerBuf = some (cache', bytes)) :
    ∃ info, parsePointer deps.serde.fromStr pointerBuf = .ok info ∧
      deps.xet.downloadToWriter store info bytes.length = some bytes ∧
      cache' = (fromUtf8 pointerBuf).elim cache (fun pointer =>
        cache.save (deps.pathKey pathname)
          ⟨currentVersion, bytes.length, deps.chunkIndex bytes, pointer⟩) := by
  unfold smudgeLocal at h
  cases hparse : parsePointer deps.serde.fromStr pointerBuf with
  | error e => simp [hparse] at h
  | ok info =>
      simp only [hparse] at h
      cases hsize : info.fileSize with
      | none => simp [hsize] at h
      | some fileSize =>
          simp only [hsize] at h
          split_ifs at h
          cases hdl : deps.xet.downloadToWriter store info fileSize with
          | none => simp [hdl] at h
          | some got =>
              simp only [hdl] at h
              split_ifs at h with hlen
              obtain rfl := not_not.1 hlen
              cases htext : fromUtf8 pointerBuf with
              | none =>
                  simp only [htext, Option.some.injEq, Prod.mk.injEq] at h
                  obtain ⟨rfl, rfl⟩ := h
                  exact ⟨info, rfl, hdl, rfl⟩
              | some pointer =>
                  simp only [htext, Option.some.injEq, Prod.mk.injEq] at h
                  obtain ⟨rfl, rfl⟩ := h
                  exact ⟨info, rfl, hdl, rfl⟩

/-- A successful smudge names a file the store holds, and only adds an entry with that pointer. -/
theorem smudgeLocal_spec {cache cache' : CleanCache Key} {store : Finset Obj} {pathname : String}
    {pointerBuf bytes : List UInt8}
    (h : smudgeLocal deps cache store pathname pointerBuf = some (cache', bytes)) :
    ∃ info, parsePointer deps.serde.fromStr pointerBuf = .ok info ∧
      deps.xet.Holds store info.hash ∧
        ∀ k e, cache' k = some e → cache k = some e ∨ asBytes e.pointer = pointerBuf := by
  obtain ⟨info, hparse, hdl, hcache⟩ := smudgeLocal_eq_some deps h
  refine ⟨info, hparse, ?_, fun k e hk => ?_⟩
  · unfold Xet.downloadToWriter at hdl
    obtain ⟨b, hrec, -⟩ := Option.map_eq_some_iff.1 hdl
    unfold Xet.Holds
    rw [hrec]
    rfl
  · rw [hcache] at hk
    cases htext : fromUtf8 pointerBuf with
    | none =>
        rw [htext] at hk
        exact Or.inl hk
    | some pointer =>
        rw [htext] at hk
        rcases CleanCache.save_eq_some hk with rfl | hold
        · exact Or.inr (asBytes_fromUtf8 htext)
        · exact Or.inl hold

end BaleForGit
