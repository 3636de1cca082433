import Mathlib.Algebra.Ring.Nat
import Mathlib.Data.List.TakeDrop
import BaleForGit.Client.GcSafety

set_option autoImplicit false

/-! # Smudging a pointer (`handle_smudge`, `local_reconstruct.rs`)

A smudge fills a temporary file and streams it to git. Up to three sources are tried, each through a
handle of its own on the same file, which writes from the start over what is there: the chunk cache, by
the terms of a cached manifest; the staging directory, or in local mode the store; and the server.
What an attempt leaves behind when it is abandoned is discarded before the store and the server are
tried, but not before staging is.

Bytes are tagged with their source (`TmpBytes`). What the sources do is the environment's
(`SmudgeEnv`): a download writes some bytes of the file from the start of its handle, never more than
the pointer says, and succeeds or fails then. Which files are seeded into the clean cache and the manifest
cache is left out.

`smudge_whole_iff` says when the file that is streamed is the whole of what one source wrote. -/

namespace BaleForGit

inductive SmudgeSource where
  | hot
  | staging
  | localStore
  | cold
deriving DecidableEq, Repr

/-- The bytes of the temporary file, with what wrote them. -/
abbrev TmpBytes := List (SmudgeSource × UInt8)

/-- What a handle that was opened anew writes goes over what is there. -/
def writeFromStart (src : SmudgeSource) (bytes : List UInt8) (file : TmpBytes) : TmpBytes :=
  bytes.map (fun b => (src, b)) ++ file.drop bytes.length

/-- `CachedTerm`. -/
structure CachedTerm where
  xorbHash : String
  chunkStart : UInt32
  chunkEnd : UInt32
  unpackedLength : Nat
deriving DecidableEq, Repr

/-- What comes of a term: its hash is no hash, its chunks are not in the cache or cannot be read, or
    here they are, and writing them may fail. -/
inductive CacheRead where
  | malformed (text : String)
  | missing
  | data (bytes : List UInt8) (writeError : Option String)
deriving DecidableEq, Repr

inductive CacheReconstructOutcome where
  | wrote (n : Nat)
  | miss
deriving DecidableEq, Repr

/-- `download_to_writer`, from the start of a handle. -/
structure Download where
  bytes : List UInt8
  error : Option String
deriving DecidableEq, Repr

/-- A local store, as `try_smudge_from_store` finds it. -/
structure StoreAnswer where
  there : Bool
  setup : Option String
  download : Download
deriving DecidableEq, Repr

/-- What `handle_smudge` finds, in order; an error is its text. -/
structure SmudgeEnv where
  gitDir : Bool
  localMode : Bool
  chunkCache : Option String
  tempFile : Option String
  /-- `manifest_cache::load`. -/
  manifest : Except String (Option (List CachedTerm))
  hotReopen : Option String
  /-- The chunk cache at the term with an index. -/
  cacheRead : Nat → CachedTerm → CacheRead
  /-- `file_is_staged`. -/
  staged : Bool
  staging : StoreAnswer
  /-- `object_store_root`, as it is displayed. -/
  storeRoot : Except String String
  truncate : Option String
  localStore : StoreAnswer
  /-- The length of the temporary file can be read. -/
  metadata : Bool
  /-- `resolve_cached` and `build_translator_config`. -/
  auth : Option String
  cold : Download
  /-- `finish_smudge`. -/
  finish : Option String

/-- Content that was emitted, and the source that was taken to have written it. -/
structure Smudged where
  source : SmudgeSource
  file : TmpBytes
deriving DecidableEq, Repr

/-! ## The sources -/

/-- The loop of `try_reconstruct_from_cache`, from term `i` on, and what has been written by then. -/
def reconstructTerms (get : Nat → CachedTerm → CacheRead) (expectedSize : Nat) :
    Nat → List UInt8 → List CachedTerm → Except String CacheReconstructOutcome × List UInt8
  | _, written, [] =>
    if written.length ≠ expectedSize then (.ok .miss, written)
    else (.ok (.wrote written.length), written)
  | i, written, term :: terms =>
    match get i term with
    | .malformed text => (.error ("malformed xorb hash " ++ term.xorbHash ++ ": " ++ text), written)
    | .missing => (.ok .miss, written)
    | .data bytes writeError =>
      -- a stale manifest
      if bytes.length ≠ term.unpackedLength then (.ok .miss, written)
      else match writeError with
        | some text => (.error text, written)
        | none => reconstructTerms get expectedSize (i + 1) (written ++ bytes) terms

/-- `try_smudge_from_store`. -/
def trySmudgeFromStore (src : SmudgeSource) (store : StoreAnswer) (fileSize : Nat)
    (file : TmpBytes) : Except String Bool × TmpBytes :=
  if !store.there then (.ok false, file)
  else match store.setup with
    | some text => (.error text, file)
    | none =>
      match store.download.error with
      | some text => (.error text, writeFromStart src (store.download.bytes.take fileSize) file)
      | none => (.ok true, writeFromStart src (store.download.bytes.take fileSize) file)

section Smudge

variable (env : SmudgeEnv) (fileSize : Nat)

/-- The hot path: whether the cache has the file, and what it has written. -/
def smudgeHot : Except String (Bool × TmpBytes) :=
  if !env.gitDir then .ok (false, [])
  else match env.manifest with
    | .error _ => .ok (false, [])
    | .ok none => .ok (false, [])
    | .ok (some terms) =>
      match env.hotReopen with
      | some text => .error text
      | none =>
        match reconstructTerms env.cacheRead fileSize 0 [] terms with
        | (.error text, _) => .error text
        | (.ok .miss, written) => .ok (false, writeFromStart .hot written [])
        | (.ok (.wrote _), written) => .ok (true, writeFromStart .hot written [])

/-- The lukewarm path, onto what the hot path has left. -/
def smudgeStaging (cacheHit : Bool) (file : TmpBytes) : Bool × TmpBytes :=
  if !cacheHit && !env.localMode && env.gitDir && env.staged then
    match trySmudgeFromStore .staging env.staging fileSize file with
    | (.ok hit, file) => (hit, file)
    | (.error _, file) => (false, file)
  else (false, file)

/-- Local mode: the store, or an error. -/
def smudgeLocalStore (fileIdHex : String) : Except String Smudged :=
  match env.storeRoot with
  | .error _ => .error "resolving object store root"
  | .ok store =>
    match env.truncate with
    | some text => .error text
    | none =>
      match trySmudgeFromStore .localStore env.localStore fileSize [] with
      | (.error _, _) => .error ("reconstructing " ++ fileIdHex ++ " from local store")
      | (.ok ok, file) =>
        let written := if env.metadata then file.length else 0
        if !ok || written ≠ fileSize then
          .error ("local store at " ++ store ++ " cannot reconstruct " ++ fileIdHex ++ " (" ++
            toString written ++ " of " ++ toString fileSize ++ " bytes); the object data is " ++
            "missing — was this repo copied without its store, or the store pruned?")
        else .ok ⟨.localStore, file⟩

/-- The cold path. -/
def smudgeCold : Except String Smudged :=
  match env.truncate with
  | some text => .error text
  | none =>
    match env.auth with
    | some text => .error text
    | none =>
      match env.cold.error with
      | some text => .error text
      | none => .ok ⟨.cold, writeFromStart .cold (env.cold.bytes.take fileSize) []⟩

/-- The file that `finish_smudge` is called with. -/
def smudgeFile (fileIdHex : String) : Except String Smudged := do
  let (cacheHit, file) ← smudgeHot env fileSize
  let (stagingHit, file) := smudgeStaging env fileSize cacheHit file
  if env.localMode && !cacheHit then smudgeLocalStore env fileSize fileIdHex
  else if !cacheHit && !stagingHit then smudgeCold env fileSize
  else return ⟨if cacheHit then .hot else .staging, file⟩

end Smudge

/-- `handle_smudge` on a payload: the content it emits, or the (outermost) text of its error. -/
def handleSmudge (serde : Serde) (env : SmudgeEnv) (pointerBuf : List UInt8) : Except String Smudged :=
  match parsePointer serde.fromStr pointerBuf with
  | .error _ => .error "smudge: input is not a bale pointer"
  | .ok info =>
    match info.fileSize with
    | none => .error "bale pointer missing file_size"
    | some fileSize =>
      if !is64LowerHex info.hash then
        .error ("bale pointer hash is not lowercase hex (got " ++ toString info.hash.utf8ByteSize ++
          " chars)")
      else match env.chunkCache with
        | some text => .error text
        | none =>
          match env.tempFile with
          | some text => .error text
          | none =>
            match smudgeFile env fileSize info.hash with
            | .error text => .error text
            | .ok smudged =>
              match env.finish with
              | some text => .error text
              | none => .ok smudged

/-! ## What is whole -/

/-- The content has the length of the pointer, and all of it was written by its source. -/
def Smudged.Whole (s : Smudged) (fileSize : Nat) : Prop :=
  s.file.length = fileSize ∧ ∀ c ∈ s.file, c.1 = s.source

/-- The terms that the cache has, up to the first that it has not. -/
def cachedPrefix (get : Nat → CachedTerm → CacheRead) : Nat → List CachedTerm → List CachedTerm
  | _, [] => []
  | i, term :: terms =>
    match get i term with
    | .data bytes none =>
      if bytes.length = term.unpackedLength then term :: cachedPrefix get (i + 1) terms else []
    | _ => []

/-- The length of some terms. -/
def termsLength (terms : List CachedTerm) : Nat := (terms.map CachedTerm.unpackedLength).sum

section Whole

variable (env : SmudgeEnv) (fileSize : Nat)

/-- The terms of the cached manifest, if there is one. -/
def manifestTerms : List CachedTerm :=
  match env.gitDir, env.manifest with
  | true, .ok (some terms) => terms
  | _, _ => []

/-- How much the cache has of the file before it misses. -/
def cachedLength : Nat := termsLength (cachedPrefix env.cacheRead 0 (manifestTerms env))

/-- The cache has the whole file. -/
def CacheHit : Prop :=
  env.gitDir = true ∧ ∃ terms, env.manifest = .ok (some terms) ∧
    cachedPrefix env.cacheRead 0 terms = terms ∧ termsLength terms = fileSize

/-- The file is staged, and the download from staging succeeds. -/
def StagingAnswers : Prop :=
  env.gitDir = true ∧ env.staged = true ∧ env.staging.there = true ∧ env.staging.setup = none ∧
    env.staging.download.error = none

instance : Decidable (StagingAnswers env) := by
  unfold StagingAnswers
  infer_instance

/-- What is needed of the sources: the whole file is cached, or comes from the local store; or staging
    answers with all of it, and the cache had not left more than that; or the server answers with all
    of it. -/
def SourcesWhole : Prop :=
  CacheHit env fileSize ∨ env.localMode = true ∨
    if StagingAnswers env then
      fileSize ≤ env.staging.download.bytes.length ∧ cachedLength env ≤ fileSize
    else fileSize ≤ env.cold.bytes.length

end Whole

theorem length_writeFromStart (src : SmudgeSource) (bytes : List UInt8) (file : TmpBytes) :
    (writeFromStart src bytes file).length = max bytes.length file.length := by
  unfold writeFromStart
  rw [List.length_append, List.length_map, List.length_drop]
  omega

/-- What is written over a file is the whole of it exactly if the file was not longer. -/
theorem writeFromStart_whole {src : SmudgeSource} {bytes : List UInt8} {file : TmpBytes}
    {fileSize : Nat} (hle : bytes.length ≤ fileSize) (hother : ∀ c ∈ file, c.1 ≠ src) :
    (⟨src, writeFromStart src bytes file⟩ : Smudged).Whole fileSize ↔
      bytes.length = fileSize ∧ file.length ≤ fileSize := by
  unfold Smudged.Whole
  simp only [length_writeFromStart]
  constructor
  · rintro ⟨hlen, hall⟩
    -- a byte that was not written over would be from another source
    have hcovered : file.drop bytes.length = [] := by
      refine List.eq_nil_iff_forall_not_mem.2 (fun c hc => ?_)
      exact hother c (List.mem_of_mem_drop hc) (hall c (List.mem_append_right _ hc))
    have hshort := List.drop_eq_nil_iff.1 hcovered
    omega
  · rintro ⟨hlen, hshort⟩
    refine ⟨by omega, fun c hc => ?_⟩
    unfold writeFromStart at hc
    rw [List.drop_of_length_le (by omega), List.append_nil] at hc
    obtain ⟨b, -, rfl⟩ := List.mem_map.1 hc
    rfl

/-- The loop writes the terms that are cached, and has the whole file if these are all of them, with the
    length that is expected. -/
theorem reconstructTerms_spec {get : Nat → CachedTerm → CacheRead} {expectedSize : Nat}
    {terms : List CachedTerm} {i : Nat} {before written : List UInt8}
    {outcome : CacheReconstructOutcome}
    (h : reconstructTerms get expectedSize i before terms = (.ok outcome, written)) :
    written.length = before.length + termsLength (cachedPrefix get i terms) ∧
      ((∃ n, outcome = .wrote n) ↔ cachedPrefix get i terms = terms ∧
        written.length = expectedSize) := by
  induction terms generalizing i before with
  | nil =>
      unfold reconstructTerms at h
      split_ifs at h with hlen <;> simp only [Prod.mk.injEq, Except.ok.injEq] at h <;>
        obtain ⟨rfl, rfl⟩ := h
      · simp [cachedPrefix, termsLength, hlen]
      · simp [cachedPrefix, termsLength, not_not.1 hlen]
  | cons term terms ih =>
      unfold reconstructTerms at h
      unfold cachedPrefix
      cases hget : get i term with
      | malformed text => simp [hget] at h
      | missing =>
          simp only [hget, Prod.mk.injEq, Except.ok.injEq] at h
          obtain ⟨rfl, rfl⟩ := h
          simp [termsLength]
      | data bytes writeError =>
          simp only [hget] at h
          split_ifs at h with hlen
          · simp only [Prod.mk.injEq, Except.ok.injEq] at h
            obtain ⟨rfl, rfl⟩ := h
            cases writeError <;> simp [termsLength, hlen]
          · cases writeError with
            | some text => simp at h
            | none =>
                obtain ⟨hwritten, hwrote⟩ := ih h
                simp only [if_pos (not_not.1 hlen)]
                refine ⟨?_, by rw [hwrote, List.cons.injEq, eq_self, true_and]⟩
                rw [hwritten, List.length_append, not_not.1 hlen]
                unfold termsLength
                rw [List.map_cons, List.sum_cons, Nat.add_assoc]

section Paths

variable {env : SmudgeEnv} {fileSize : Nat}

theorem smudgeHot_spec {hit : Bool} {file : TmpBytes} (h : smudgeHot env fileSize = .ok (hit, file)) :
    (hit = true ↔ CacheHit env fileSize) ∧ file.length = cachedLength env ∧
      ∀ c ∈ file, c.1 = .hot := by
  unfold smudgeHot at h
  unfold CacheHit cachedLength manifestTerms
  cases hdir : env.gitDir with
  | false =>
      simp only [hdir, Bool.not_false, if_true, Except.ok.injEq, Prod.mk.injEq] at h
      obtain ⟨rfl, rfl⟩ := h
      simp [cachedPrefix, termsLength]
  | true =>
      simp only [hdir, Bool.not_true, Bool.false_eq_true, if_false] at h
      cases hmanifest : env.manifest with
      | error text =>
          simp only [hmanifest, Except.ok.injEq, Prod.mk.injEq] at h
          obtain ⟨rfl, rfl⟩ := h
          simp [cachedPrefix, termsLength]
      | ok manifest =>
          cases manifest with
          | none =>
              simp only [hmanifest, Except.ok.injEq, Prod.mk.injEq] at h
              obtain ⟨rfl, rfl⟩ := h
              simp [cachedPrefix, termsLength]
          | some terms =>
              simp only [hmanifest] at h
              cases hreopen : env.hotReopen with
              | some text => simp [hreopen] at h
              | none =>
                  simp only [hreopen] at h
                  cases hres : reconstructTerms env.cacheRead fileSize 0 [] terms with
                  | mk outcome written =>
                      cases outcome with
                      | error text => simp [hres] at h
                      | ok outcome =>
                          obtain ⟨hlen, hwrote⟩ := reconstructTerms_spec hres
                          have hfile : ∀ c ∈ writeFromStart .hot written [],
                              c.1 = SmudgeSource.hot := by
                            intro c hc
                            unfold writeFromStart at hc
                            rw [List.drop_nil, List.append_nil] at hc
                            obtain ⟨b, -, rfl⟩ := List.mem_map.1 hc
                            rfl
                          have hlength : (writeFromStart .hot written []).length =
                              termsLength (cachedPrefix env.cacheRead 0 terms) := by
                            rw [length_writeFromStart, hlen]
                            simp
                          rw [List.length_nil, Nat.zero_add] at hlen
                          have hhit : (∃ n, outcome = .wrote n) ↔
                              cachedPrefix env.cacheRead 0 terms = terms ∧
                                termsLength terms = fileSize := by
                            rw [hwrote, hlen]
                            exact and_congr_right (fun heq => by rw [heq])
                          cases outcome with
                          | miss =>
                              simp only [hres, Except.ok.injEq, Prod.mk.injEq] at h
                              obtain ⟨rfl, rfl⟩ := h
                              refine ⟨?_, hlength, hfile⟩
                              simpa using hhit
                          | wrote n =>
                              simp only [hres, Except.ok.injEq, Prod.mk.injEq] at h
                              obtain ⟨rfl, rfl⟩ := h
                              refine ⟨?_, hlength, hfile⟩
                              simpa using hhit

/-- Staging writes over what the cache has left, and is abandoned without a trace in the result unless
    it answers. -/
theorem smudgeStaging_spec (fileSize : Nat) (hlocal : env.localMode = false) (file : TmpBytes) :
    ((smudgeStaging env fileSize false file).1 = true ↔ StagingAnswers env) ∧
    (StagingAnswers env → (smudgeStaging env fileSize false file).2 =
      writeFromStart .staging (env.staging.download.bytes.take fileSize) file) := by
  unfold smudgeStaging trySmudgeFromStore StagingAnswers
  cases hdir : env.gitDir <;> cases hstaged : env.staged <;> cases hthere : env.staging.there <;>
    cases hsetup : env.staging.setup <;> cases herror : env.staging.download.error <;> simp [hlocal]

/-- Local mode checks the length of the file. -/
theorem smudgeLocalStore_whole {fileIdHex : String} {s : Smudged}
    (h : smudgeLocalStore env fileSize fileIdHex = .ok s) : s.Whole fileSize := by
  unfold smudgeLocalStore at h
  cases hroot : env.storeRoot with
  | error text => simp [hroot] at h
  | ok store =>
      cases htrunc : env.truncate with
      | some text => simp [hroot, htrunc] at h
      | none =>
          simp only [hroot, htrunc] at h
          have hle : (env.localStore.download.bytes.take fileSize).length ≤ fileSize := by
            rw [List.length_take]
            exact Nat.min_le_left _ _
          unfold trySmudgeFromStore at h
          cases hthere : env.localStore.there with
          | false => simp [hthere] at h
          | true =>
              cases hsetup : env.localStore.setup with
              | some text => simp [hthere, hsetup] at h
              | none =>
                  cases herror : env.localStore.download.error with
                  | some text => simp [hthere, hsetup, herror] at h
                  | none =>
                      simp only [hthere, hsetup, herror, Bool.not_true, Bool.false_eq_true, if_false,
                        Bool.false_or, decide_eq_true_eq] at h
                      split_ifs at h with hmeta hlen hlen
                      · rw [← Except.ok.inj h, writeFromStart_whole hle (by simp)]
                        rw [not_not, length_writeFromStart, List.length_nil, Nat.max_zero] at hlen
                        exact ⟨hlen, Nat.zero_le _⟩
                      · -- its length cannot be read, and zero is what the pointer says
                        rw [← Except.ok.inj h, writeFromStart_whole hle (by simp)]
                        rw [not_not] at hlen
                        exact ⟨by rw [List.length_take]; omega, Nat.zero_le _⟩

/-- The server's answer is not checked. -/
theorem smudgeCold_whole {s : Smudged} (h : smudgeCold env fileSize = .ok s) :
    s.Whole fileSize ↔ fileSize ≤ env.cold.bytes.length := by
  have hle : (env.cold.bytes.take fileSize).length ≤ fileSize := by
    rw [List.length_take]
    exact Nat.min_le_left _ _
  unfold smudgeCold at h
  cases htrunc : env.truncate with
  | some text => simp [htrunc] at h
  | none =>
      cases hauth : env.auth with
      | some text => simp [htrunc, hauth] at h
      | none =>
          cases herror : env.cold.error with
          | some text => simp [htrunc, hauth, herror] at h
          | none =>
              simp only [htrunc, hauth, herror, Except.ok.injEq] at h
              rw [← h, writeFromStart_whole hle (by simp), List.length_take, List.length_nil]
              omega

theorem smudgeFile_whole {fileIdHex : String} {s : Smudged}
    (h : smudgeFile env fileSize fileIdHex = .ok s) :
    s.Whole fileSize ↔ SourcesWhole env fileSize := by
  unfold smudgeFile at h
  cases hhot : smudgeHot env fileSize with
  | error text => simp [hhot, bind, Except.bind] at h
  | ok res =>
      obtain ⟨cacheHit, file⟩ := res
      obtain ⟨hhit, hlength, hall⟩ := smudgeHot_spec hhot
      simp only [hhot, bind, Except.bind] at h
      unfold SourcesWhole
      cases cacheHit with
      | true =>
          have hcached := hhit.1 rfl
          obtain ⟨hdir, terms, hmanifest, hprefix, hsum⟩ := hhit.1 rfl
          have hsize : file.length = fileSize := by
            rw [hlength, ← hsum]
            unfold cachedLength manifestTerms
            simp only [hdir, hmanifest, hprefix]
          refine iff_of_true ?_ (Or.inl hcached)
          simp only [smudgeStaging, Bool.not_true, Bool.false_and, Bool.and_false, Bool.false_eq_true,
            if_false, if_true, pure, Except.pure, Except.ok.injEq] at h
          rw [← h]
          exact ⟨hsize, hall⟩
      | false =>
          have hmissed : ¬ CacheHit env fileSize := fun hc => absurd (hhit.2 hc) (by simp)
          cases hlocal : env.localMode with
          | true =>
              simp only [hlocal, Bool.not_false, Bool.and_self, if_true] at h
              exact iff_of_true (smudgeLocalStore_whole h) (Or.inr (Or.inl rfl))
          | false =>
              obtain ⟨hanswers, hwritten⟩ := smudgeStaging_spec fileSize hlocal file
              simp only [hlocal, Bool.not_false, Bool.and_true, Bool.true_and,
                Bool.false_eq_true, if_false] at h
              simp only [hmissed, false_or, Bool.false_eq_true]
              split_ifs with hstaging
              · have hle : (env.staging.download.bytes.take fileSize).length ≤ fileSize := by
                  rw [List.length_take]
                  exact Nat.min_le_left _ _
                have hother : ∀ c ∈ file, c.1 ≠ SmudgeSource.staging := by
                  intro c hc heq
                  rw [hall c hc] at heq
                  simp at heq
                simp only [hanswers.2 hstaging, Bool.not_true, Bool.false_eq_true, if_false, pure,
                  Except.pure, Except.ok.injEq] at h
                rw [← h, hwritten hstaging, writeFromStart_whole hle hother, List.length_take, hlength]
                omega
              · have hfails : (smudgeStaging env fileSize false file).1 = false := by
                  rw [Bool.eq_false_iff]
                  exact fun hc => hstaging (hanswers.1 hc)
                simp only [hfails, Bool.not_false, if_true] at h
                exact smudgeCold_whole h

end Paths

/-- **When a smudge emits the whole file of one source**: if the cache has it, in local mode, or if the
    last source that was tried gives all of it and the cache had not left more than that under the
    bytes of staging. -/
theorem smudge_whole_iff {serde : Serde} {env : SmudgeEnv} {pointerBuf : List UInt8}
    {info : XetFileInfo} {fileSize : Nat} {s : Smudged}
    (hparse : parsePointer serde.fromStr pointerBuf = .ok info) (hsize : info.fileSize = some fileSize)
    (hok : handleSmudge serde env pointerBuf = .ok s) :
    s.Whole fileSize ↔ SourcesWhole env fileSize := by
  unfold handleSmudge at hok
  simp only [hparse, hsize] at hok
  split_ifs at hok
  cases hcache : env.chunkCache with
  | some text => simp [hcache] at hok
  | none =>
      cases htemp : env.tempFile with
      | some text => simp [hcache, htemp] at hok
      | none =>
          simp only [hcache, htemp] at hok
          cases hfile : smudgeFile env fileSize info.hash with
          | error text => simp [hfile] at hok
          | ok smudged =>
              cases hfinish : env.finish with
              | some text => simp [hfile, hfinish] at hok
              | none =>
                  simp only [hfile, hfinish, Except.ok.injEq] at hok
                  rw [← hok]
                  exact smudgeFile_whole hfile

namespace Sample

/-- The file with hash `a` is staged, and its one byte comes from there; the cached manifest has a term of
    two bytes that is in the cache, and one that is not. -/
def stagedEnv : SmudgeEnv where
  gitDir := true
  localMode := false
  chunkCache := none
  tempFile := none
  manifest := .ok (some [⟨hash 'x', 0, 1, 2⟩, ⟨hash 'y', 0, 1, 1⟩])
  hotReopen := none
  cacheRead i _ := if i = 0 then .data [7, 8] none else .missing
  staged := true
  staging := ⟨true, none, [1], none⟩
  storeRoot := .error "local mode needs a git repo or an explicit bale.localStore"
  truncate := none
  localStore := ⟨false, none, [], none⟩
  metadata := true
  auth := none
  cold := ⟨[], some "offline"⟩
  finish := none

end Sample

/-- What an abandoned attempt at the cache has left stays behind the bytes of staging. -/
theorem staged_smudge_mixes :
    handleSmudge Sample.serde Sample.stagedEnv (asBytes (encodePointerString Sample.serde
      (Sample.info 'a'))) = .ok ⟨.staging, [(.staging, 1), (.hot, 8)]⟩ ∧
    parsePointer Sample.serde.fromStr (asBytes (encodePointerString Sample.serde
      (Sample.info 'a'))) = .ok (Sample.info 'a') ∧
    (Sample.info 'a').fileSize = some 1 ∧
    ¬ (⟨.staging, [(.staging, 1), (.hot, 8)]⟩ : Smudged).Whole 1 := by
  have hhex : is64LowerHex (Sample.info 'a').hash = true := by decide +kernel
  refine ⟨?_, Sample.parse_pointer_a, rfl, fun h => absurd h.1 (by decide)⟩
  unfold handleSmudge
  simp only [Sample.parse_pointer_a, hhex]
  rfl

theorem smudge_whole_iff_cold : ∃ s, handleSmudge Sample.serde
      { Sample.stagedEnv with staged := false, cold := ⟨[1], none⟩ }
      (asBytes (encodePointerString Sample.serde (Sample.info 'a'))) = .ok s ∧ s.Whole 1 := by
  have hok : handleSmudge Sample.serde { Sample.stagedEnv with staged := false, cold := ⟨[1], none⟩ }
      (asBytes (encodePointerString Sample.serde (Sample.info 'a'))) = .ok ⟨.cold, [(.cold, 1)]⟩ := by
    have hhex : is64LowerHex (Sample.info 'a').hash = true := by decide +kernel
    unfold handleSmudge
    simp only [Sample.parse_pointer_a, hhex]
    rfl
  refine ⟨_, hok, (smudge_whole_iff Sample.parse_pointer_a rfl hok).2 (Or.inr (Or.inr ?_))⟩
  rw [if_neg (fun h => absurd h.2.1 (by decide))]
  exact Nat.le_refl 1

end BaleForGit
