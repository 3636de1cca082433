import Mathlib.Logic.Function.Basic
import BaleForGit.Client.MountFuse
import BaleForGit.Server.Lasting
import BaleForGit.Server.Wire

set_option autoImplicit false

/-! # Files from the caches (`remote_manifest.rs`, `manifest_cache.rs`, `local_reconstruct.rs`)

When a file has been downloaded, its terms are kept in the git dir under the text of its hash, and
nothing refreshes them: a later smudge or mount takes the terms from there and the chunks from the
chunk cache, and asks no server. `Saved` are the manifests that a git dir can have while the server
goes on taking uploads.

The chunk cache is not ours. What is used of it is `HonestChunks`: the chunks that it has of a xorb
are those that the server had of it at some moment.

`caches_never_stale` says that whoever gets a file, from the caches or from the server, gets the
same bytes. -/

namespace BaleForGit

open Server (FileTerm FileHash FileRow ServerState Service TrafficAct ReconstructionTerm
  ReconstructionResponse KeepsBlobs Moment Got ReadFrom FetchedFrom termRead wireTerm encodeHashText
  getReconstruction)

/-! ## Manifests -/

/-- A term of a response, as `fetch_manifest` keeps it. -/
def cachedTerm (t : ReconstructionTerm) : CachedTerm :=
  ⟨encodeHashText t.hash, UInt32.ofNat t.range.start, UInt32.ofNat t.range.stop, t.unpackedLength⟩

/-- `fetch_manifest`, when it has a response. -/
def fetchManifest (resp : ReconstructionResponse) : List CachedTerm := resp.terms.map cachedTerm

/-- The manifests of a git dir, under the texts of the hashes. -/
abbrev Manifests := String → Option (List CachedTerm)

section Caches

variable (svc : Service) (acts : List TrafficAct)

/-- What `manifest_cache::save` has left, whichever responses were kept, at whichever moments of the
    server's run. -/
inductive Saved : Manifests → Prop where
  | fresh : Saved (fun _ => none)
  | save {manifests : Manifests} (hsaved : Saved manifests) (k : Nat) (st : ServerState)
      (pick : List FileRow → Option FileRow) (repoId : String) (h : FileHash)
      (resp : ReconstructionResponse) (hmoment : Moment svc acts k st)
      (hresp : getReconstruction st.db pick repoId h = .ok resp) :
      Saved (Function.update manifests (encodeHashText h) (some (fetchManifest resp)))
  /-- A manifest is removed, or is no manifest of this version any more. -/
  | lose {manifests : Manifests} (hsaved : Saved manifests) (text : String) :
      Saved (Function.update manifests text none)

/-- `manifest_cache::load`: an error, nothing, or what was saved. -/
def LoadedFrom (manifests : Manifests) (text : String)
    (loaded : Except String (Option (List CachedTerm))) : Prop :=
  ∀ terms, loaded = .ok (some terms) → manifests text = some terms

/-- What the chunk cache has of a xorb is what the server had of it. -/
def HonestChunks (get : Nat → CachedTerm → CacheRead) : Prop :=
  ∀ i term bytes writeError, get i term = .data bytes writeError → ∃ k st t, Moment svc acts k st ∧
    term.xorbHash = encodeHashText t.xorb ∧ term.chunkStart = t.chunkIdxStart ∧
    term.chunkEnd = t.chunkIdxEnd ∧ termRead svc.codec st t = some bytes

/-- Somebody got `bytes` for `h`: from the server, or from the caches of a git dir. -/
inductive Served (h : FileHash) (bytes : List UInt8) : Prop where
  | server (hgot : Got svc acts h bytes)
  /-- A smudge that streams what the hot path has written. -/
  | smudge (manifests : Manifests) (serde : Serde) (env : SmudgeEnv) (pointerBuf : List UInt8)
      (info : XetFileInfo) (s : Smudged) (hsaved : Saved svc acts manifests)
      (hparse : parsePointer serde.fromStr pointerBuf = .ok info)
      (hhash : info.hash = encodeHashText h) (hload : LoadedFrom manifests info.hash env.manifest)
      (hchunks : HonestChunks svc acts env.cacheRead)
      (hok : handleSmudge serde env pointerBuf = .ok s) (hhot : s.source = .hot)
      (hbytes : s.file.map Prod.snd = bytes)
  /-- An open in a mount that finds the file in the caches. -/
  | mount (manifests : Manifests) (env : Mount.ReconstructEnv) (fileSize : Nat)
      (hsaved : Saved svc acts manifests)
      (hload : LoadedFrom manifests (encodeHashText h) env.manifest)
      (hchunks : HonestChunks svc acts env.cacheRead)
      (hhot : Mount.reconstructHot env fileSize = .ok (some bytes))

end Caches

/-! ## What is saved is the server's -/

theorem encodeHashText_injective : Function.Injective encodeHashText := by
  intro h h' htext
  have hdecode := Server.decodeHashText_eq_ok.2 htext
  rw [Server.decodeHashText_eq_ok.2 rfl] at hdecode
  exact Except.ok.inj hdecode

section Agree

variable {svc : Service} {acts : List TrafficAct}

/-- A saved manifest has the terms that its file had at some moment. -/
theorem Saved.terms {manifests : Manifests} (hsaved : Saved svc acts manifests) {h : FileHash}
    {terms : List CachedTerm} (hload : manifests (encodeHashText h) = some terms) :
    ∃ k st, Moment svc acts k st ∧ st.db.fileTermList h ≠ [] ∧
      terms = (st.db.fileTermList h).map (fun t => cachedTerm (wireTerm t)) := by
  induction hsaved with
  | fresh => cases hload
  | save hsaved k st pick repoId h' resp hmoment hresp ih =>
      by_cases hsame : h = h'
      · subst hsame
        rw [Function.update_self] at hload
        obtain ⟨-, found, hlookup, -, rfl⟩ := Server.getReconstruction_eq_ok.1 hresp
        obtain ⟨rfl, hne, -⟩ := Server.lookupFile_eq_some.1 hlookup
        refine ⟨k, st, hmoment, hne, ?_⟩
        rw [← Option.some.inj hload]
        unfold fetchManifest Server.reconstruction
        rw [List.map_map]
        rfl
      · rw [Function.update_of_ne (fun htext => hsame (encodeHashText_injective htext))] at hload
        exact ih hload
  | lose hsaved text ih =>
      by_cases htext : encodeHashText h = text
      · rw [htext, Function.update_self] at hload
        cases hload
      · rw [Function.update_of_ne htext] at hload
        exact ih hload

/-- What is read of a term depends on its chunks alone. -/
theorem termRead_congr (codec : Server.Codec) (st : ServerState) {t t' : FileTerm}
    (hxorb : t.xorb = t'.xorb) (hstart : t.chunkIdxStart = t'.chunkIdxStart)
    (hend : t.chunkIdxEnd = t'.chunkIdxEnd) : termRead codec st t = termRead codec st t' := by
  obtain ⟨x, first, last, n, v⟩ := t
  obtain ⟨x', first', last', n', v'⟩ := t'
  obtain rfl : x = x' := hxorb
  obtain rfl : first = first' := hstart
  obtain rfl : last = last' := hend
  rfl

/-- The chunks of a cached term are those of the term. -/
theorem HonestChunks.termRead {get : Nat → CachedTerm → CacheRead}
    (hchunks : HonestChunks svc acts get) {i : Nat} {t : FileTerm} {bytes : List UInt8}
    {writeError : Option String}
    (hget : get i (cachedTerm (wireTerm t)) = .data bytes writeError) :
    ∃ k st, Moment svc acts k st ∧ Server.termRead svc.codec st t = some bytes := by
  obtain ⟨k, st, t', hmoment, hxorb, hstart, hend, hread⟩ := hchunks i _ bytes writeError hget
  refine ⟨k, st, hmoment, ?_⟩
  rw [termRead_congr svc.codec st (encodeHashText_injective hxorb) ?_ ?_, hread]
  · rw [← hstart]
    exact (UInt32.ofNat_toNat ..).symm
  · rw [← hend]
    exact (UInt32.ofNat_toNat ..).symm

/-! ## The hot paths -/

/-- A run of the loop that has the whole file has written its terms, one after the other. -/
theorem reconstructTerms_wrote {get : Nat → CachedTerm → CacheRead} {expectedSize n i : Nat}
    {terms : List CachedTerm} {before written : List UInt8}
    (h : reconstructTerms get expectedSize i before terms = (.ok (.wrote n), written)) :
    ∃ parts, List.Forall₂ (fun term part => ∃ j, get j term = .data part none) terms parts ∧
      written = before ++ parts.flatten := by
  induction terms generalizing i before with
  | nil =>
      unfold reconstructTerms at h
      split_ifs at h with hlen
      · simp at h
      · simp only [Prod.mk.injEq] at h
        exact ⟨[], List.Forall₂.nil, by simp [h.2]⟩
  | cons term terms ih =>
      unfold reconstructTerms at h
      cases hget : get i term with
      | malformed text => simp [hget] at h
      | missing => simp [hget] at h
      | data bytes writeError =>
          simp only [hget] at h
          split_ifs at h with hlen
          · simp at h
          · cases writeError with
            | some text => simp at h
            | none =>
                obtain ⟨parts, hparts, rfl⟩ := ih h
                refine ⟨bytes :: parts, List.Forall₂.cons ⟨i, hget⟩ hparts, ?_⟩
                rw [List.flatten_cons, List.append_assoc]

theorem smudgeLocalStore_not_hot {env : SmudgeEnv} {fileSize : Nat} {fileIdHex : String}
    {s : Smudged} (h : smudgeLocalStore env fileSize fileIdHex = .ok s) : s.source ≠ .hot := by
  unfold smudgeLocalStore at h
  cases hroot : env.storeRoot with
  | error text => simp [hroot] at h
  | ok store =>
      cases htrunc : env.truncate with
      | some text => simp [hroot, htrunc] at h
      | none =>
          rcases hstore : trySmudgeFromStore .localStore env.localStore fileSize [] with ⟨res, file⟩
          cases res with
          | error text => simp [hroot, htrunc, hstore] at h
          | ok hit =>
              simp only [hroot, htrunc, hstore] at h
              -- how much was written only decides whether there is an error
              generalize (if env.metadata = true then file.length else 0) = written at h
              split_ifs at h
              rw [← Except.ok.inj h]
              simp

theorem smudgeCold_not_hot {env : SmudgeEnv} {fileSize : Nat} {s : Smudged}
    (h : smudgeCold env fileSize = .ok s) : s.source ≠ .hot := by
  unfold smudgeCold at h
  cases htrunc : env.truncate with
  | some text => simp [htrunc] at h
  | none =>
      cases hauth : env.auth with
      | some text => simp [htrunc, hauth] at h
      | none =>
          cases herror : env.cold.error with
          | some text => simp [htrunc, hauth, herror] at h
          | none =>
              simp only [htrunc, hauth, herror, Except.ok.injEq] at h
              rw [← h]
              simp

theorem map_snd_writeFromStart (src : SmudgeSource) (bytes : List UInt8) :
    (writeFromStart src bytes []).map Prod.snd = bytes := by
  unfold writeFromStart
  simp [Function.comp_def]

/-- The hot path has the file only if the loop has gone through the manifest. -/
theorem smudgeHot_hit {env : SmudgeEnv} {fileSize : Nat} {file : TmpBytes}
    (h : smudgeHot env fileSize = .ok (true, file)) :
    ∃ terms n written, env.manifest = .ok (some terms) ∧
      reconstructTerms env.cacheRead fileSize 0 [] terms = (.ok (.wrote n), written) ∧
      file.map Prod.snd = written := by
  unfold smudgeHot at h
  split_ifs at h
  · simp at h
  · cases hmanifest : env.manifest with
    | error text => simp [hmanifest] at h
    | ok manifest =>
        cases manifest with
        | none => simp [hmanifest] at h
        | some terms =>
            cases hreopen : env.hotReopen with
            | some text => simp [hmanifest, hreopen] at h
            | none =>
                rcases hterms : reconstructTerms env.cacheRead fileSize 0 [] terms with
                  ⟨outcome, written⟩
                simp only [hmanifest, hreopen, hterms] at h
                cases outcome with
                | error text => simp at h
                | ok outcome =>
                    cases outcome with
                    | miss => simp at h
                    | wrote n =>
                        simp only [Except.ok.injEq, Prod.mk.injEq, true_and] at h
                        refine ⟨terms, n, written, rfl, hterms, ?_⟩
                        rw [← h, map_snd_writeFromStart]

/-- Of the sources only the hot path is named `hot`. -/
theorem smudgeFile_hot {env : SmudgeEnv} {fileSize : Nat} {fileIdHex : String} {s : Smudged}
    (h : smudgeFile env fileSize fileIdHex = .ok s) (hhot : s.source = .hot) :
    smudgeHot env fileSize = .ok (true, s.file) := by
  unfold smudgeFile at h
  cases hres : smudgeHot env fileSize with
  | error text => simp [hres, bind, Except.bind] at h
  | ok res =>
      obtain ⟨cacheHit, file⟩ := res
      simp only [hres, bind, Except.bind] at h
      cases cacheHit with
      | true =>
          simp only [smudgeStaging, Bool.not_true, Bool.false_and, Bool.and_false,
            Bool.false_eq_true, if_false, if_true, pure, Except.pure, Except.ok.injEq] at h
          rw [← h]
      | false =>
          -- every other source tells its own name
          exfalso
          simp only [Bool.not_false, Bool.and_true, Bool.true_and, Bool.false_eq_true,
            if_false] at h
          split_ifs at h
          · exact smudgeLocalStore_not_hot h hhot
          · exact smudgeCold_not_hot h hhot
          · rw [← Except.ok.inj h] at hhot
            cases hhot

/-- A smudge streams what the hot path has written only if the loop has been through the
    manifest. -/
theorem handleSmudge_hot {serde : Serde} {env : SmudgeEnv} {pointerBuf : List UInt8} {s : Smudged}
    (hok : handleSmudge serde env pointerBuf = .ok s) (hhot : s.source = .hot) :
    ∃ terms fileSize n written, env.manifest = .ok (some terms) ∧
      reconstructTerms env.cacheRead fileSize 0 [] terms = (.ok (.wrote n), written) ∧
      s.file.map Prod.snd = written := by
  unfold handleSmudge at hok
  cases hparse : parsePointer serde.fromStr pointerBuf with
  | error e => simp [hparse] at hok
  | ok info =>
      cases hsize : info.fileSize with
      | none => simp [hparse, hsize] at hok
      | some fileSize =>
          simp only [hparse, hsize] at hok
          split_ifs at hok
          cases hcache : env.chunkCache with
          | some text => simp [hcache] at hok
          | none =>
              cases htemp : env.tempFile with
              | some text => simp [hcache, htemp] at hok
              | none =>
                  simp only [hcache, htemp] at hok
                  cases hfile : smudgeFile env fileSize info.hash with
                  | error text => simp [hfile] at hok
                  | ok smudged =>
                      cases hfinish : env.finish with
                      | some text => simp [hfile, hfinish] at hok
                      | none =>
                          simp only [hfile, hfinish, Except.ok.injEq] at hok
                          subst hok
                          obtain ⟨terms, n, written, hhit⟩ :=
                            smudgeHot_hit (smudgeFile_hot hfile hhot)
                          exact ⟨terms, fileSize, n, written, hhit⟩

theorem reconstructHot_some {env : Mount.ReconstructEnv} {fileSize : Nat} {bytes : List UInt8}
    (h : Mount.reconstructHot env fileSize = .ok (some bytes)) :
    ∃ terms n, env.manifest = .ok (some terms) ∧
      reconstructTerms env.cacheRead fileSize 0 [] terms = (.ok (.wrote n), bytes) := by
  unfold Mount.reconstructHot at h
  split_ifs at h
  · simp at h
  · cases hmanifest : env.manifest with
    | error text => simp [hmanifest] at h
    | ok manifest =>
        cases manifest with
        | none => simp [hmanifest] at h
        | some terms =>
            cases hreopen : env.hotReopen with
            | some text => simp [hmanifest, hreopen] at h
            | none =>
                rcases hterms : reconstructTerms env.cacheRead fileSize 0 [] terms with
                  ⟨outcome, written⟩
                simp only [hmanifest, hreopen, hterms] at h
                cases outcome with
                | error text => simp at h
                | ok outcome =>
                    cases outcome with
                    | miss => simp at h
                    | wrote n =>
                        simp only [Except.ok.injEq, Option.some.injEq] at h
                        exact ⟨terms, n, rfl, h ▸ hterms⟩

/-- Of two moments the later one reads what the earlier one reads. -/
theorem Moment.readLater (hkeeps : Machine.Admissible (Server.trafficStep svc) KeepsBlobs
    Server.Traffic.empty acts) {k k' : Nat} {st st' : ServerState} {t : FileTerm}
    {bytes : List UInt8} (h : Moment svc acts k st) (h' : Moment svc acts k' st')
    (hread : termRead svc.codec st' t = some bytes) :
    ∃ j later, k ≤ j ∧ Moment svc acts j later ∧ termRead svc.codec later t = some bytes := by
  rcases Nat.le_total k k' with hk | hk
  · exact ⟨k', st', hk, h', hread⟩
  · exact ⟨k, st, Nat.le_refl k, h, (h'.lasts hkeeps hk h).termRead h'.stores h.stores hread⟩

/-- What the loop writes for a saved manifest is what the server has of the file. -/
theorem readFrom_of_cached (hkeeps : Machine.Admissible (Server.trafficStep svc) KeepsBlobs
    Server.Traffic.empty acts) {manifests : Manifests} (hsaved : Saved svc acts manifests)
    {h : FileHash} {loaded : Except String (Option (List CachedTerm))}
    (hload : LoadedFrom manifests (encodeHashText h) loaded) {terms : List CachedTerm}
    (hterms : loaded = .ok (some terms)) {get : Nat → CachedTerm → CacheRead}
    (hchunks : HonestChunks svc acts get) {expectedSize n : Nat} {written : List UInt8}
    (hwrote : reconstructTerms get expectedSize 0 [] terms = (.ok (.wrote n), written)) :
    ∃ k st, ReadFrom svc acts h k st written := by
  obtain ⟨k, st, hmoment, hne, rfl⟩ := hsaved.terms (hload terms hterms)
  obtain ⟨parts, hparts, rfl⟩ := reconstructTerms_wrote hwrote
  refine ⟨k, st, hmoment, hne, parts, ?_, rfl⟩
  rw [List.forall₂_map_left_iff] at hparts
  refine hparts.imp ?_
  rintro t part ⟨j, hget⟩
  obtain ⟨k', st', hmoment', hread⟩ := hchunks.termRead hget
  exact Moment.readLater hkeeps hmoment hmoment' hread

/-- **Everything that is served can be read off the server.** -/
theorem Served.readFrom (hkeeps : Machine.Admissible (Server.trafficStep svc) KeepsBlobs
    Server.Traffic.empty acts) {h : FileHash} {bytes : List UInt8}
    (hserved : Served svc acts h bytes) : ∃ k st, ReadFrom svc acts h k st bytes := by
  cases hserved with
  | server hgot => exact hgot.readFrom hkeeps
  | smudge manifests serde env pointerBuf info s hsaved _ hhash hload hchunks hok hhot hbytes =>
      obtain ⟨terms, fileSize, n, written, hterms, hwrote, hfile⟩ := handleSmudge_hot hok hhot
      rw [hhash] at hload
      rw [← hbytes, hfile]
      exact readFrom_of_cached hkeeps hsaved hload hterms hchunks hwrote
  | mount manifests env fileSize hsaved hload hchunks hhot =>
      obtain ⟨terms, n, hterms, hwrote⟩ := reconstructHot_some hhot
      exact readFrom_of_cached hkeeps hsaved hload hterms hchunks hwrote

end Agree

/-- **Nothing that the caches serve is stale.** In every run of uploads of both kinds, with failures
    and crashes, in which no put replaces a blob: what a smudge or a mount gets for a hash from its
    manifest and its chunk cache, however old, can be read off the server term by term, and is what
    everybody else gets, from the server at any time or from the caches of any other git dir. -/
theorem caches_never_stale (svc : Service) (acts : List TrafficAct) (h : FileHash)
    (hkeeps : Machine.Admissible (Server.trafficStep svc) KeepsBlobs Server.Traffic.empty acts) :
    (∀ bytes, Served svc acts h bytes → ∃ k st, ReadFrom svc acts h k st bytes) ∧
      ∀ bytes bytes', Served svc acts h bytes → Served svc acts h bytes' → bytes = bytes' := by
  refine ⟨fun bytes hserved => hserved.readFrom hkeeps, ?_⟩
  intro bytes bytes' hserved hserved'
  obtain ⟨k, st, hmoment, hne, hfetched⟩ := hserved.readFrom hkeeps
  obtain ⟨k', st', hmoment', hne', hfetched'⟩ := hserved'.readFrom hkeeps
  rw [← Server.terms_unique hkeeps hmoment hmoment' hne hne'] at hfetched'
  exact hfetched.unique hkeeps hfetched'

namespace Sample

/-- A xorb, a file of its chunk with the hash of `info 'a'`, and a crash. -/
def keptRun : List Server.TrafficAct :=
  .xorb (.receive 0 (Server.Sample.byteUpload 0x61)) ::
    List.replicate 6 (.xorb (.step 0)) ++
    .receive 0 ⟨Server.Sample.repo,
      Server.Sample.shard [Server.Sample.file 0xaa [(0x61, 1, 0, 1)]] [], 0⟩ ::
    List.replicate 8 (.shard 0) ++ [.crash]

/-- The term of the file, as it is kept. -/
def keptTerm : CachedTerm := cachedTerm (wireTerm (Server.Sample.term 0x61 1))

/-- The manifest and its chunk are there, and the server is not. -/
def keptEnv : SmudgeEnv :=
  { stagedEnv with
    manifest := .ok (some [keptTerm])
    cacheRead := fun _ term => if term = keptTerm then .data [0x61] none else .missing
    staged := false }

theorem keptEnv_smudge :
    handleSmudge serde keptEnv (asBytes (encodePointerString serde (info 'a'))) =
      .ok ⟨.hot, [(.hot, 0x61)]⟩ := by
  have hhex : is64LowerHex (info 'a').hash = true := by decide +kernel
  have hmanifest : keptEnv.manifest = .ok (some [keptTerm]) := rfl
  have hreopen : keptEnv.hotReopen = none := rfl
  have hdir : keptEnv.gitDir = true := rfl
  have hloop : reconstructTerms keptEnv.cacheRead 1 0 [] [keptTerm] = (.ok (.wrote 1), [0x61]) := by
    simp [reconstructTerms, keptEnv, keptTerm, cachedTerm, wireTerm, Server.Sample.term]
  have hhot : smudgeHot keptEnv 1 = .ok (true, [(.hot, 0x61)]) := by
    unfold smudgeHot
    simp only [hdir, hmanifest, hreopen, hloop]
    rfl
  have hfile : smudgeFile keptEnv 1 (info 'a').hash = .ok ⟨.hot, [(.hot, 0x61)]⟩ := by
    unfold smudgeFile
    rw [hhot]
    rfl
  have hsize : (info 'a').fileSize = some 1 := rfl
  unfold handleSmudge
  simp only [parse_pointer_a, hsize, hhex, hfile]
  rfl

end Sample

/-- The terms of before the crash, when the server has come up again. -/
theorem caches_never_stale_kept :
    Served Server.Sample.service Sample.keptRun (Server.Sample.hash32 0xaa) [0x61] ∧
      ∀ bytes, Got Server.Sample.service Sample.keptRun (Server.Sample.hash32 0xaa) bytes →
        [0x61] = bytes := by
  have hkeeps : Machine.Admissible (Server.trafficStep Server.Sample.service) KeepsBlobs
      Server.Traffic.empty Sample.keptRun := by
    decide +kernel
  have hrun : (Machine.run (Server.trafficStep Server.Sample.service) Server.Traffic.empty
      (Sample.keptRun.take 16)).bind (fun s =>
        (getReconstruction s.server.db List.head? Server.Sample.repo.repoId
          (Server.Sample.hash32 0xaa)).toOption.bind (fun resp =>
            (termRead Server.Sample.service.codec s.server (Server.Sample.term 0x61 1)).map
              (fun bytes => (fetchManifest resp, bytes)))) =
      some ([Sample.keptTerm], [0x61]) := by
    decide +kernel
  obtain ⟨s, hs, hrun⟩ := Option.bind_eq_some_iff.1 hrun
  obtain ⟨resp, hresp, hrun⟩ := Option.bind_eq_some_iff.1 hrun
  obtain ⟨bytes, hread, hpair⟩ := Option.map_eq_some_iff.1 hrun
  obtain ⟨hmanifest, rfl⟩ := Prod.mk.inj hpair
  have hmoment : Moment Server.Sample.service Sample.keptRun 16 s.server := ⟨s, hs, rfl⟩
  have hsaved := Saved.save Saved.fresh 16 s.server List.head? Server.Sample.repo.repoId
    (Server.Sample.hash32 0xaa) resp hmoment (Results.toOption_eq_some.1 hresp)
  have hhash : (Sample.info 'a').hash = encodeHashText (Server.Sample.hash32 0xaa) := by
    decide +kernel
  have hload : LoadedFrom (Function.update (fun _ => none)
      (encodeHashText (Server.Sample.hash32 0xaa)) (some (fetchManifest resp)))
      (Sample.info 'a').hash Sample.keptEnv.manifest := by
    rintro terms hterms
    rw [hhash, Function.update_self, hmanifest]
    exact congrArg some (Option.some.inj (Except.ok.inj hterms))
  have hchunks : HonestChunks Server.Sample.service Sample.keptRun Sample.keptEnv.cacheRead := by
    intro i term bytes writeError hget
    by_cases hterm : term = Sample.keptTerm
    · subst hterm
      unfold Sample.keptEnv at hget
      simp only [if_true, CacheRead.data.injEq] at hget
      exact ⟨16, s.server, Server.Sample.term 0x61 1, hmoment, rfl, rfl, rfl, hget.1 ▸ hread⟩
    · simp [Sample.keptEnv, hterm] at hget
  have hserved : Served Server.Sample.service Sample.keptRun (Server.Sample.hash32 0xaa) [0x61] :=
    .smudge _ Sample.serde Sample.keptEnv _ (Sample.info 'a') _ hsaved Sample.parse_pointer_a hhash
      hload hchunks Sample.keptEnv_smudge rfl rfl
  exact ⟨hserved, fun bytes hgot => (caches_never_stale Server.Sample.service Sample.keptRun
    (Server.Sample.hash32 0xaa) hkeeps).2 [0x61] bytes hserved (.server hgot)⟩

end BaleForGit
