import BaleForGit.Client.Gc

set_option autoImplicit false

/-! # What gc keeps

`reconcile_keeps_live`: without read failures, a run leaves the marker of every live hash and does
not sweep while there is one. What that protects depends on which hashes are live: everything the
index names and everything an unpushed commit holds (server mode), everything a ref reaches (local
mode), but of a stash only what `refs/stash` itself reaches, because older stash entries are held
by the reflog alone and the reflog is not walked. `gc_degrades_iff` says for which sets of read
failures a run removes no more than an undisturbed one. -/

namespace BaleForGit

/-! ## Sample repositories

Small repositories over numeric object ids, for evaluating the definitions: ids below ten are
commits, ten and above are pointer blobs. Hashes are irreducible so that only the kernel unfolds
them, inside `decide`. -/

namespace Sample

/-- The file hash made of one repeated hex digit. -/
@[irreducible] def hash (c : Char) : String := String.ofList (List.replicate 64 c)

/-- `to_string_pretty` of a pointer to a one-byte file. -/
def pointerJson (h : String) : String :=
  "\x7b\n  \"hash\": \"" ++ h ++ "\",\n  \"file_size\": 1\n\x7d"

def info (c : Char) : XetFileInfo := ⟨hash c, some 1, none⟩

/-- JSON, on the pointers of the samples. -/
def serde : Serde where
  fromStr s := (['a', 'b', 'c'].find? (fun c => s == pointerJson (hash c))).map info
  toStringPretty i := pointerJson i.hash
  hashField s := (['a', 'b', 'c'].find? (fun c => s == pointerJson (hash c) ++ "\n")).map hash

/-- The blob of the pointer to the file with hash `hash c`. -/
def pointerBlob (c : Char) : ObjectKind × List UInt8 :=
  (.blob, asBytes (encodePointerString serde (info c)))

def object (id : Nat) : Option (ObjectKind × List UInt8) :=
  if id < 10 then some (.commit, [])
  else if id = 10 then some (pointerBlob 'a')
  else if id = 11 then some (pointerBlob 'b')
  else if id = 12 then some (pointerBlob 'c')
  else none

/-- Ten commits with the given edges (child, parent) and trees. -/
def db (edges : List (Nat × Nat)) (tree : Nat → Tree Nat) : ObjectDb Nat where
  parents c := (edges.filter (fun e => e.1 == c && decide (e.2 < c))).map Prod.snd
  generation c := c
  generation_lt c p hp := by
    simp only [List.mem_map, List.mem_filter, Bool.and_eq_true, decide_eq_true_eq] at hp
    obtain ⟨e, ⟨-, -, hlt⟩, rfl⟩ := hp
    exact hlt
  commits := List.range 10
  tree := tree
  object := object
  commit_mem c data hobj := by
    unfold object at hobj
    rw [List.mem_range]
    by_contra hc
    rw [if_neg hc] at hobj
    split_ifs at hobj <;> simp [pointerBlob] at hobj
  parents_mem c hc p hp := by
    simp only [List.mem_map, List.mem_filter, Bool.and_eq_true, decide_eq_true_eq] at hp
    obtain ⟨e, ⟨-, -, hlt⟩, rfl⟩ := hp
    rw [List.mem_range] at hc ⊢
    omega

/-- A regular file holding the pointer blob `id`. -/
def file (path : String) (id : Nat) : Entry Nat := ⟨path, .blob, id⟩

theorem parse_pointer_a :
    parsePointer serde.fromStr (asBytes (encodePointerString serde (info 'a'))) = .ok (info 'a') := by
  decide +kernel

/-- The blob ten is a pointer to the file `a`. -/
theorem names_a (edges : List (Nat × Nat)) (tree : Nat → Tree Nat) :
    (db edges tree).Names serde.fromStr 10 (hash 'a') :=
  ⟨(pointerBlob 'a').2, info 'a', rfl, parse_pointer_a, rfl⟩

/-- Markers for the given hashes, all written at time zero. -/
@[irreducible] def markers (hs : List Char) : Markers := ⟨(hs.map hash).toFinset, fun _ => 0, fun _ => some 1⟩

end Sample

/-! ## Live hashes are kept -/

section Keeps

variable {Oid Obj Key : Type} [DecidableEq Oid] (serde : Serde) {g : Gix Oid}
  {repo : Repository Oid} (loaded : Option RawConfig) (gitDir : Path) (env : GcEnv)
  (dir : BaleDir Key) (stores : Stores Obj)

/-- A staged hash that a run does not drop keeps its marker, and while it is there nothing is
    swept. -/
theorem reconcile_keeps {h : String} (hstaged : h ∈ dir.markers.listStaged)
    (hkept : h ∉ gcDropped serde g (gcConfig loaded gitDir) env GcFailures.none dir.markers) :
    h ∈ (reconcile serde g loaded gitDir env GcFailures.none dir stores).dir.markers.files ∧
      (reconcile serde g loaded gitDir env GcFailures.none dir stores).swept = none := by
  have hno : ¬ gcSweeps GcFailures.none dir.markers
      (gcDropped serde g (gcConfig loaded gitDir) env GcFailures.none dir.markers) := by
    rintro (hre | hsub)
    · simp [GcFailures.none] at hre
    · exact hkept (hsub hstaged)
  rw [files_reconcile, swept_reconcile]
  split_ifs
  · exact ⟨dir.markers.listStaged_subset hstaged, rfl⟩
  · exact ⟨Finset.mem_sdiff.2 ⟨dir.markers.listStaged_subset hstaged, hkept⟩, rfl⟩

/-- A staged hash that a run drops loses its marker. -/
theorem reconcile_drops {h : String}
    (hdrop : h ∈ gcDropped serde g (gcConfig loaded gitDir) env GcFailures.none dir.markers) :
    h ∉ (reconcile serde g loaded gitDir env GcFailures.none dir stores).dir.markers.files := by
  rw [files_reconcile, if_neg (Finset.ne_empty_of_mem hdrop)]
  split_ifs
  · exact Finset.notMem_empty h
  · exact fun hmem => (Finset.mem_sdiff.1 hmem).2 hdrop

/-- **gc keeps what is live.** -/
theorem reconcile_keeps_live (hg : g.Reads repo) {h : String}
    (hstaged : h ∈ dir.markers.listStaged)
    (hlive : repo.GcLive serde.fromStr (gcConfig loaded gitDir).localMode h) :
    h ∈ (reconcile serde g loaded gitDir env GcFailures.none dir stores).dir.markers.files ∧
      (reconcile serde g loaded gitDir env GcFailures.none dir stores).swept = none := by
  refine reconcile_keeps serde loaded gitDir env dir stores hstaged (fun hdrop => ?_)
  exact ((mem_gcDropped serde hg _ _ _ _).1 hdrop).2.2.2 hlive

/-- **Server mode never under-counts.** A staged hash that a file of the index names, or that a
    file of an unpushed commit names while no pushed commit has that blob at that path, is in the
    set `reachable_hashes` returns, and a gc run keeps its marker. -/
theorem reconcile_keeps_unpushed (hg : g.Reads repo) (want : Finset String) {h : String}
    (hwant : h ∈ want)
    (hneeded : repo.IndexNames serde.fromStr h ∨
      ∃ c, ∃ e ∈ repo.db.tree c, repo.db.Reach repo.localTips c ∧ ¬ repo.db.Reach repo.remoteTips c ∧
        e.mode.isBlob = true ∧ repo.db.Names serde.fromStr e.id h ∧
          ∀ d, repo.db.Reach repo.remoteTips d →
            ∀ e' ∈ repo.db.tree d, e'.path = e.path → e'.id ≠ e.id) :
    h ∈ reachableHashes serde.fromStr g want (refTips g).1 (refTips g).2 ∧
      (dir.markers.listStaged = want → (gcConfig loaded gitDir).localMode = false →
        h ∈ (reconcile serde g loaded gitDir env GcFailures.none dir stores).dir.markers.files) := by
  have hlive : repo.Live serde.fromStr repo.localTips repo.remoteTips h := by
    rcases hneeded with hidx | ⟨c, e, he, hc, -, hmode, hname, hremote⟩
    · exact Or.inl hidx
    · exact repo.live_of_tree serde.fromStr hc he hmode hname
        (fun d hd hed => hremote d hd e hed rfl rfl)
  refine ⟨?_, fun hlisted hmode => ?_⟩
  · rw [refTips_reads hg]
    exact (mem_reachableHashes_reads serde.fromStr hg want _ _
      (fun t ht => repo.localTips_mem ht) h).2 ⟨hwant, hlive⟩
  · refine (reconcile_keeps_live serde loaded gitDir env dir stores hg (hlisted ▸ hwant) ?_).1
    rw [hmode]
    exact hlive

end Keeps

/-- An unpushed branch of two commits over a pushed one; only the first of the two touches the
    pointer. -/
def Sample.unpushed : Repository Nat where
  db := Sample.db [(3, 2), (2, 1)] (fun c =>
    if c = 1 then [Sample.file "readme" 13]
    else [Sample.file "readme" 13, Sample.file "a.bin" 10])
  index := []
  head := some 3
  refs := [("refs/heads/main", 3), ("refs/remotes/origin/main", 1)]

theorem reconcile_keeps_unpushed_branch :
    Sample.hash 'a' ∈ reachableHashes Sample.serde.fromStr Sample.unpushed.gix
        (Sample.markers ['a']).listStaged (refTips Sample.unpushed.gix).1
          (refTips Sample.unpushed.gix).2 ∧
      Sample.hash 'a' ∈ (reconcile Sample.serde Sample.unpushed.gix none [] ⟨true, false, 1000, 600⟩
        GcFailures.none ⟨Sample.markers ['a'], (CleanCache.empty : CleanCache Nat)⟩
          (fun _ => (∅ : Finset Nat))).dir.markers.files := by
  have hpushed : ∀ d ∈ List.range 10,
      Sample.unpushed.db.reachesB Sample.unpushed.remoteTips d = true →
        ∀ e' ∈ Sample.unpushed.db.tree d, e'.path = "a.bin" → e'.id ≠ 10 := by
    decide
  have hboth := reconcile_keeps_unpushed Sample.serde none [] ⟨true, false, 1000, 600⟩
    ⟨Sample.markers ['a'], (CleanCache.empty : CleanCache Nat)⟩ (fun _ => (∅ : Finset Nat))
    Sample.unpushed.gix_reads (Sample.markers ['a']).listStaged
    (h := Sample.hash 'a') (by decide +kernel)
    (Or.inr ⟨3, Sample.file "a.bin" 10, by decide, (Dag.reachesB_iff _ _ _).1 (by decide),
      by rw [← Dag.reachesB_iff]; decide, rfl, Sample.names_a _ _,
      fun d hd => hpushed d
        (Sample.unpushed.db.reach_mem (fun t ht => Sample.unpushed.remoteTips_mem ht) hd)
        ((Dag.reachesB_iff _ _ _).2 hd)⟩)
  exact ⟨hboth.1, hboth.2 rfl rfl⟩

/-! ## Stash entries -/

/-- The stash of a repository, newest entry first: `refs/stash` is the newest, the older ones are
    known to the reflog of `refs/stash` only and are no ancestors of newer ones. -/
structure Stash {Oid : Type} (repo : Repository Oid) where
  entries : List Oid
  commit : ∀ s ∈ entries, repo.db.isCommit s = true
  newest : ∀ s, entries.head? = some s → ("refs/stash", s) ∈ repo.refs
  older : entries.Pairwise (fun newer older => ¬ repo.db.Ancestor newer older)

/-- The commits that stash entry `s` is made of: the entry itself and, behind its base commit, the
    commits of the index and of the untracked files. -/
def Repository.stashCommits {Oid : Type} (repo : Repository Oid) (s : Oid) : List Oid :=
  s :: (repo.db.parents s).tail

section Stash

variable {Oid Obj Key : Type} [DecidableEq Oid] (serde : Serde) {g : Gix Oid}
  {repo : Repository Oid} (loaded : Option RawConfig) (gitDir : Path) (env : GcEnv)
  (dir : BaleDir Key) (stores : Stores Obj)

/-- Some file of a commit of stash entry `s` names `h`; in server mode, one whose blob is in no
    remote-tracking commit. -/
def Repository.StashNeeds (repo : Repository Oid) (fromStr : String → Option XetFileInfo)
    (localMode : Bool) (s : Oid) (h : String) : Prop :=
  ∃ c ∈ repo.stashCommits s, ∃ e ∈ repo.db.tree c, e.mode.isBlob = true ∧
    repo.db.Names fromStr e.id h ∧
      (localMode = false → ∀ d, repo.db.Reach repo.remoteTips d →
        ∀ e' ∈ repo.db.tree d, e'.id ≠ e.id)

/-- A gc run spares every stash entry: it keeps the marker of every staged hash that one of them
    needs, and then does not sweep. -/
def StashProtected (g : Gix Oid) (stash : Stash repo) : Prop :=
  ∀ s ∈ stash.entries, ∀ h ∈ dir.markers.listStaged,
    repo.StashNeeds serde.fromStr (gcConfig loaded gitDir).localMode s h →
      h ∈ (reconcile serde g loaded gitDir env GcFailures.none dir stores).dir.markers.files ∧
        (reconcile serde g loaded gitDir env GcFailures.none dir stores).swept = none

omit [DecidableEq Oid] in
/-- What the newest entry needs is live, through `refs/stash`. -/
theorem gcLive_newest_stash (stash : Stash repo) {s : Oid} (hs : stash.entries.head? = some s)
    {localMode : Bool} {h : String} (hneeds : repo.StashNeeds serde.fromStr localMode s h) :
    repo.GcLive serde.fromStr localMode h := by
  obtain ⟨c, hc, e, he, hmode, hname, hremote⟩ := hneeds
  have htip : s ∈ repo.localTips := by
    have hcommit := stash.commit s (List.mem_of_mem_head? hs)
    have hlocal : isRemoteName "refs/stash" = false := by decide
    refine List.mem_append_right _ ?_
    simp only [Repository.refCommits, ReadFailures.none, Bool.or_self, Bool.false_eq_true, if_false,
      List.mem_map, List.mem_filter]
    exact ⟨("refs/stash", s), ⟨stash.newest s hs, by simp [hlocal, hcommit]⟩, rfl⟩
  have hreach : repo.db.Reach repo.localTips c := by
    rcases List.mem_cons.1 hc with rfl | hpar
    · exact Dag.Reach.tip htip
    · exact (Dag.Reach.tip htip).parent (List.mem_of_mem_tail hpar)
  unfold Repository.GcLive
  cases localMode with
  | true =>
      exact Or.inr ⟨c, hreach.mono (fun t ht => List.mem_append_left _ ht), e, he, hmode, hname⟩
  | false =>
      exact repo.live_of_tree serde.fromStr hreach he hmode hname
        (fun d hd hed => hremote rfl d hd e hed rfl)

/-- **Which stashes gc spares.** Exactly those in which every staged hash of an older entry is
    young, or live for another reason, unless the run stops before it looks at the markers. -/
theorem stashProtected_iff (hg : g.Reads repo) (stash : Stash repo) :
    StashProtected serde loaded gitDir env dir stores g stash ↔
      (gcProceeds (gcConfig loaded gitDir) env GcFailures.none = true →
        ∀ s ∈ stash.entries.tail, ∀ h ∈ dir.markers.listStaged,
          repo.StashNeeds serde.fromStr (gcConfig loaded gitDir).localMode s h →
            markerAgeExceeds GcFailures.none dir.markers env h = true →
              repo.GcLive serde.fromStr (gcConfig loaded gitDir).localMode h) := by
  constructor
  · intro hprot hproc s hs h hstaged hneeds hage
    by_contra hdead
    refine reconcile_drops serde loaded gitDir env dir stores
      ((mem_gcDropped serde hg _ _ _ _).2 ⟨hproc, hstaged, hage, hdead⟩) ?_
    exact (hprot s (List.mem_of_mem_tail hs) h hstaged hneeds).1
  · intro hcond s hs h hstaged hneeds
    refine reconcile_keeps serde loaded gitDir env dir stores hstaged (fun hdrop => ?_)
    obtain ⟨hproc, -, hage, hdead⟩ := (mem_gcDropped serde hg _ _ _ _).1 hdrop
    cases hentries : stash.entries with
    | nil => rw [hentries] at hs; simp at hs
    | cons top rest =>
        rw [hentries] at hs
        rcases List.mem_cons.1 hs with rfl | hrest
        · exact hdead (gcLive_newest_stash serde stash (by rw [hentries]; rfl) hneeds)
        · exact hdead (hcond hproc s (by rw [hentries]; exact hrest) h hstaged hneeds hage)

end Stash

namespace Sample

/-- Two stash entries, four below five, each with its own pointer. -/
def stashed : Repository Nat where
  db := db [(5, 1), (4, 1)] (fun c =>
    if c = 5 then [file "b.bin" 11] else if c = 4 then [file "a.bin" 10] else [])
  index := []
  head := some 1
  refs := [("refs/heads/main", 1), ("refs/stash", 5)]

def stash : Stash stashed where
  entries := [5, 4]
  commit := by decide
  newest s hs := by
    simp only [List.head?_cons, Option.some.injEq] at hs
    subst hs
    decide
  older := by
    refine List.Pairwise.cons ?_ (List.pairwise_singleton _ _)
    intro a ha hanc
    rw [List.mem_singleton] at ha
    subst ha
    exact absurd ((Dag.reachesB_iff _ [5] 4).2 ⟨5, by simp, hanc⟩) (by decide)

/-- A git dir in local mode with its own store. -/
def localConfig : RawConfig := ⟨some [".git"], true, none, false⟩

theorem stashed_needs_a : stashed.StashNeeds serde.fromStr true 4 (hash 'a') :=
  ⟨4, by decide, file "a.bin" 10, by decide, rfl, names_a _ _, by simp⟩

end Sample

/-- The older of two stash entries loses its marker, and its objects are swept. -/
theorem older_stash_not_protected :
    ¬ StashProtected Sample.serde (some Sample.localConfig) [".git"] ⟨true, false, 1000, 600⟩
      ⟨Sample.markers ['a'], (CleanCache.empty : CleanCache Nat)⟩ (fun _ => (∅ : Finset Nat))
      Sample.stashed.gix Sample.stash := by
  have hstaged : Sample.hash 'a' ∈ (Sample.markers ['a']).listStaged := by decide +kernel
  have hgone : Sample.hash 'a' ∉ (reconcile Sample.serde Sample.stashed.gix
      (some Sample.localConfig) [".git"] ⟨true, false, 1000, 600⟩ GcFailures.none
      ⟨Sample.markers ['a'], (CleanCache.empty : CleanCache Nat)⟩
      (fun _ => (∅ : Finset Nat))).dir.markers.files := by
    decide +kernel
  intro hprot
  exact hgone (hprot 4 (by decide) (Sample.hash 'a') hstaged Sample.stashed_needs_a).1

/-- With a marker younger than the grace, both entries are safe. -/
theorem young_stash_protected :
    StashProtected Sample.serde (some Sample.localConfig) [".git"] ⟨true, false, 500, 600⟩
      ⟨Sample.markers ['a', 'b'], (CleanCache.empty : CleanCache Nat)⟩ (fun _ => (∅ : Finset Nat))
      Sample.stashed.gix Sample.stash := by
  refine (stashProtected_iff Sample.serde (some Sample.localConfig) [".git"] ⟨true, false, 500, 600⟩
    ⟨Sample.markers ['a', 'b'], (CleanCache.empty : CleanCache Nat)⟩ (fun _ => (∅ : Finset Nat))
    Sample.stashed.gix_reads Sample.stash).2 ?_
  intro _ s _ h hstaged _ hage
  simp [markerAgeExceeds, Sample.markers] at hage

/-! ## Read failures -/

section Failures

variable {Oid Obj Key : Type} [DecidableEq Oid] [DecidableEq Obj] (serde : Serde) (g : Gix Oid)
  (loaded : Option RawConfig) (gitDir : Path) (env : GcEnv) (dir : BaleDir Key)
  (stores : Stores Obj)

/-- The marker files that a run with failing reads removes. -/
def gcRemoved (FG : ReadFailures Oid) (F : GcFailures) : Finset String :=
  dir.markers.files \
    (reconcile serde (g.fail FG) loaded gitDir env F dir stores).dir.markers.files

/-- The objects that it deletes from the store at `p`. -/
def gcDeleted (FG : ReadFailures Oid) (F : GcFailures) (p : Path) : Finset Obj :=
  stores p \ (reconcile serde (g.fail FG) loaded gitDir env F dir stores).stores p

/-- Under these failures a run removes no marker and deletes no object that an undisturbed run
    keeps. -/
def GcDegrades (FG : ReadFailures Oid) (F : GcFailures) : Prop :=
  gcRemoved serde g loaded gitDir env dir stores FG F ⊆
      gcRemoved serde g loaded gitDir env dir stores (ReadFailures.none Oid) GcFailures.none ∧
    ∀ p, gcDeleted serde g loaded gitDir env dir stores FG F p ⊆
      gcDeleted serde g loaded gitDir env dir stores (ReadFailures.none Oid) GcFailures.none p

section Outcome

variable (FG : ReadFailures Oid) (F : GcFailures)

theorem gcDropped_subset (raw : RawConfig) (m : Markers) :
    gcDropped serde g raw env F m ⊆ m.listStaged := by
  unfold gcDropped gcDead
  intro h hmem
  split_ifs at hmem
  · simp at hmem
  · exact (Finset.mem_sdiff.1 (Finset.mem_filter.1 hmem).1).1
  · simp at hmem

omit [DecidableEq Obj] in
theorem gcRemoved_eq :
    gcRemoved serde g loaded gitDir env dir stores FG F =
      let dead := gcDropped serde (g.fail FG) (gcConfig loaded gitDir) env F dir.markers
      if dead = ∅ then ∅ else if gcSweeps F dir.markers dead then dir.markers.files else dead := by
  have hsub := (gcDropped_subset serde (g.fail FG) env F (gcConfig loaded gitDir)
    dir.markers).trans dir.markers.listStaged_subset
  unfold gcRemoved
  rw [files_reconcile]
  simp only
  split_ifs
  · exact Finset.sdiff_self _
  · exact Finset.sdiff_empty
  · rw [Finset.sdiff_sdiff_eq_self hsub]

theorem gcDeleted_eq (p : Path) :
    gcDeleted serde g loaded gitDir env dir stores FG F p =
      let dead := gcDropped serde (g.fail FG) (gcConfig loaded gitDir) env F dir.markers
      if dead ≠ ∅ ∧ gcSweeps F dir.markers dead ∧ gcStore (gcConfig loaded gitDir) gitDir <+: p
      then stores p else ∅ := by
  unfold gcDeleted
  rw [stores_reconcile, swept_reconcile]
  simp only
  by_cases hempty : gcDropped serde (g.fail FG) (gcConfig loaded gitDir) env F dir.markers = ∅
  · simp [hempty]
  · by_cases hsweep : gcSweeps F dir.markers
        (gcDropped serde (g.fail FG) (gcConfig loaded gitDir) env F dir.markers)
    · by_cases hbelow : gcStore (gcConfig loaded gitDir) gitDir <+: p <;>
        simp [hempty, hsweep, hbelow, removeAllStagedObjects]
    · simp [hempty, hsweep]

/-- The comparison of two runs comes down to the hashes they drop. -/
theorem gcDegrades_iff_dropped :
    GcDegrades serde g loaded gitDir env dir stores FG F ↔
      let dead := gcDropped serde (g.fail FG) (gcConfig loaded gitDir) env F dir.markers
      let dead₀ := gcDropped serde g (gcConfig loaded gitDir) env GcFailures.none dir.markers
      dead = ∅ ∨ (dead ⊆ dead₀ ∧ (F.relist = true → dir.markers.listStaged ⊆ dead₀)) := by
  unfold GcDegrades
  simp only [gcRemoved_eq, gcDeleted_eq, Gix.fail_none]
  have hsub := gcDropped_subset serde (g.fail FG) env F (gcConfig loaded gitDir) dir.markers
  have hsub₀ := gcDropped_subset serde g env GcFailures.none (gcConfig loaded gitDir) dir.markers
  set dead := gcDropped serde (g.fail FG) (gcConfig loaded gitDir) env F dir.markers
  set dead₀ := gcDropped serde g (gcConfig loaded gitDir) env GcFailures.none dir.markers
  have hsweeps₀ : gcSweeps GcFailures.none dir.markers dead₀ ↔ dir.markers.listStaged ⊆ dead₀ := by
    simp [gcSweeps, GcFailures.none]
  -- a staged hash is removed by the undisturbed run only if that run drops it
  have hremoved₀ : ∀ h ∈ dir.markers.listStaged,
      h ∈ (if dead₀ = ∅ then ∅ else if gcSweeps GcFailures.none dir.markers dead₀
        then dir.markers.files else dead₀) → h ∈ dead₀ := by
    intro h hstaged hmem
    split_ifs at hmem with hempty hsweep
    · simp at hmem
    · exact hsweeps₀.1 hsweep hstaged
    · exact hmem
  constructor
  · rintro ⟨hmarkers, -⟩
    by_cases hempty : dead = ∅
    · exact Or.inl hempty
    rw [if_neg hempty] at hmarkers
    refine Or.inr ⟨fun h hdead => ?_, fun hre h hstaged => ?_⟩
    · refine hremoved₀ h (hsub hdead) (hmarkers ?_)
      split_ifs
      · exact dir.markers.listStaged_subset (hsub hdead)
      · exact hdead
    · refine hremoved₀ h hstaged (hmarkers ?_)
      have hsweep : gcSweeps F dir.markers dead := Or.inl hre
      rw [if_pos hsweep]
      exact dir.markers.listStaged_subset hstaged
  · rintro (hempty | ⟨hdead, hre⟩)
    · simp [hempty]
    by_cases hempty : dead = ∅
    · simp [hempty]
    have hne₀ : dead₀ ≠ ∅ := fun h => hempty (Finset.subset_empty.1 (h ▸ hdead))
    by_cases hsweep : gcSweeps F dir.markers dead
    · have hsweep₀ : gcSweeps GcFailures.none dir.markers dead₀ := by
        rcases hsweep with hrel | hall
        · exact Or.inr (hre hrel)
        · exact Or.inr (hall.trans hdead)
      simp only [hempty, hne₀, hsweep, hsweep₀, if_false, if_true, ne_eq, not_false_eq_true,
        true_and]
      exact ⟨Finset.Subset.refl _, fun p => Finset.Subset.refl _⟩
    · refine ⟨?_, fun p => by simp [hsweep]⟩
      rw [if_neg hempty, if_neg hsweep, if_neg hne₀]
      split_ifs
      · exact hsub.trans dir.markers.listStaged_subset
      · exact hdead

end Outcome

variable {g} {repo : Repository Oid}

omit [DecidableEq Oid] in
theorem markerAgeExceeds_none {F : GcFailures} {m : Markers} {h : String}
    (hage : markerAgeExceeds F m env h = true) : markerAgeExceeds GcFailures.none m env h = true := by
  unfold markerAgeExceeds at hage ⊢
  by_cases hfile : h ∈ m.files
  · by_cases hmt : F.mtime h = true
    · simp [hmt] at hage
    · simpa [hmt, hfile, GcFailures.none] using hage
  · simp [hfile] at hage

theorem gcProceeds_none {raw : RawConfig} {F : GcFailures} (h : gcProceeds raw env F = true) :
    gcProceeds raw env GcFailures.none = true := by
  simp only [gcProceeds, GcFailures.none, Bool.and_eq_true, Bool.not_eq_true'] at h ⊢
  exact ⟨⟨⟨trivial, h.1.1.2⟩, h.1.2⟩, h.2⟩

/-- **When failing reads only make gc keep more.** A run that gets to the markers must still see
    every aged staged hash that is live in the intact repository, and if the second listing fails
    there must be nothing dead, or nothing live. -/
theorem gcDegrades_iff (hg : g.Reads repo) (FG : ReadFailures Oid) (F : GcFailures) :
    GcDegrades serde g loaded gitDir env dir stores FG F ↔
      (gcProceeds (gcConfig loaded gitDir) env F = true → F.list = false →
        (∀ h ∈ dir.markers.listStaged, markerAgeExceeds F dir.markers env h = true →
          repo.GcLive serde.fromStr (gcConfig loaded gitDir).localMode h →
            repo.GcLiveUnder serde.fromStr FG (gcConfig loaded gitDir).localMode h) ∧
        (F.relist = true →
          (∀ h ∈ dir.markers.listStaged, markerAgeExceeds F dir.markers env h = true →
            repo.GcLiveUnder serde.fromStr FG (gcConfig loaded gitDir).localMode h) ∨
          ∀ h ∈ dir.markers.listStaged,
            markerAgeExceeds GcFailures.none dir.markers env h = true ∧
              ¬ repo.GcLive serde.fromStr (gcConfig loaded gitDir).localMode h)) := by
  rw [gcDegrades_iff_dropped]
  simp only
  have hdead := mem_gcDropped_fail serde hg FG (gcConfig loaded gitDir) env F dir.markers
  have hdead₀ := mem_gcDropped serde hg (gcConfig loaded gitDir) env dir.markers
  set dead := gcDropped serde (g.fail FG) (gcConfig loaded gitDir) env F dir.markers
  set dead₀ := gcDropped serde g (gcConfig loaded gitDir) env GcFailures.none dir.markers
  constructor
  · intro hcmp hproc hlist
    have hempty : dead = ∅ → ∀ h ∈ dir.markers.listStaged,
        markerAgeExceeds F dir.markers env h = true →
          repo.GcLiveUnder serde.fromStr FG (gcConfig loaded gitDir).localMode h := by
      intro he h hstaged hage
      by_contra hnot
      exact Finset.notMem_empty h (he ▸ (hdead h).2 ⟨hproc, hlist, hstaged, hage, hnot⟩)
    rcases hcmp with he | ⟨hsub, hre⟩
    · exact ⟨fun h hstaged hage _ => hempty he h hstaged hage, fun _ => Or.inl (hempty he)⟩
    · refine ⟨fun h hstaged hage hlive => ?_, fun hrel => Or.inr (fun h hstaged => ?_)⟩
      · by_contra hnot
        exact ((hdead₀ h).1 (hsub ((hdead h).2 ⟨hproc, hlist, hstaged, hage, hnot⟩))).2.2.2 hlive
      · exact ((hdead₀ h).1 (hre hrel hstaged)).2.2
  · intro hcond
    by_cases he : dead = ∅
    · exact Or.inl he
    obtain ⟨h₁, hh₁⟩ := Finset.nonempty_iff_ne_empty.2 he
    obtain ⟨hproc, hlist, hstaged₁, hage₁, hnot₁⟩ := (hdead h₁).1 hh₁
    obtain ⟨hlives, hrelist⟩ := hcond hproc hlist
    refine Or.inr ⟨fun h hh => ?_, fun hrel h hstaged => ?_⟩
    · obtain ⟨-, -, hstaged, hage, hnot⟩ := (hdead h).1 hh
      exact (hdead₀ h).2 ⟨gcProceeds_none env hproc, hstaged, markerAgeExceeds_none env hage,
        fun hlive => hnot (hlives h hstaged hage hlive)⟩
    · rcases hrelist hrel with hall | hall
      · exact absurd (hall h₁ hstaged₁ hage₁) hnot₁
      · exact (hdead₀ h).2 ⟨gcProceeds_none env hproc, hstaged, hall h hstaged⟩

end Failures

end BaleForGit
