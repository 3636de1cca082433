import BaleForGit.Client.Site

set_option autoImplicit false

/-! # Several git dirs on one machine

Every git dir, whether a repository or a linked worktree of one, has its own markers and clean
cache; which store directory it uses is a matter of configuration. `fleetStep` runs a site operation
in one of them.

A gc run looks at the markers of its own git dir only before it sweeps the store directory of its
configuration. `sweepSafe_iff` says for which assignments of configurations this is enough: two
different git dirs may use the same store directory only if both are in shared mode, where gc never
sweeps. Linked worktrees share one configuration, so an explicit `bale.localStore` without
`bale.localShared` breaks this as soon as a second worktree exists. -/

namespace BaleForGit

/-- An assignment of configurations to git dirs: different git dirs are different directories. -/
structure FleetConfig (Dir : Type) where
  site : Dir → SiteConfig
  gitDir_injective : Function.Injective (fun d => (site d).gitDir)

/-- The state of all git dirs and of the stores they use. -/
structure Fleet (Dir Oid Obj Key : Type) where
  repo : Dir → Repository Oid
  dir : Dir → BaleDir Key
  stores : Stores Obj
  now : Nat

section Fleet

variable {Dir Oid Obj Key : Type} [DecidableEq Dir] [DecidableEq Oid] [DecidableEq Key]
  (deps : Deps Obj Key) (gixOf : Repository Oid → Gix Oid) (cfg : FleetConfig Dir)

/-- The site of git dir `d`. -/
def Fleet.at (w : Fleet Dir Oid Obj Key) (d : Dir) : Site Oid Obj Key :=
  ⟨w.repo d, w.dir d, w.stores, w.now⟩

/-- Write a site back. -/
def Fleet.put (w : Fleet Dir Oid Obj Key) (d : Dir) (s : Site Oid Obj Key) :
    Fleet Dir Oid Obj Key :=
  ⟨Function.update w.repo d s.repo, Function.update w.dir d s.dir, s.stores, s.now⟩

/-- One operation in one git dir. -/
def fleetStep (w : Fleet Dir Oid Obj Key) (act : Dir × SiteOp Oid) :
    Option (Fleet Dir Oid Obj Key) :=
  (siteStep deps gixOf (cfg.site act.1) (w.at act.1) act.2).map (w.put act.1)

def Fleet.fresh (repo : Dir → Repository Oid) (now : Nat) : Fleet Dir Oid Obj Key :=
  ⟨repo, fun _ => ⟨Markers.empty, CleanCache.empty⟩, fun _ => ∅, now⟩

/-- If gc in `d` sweeps a store, no git dir that uses this store is left with a live marker. -/
def SweepSafe (w : Fleet Dir Oid Obj Key) (d : Dir) (grace : Nat) : Prop :=
  ∀ root w', (siteGc deps gixOf (cfg.site d) (w.at d) grace).swept = some root →
    fleetStep deps gixOf cfg w (d, .gc grace) = some w' →
      ∀ d', objectStoreRoot (cfg.site d').raw = some root →
        ∀ h ∈ (w'.dir d').markers.files, ¬ (w'.repo d').Refers deps.serde.fromStr h

/-- Git dirs that use the same store directory are in shared mode. -/
def Exclusive : Prop :=
  ∀ d d', d ≠ d' → objectStoreRoot (cfg.site d).raw = objectStoreRoot (cfg.site d').raw →
    (cfg.site d).localMode = true ∧ (cfg.site d).localShared = true

omit [DecidableEq Key] in
/-- What a sweep needs: gc got past the shared-mode check, and left no marker behind. -/
theorem siteGc_swept {scfg : SiteConfig} {s : Site Oid Obj Key} {grace : Nat} {root : Path}
    (h : (siteGc deps gixOf scfg s grace).swept = some root) :
    root = scfg.root ∧ ¬ (scfg.localMode = true ∧ scfg.localShared = true) ∧
      (siteGc deps gixOf scfg s grace).dir.markers.files = ∅ := by
  have hfiles := files_reconcile deps.serde (gixOf s.repo) (some scfg.raw) scfg.gitDir
    ⟨true, false, s.now, grace⟩ GcFailures.none s.dir s.stores
  have hswept := swept_reconcile deps.serde (gixOf s.repo) (some scfg.raw) scfg.gitDir
    ⟨true, false, s.now, grace⟩ GcFailures.none s.dir s.stores
  unfold siteGc at h ⊢
  rw [hswept] at h
  rw [hfiles]
  split_ifs at h ⊢ with hempty hsweep
  refine ⟨(Option.some.inj h).symm, ?_, rfl⟩
  rintro ⟨hlocal, hshared⟩
  refine hempty ?_
  have hproc : gcProceeds scfg.raw ⟨true, false, s.now, grace⟩ GcFailures.none = false := by
    simp [gcProceeds, SiteConfig.raw, hlocal, hshared]
  unfold gcDropped
  rw [show gcConfig (some scfg.raw) scfg.gitDir = scfg.raw from rfl, hproc]
  rfl

/-- Exclusive stores make every sweep safe, in every state. -/
theorem sweepSafe_of_exclusive (hex : Exclusive cfg) (w : Fleet Dir Oid Obj Key) (d : Dir)
    (grace : Nat) : SweepSafe deps gixOf cfg w d grace := by
  intro root w' hswept hstep d' hroot h hmark
  obtain ⟨hr, hnot, hfiles⟩ := siteGc_swept deps gixOf hswept
  by_cases hd : d = d'
  · subst hd
    simp only [fleetStep, siteStep, Option.map_some, Option.some.injEq] at hstep
    subst hstep
    simp only [Fleet.put, Function.update_self, hfiles] at hmark
    exact absurd hmark (Finset.notMem_empty h)
  · refine absurd (hex d d' hd ?_) hnot
    rw [hroot, hr]
    exact (cfg.site d).objectStoreRoot_raw

omit [DecidableEq Key] in
/-- Outside shared mode, gc sweeps once every staged hash is old and dead. -/
theorem siteGc_sweeps (scfg : SiteConfig) (s : Site Oid Obj Key) (grace : Nat)
    (hgix : (gixOf s.repo).Reads s.repo)
    (hown : ¬ (scfg.localMode = true ∧ scfg.localShared = true))
    (hsome : s.dir.markers.listStaged ≠ ∅)
    (hdead : ∀ h ∈ s.dir.markers.listStaged, s.dir.markers.mtime h + grace < s.now ∧
      ¬ s.repo.GcLive deps.serde.fromStr scfg.localMode h) :
    (siteGc deps gixOf scfg s grace).swept = some scfg.root := by
  have hproc : gcProceeds scfg.raw ⟨true, false, s.now, grace⟩ GcFailures.none = true := by
    simp only [gcProceeds, SiteConfig.raw, GcFailures.none, Bool.and_eq_true, Bool.not_eq_true',
      Bool.and_eq_false_iff]
    refine ⟨⟨⟨trivial, ?_⟩, trivial⟩, trivial⟩
    cases hl : scfg.localMode <;> cases hs : scfg.localShared <;> simp_all
  have hall : s.dir.markers.listStaged ⊆ gcDropped deps.serde (gixOf s.repo)
      (gcConfig (some scfg.raw) scfg.gitDir) ⟨true, false, s.now, grace⟩ GcFailures.none
      s.dir.markers := by
    intro h hstaged
    obtain ⟨hage, hnot⟩ := hdead h hstaged
    refine (mem_gcDropped deps.serde hgix _ _ _ _).2 ⟨hproc, hstaged, ?_, hnot⟩
    have hfile := s.dir.markers.listStaged_subset hstaged
    simp only [markerAgeExceeds, GcFailures.none, hfile, not_true_eq_false, decide_false,
      Bool.or_self, Bool.false_eq_true, if_false]
    rw [if_neg (by omega), decide_eq_true_eq]
    omega
  have hne : gcDropped deps.serde (gixOf s.repo) (gcConfig (some scfg.raw) scfg.gitDir)
      ⟨true, false, s.now, grace⟩ GcFailures.none s.dir.markers ≠ ∅ := by
    intro hempty
    rw [hempty] at hall
    exact hsome (Finset.subset_empty.1 hall)
  have hsweep : gcSweeps GcFailures.none s.dir.markers (gcDropped deps.serde (gixOf s.repo)
      (gcConfig (some scfg.raw) scfg.gitDir) ⟨true, false, s.now, grace⟩ GcFailures.none
      s.dir.markers) := Or.inr hall
  unfold siteGc
  rw [swept_reconcile, if_neg hne, if_pos hsweep]
  rfl

/-- A repository whose only content is one pointer blob, with an empty index and no refs. -/
def blobRepo (data : List UInt8) : Repository Oid where
  db := { parents := fun _ => []
          generation := fun _ => 0
          generation_lt := by simp
          commits := []
          tree := fun _ => []
          object := fun _ => some (.blob, data)
          commit_mem := by simp
          parents_mem := by simp }
  index := []
  head := none
  refs := []

omit [DecidableEq Oid] in
theorem blobRepo_not_gcLive (fromStr : String → Option XetFileInfo) (data : List UInt8)
    (localMode : Bool) (h : String) : ¬ (blobRepo data : Repository Oid).GcLive fromStr localMode h := by
  have hindex : ¬ (blobRepo data : Repository Oid).IndexNames fromStr h := by
    rintro ⟨e, he, -⟩
    simp [blobRepo] at he
  have hlocal : (blobRepo data : Repository Oid).localTips = [] := rfl
  have hremote : (blobRepo data : Repository Oid).remoteTips = [] := rfl
  unfold Repository.GcLive Repository.Refers Repository.Live
  rw [hlocal, hremote]
  split_ifs
  · rintro (hidx | ⟨c, hc, -⟩)
    · exact hindex hidx
    · exact Dag.not_reach_nil _ c hc
  · rintro (hidx | ⟨c, hc, -⟩)
    · exact hindex hidx
    · exact Dag.not_reach_nil _ c hc

/-- A clean in a git dir with an empty clean cache. -/
theorem fleetStep_clean_uncached {w : Fleet Dir Oid Obj Key} {d : Dir}
    (hcache : (w.dir d).cache = CleanCache.empty) (pathname : String) (payload : List UInt8)
    (blob : Option Oid) (repo : Repository Oid)
    (hrepo : recordPointer (w.repo d) pathname (fullClean deps (w.dir d)
      (w.stores (cfg.site d).root) pathname payload w.now).pointer blob = some repo) :
    fleetStep deps gixOf cfg w (d, .clean pathname payload blob) =
      some (w.put d ⟨repo,
        (fullClean deps (w.dir d) (w.stores (cfg.site d).root) pathname payload w.now).dir,
        Function.update w.stores (cfg.site d).root
          (fullClean deps (w.dir d) (w.stores (cfg.site d).root) pathname payload w.now).store,
        w.now⟩) := by
  have hmiss : doClean deps (w.dir d) (w.stores (cfg.site d).root) pathname payload w.now =
      some (fullClean deps (w.dir d) (w.stores (cfg.site d).root) pathname payload w.now) := by
    simp [doClean, cacheLookup, CleanCache.load, hcache, CleanCache.empty]
  simp only [fleetStep, siteStep, Fleet.at, hmiss, Option.bind_some, hrepo, Option.map_some]

variable {deps}

/-- Two git dirs on one store, the first not in shared mode: a file added in the second and an
    abandoned add in the first are enough for a sweep that takes the second one's objects. -/
theorem not_sweepSafe_of_shared_root [Inhabited Oid] (law : deps.Lawful)
    (hgix : ∀ r, (gixOf r).Reads r) {d d' : Dir} (hd : d ≠ d')
    (hroot : objectStoreRoot (cfg.site d).raw = objectStoreRoot (cfg.site d').raw)
    (hown : ¬ ((cfg.site d).localMode = true ∧ (cfg.site d).localShared = true)) :
    ∃ (repo : Dir → Repository Oid) (ops : List (Dir × SiteOp Oid)) (w : Fleet Dir Oid Obj Key),
      Machine.run (fleetStep deps gixOf cfg) (Fleet.fresh repo 0) ops = some w ∧
        ¬ SweepSafe deps gixOf cfg w d 0 := by
  obtain ⟨info, hparse, hhash⟩ := law.parse_encode ∅ []
  set repo : Repository Oid :=
    blobRepo (asBytes (encodePointerString deps.serde (deps.xet.clean ∅ []).2)) with hrepo
  -- the second git dir adds a file and records it
  have hadd := fleetStep_clean_uncached deps gixOf cfg (w := Fleet.fresh (fun _ => repo) 0)
    (d := d') rfl "f" [] (some default) (repo.record "f" default) (if_pos rfl)
  obtain ⟨w₁, hw₁⟩ : ∃ w₁, fleetStep deps gixOf cfg (Fleet.fresh (fun _ => repo) 0)
      (d', .clean "f" [] (some default)) = some w₁ := ⟨_, hadd⟩
  rw [hadd, Option.some.injEq] at hw₁
  -- the first one cleans the same content and abandons it
  have hfresh : w₁.dir d = ⟨Markers.empty, CleanCache.empty⟩ ∧ w₁.repo d = repo := by
    rw [← hw₁]
    simp only [Fleet.put, Function.update_of_ne hd]
    exact ⟨rfl, rfl⟩
  have habandon := fleetStep_clean_uncached deps gixOf cfg (w := w₁) (d := d)
    (by rw [hfresh.1]) "f" [] none repo (by rw [hfresh.2]; rfl)
  obtain ⟨w₂, hw₂⟩ : ∃ w₂, fleetStep deps gixOf cfg w₁ (d, .clean "f" [] none) = some w₂ :=
    ⟨_, habandon⟩
  rw [habandon, Option.some.injEq] at hw₂
  refine ⟨fun _ => repo, [(d', .clean "f" [] (some default)), (d, .clean "f" [] none), (d, .wait 1)],
    w₂.put d { w₂.at d with now := w₂.now + 1 }, ?_, fun hsafe => ?_⟩
  · simp only [Machine.run, hadd, habandon, Option.bind_some, hw₁, hw₂]
    rfl
  -- the first one has one marker, a second old, and nothing live
  have hsite : (w₂.put d { w₂.at d with now := w₂.now + 1 }).at d =
      ⟨repo, (fullClean deps (w₁.dir d) (w₁.stores (cfg.site d).root) "f" [] w₁.now).dir,
        w₂.stores, w₁.now + 1⟩ := by
    rw [← hw₂]
    simp only [Fleet.put, Fleet.at, Function.update_self]
  have hmarkers : (fullClean deps (w₁.dir d) (w₁.stores (cfg.site d).root) "f" [] w₁.now).dir.markers =
      Markers.empty.markFileStaged (deps.xet.clean (w₁.stores (cfg.site d).root) []).2.hash 0
        w₁.now := by
    rw [hfresh.1]
    rfl
  have hswept := siteGc_sweeps deps gixOf (cfg.site d)
    ((w₂.put d { w₂.at d with now := w₂.now + 1 }).at d) 0 (hgix _) hown
    (by
      rw [hsite]
      simp only [hmarkers]
      refine Finset.ne_empty_of_mem (Markers.mem_listStaged.2 ⟨Finset.mem_insert_self _ _, ?_⟩)
      exact law.clean_hash _ _)
    (by
      rw [hsite]
      simp only [hmarkers]
      intro h hstaged
      have hh := (Markers.mem_listStaged.1 hstaged).1
      simp only [Markers.files_markFileStaged, Markers.empty, Finset.mem_insert,
        Finset.notMem_empty, or_false] at hh
      refine ⟨?_, blobRepo_not_gcLive _ _ _ h⟩
      simp [Markers.markFileStaged, hh])
  -- the second one still has its marker, and its index names it
  have hother : ∀ s : Site Oid Obj Key,
      ((w₂.put d { w₂.at d with now := w₂.now + 1 }).put d s).dir d' = w₁.dir d' ∧
        ((w₂.put d { w₂.at d with now := w₂.now + 1 }).put d s).repo d' = w₁.repo d' := by
    intro s
    rw [← hw₂]
    simp only [Fleet.put, Function.update_of_ne (Ne.symm hd), and_self]
  refine hsafe _ _ hswept rfl d' ?_ (deps.xet.clean ∅ []).2.hash ?_ ?_
  · rw [← hroot]
    exact (cfg.site d).objectStoreRoot_raw
  · rw [(hother _).1, ← hw₁]
    simp only [Fleet.put, Function.update_self]
    exact Finset.mem_insert_self _ _
  · rw [(hother _).2, ← hw₁]
    simp only [Fleet.put, Function.update_self]
    refine Or.inl ⟨_, List.mem_cons_self, rfl, ?_⟩
    exact ⟨_, info, rfl, hparse, hhash⟩

/-- **Sweep safety is a matter of configuration.** In every state of every run each gc sweep leaves
    no live marker on its store, exactly when git dirs that use one store directory are all in
    shared mode. -/
theorem sweepSafe_iff [Inhabited Oid] (law : deps.Lawful) (hgix : ∀ r, (gixOf r).Reads r) :
    (∀ (repo : Dir → Repository Oid) (now : Nat) (ops : List (Dir × SiteOp Oid))
        (w : Fleet Dir Oid Obj Key),
      Machine.run (fleetStep deps gixOf cfg) (Fleet.fresh repo now) ops = some w →
        ∀ d grace, SweepSafe deps gixOf cfg w d grace) ↔ Exclusive cfg := by
  constructor
  · intro hsafe d d' hd hroot
    by_contra hown
    obtain ⟨repo, ops, w, hrun, hnot⟩ :=
      not_sweepSafe_of_shared_root gixOf cfg law hgix hd hroot hown
    exact hnot (hsafe repo 0 ops w hrun d 0)
  · intro hex repo now ops w _ d grace
    exact sweepSafe_of_exclusive deps gixOf cfg hex w d grace

end Fleet

namespace Sample

/-- A repository and a linked worktree after `init-local`: one configuration, hence one
    `bale.localStore`, and two git dirs. -/
def worktrees : FleetConfig Bool where
  site d := ⟨if d then [".git", "worktrees", "w"] else [".git"], true,
    some [".git", "bale", "store"], false⟩
  gitDir_injective := by
    intro d d' h
    revert h
    cases d <;> cases d' <;> decide

/-- The same two git dirs, each with its default store. -/
def separate : FleetConfig Bool where
  site d := ⟨if d then [".git", "worktrees", "w"] else [".git"], true, none, false⟩
  gitDir_injective := worktrees.gitDir_injective

/-- Add `a` in the worktree; clean `b` in the main repository and let it age. -/
def worktreeOps : List (Bool × SiteOp Nat) :=
  [(true, .clean "a.bin" [1] (some 10)), (false, .clean "b.bin" [2] none), (false, .wait 1000)]

end Sample

/-- gc in the main repository sweeps the store under the worktree's live marker. -/
theorem worktree_sweep_not_safe :
    ¬ ∀ w, Machine.run (fleetStep Sample.deps Repository.gix Sample.worktrees)
        (Fleet.fresh (fun _ => Sample.emptyRepo) 0) Sample.worktreeOps = some w →
      SweepSafe Sample.deps Repository.gix Sample.worktrees w false 600 := by
  have heval : (Machine.run (fleetStep Sample.deps Repository.gix Sample.worktrees)
      (Fleet.fresh (fun _ => Sample.emptyRepo) 0) Sample.worktreeOps).map (fun w =>
        ((siteGc Sample.deps Repository.gix (Sample.worktrees.site false) (w.at false) 600).swept,
          (fleetStep Sample.deps Repository.gix Sample.worktrees w (false, .gc 600)).map (fun w' =>
            (decide (Sample.hash 'a' ∈ (w'.dir true).markers.files),
              refersB Sample.deps (w'.repo true) (Sample.hash 'a'))))) =
      some (some [".git", "bale", "store"], some (true, true)) := by
    decide +kernel
  obtain ⟨w, hrun, hw⟩ := Option.map_eq_some_iff.1 heval
  simp only [Prod.mk.injEq, Option.map_eq_some_iff, decide_eq_true_eq] at hw
  obtain ⟨hswept, w', hstep, hmark, hrefers⟩ := hw
  intro hsafe
  exact hsafe w hrun _ w' hswept hstep true rfl (Sample.hash 'a') hmark
    ((refersB_iff Sample.deps (w'.repo true) _).1 hrefers)

/-- With a store for each git dir, every sweep of every run is safe. -/
theorem separate_stores_sweep_safe :
    Exclusive Sample.separate ∧
      ∀ (repo : Bool → Repository Nat) (now : Nat) (ops : List (Bool × SiteOp Nat))
          (w : Fleet Bool Nat Char String),
        Machine.run (fleetStep Sample.deps Repository.gix Sample.separate)
            (Fleet.fresh repo now) ops = some w →
          ∀ d grace, SweepSafe Sample.deps Repository.gix Sample.separate w d grace := by
  have hex : Exclusive Sample.separate := by
    intro d d' hd hroot
    revert hd hroot
    cases d <;> cases d' <;> decide
  exact ⟨hex, (sweepSafe_iff Repository.gix Sample.separate Sample.lawful
    (fun r => r.gix_reads)).2 hex⟩

end BaleForGit
