import BaleForGit.Client.Fleet
import BaleForGit.Client.Prune

set_option autoImplicit false

/-! # What prune keeps

The live set of `prune --shared` is a union of intersections: the markers of each registered
repository with what that repository reaches. A file that is referenced in one repository and
marked in another, as after a clone, is in none of them. `prune_keeps_referenced_iff` says exactly
when a run keeps every referenced file all the same.

The second part is about failing reads, in gc and in prune together. -/

namespace BaleForGit

/-! ## Referenced files -/

section Keeps

variable {Dir Oid Obj Key : Type} [DecidableEq Dir] [DecidableEq Oid] [DecidableEq Key]
  (deps : Deps Obj Key) (gixOf : Repository Oid → Gix Oid) (cfg : FleetConfig Dir)

/-- A registered git dir that exists, can be opened and listed. -/
def Fleet.view (w : Fleet Dir Oid Obj Key) (d : Dir) : RepoView Oid :=
  ⟨true, (w.dir d).markers, gixOf (w.repo d), false, false, false⟩

/-- One of the registered repositories references the file. -/
def ReferencedIn (w : Fleet Dir Oid Obj Key) (registered : List Dir) (h : String) : Prop :=
  ∃ d ∈ registered, (w.repo d).Refers deps.serde.fromStr h

/-- One of the registered repositories both has a marker for the file and references it. -/
def MarkedIn (w : Fleet Dir Oid Obj Key) (registered : List Dir) (h : String) : Prop :=
  ∃ d ∈ registered, h ∈ (w.dir d).markers.listStaged ∧ (w.repo d).Refers deps.serde.fromStr h

omit [DecidableEq Dir] [DecidableEq Key] in
theorem viewLive_iff (hgix : ∀ r, (gixOf r).Reads r) (w : Fleet Dir Oid Obj Key)
    (registered : List Dir) (h : String) :
    ViewLive deps.serde.fromStr (registered.map (w.view gixOf)) h ↔
      MarkedIn deps w registered h := by
  unfold ViewLive MarkedIn
  simp only [List.mem_map, exists_exists_and_eq_and, Fleet.view, reachableInRepo, RepoView.markerSet, true_and,
    Bool.false_eq_true, if_false, mem_reachableAll_reads deps.serde.fromStr (hgix _)]

omit [DecidableEq Dir] [DecidableEq Oid] [DecidableEq Key] in
theorem viewMarked_iff (w : Fleet Dir Oid Obj Key) (registered : List Dir) (h : String) :
    ViewMarked (registered.map (w.view gixOf)) h ↔
      ∃ d ∈ registered, h ∈ (w.dir d).markers.listStaged := by
  unfold ViewMarked
  simp only [List.mem_map, exists_exists_and_eq_and, Fleet.view, RepoView.markerSet, true_and, Bool.false_eq_true,
    if_false]

/-- **What prune keeps.** After any history of the registered repositories, a successful run keeps
    every referenced file that the old store held exactly when no marker is dead, or every such file
    is marked and referenced in one and the same repository. -/
theorem prune_keeps_referenced_iff (law : deps.xet.Compacts) (hgix : ∀ r, (gixOf r).Reads r)
    (repo : Dir → Repository Oid) (now : Nat) (ops : List (Dir × SiteOp Oid)) :
    ∀ w, Machine.run (fleetStep deps gixOf cfg) (Fleet.fresh repo now) ops = some w →
    ∀ (d : Dir) (registered : List Dir) (force : Bool) (env : PruneEnv)
      (res : Option (Finset Obj)),
      prune deps.serde.fromStr deps.xet (cfg.site d).raw force env
          (some (registered.map (w.view gixOf))) (w.stores (cfg.site d).root) = .ok res →
        ((∀ h, deps.xet.Holds (w.stores (cfg.site d).root) h → ReferencedIn deps w registered h →
            deps.xet.Holds (res.getD (w.stores (cfg.site d).root)) h) ↔
          (∀ d' ∈ registered, ∀ h ∈ (w.dir d').markers.listStaged, MarkedIn deps w registered h) ∨
            ∀ h, deps.xet.Holds (w.stores (cfg.site d).root) h →
              ReferencedIn deps w registered h → MarkedIn deps w registered h) := by
  intro w _ d registered force env res hok
  cases res with
  | none =>
      -- nothing was dead, and the store is as it was
      refine ⟨fun _ => Or.inl (fun d' hd' h hmark => ?_), fun _ h hold _ => hold⟩
      refine (viewLive_iff deps gixOf hgix w registered h).1 (prune_kept _ hok h ?_)
      exact (viewMarked_iff gixOf w registered h).2 ⟨d', hd', hmark⟩
  | some new =>
      obtain ⟨⟨-, ⟨h₀, hmarked, hdead⟩, -⟩, hholds⟩ := prune_swapped _ law hok
      obtain ⟨d₀, hd₀, hmark₀⟩ := (viewMarked_iff gixOf w registered h₀).1 hmarked
      simp only [viewLive_iff deps gixOf hgix] at hdead hholds
      constructor
      · intro hkeeps
        exact Or.inr (fun h hold href => (hholds h).1 (hkeeps h hold href))
      · rintro (hall | hall) h hold href
        · exact absurd (hall d₀ hd₀ h₀ hmark₀) hdead
        · exact (hholds h).2 (hall h hold href)

end Keeps

namespace Sample

/-- Two repositories on one shared store. -/
def shared : FleetConfig Bool where
  site d := ⟨[if d then "b" else "a", ".git"], true, some ["store"], true⟩
  gitDir_injective := by
    intro d d' h
    revert h
    cases d <;> cases d' <;> decide

theorem compacts : deps.xet.Compacts where
  not_holds_empty h := by
    simp [Xet.Holds, deps, xet]
  clean_holds_iff s b h := by
    simp only [Xet.Holds, deps, xet, Option.isSome_map, List.find?_isSome, Bool.and_eq_true,
      decide_eq_true_eq, beq_iff_eq, Finset.mem_insert]
    constructor
    · rintro ⟨c, hc, rfl | hin, rfl⟩
      · exact Or.inr rfl
      · exact Or.inl ⟨c, hc, hin, rfl⟩
    · rintro (⟨c, hc, hin, rfl⟩ | rfl)
      · exact ⟨c, hc, Or.inr hin, rfl⟩
      · exact ⟨fileOf b, fileOf_mem b, Or.inl rfl, rfl⟩
  clean_hash_eq s b := rfl

/-- The first repository adds `a` and commits it on a detached `HEAD`; the second clones and checks
    it out; the first one goes back to another commit. -/
def cloneOps : List (Bool × SiteOp Nat) :=
  [(false, .clean "a.bin" [1] (some 10)), (false, .git (.updateHead (some 1))),
    (true, .git (.updateHead (some 1))), (true, .git (.resetIndex [file "a.bin" 10])),
    (true, .smudge "a.bin" 10), (false, .git (.updateHead (some 2))),
    (false, .git (.resetIndex []))]

/-- The first repository keeps `a` in its index and abandons an add of `b`. -/
def abandonOps : List (Bool × SiteOp Nat) :=
  [(false, .clean "a.bin" [1] (some 10)), (false, .clean "b.bin" [2] none)]

def pruneAll (w : Fleet Bool Nat Char String) : Except PruneError (Option (Finset Char)) :=
  prune deps.serde.fromStr deps.xet (shared.site false).raw false ⟨true, true, true, true, true⟩
    (some ([false, true].map (w.view Repository.gix))) (w.stores (shared.site false).root)

end Sample

/-- The clone still references `a`, and no object of it is left. -/
theorem prune_loses_cloned_file :
    ¬ ∀ w, Machine.run (fleetStep Sample.deps Repository.gix Sample.shared)
        (Fleet.fresh (fun _ => Sample.emptyRepo) 0) Sample.cloneOps = some w →
      ∀ res, Sample.pruneAll w = .ok res →
        ∀ h, Sample.deps.xet.Holds (w.stores (Sample.shared.site false).root) h →
          ReferencedIn Sample.deps w [false, true] h →
            Sample.deps.xet.Holds (res.getD (w.stores (Sample.shared.site false).root)) h := by
  have heval : (Machine.run (fleetStep Sample.deps Repository.gix Sample.shared)
      (Fleet.fresh (fun _ => Sample.emptyRepo) 0) Sample.cloneOps).map (fun w =>
        (Sample.pruneAll w,
          decide (Sample.deps.xet.Holds (w.stores (Sample.shared.site false).root)
            (Sample.hash 'a')), refersB Sample.deps (w.repo true) (Sample.hash 'a'))) =
      some (.ok (some ∅), true, true) := by
    decide +kernel
  obtain ⟨w, hrun, hw⟩ := Option.map_eq_some_iff.1 heval
  simp only [Prod.mk.injEq, decide_eq_true_eq] at hw
  obtain ⟨hprune, hold, href⟩ := hw
  intro hall
  refine Sample.compacts.not_holds_empty (Sample.hash 'a')
    (hall w hrun (some ∅) hprune (Sample.hash 'a') hold ⟨true, by simp, ?_⟩)
  exact (refersB_iff Sample.deps (w.repo true) _).1 href

/-- A run that reclaims an abandoned add and keeps the file of the index. -/
theorem prune_keeps_indexed_file :
    ∃ w new, Machine.run (fleetStep Sample.deps Repository.gix Sample.shared)
        (Fleet.fresh (fun _ => Sample.emptyRepo) 0) Sample.abandonOps = some w ∧
      Sample.pruneAll w = .ok (some new) ∧
      ((∀ h, Sample.deps.xet.Holds (w.stores (Sample.shared.site false).root) h →
          ReferencedIn Sample.deps w [false, true] h →
            Sample.deps.xet.Holds ((some new).getD (w.stores (Sample.shared.site false).root)) h) ↔
        (∀ d' ∈ [false, true], ∀ h ∈ (w.dir d').markers.listStaged,
          MarkedIn Sample.deps w [false, true] h) ∨
        ∀ h, Sample.deps.xet.Holds (w.stores (Sample.shared.site false).root) h →
          ReferencedIn Sample.deps w [false, true] h → MarkedIn Sample.deps w [false, true] h) := by
  have heval : (Machine.run (fleetStep Sample.deps Repository.gix Sample.shared)
      (Fleet.fresh (fun _ => Sample.emptyRepo) 0) Sample.abandonOps).map Sample.pruneAll =
      some (.ok (some {'a'})) := by
    decide +kernel
  obtain ⟨w, hrun, hprune⟩ := Option.map_eq_some_iff.1 heval
  exact ⟨w, {'a'}, hrun, hprune, prune_keeps_referenced_iff Sample.deps Repository.gix Sample.shared
    Sample.compacts (fun r => r.gix_reads) (fun _ => Sample.emptyRepo) 0 Sample.abandonOps w hrun
    false [false, true] false ⟨true, true, true, true, true⟩ (some {'a'}) hprune⟩

/-! ## Failing reads -/

/-- A registered repository, with the truthful answers `gix` would give about it. -/
structure Registered (Oid : Type) where
  present : Bool
  markers : Markers
  repo : Repository Oid
  gix : Gix Oid
  reads : gix.Reads repo

/-- The reads of one repository that fail in a prune run. -/
structure PruneFailures (Oid : Type) where
  list : Bool
  relist : Bool
  openRepo : Bool
  git : ReadFailures Oid

def PruneFailures.none (Oid : Type) : PruneFailures Oid :=
  ⟨false, false, false, ReadFailures.none Oid⟩

section Failures

variable {Oid Obj Key : Type} [DecidableEq Oid] (serde : Serde) (xet : Xet Obj)
  (raw : RawConfig) (force : Bool) (env : PruneEnv)

/-- What a run sees of a repository. -/
def Registered.view (r : Registered Oid) (F : PruneFailures Oid) : RepoView Oid :=
  ⟨r.present, r.markers, r.gix.fail F.git, F.list, F.openRepo, F.relist⟩

/-- The registered repositories, each with its failing reads. -/
def viewsUnder (repos : List (Registered Oid × PruneFailures Oid)) : List (RepoView Oid) :=
  repos.map (fun r => r.1.view r.2)

/-- The same repositories with no read failing. -/
def viewsIntact (repos : List (Registered Oid × PruneFailures Oid)) : List (RepoView Oid) :=
  repos.map (fun r => r.1.view (PruneFailures.none Oid))

/-- Files that the old store held and the store after the run does not. -/
def PruneDrops (views : List (RepoView Oid)) (old : Finset Obj) (h : String) : Prop :=
  xet.Holds old h ∧
    ¬ xet.Holds (pruneResult old (prune serde.fromStr xet raw force env (some views) old)) h

/-- Under these failures a run drops no file that an undisturbed run keeps. -/
def PruneDegrades (repos : List (Registered Oid × PruneFailures Oid)) (old : Finset Obj) : Prop :=
  ∀ h, PruneDrops serde xet raw force env (viewsUnder repos) old h →
    PruneDrops serde xet raw force env (viewsIntact repos) old h

/-- Some repository that can be opened and listed has a marker for `h`, and the failures leave an
    occurrence of `h` readable there. -/
def SeenLive (repos : List (Registered Oid × PruneFailures Oid)) (h : String) : Prop :=
  ∃ r ∈ repos, r.1.present = true ∧ r.2.list = false ∧ r.2.openRepo = false ∧
    h ∈ r.1.markers.listStaged ∧ r.1.repo.LiveUnder serde.fromStr r.2.git
      (r.1.repo.localTipsUnder r.2.git ++ r.1.repo.remoteTipsUnder r.2.git) [] h

/-- Some repository has a marker for `h` and references it. -/
def KeptIntact (repos : List (Registered Oid × PruneFailures Oid)) (h : String) : Prop :=
  ∃ r ∈ repos, r.1.present = true ∧ h ∈ r.1.markers.listStaged ∧
    r.1.repo.Refers serde.fromStr h

/-- Some repository that can be listed has a marker for `h`. -/
def SeenMarked (repos : List (Registered Oid × PruneFailures Oid)) (h : String) : Prop :=
  ∃ r ∈ repos, r.1.present = true ∧ r.2.list = false ∧ h ∈ r.1.markers.listStaged

/-- Some repository has a marker for `h`. -/
def MarkedIntact (repos : List (Registered Oid × PruneFailures Oid)) (h : String) : Prop :=
  ∃ r ∈ repos, r.1.present = true ∧ h ∈ r.1.markers.listStaged

omit [DecidableEq Oid] in
theorem viewMarked_under (repos : List (Registered Oid × PruneFailures Oid)) :
    ViewMarked (viewsUnder repos) = SeenMarked repos := by
  funext h
  unfold ViewMarked SeenMarked viewsUnder
  simp only [List.mem_map, exists_exists_and_eq_and, eq_iff_iff]
  refine exists_congr fun r => and_congr_right fun _ => and_congr_right fun _ => ?_
  simp only [Registered.view, RepoView.markerSet]
  by_cases hlist : r.2.list = true <;> simp [hlist]

omit [DecidableEq Oid] in
theorem viewMarked_intact (repos : List (Registered Oid × PruneFailures Oid)) :
    ViewMarked (viewsIntact repos) = MarkedIntact repos := by
  funext h
  unfold ViewMarked MarkedIntact viewsIntact
  simp only [List.mem_map, exists_exists_and_eq_and, Registered.view, RepoView.markerSet,
    PruneFailures.none, Bool.false_eq_true, if_false]

theorem viewLive_under (repos : List (Registered Oid × PruneFailures Oid)) :
    ViewLive serde.fromStr (viewsUnder repos) = SeenLive serde repos := by
  funext h
  unfold ViewLive SeenLive viewsUnder
  simp only [List.mem_map, exists_exists_and_eq_and, eq_iff_iff]
  refine exists_congr fun r => and_congr_right fun _ => and_congr_right fun _ => ?_
  simp only [Registered.view, reachableInRepo, RepoView.markerSet]
  by_cases hopen : r.2.openRepo = true
  · simp [hopen]
  · by_cases hlist : r.2.list = true
    · simp [hopen, hlist, mem_reachableAll_fail serde.fromStr r.2.git r.1.reads]
    · simp [hopen, hlist, mem_reachableAll_fail serde.fromStr r.2.git r.1.reads]

theorem viewLive_intact (repos : List (Registered Oid × PruneFailures Oid)) :
    ViewLive serde.fromStr (viewsIntact repos) = KeptIntact serde repos := by
  funext h
  unfold ViewLive KeptIntact viewsIntact
  simp only [List.mem_map, exists_exists_and_eq_and, eq_iff_iff]
  refine exists_congr fun r => and_congr_right fun _ => and_congr_right fun _ => ?_
  simp only [Registered.view, reachableInRepo, RepoView.markerSet, PruneFailures.none,
    Gix.fail_none, Bool.false_eq_true, if_false]
  exact mem_reachableAll_reads serde.fromStr r.1.reads _ h

variable {xet}

/-- A run drops the held files that it does not see live, if it replaces the store at all. -/
theorem pruneDrops_iff (law : xet.Compacts) (views : List (RepoView Oid)) (old : Finset Obj)
    (h : String) :
    PruneDrops serde xet raw force env views old h ↔
      xet.Holds old h ∧ PruneSwaps serde.fromStr xet raw force env views old ∧
        ¬ ViewLive serde.fromStr views h := by
  unfold PruneDrops
  refine and_congr_right fun hold => ?_
  constructor
  · intro hlost
    cases hrun : prune serde.fromStr xet raw force env (some views) old with
    | error e => simp only [hrun, pruneResult] at hlost; exact absurd hold hlost
    | ok res =>
        cases res with
        | none => simp only [hrun, pruneResult] at hlost; exact absurd hold hlost
        | some new =>
            obtain ⟨hswaps, hholds⟩ := prune_swapped serde.fromStr law hrun
            simp only [hrun, pruneResult, hholds] at hlost
            exact ⟨hswaps, hlost⟩
  · rintro ⟨hswaps, hdead⟩
    obtain ⟨new, hrun⟩ := prune_of_swaps serde.fromStr law hswaps
    simp only [hrun, pruneResult, (prune_swapped serde.fromStr law hrun).2]
    exact hdead

/-- **When failing reads only make prune keep more**: if the disturbed run replaces the store, every
    held file that the intact repositories keep is seen live, and when some held file is not, the
    undisturbed run replaces the store as well. -/
theorem pruneDegrades_iff (law : xet.Compacts)
    (repos : List (Registered Oid × PruneFailures Oid)) (old : Finset Obj) :
    PruneDegrades serde xet raw force env repos old ↔
      (SwapsWith xet raw force env (viewsUnder repos) old (SeenMarked repos) (SeenLive serde repos) →
        (∀ h, xet.Holds old h → KeptIntact serde repos h → SeenLive serde repos h) ∧
        ((∃ h, xet.Holds old h ∧ ¬ SeenLive serde repos h) →
          SwapsWith xet raw force env (viewsIntact repos) old (MarkedIntact repos)
            (KeptIntact serde repos))) := by
  unfold PruneDegrades
  simp only [pruneDrops_iff serde raw force env law, PruneSwaps, viewLive_under, viewLive_intact,
    viewMarked_under, viewMarked_intact]
  constructor
  · refine fun hdeg hswaps => ⟨fun h hold hkept => ?_, fun ⟨h, hold, hunseen⟩ => ?_⟩
    · by_contra hunseen
      exact (hdeg h ⟨hold, hswaps, hunseen⟩).2.2 hkept
    · exact (hdeg h ⟨hold, hswaps, hunseen⟩).2.1
  · rintro hcond h ⟨hold, hswaps, hunseen⟩
    obtain ⟨hseen, hboth⟩ := hcond hswaps
    exact ⟨hold, hboth ⟨h, hold, hunseen⟩, fun hkept => hunseen (hseen h hold hkept)⟩

/-- **Which read failures degrade to keeping more**, for gc and for prune. -/
theorem failing_reads_keep_more_iff [DecidableEq Obj] {g : Gix Oid} {repo : Repository Oid}
    (hg : g.Reads repo) (loaded : Option RawConfig) (gitDir : Path) (gcEnv : GcEnv)
    (dir : BaleDir Key) (stores : Stores Obj) (FG : ReadFailures Oid) (F : GcFailures)
    (law : xet.Compacts) (repos : List (Registered Oid × PruneFailures Oid)) (old : Finset Obj) :
    (GcDegrades serde g loaded gitDir gcEnv dir stores FG F ↔
      (gcProceeds (gcConfig loaded gitDir) gcEnv F = true → F.list = false →
        (∀ h ∈ dir.markers.listStaged, markerAgeExceeds F dir.markers gcEnv h = true →
          repo.GcLive serde.fromStr (gcConfig loaded gitDir).localMode h →
            repo.GcLiveUnder serde.fromStr FG (gcConfig loaded gitDir).localMode h) ∧
        (F.relist = true →
          (∀ h ∈ dir.markers.listStaged, markerAgeExceeds F dir.markers gcEnv h = true →
            repo.GcLiveUnder serde.fromStr FG (gcConfig loaded gitDir).localMode h) ∨
          ∀ h ∈ dir.markers.listStaged,
            markerAgeExceeds GcFailures.none dir.markers gcEnv h = true ∧
              ¬ repo.GcLive serde.fromStr (gcConfig loaded gitDir).localMode h))) ∧
    (PruneDegrades serde xet raw force env repos old ↔
      (SwapsWith xet raw force env (viewsUnder repos) old (SeenMarked repos) (SeenLive serde repos) →
        (∀ h, xet.Holds old h → KeptIntact serde repos h → SeenLive serde repos h) ∧
        ((∃ h, xet.Holds old h ∧ ¬ SeenLive serde repos h) →
          SwapsWith xet raw force env (viewsIntact repos) old (MarkedIntact repos)
            (KeptIntact serde repos)))) :=
  ⟨gcDegrades_iff serde loaded gitDir gcEnv dir stores hg FG F,
    pruneDegrades_iff serde raw force env law repos old⟩

end Failures

namespace Sample

/-- `a` is in the index and nowhere else. -/
def indexed : Repository Nat where
  db := db [] (fun _ => [])
  index := [file "a.bin" 10]
  head := none
  refs := []

/-- Reading the index fails. -/
def indexUnreadable : ReadFailures Nat := { ReadFailures.none Nat with index := true }

def indexedDir : BaleDir String := ⟨markers ['a'], CleanCache.empty⟩

/-- The repository, registered with its marker. -/
def registered : Registered Nat := ⟨true, markers ['a'], indexed, indexed.gix, indexed.gix_reads⟩

/-- Opening the repository fails. -/
def notOpened : PruneFailures Nat := { PruneFailures.none Nat with openRepo := true }

def sharedConfig : RawConfig := ⟨some ["a", ".git"], true, some ["store"], true⟩

end Sample

/-- An unreadable index makes gc drop the marker of an indexed file and sweep, and a repository
    that cannot be opened makes prune drop its files. -/
theorem failing_reads_delete_more :
    ¬ GcDegrades Sample.serde Sample.indexed.gix (some Sample.localConfig) [".git"]
        ⟨true, false, 1000, 600⟩ Sample.indexedDir (fun _ => ({'a'} : Finset Char))
        Sample.indexUnreadable GcFailures.none ∧
      ¬ PruneDegrades Sample.serde Sample.xet Sample.sharedConfig false
        ⟨true, true, true, true, true⟩ [(Sample.registered, Sample.notOpened)] {'a'} := by
  constructor
  · rintro ⟨hmarkers, -⟩
    revert hmarkers
    decide +kernel
  · have hunder : prune Sample.serde.fromStr Sample.xet Sample.sharedConfig false
        ⟨true, true, true, true, true⟩
        (some (viewsUnder [(Sample.registered, Sample.notOpened)])) {'a'} = .ok (some ∅) := by
      decide +kernel
    have hintact : prune Sample.serde.fromStr Sample.xet Sample.sharedConfig false
        ⟨true, true, true, true, true⟩
        (some (viewsIntact [(Sample.registered, Sample.notOpened)])) {'a'} = .ok none := by
      decide +kernel
    have hheld : Sample.xet.Holds {'a'} (Sample.hash 'a') := by decide +kernel
    intro hdeg
    have hdrop := hdeg (Sample.hash 'a') ⟨hheld, by
      rw [hunder]
      exact Sample.compacts.not_holds_empty _⟩
    refine hdrop.2 ?_
    rw [hintact]
    exact hheld

namespace Sample

/-- Two clones with markers for `a` and `b`, both naming `a`; the first cannot be opened. -/
def twoClones : List (Registered Nat × PruneFailures Nat) :=
  [({ registered with markers := markers ['a', 'b'] }, notOpened),
    ({ registered with markers := markers ['a', 'b'] }, PruneFailures.none Nat)]

/-- What the clones keep is seen in the second one. -/
theorem twoClones_seen {h : String} (hkept : KeptIntact serde twoClones h) :
    SeenLive serde twoClones h := by
  have hone : KeptIntact serde (twoClones.drop 1) h := by
    obtain ⟨r, hr, hrest⟩ := hkept
    have hsame : r.1 = { registered with markers := markers ['a', 'b'] } := by
      simp only [twoClones, List.mem_cons, List.not_mem_nil, or_false] at hr
      rcases hr with rfl | rfl <;> rfl
    refine ⟨_, List.mem_singleton_self _, ?_⟩
    rw [hsame] at hrest
    exact hrest
  -- the second one reads everything, so there the two notions are the same
  rw [← viewLive_intact] at hone
  change ViewLive serde.fromStr (viewsUnder (twoClones.drop 1)) h at hone
  rw [viewLive_under] at hone
  obtain ⟨r, hr, hrest⟩ := hone
  exact ⟨r, List.mem_of_mem_drop hr, hrest⟩

end Sample

/-- Unreadable marker ages are on the safe side; and so is a clone that cannot be opened when another
    one names the same file: prune replaces the store with and without the failure. -/
theorem unreadable_ages_keep_more :
    GcDegrades Sample.serde Sample.indexed.gix (some Sample.localConfig) [".git"]
        ⟨true, false, 1000, 600⟩ Sample.indexedDir (fun _ => ({'a'} : Finset Char))
        (ReadFailures.none Nat) ⟨false, false, false, fun _ => true⟩ ∧
      prune Sample.serde.fromStr Sample.xet Sample.sharedConfig false
        ⟨true, true, true, true, true⟩ (some (viewsUnder Sample.twoClones)) {'a', 'b'} =
          .ok (some {'a'}) ∧
      PruneDegrades Sample.serde Sample.xet Sample.sharedConfig false
        ⟨true, true, true, true, true⟩ Sample.twoClones {'a', 'b'} := by
  have hiff := failing_reads_keep_more_iff Sample.serde Sample.sharedConfig false
    ⟨true, true, true, true, true⟩ Sample.indexed.gix_reads (some Sample.localConfig) [".git"]
    ⟨true, false, 1000, 600⟩ Sample.indexedDir (fun _ => ({'a'} : Finset Char))
    (ReadFailures.none Nat) ⟨false, false, false, fun _ => true⟩ Sample.compacts
    Sample.twoClones {'a', 'b'}
  have hintact : prune Sample.serde.fromStr Sample.xet Sample.sharedConfig false
      ⟨true, true, true, true, true⟩ (some (viewsIntact Sample.twoClones)) {'a', 'b'} =
        .ok (some {'a'}) := by
    decide +kernel
  refine ⟨hiff.1.2 fun _ _ => ⟨fun h _ hage => ?_, fun hre => absurd hre (by simp)⟩,
    by decide +kernel, hiff.2.2 fun _ => ⟨fun h _ hkept => Sample.twoClones_seen hkept, fun _ => ?_⟩⟩
  · simp [markerAgeExceeds] at hage
  · have hswaps := (prune_swapped Sample.serde.fromStr Sample.compacts hintact).1
    simpa only [PruneSwaps, viewLive_intact, viewMarked_intact] using hswaps

end BaleForGit
