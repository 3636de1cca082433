import Mathlib.Logic.Function.Basic
import BaleForGit.Library.Machine
import BaleForGit.Client.GcSafety
import BaleForGit.Client.Filter

set_option autoImplicit false

/-! # One git dir over time

A `Site` is everything git-bale's commands see in one git dir: the repository, the markers and the
clean cache, the object stores on the machine and the clock. `siteStep` runs one completed
operation: a clean (recorded in the index or not), a smudge, a ref or index update by git, waiting,
or a gc run. The object database is fixed during a run: it holds every object that exists at some
point of it, and gc only sees what the index and the refs reach.

The second half is about local mode with a store of its own. Markers, references, cache entries and
objects are tied together by `LocalInv`: what is tracked, and what the cache can hand out again, has
a marker and its objects. gc keeps that; what breaks it is a reference or a cache entry that comes
back without a marker, and `KeepsMarked` is the condition that none does. -/

namespace BaleForGit

/-! ## Git operations -/

/-- What git does to a repository between two runs of git-bale. -/
inductive GitOp (Oid : Type) where
  | resetIndex (entries : List (Entry Oid))
  | commit (branch : String) (id : Oid)
  | updateHead (id : Option Oid)
  | updateRef (name : String) (id : Oid)
  | deleteRef (name : String)

namespace Repository

variable {Oid : Type} (repo : Repository Oid)

def setRef (name : String) (id : Oid) : List (String × Oid) :=
  (name, id) :: repo.refs.filter (fun r => r.1 ≠ name)

def apply : GitOp Oid → Repository Oid
  | .resetIndex entries => { repo with index := entries }
  | .commit branch id => { repo with head := some id, refs := repo.setRef branch id }
  | .updateHead id => { repo with head := id }
  | .updateRef name id => { repo with refs := repo.setRef name id }
  | .deleteRef name => { repo with refs := repo.refs.filter (fun r => r.1 ≠ name) }

/-- `git add`: the index entry of `pathname` becomes the blob. -/
def record (pathname : String) (blob : Oid) : Repository Oid :=
  { repo with index := ⟨pathname, .blob, blob⟩ :: repo.index.filter (fun e => e.path ≠ pathname) }

/-- Recording a blob makes no other hash referenced than the one it names. -/
theorem refers_record {fromStr : String → Option XetFileInfo} {pathname : String} {blob : Oid}
    {h : String} (href : (repo.record pathname blob).Refers fromStr h) :
    repo.Refers fromStr h ∨ repo.db.Names fromStr blob h := by
  rcases href with ⟨e, he, hmode, hname⟩ | hcommit
  · rcases List.mem_cons.1 he with rfl | hold
    · exact Or.inr hname
    · exact Or.inl (Or.inl ⟨e, (List.mem_filter.1 hold).1, hmode, hname⟩)
  · exact Or.inl (Or.inr hcommit)

end Repository

/-! ## Sites -/

/-- The configuration of a git dir: its path, and the keys that choose the store. -/
structure SiteConfig where
  gitDir : Path
  localMode : Bool
  localStore : Option Path
  localShared : Bool
deriving DecidableEq, Repr

namespace SiteConfig

variable (cfg : SiteConfig)

/-- What `RawConfig::load` returns in this git dir. -/
def raw : RawConfig := ⟨some cfg.gitDir, cfg.localMode, cfg.localStore, cfg.localShared⟩

/-- The store that clean writes to and gc sweeps. -/
def root : Path := gcStore cfg.raw cfg.gitDir

theorem objectStoreRoot_raw : objectStoreRoot cfg.raw = some cfg.root := by
  unfold root gcStore objectStoreRoot raw
  simp only
  split_ifs
  · cases cfg.localStore <;> rfl
  · rfl

end SiteConfig

structure Site (Oid Obj Key : Type) where
  repo : Repository Oid
  dir : BaleDir Key
  stores : Stores Obj
  now : Nat

/-- A completed operation. `clean` carries the blob that git records the pointer as, if it records
    it; `gc` carries the reclaim grace in force. -/
inductive SiteOp (Oid : Type) where
  | clean (pathname : String) (payload : List UInt8) (blob : Option Oid)
  | smudge (pathname : String) (blob : Oid)
  | git (op : GitOp Oid)
  | wait (secs : Nat)
  | gc (grace : Nat)

section Step

variable {Oid Obj Key : Type} [DecidableEq Oid] [DecidableEq Key] (deps : Deps Obj Key)
  (gixOf : Repository Oid → Gix Oid) (cfg : SiteConfig)

/-- Record the pointer that clean answered with, as the blob holding exactly its text. -/
def recordPointer (repo : Repository Oid) (pathname pointer : String) (blob : Option Oid) :
    Option (Repository Oid) :=
  match blob with
  | none => some repo
  | some id =>
    if repo.db.object id = some (.blob, asBytes pointer) then some (repo.record pathname id)
    else none

/-- The gc run of a site: nobody else holds the lock and no git operation is in flight. -/
def siteGc (s : Site Oid Obj Key) (grace : Nat) : GcOutcome Obj Key :=
  reconcile deps.serde (gixOf s.repo) (some cfg.raw) cfg.gitDir ⟨true, false, s.now, grace⟩
    GcFailures.none s.dir s.stores

def siteStep (s : Site Oid Obj Key) (op : SiteOp Oid) : Option (Site Oid Obj Key) :=
  match op with
  | .clean pathname payload blob =>
    (doClean deps s.dir (s.stores cfg.root) pathname payload s.now).bind (fun out =>
      (recordPointer s.repo pathname out.pointer blob).map (fun repo =>
        { s with repo := repo, dir := out.dir,
                 stores := Function.update s.stores cfg.root out.store }))
  | .smudge pathname blob =>
    match cfg.localMode, s.repo.db.object blob with
    | true, some (.blob, data) =>
      match smudgeLocal deps s.dir.cache (s.stores cfg.root) pathname data with
      | some (cache, _) => some { s with dir := { s.dir with cache := cache } }
      | none => some s
    | _, _ => none
  | .git op => some { s with repo := s.repo.apply op }
  | .wait secs => some { s with now := s.now + secs }
  | .gc grace =>
    let out := siteGc deps gixOf cfg s grace
    some { s with dir := out.dir, stores := out.stores }

/-- A site before git-bale has run in it. -/
def Site.fresh (repo : Repository Oid) (now : Nat) : Site Oid Obj Key :=
  ⟨repo, ⟨Markers.empty, CleanCache.empty⟩, fun _ => ∅, now⟩

end Step

/-! ## Local mode with a store of its own -/

section Local

variable {Oid Obj Key : Type} [DecidableEq Oid] [DecidableEq Key] (deps : Deps Obj Key)
  (gixOf : Repository Oid → Gix Oid) (cfg : SiteConfig)

/-- A hash is tracked while it is referenced, from the moment it last became so with its objects in
    the store. -/
def trackStep (s s' : Site Oid Obj Key) (tracked : String → Prop) (h : String) : Prop :=
  s'.repo.Refers deps.serde.fromStr h ∧
    ((s.repo.Refers deps.serde.fromStr h ∧ tracked h) ∨
      (¬ s.repo.Refers deps.serde.fromStr h ∧ deps.xet.Holds (s'.stores cfg.root) h))

/-- A site step, with the tracked hashes. -/
def trackedStep (st : Site Oid Obj Key × (String → Prop)) (op : SiteOp Oid) :
    Option (Site Oid Obj Key × (String → Prop)) :=
  (siteStep deps gixOf cfg st.1 op).map (fun s' => (s', trackStep deps cfg st.1 s' st.2))

/-- Nothing comes back without its marker: a git operation makes no unmarked hash referenced whose
    objects are in the store, and a smudge seeds the cache only with a marked hash, through a text
    that `forget_hashes` reads the same hash from. -/
def KeepsMarked (st : Site Oid Obj Key × (String → Prop)) (op : SiteOp Oid) : Prop :=
  match op with
  | .git op => ∀ h, ¬ st.1.repo.Refers deps.serde.fromStr h →
      (st.1.repo.apply op).Refers deps.serde.fromStr h →
        deps.xet.Holds (st.1.stores cfg.root) h → h ∈ st.1.dir.markers.listStaged
  | .smudge pathname blob => ∀ data info pointer, st.1.repo.db.object blob = some (.blob, data) →
      (smudgeLocal deps st.1.dir.cache (st.1.stores cfg.root) pathname data).isSome = true →
        parsePointer deps.serde.fromStr data = .ok info → asBytes pointer = data →
          info.hash ∈ st.1.dir.markers.listStaged ∧
            deps.serde.hashField pointer = some info.hash
  | _ => True

/-- The pointer names a marked hash whose objects are in the store, and `forget_hashes` reads that
    hash from it. -/
def Anchored (markers : Markers) (store : Finset Obj) (pointer : String) : Prop :=
  ∃ info, parsePointer deps.serde.fromStr (asBytes pointer) = .ok info ∧
    deps.serde.hashField pointer = some info.hash ∧ info.hash ∈ markers.listStaged ∧
      deps.xet.Holds store info.hash

/-- Tracked hashes and cache entries have a marker and their objects. -/
structure LocalInv (st : Site Oid Obj Key × (String → Prop)) : Prop where
  tracked : ∀ h, st.2 h → st.1.repo.Refers deps.serde.fromStr h ∧
    h ∈ st.1.dir.markers.listStaged ∧ deps.xet.Holds (st.1.stores cfg.root) h
  cache : ∀ k e, st.1.dir.cache k = some e →
    Anchored deps st.1.dir.markers (st.1.stores cfg.root) e.pointer

variable {deps} {cfg}

omit [DecidableEq Key] in
theorem Anchored.mono (law : deps.Lawful) {m m' : Markers} {s t : Finset Obj} {pointer : String}
    (hm : m.listStaged ⊆ m'.listStaged) (hst : s ⊆ t) (h : Anchored deps m s pointer) :
    Anchored deps m' t pointer := by
  obtain ⟨info, hparse, hfield, hmark, hholds⟩ := h
  exact ⟨info, hparse, hfield, hm hmark, law.holds_mono s t info.hash hst hholds⟩

/-- A full clean anchors its pointer. -/
theorem anchored_fullClean (law : deps.Lawful) (dir : BaleDir Key) (store : Finset Obj)
    (pathname : String) (payload : List UInt8) (now : Nat) :
    Anchored deps (fullClean deps dir store pathname payload now).dir.markers
      (fullClean deps dir store pathname payload now).store
      (fullClean deps dir store pathname payload now).pointer := by
  obtain ⟨info, hparse, hhash⟩ := law.parse_encode store payload
  refine ⟨info, hparse, ?_, ?_, ?_⟩
  · rw [hhash]
    exact law.hashField_encode store payload
  · rw [hhash, Markers.mem_listStaged]
    exact ⟨Finset.mem_insert_self _ _, law.clean_hash store payload⟩
  · rw [hhash]
    exact law.clean_holds store payload

/-- What one clean leaves, in terms of anchors: markers and objects only grow, the answered pointer
    is anchored, and so is every cache entry. -/
theorem doClean_anchored (law : deps.Lawful) {dir : BaleDir Key} {store : Finset Obj}
    {pathname : String} {payload : List UInt8} {now : Nat} {out : CleanOutcome Obj Key}
    (hcache : ∀ k e, dir.cache k = some e → Anchored deps dir.markers store e.pointer)
    (h : doClean deps dir store pathname payload now = some out) :
    dir.markers.listStaged ⊆ out.dir.markers.listStaged ∧ store ⊆ out.store ∧
      Anchored deps out.dir.markers out.store out.pointer ∧
        ∀ k e, out.dir.cache k = some e → Anchored deps out.dir.markers out.store e.pointer := by
  rcases doClean_cases deps h with ⟨entry, hentry, hptr, hmark, hcache', hstore⟩ | rfl
  · rw [hptr, hstore, hcache']
    have hsub : dir.markers.listStaged ⊆ out.dir.markers.listStaged := hmark ▸ Finset.Subset.refl _
    refine ⟨hsub, Finset.Subset.refl _, ?_, fun k e hk => ?_⟩
    · exact (hcache _ entry hentry).mono law hsub (Finset.Subset.refl _)
    · exact (hcache k e hk).mono law hsub (Finset.Subset.refl _)
  · have hnew := anchored_fullClean law dir store pathname payload now
    have hmark : dir.markers.listStaged ⊆
        (fullClean deps dir store pathname payload now).dir.markers.listStaged := by
      intro h' hh'
      rw [Markers.mem_listStaged] at hh' ⊢
      exact ⟨Finset.mem_insert_of_mem hh'.1, hh'.2⟩
    have hstore : store ⊆ (fullClean deps dir store pathname payload now).store :=
      law.clean_subset store payload
    refine ⟨hmark, hstore, hnew, fun k e hk => ?_⟩
    rcases CleanCache.save_eq_some hk with rfl | hold
    · exact hnew
    · exact (hcache k e hold).mono law hmark hstore

variable (hlocal : cfg.localMode = true)

omit [DecidableEq Key] in
include hlocal in
/-- **gc keeps what is tracked or cached**: an entry that survives the forgetting names a hash that
    was not dropped, so its marker is still there and nothing was swept. -/
theorem siteGc_localInv (hgix : ∀ r, (gixOf r).Reads r) {s : Site Oid Obj Key}
    {tracked : String → Prop} (hinv : LocalInv deps cfg (s, tracked)) (grace : Nat) :
    LocalInv deps cfg ({ s with dir := (siteGc deps gixOf cfg s grace).dir,
                                stores := (siteGc deps gixOf cfg s grace).stores }, tracked) := by
  have hraw : (gcConfig (some cfg.raw) cfg.gitDir).localMode = true := hlocal
  have hkept : ∀ h ∈ s.dir.markers.listStaged,
      h ∈ (siteGc deps gixOf cfg s grace).dir.markers.files →
      (siteGc deps gixOf cfg s grace).swept = none →
        h ∈ (siteGc deps gixOf cfg s grace).dir.markers.listStaged ∧
          (siteGc deps gixOf cfg s grace).stores = s.stores := by
    intro h hstaged hfile hswept
    refine ⟨Markers.mem_listStaged.2 ⟨hfile, (Markers.mem_listStaged.1 hstaged).2⟩, ?_⟩
    have hstores := stores_reconcile deps.serde (gixOf s.repo) (some cfg.raw) cfg.gitDir
      ⟨true, false, s.now, grace⟩ GcFailures.none s.dir s.stores
    unfold siteGc at hswept ⊢
    rw [hstores, hswept]
  constructor
  · intro h ht
    obtain ⟨href, hstaged, hholds⟩ := hinv.tracked h ht
    have hlive : s.repo.GcLive deps.serde.fromStr
        (gcConfig (some cfg.raw) cfg.gitDir).localMode h := by
      unfold Repository.GcLive
      rw [if_pos hraw]
      exact href
    obtain ⟨hfile, hswept⟩ := reconcile_keeps_live deps.serde (some cfg.raw) cfg.gitDir
      ⟨true, false, s.now, grace⟩ s.dir s.stores (hgix s.repo) hstaged hlive
    obtain ⟨hstaged', hstores⟩ := hkept h hstaged hfile hswept
    exact ⟨href, hstaged', by rw [hstores]; exact hholds⟩
  · intro k e hk
    obtain ⟨hold, hforgot⟩ := cache_reconcile deps.serde (gixOf s.repo) (some cfg.raw) cfg.gitDir
      ⟨true, false, s.now, grace⟩ GcFailures.none s.dir s.stores hk
    obtain ⟨info, hparse, hfield, hmark, hholds⟩ := hinv.cache k e hold
    have hnot := hforgot info.hash hfield
    rw [gcOrphaned_local deps.serde (gixOf s.repo) hraw] at hnot
    obtain ⟨hfile, hswept⟩ := reconcile_keeps deps.serde (some cfg.raw) cfg.gitDir
      ⟨true, false, s.now, grace⟩ s.dir s.stores hmark hnot
    obtain ⟨hmark', hstores⟩ := hkept info.hash hmark hfile hswept
    exact ⟨info, hparse, hfield, hmark', by rw [hstores]; exact hholds⟩

omit [DecidableEq Oid] [DecidableEq Key] in
/-- Tracking after a step that leaves the markers and the store as they were or larger, when what
    becomes referenced with its objects present is marked. -/
theorem LocalInv.track (law : deps.Lawful) {s s' : Site Oid Obj Key} {tracked : String → Prop}
    (hinv : LocalInv deps cfg (s, tracked))
    (hmark : s.dir.markers.listStaged ⊆ s'.dir.markers.listStaged)
    (hstore : s.stores cfg.root ⊆ s'.stores cfg.root)
    (hnew : ∀ h, ¬ s.repo.Refers deps.serde.fromStr h → s'.repo.Refers deps.serde.fromStr h →
      deps.xet.Holds (s'.stores cfg.root) h → h ∈ s'.dir.markers.listStaged)
    (hcache : ∀ k e, s'.dir.cache k = some e →
      Anchored deps s'.dir.markers (s'.stores cfg.root) e.pointer) :
    LocalInv deps cfg (s', trackStep deps cfg s s' tracked) := by
  refine ⟨?_, hcache⟩
  rintro h ⟨href', ⟨-, htracked⟩ | ⟨hunref, hholds⟩⟩
  · obtain ⟨-, hstaged, hholds⟩ := hinv.tracked h htracked
    exact ⟨href', hmark hstaged, law.holds_mono _ _ h hstore hholds⟩
  · exact ⟨href', hnew h hunref href' hholds, hholds⟩

include hlocal in
/-- Every step that brings nothing back without its marker keeps the invariant. -/
theorem trackedStep_localInv (law : deps.Lawful) (hgix : ∀ r, (gixOf r).Reads r)
    (st : Site Oid Obj Key × (String → Prop)) (op : SiteOp Oid)
    (st' : Site Oid Obj Key × (String → Prop)) (hinv : LocalInv deps cfg st)
    (hok : KeepsMarked deps cfg st op) (hstep : trackedStep deps gixOf cfg st op = some st') :
    LocalInv deps cfg st' := by
  obtain ⟨s, tracked⟩ := st
  simp only [trackedStep, Option.map_eq_some_iff] at hstep
  obtain ⟨s', hs', rfl⟩ := hstep
  cases op with
  | clean pathname payload blob =>
      simp only [siteStep, Option.bind_eq_some_iff, Option.map_eq_some_iff] at hs'
      obtain ⟨out, hout, repo, hrepo, rfl⟩ := hs'
      obtain ⟨hmark, hstore, hptr, hcache⟩ := doClean_anchored law hinv.cache hout
      refine hinv.track law hmark ?_ ?_ ?_
      · simp only [Function.update_self]
        exact hstore
      · intro h hunref href _
        -- only the recorded pointer can have become referenced, and it is anchored
        cases blob with
        | none =>
            simp only [recordPointer, Option.some.injEq] at hrepo
            exact absurd (hrepo ▸ href) hunref
        | some id =>
            simp only [recordPointer] at hrepo
            split_ifs at hrepo with hobj
            simp only [Option.some.injEq] at hrepo
            subst hrepo
            rcases Repository.refers_record _ href with hold | ⟨data, info, hdata, hparse, rfl⟩
            · exact absurd hold hunref
            · rw [hobj, Option.some.injEq, Prod.mk.injEq] at hdata
              obtain ⟨info', hparse', -, hstaged, -⟩ := hptr
              rw [hdata.2, hparse, Except.ok.injEq] at hparse'
              exact hparse' ▸ hstaged
      · intro k e hk
        simp only [Function.update_self]
        exact hcache k e hk
  | smudge pathname blob =>
      simp only [siteStep] at hs'
      split at hs'
      · next data _ hobj =>
          cases hsm : smudgeLocal deps s.dir.cache (s.stores cfg.root) pathname data with
          | none =>
              simp only [hsm, Option.some.injEq] at hs'
              subst hs'
              exact hinv.track law (Finset.Subset.refl _) (Finset.Subset.refl _)
                (fun h hunref href _ => absurd href hunref) hinv.cache
          | some res =>
              obtain ⟨cache', bytes⟩ := res
              simp only [hsm, Option.some.injEq] at hs'
              subst hs'
              obtain ⟨info, hparse, hholds, hadded⟩ := smudgeLocal_spec deps hsm
              refine hinv.track law (Finset.Subset.refl _) (Finset.Subset.refl _)
                (fun h hunref href _ => absurd href hunref) (fun k e hk => ?_)
              rcases hadded k e hk with hold | hbytes
              · exact hinv.cache k e hold
              · obtain ⟨hmark, hfield⟩ := hok data info e.pointer hobj (by rw [hsm]; rfl) hparse hbytes
                exact ⟨info, by rw [hbytes]; exact hparse, hfield, hmark, hholds⟩
      · exact absurd hs' (by simp)
  | git op =>
      simp only [siteStep, Option.some.injEq] at hs'
      subst hs'
      exact hinv.track law (Finset.Subset.refl _) (Finset.Subset.refl _) hok hinv.cache
  | wait secs =>
      simp only [siteStep, Option.some.injEq] at hs'
      subst hs'
      exact hinv.track law (Finset.Subset.refl _) (Finset.Subset.refl _)
        (fun h hunref href _ => absurd href hunref) hinv.cache
  | gc grace =>
      simp only [siteStep, Option.some.injEq] at hs'
      subst hs'
      have hgc := siteGc_localInv gixOf hlocal hgix hinv grace
      refine ⟨?_, hgc.cache⟩
      rintro h ⟨href, ⟨-, htracked⟩ | ⟨hunref, -⟩⟩
      · exact hgc.tracked h htracked
      · exact absurd href hunref

include hlocal in
/-- **Local runs lose nothing that keeps its marker.** After any run of completed operations in a
    git dir in local mode in which nothing comes back without its marker, every tracked hash and
    every cached pointer can be reconstructed from the store. -/
theorem localRun_keeps_objects (law : deps.Lawful) (hgix : ∀ r, (gixOf r).Reads r)
    (repo : Repository Oid) (now : Nat) (ops : List (SiteOp Oid)) (s : Site Oid Obj Key)
    (tracked : String → Prop)
    (hok : Machine.Admissible (trackedStep deps gixOf cfg) (KeepsMarked deps cfg)
      (Site.fresh repo now, fun _ => False) ops)
    (hrun : Machine.run (trackedStep deps gixOf cfg) (Site.fresh repo now, fun _ => False) ops =
      some (s, tracked)) :
    (∀ h, tracked h → deps.xet.Holds (s.stores cfg.root) h) ∧
      ∀ k e, s.dir.cache k = some e → deps.Backed (s.stores cfg.root) e.pointer := by
  have hinit : LocalInv deps cfg
      ((Site.fresh repo now : Site Oid Obj Key), fun _ => False) := by
    refine ⟨fun h hf => hf.elim, fun k e hk => ?_⟩
    simp [Site.fresh, CleanCache.empty] at hk
  have hinv := Machine.run_invariant (trackedStep_localInv gixOf hlocal law hgix) hinit hok hrun
  refine ⟨fun h ht => (hinv.tracked h ht).2.2, fun k e hk => ?_⟩
  obtain ⟨info, hparse, -, -, hholds⟩ := hinv.cache k e hk
  exact ⟨info, hparse, hholds⟩

end Local

/-! ## A reference that comes back -/

section Check

variable {Oid Obj Key : Type} [DecidableEq Oid] [DecidableEq Key] (deps : Deps Obj Key)
  (cfg : SiteConfig)

/-- Decides `Refers`, through `reachable_all` on executable answers. -/
def refersB (repo : Repository Oid) (h : String) : Bool :=
  decide (h ∈ reachableAll deps.serde.fromStr repo.gix {h})

omit [DecidableEq Key] in
theorem refersB_iff (repo : Repository Oid) (h : String) :
    refersB deps repo h = true ↔ repo.Refers deps.serde.fromStr h := by
  unfold refersB
  rw [decide_eq_true_eq, mem_reachableAll_reads deps.serde.fromStr repo.gix_reads]
  simp

/-- `trackedStep` for one hash, executable. -/
def trackedStepB (h : String) (st : Site Oid Obj Key × Bool) (op : SiteOp Oid) :
    Option (Site Oid Obj Key × Bool) :=
  (siteStep deps Repository.gix cfg st.1 op).map (fun s' =>
    (s', refersB deps s'.repo h && ((refersB deps st.1.repo h && st.2) ||
      (!refersB deps st.1.repo h && decide (deps.xet.Holds (s'.stores cfg.root) h)))))

/-- Running the executable tracker finds what is tracked. -/
theorem run_trackedStepB {h : String} {ops : List (SiteOp Oid)} {s s' : Site Oid Obj Key}
    {b b' : Bool} (tracked : String → Prop) (hb : b = true ↔ tracked h)
    (hrun : Machine.run (trackedStepB deps cfg h) (s, b) ops = some (s', b')) :
    ∃ tracked', Machine.run (trackedStep deps Repository.gix cfg) (s, tracked) ops =
      some (s', tracked') ∧ (b' = true ↔ tracked' h) := by
  induction ops generalizing s b tracked with
  | nil =>
      simp only [Machine.run, Option.some.injEq, Prod.mk.injEq] at hrun ⊢
      obtain ⟨rfl, rfl⟩ := hrun
      exact ⟨tracked, ⟨rfl, rfl⟩, hb⟩
  | cons op ops ih =>
      obtain ⟨⟨s₁, b₁⟩, hstep, hrest⟩ := Machine.run_cons_eq_some hrun
      simp only [trackedStepB, Option.map_eq_some_iff, Prod.mk.injEq] at hstep
      obtain ⟨s₁', hs₁, rfl, rfl⟩ := hstep
      have htrack : trackedStep deps Repository.gix cfg (s, tracked) op =
          some (s₁', trackStep deps cfg s s₁' tracked) := by
        simp only [trackedStep, hs₁, Option.map_some]
      have hflag : (refersB deps s₁'.repo h && ((refersB deps s.repo h && b) ||
          (!refersB deps s.repo h && decide (deps.xet.Holds (s₁'.stores cfg.root) h)))) = true ↔
            trackStep deps cfg s s₁' tracked h := by
        unfold trackStep
        rw [← refersB_iff, ← refersB_iff, ← hb]
        simp
      obtain ⟨tracked', hrun', hiff⟩ := ih (trackStep deps cfg s s₁' tracked) hflag hrest
      exact ⟨tracked', by simp only [Machine.run, htrack, Option.bind_some, hrun'], hiff⟩

end Check

namespace Sample

/-- The file with a given content: one byte `1` is file `a`, one byte `2` is file `b`. -/
def fileOf (bytes : List UInt8) : Char :=
  if bytes = [1] then 'a' else if bytes = [2] then 'b' else 'c'

def content (c : Char) : List UInt8 := if c = 'a' then [1] else if c = 'b' then [2] else [3]

/-- Each file is one object. -/
def xet : Xet Char where
  clean store bytes := (insert (fileOf bytes) store, info (fileOf bytes))
  reconstruct store h :=
    (['a', 'b', 'c'].find? (fun c => decide (c ∈ store) && hash c == h)).map content

/-- First byte as fingerprint: enough to tell the sample contents apart. -/
def chunkHash (bytes : List UInt8) : UInt64 := (bytes.headD 0).toUInt64

def deps : Deps Char String where
  serde := serde
  xet := xet
  pathKey := id
  chunkIndex := computeChunks chunkHash
  verify := verifyChunksInMemory chunkHash

theorem fileOf_mem (bytes : List UInt8) : fileOf bytes ∈ ['a', 'b', 'c'] := by
  unfold fileOf
  split_ifs <;> decide

/-- What holds of the three sample files holds of every content's file. -/
theorem fileOf_cases {P : Char → Prop} (ha : P 'a') (hb : P 'b') (hc : P 'c')
    (bytes : List UInt8) : P (fileOf bytes) := by
  unfold fileOf
  split_ifs
  · exact ha
  · exact hb
  · exact hc

theorem parse_encode (bytes : List UInt8) :
    parsePointer serde.fromStr (asBytes (encodePointerString serde (info (fileOf bytes)))) =
      .ok (info (fileOf bytes)) := by
  refine @fileOf_cases (fun c => parsePointer serde.fromStr
    (asBytes (encodePointerString serde (info c))) = .ok (info c)) ?_ ?_ ?_ bytes <;>
    decide +kernel

theorem hashField_encode (bytes : List UInt8) :
    serde.hashField (encodePointerString serde (info (fileOf bytes))) =
      some (hash (fileOf bytes)) := by
  refine @fileOf_cases (fun c => serde.hashField (encodePointerString serde (info c)) =
    some (hash c)) ?_ ?_ ?_ bytes <;>
    decide +kernel

theorem is64LowerHex_hash (bytes : List UInt8) : is64LowerHex (hash (fileOf bytes)) = true := by
  refine @fileOf_cases (fun c => is64LowerHex (hash c) = true) ?_ ?_ ?_ bytes <;>
    decide +kernel

theorem lawful : deps.Lawful where
  clean_subset s b := Finset.subset_insert _ _
  clean_holds s b := by
    simp only [Xet.Holds, deps, xet, Option.isSome_map, List.find?_isSome]
    exact ⟨fileOf b, fileOf_mem b, by simp [info]⟩
  holds_mono s t h hst hs := by
    simp only [Xet.Holds, deps, xet, Option.isSome_map, List.find?_isSome, Bool.and_eq_true,
      decide_eq_true_eq] at hs ⊢
    obtain ⟨c, hc, hin, hhash⟩ := hs
    exact ⟨c, hc, hst hin, hhash⟩
  clean_hash s b := is64LowerHex_hash b
  parse_encode s b := ⟨info (fileOf b), parse_encode b, rfl⟩
  hashField_encode s b := hashField_encode b

/-- A local git dir with its default store. -/
def siteConfig : SiteConfig := ⟨[".git"], true, none, false⟩

/-- Commit one has `a.bin`; nothing is checked out yet. -/
def emptyRepo : Repository Nat where
  db := db [] (fun c => if c = 1 then [file "a.bin" 10] else [])
  index := []
  head := none
  refs := []

/-- Add `a`, then `b`; drop `a` from the index and collect its marker; make a branch that has `a`
    again; drop `b` and let gc take the last marker. -/
def returningOps : List (SiteOp Nat) :=
  [.clean "a.bin" [1] (some 10), .wait 1000, .clean "b.bin" [2] (some 11),
    .git (.resetIndex [file "b.bin" 11]), .gc 600, .git (.commit "refs/heads/main" 1),
    .git (.resetIndex []), .wait 1000, .gc 600]

end Sample

/-- **A branch that comes back is not protected.** The run adds `a`, loses its marker while `a` is
    unreferenced, references `a` again with its objects still there, and sweeps them. -/
theorem returning_branch_loses_objects :
    ¬ ∀ s tracked, Machine.run (trackedStep Sample.deps Repository.gix Sample.siteConfig)
        (Site.fresh Sample.emptyRepo 0, fun _ => False) Sample.returningOps = some (s, tracked) →
      ∀ h, tracked h → Sample.deps.xet.Holds (s.stores Sample.siteConfig.root) h := by
  have hrunB : (Machine.run (trackedStepB Sample.deps Sample.siteConfig (Sample.hash 'a'))
      (Site.fresh Sample.emptyRepo 0, false) Sample.returningOps).map (fun st => (st.2,
        decide (Sample.deps.xet.Holds (st.1.stores Sample.siteConfig.root) (Sample.hash 'a')))) =
      some (true, false) := by
    decide +kernel
  obtain ⟨⟨s, b⟩, hrun, hst⟩ := Option.map_eq_some_iff.1 hrunB
  simp only [Prod.mk.injEq, decide_eq_false_iff_not] at hst
  obtain ⟨rfl, hlost⟩ := hst
  obtain ⟨tracked, hrun', hiff⟩ := run_trackedStepB Sample.deps Sample.siteConfig
    (fun _ => False) (by simp) hrun
  intro hall
  exact hlost (hall s tracked hrun' _ (hiff.1 rfl))

namespace Sample

/-- Add `a` and take it out of the index; while it has its marker, a commit brings it back, and a
    smudge seeds the cache with it. Then `b` is added and dropped, and gc takes its marker. -/
def keptOps : List (SiteOp Nat) :=
  [.clean "a.bin" [1] (some 10), .git (.resetIndex []), .git (.commit "refs/heads/main" 1),
    .smudge "a.bin" 10, .clean "b.bin" [2] (some 11), .git (.resetIndex []), .wait 1000, .gc 600]

/-- `KeepsMarked` for the three sample files, executable. -/
def keepsMarkedB (st : Site Nat Char String × (String → Prop)) : SiteOp Nat → Bool
  | .git op => ['a', 'b', 'c'].all (fun c => refersB deps st.1.repo (hash c) ||
      !refersB deps (st.1.repo.apply op) (hash c) ||
      decide (¬ deps.xet.Holds (st.1.stores siteConfig.root) (hash c) ∨
        hash c ∈ st.1.dir.markers.listStaged))
  | .smudge _ blob => ['a', 'b', 'c'].any (fun c =>
      decide (st.1.repo.db.object blob = some (pointerBlob c) ∧
        hash c ∈ st.1.dir.markers.listStaged))
  | _ => true

theorem holds_cases {store : Finset Char} {h : String} (hholds : deps.xet.Holds store h) :
    ∃ c ∈ ['a', 'b', 'c'], hash c = h := by
  simp only [Xet.Holds, deps, xet, Option.isSome_map, List.find?_isSome, Bool.and_eq_true,
    beq_iff_eq] at hholds
  obtain ⟨c, hc, -, hhash⟩ := hholds
  exact ⟨c, hc, hhash⟩

theorem keepsMarked_of_check {st : Site Nat Char String × (String → Prop)} {op : SiteOp Nat}
    (h : keepsMarkedB st op = true) : KeepsMarked deps siteConfig st op := by
  cases op with
  | git op =>
      intro h' hunref href hholds
      obtain ⟨c, hc, rfl⟩ := holds_cases hholds
      have hcheck := List.all_eq_true.1 h c hc
      rw [← refersB_iff] at hunref href
      simpa [hunref, href, hholds] using hcheck
  | smudge pathname blob =>
      intro data info' pointer hobj _ hparse hpointer
      obtain ⟨c, hc, hcheck⟩ := List.any_eq_true.1 h
      obtain ⟨hblob, hmark⟩ := of_decide_eq_true hcheck
      rw [hblob, Option.some.injEq] at hobj
      obtain rfl : asBytes (encodePointerString serde (info c)) = data := congrArg Prod.snd hobj
      obtain rfl := asBytes_inj.1 hpointer
      obtain ⟨bytes, rfl⟩ : ∃ bytes, fileOf bytes = c := ⟨content c, by
        simp only [List.mem_cons, List.not_mem_nil, or_false] at hc
        rcases hc with rfl | rfl | rfl <;> decide⟩
      obtain rfl := Except.ok.inj ((parse_encode bytes).symm.trans hparse)
      exact ⟨hmark, hashField_encode bytes⟩
  | clean | wait | gc => trivial

end Sample

/-- A commit that brings a marked file back, a smudge of it, and a gc run that drops another file:
    the file stays tracked, and its objects stay. -/
theorem localRun_keeps_added_file : ∃ s tracked,
    Machine.run (trackedStep Sample.deps Repository.gix Sample.siteConfig)
      (Site.fresh Sample.emptyRepo 0, fun _ => False) Sample.keptOps = some (s, tracked) ∧
    tracked (Sample.hash 'a') ∧ s.dir.markers.listStaged = {Sample.hash 'a'} ∧
    ((∀ h, tracked h → Sample.deps.xet.Holds (s.stores Sample.siteConfig.root) h) ∧
      ∀ k e, s.dir.cache k = some e →
        Sample.deps.Backed (s.stores Sample.siteConfig.root) e.pointer) := by
  have hrunB : (Machine.run (trackedStepB Sample.deps Sample.siteConfig (Sample.hash 'a'))
      (Site.fresh Sample.emptyRepo 0, false) Sample.keptOps).map (fun st =>
        (st.2, st.1.dir.markers.listStaged)) = some (true, {Sample.hash 'a'}) := by
    decide +kernel
  have hchecked : Machine.Admissible (trackedStep Sample.deps Repository.gix Sample.siteConfig)
      (fun st op => Sample.keepsMarkedB st op = true)
      (Site.fresh Sample.emptyRepo 0, fun _ => False) Sample.keptOps := by
    decide +kernel
  obtain ⟨⟨s, b⟩, hrun, hst⟩ := Option.map_eq_some_iff.1 hrunB
  obtain ⟨rfl, hstaged⟩ := Prod.mk.inj hst
  obtain ⟨tracked, hrun', hiff⟩ := run_trackedStepB Sample.deps Sample.siteConfig
    (fun _ => False) (by simp) hrun
  refine ⟨s, tracked, hrun', hiff.1 rfl, hstaged, localRun_keeps_objects Repository.gix rfl
    Sample.lawful (fun r => r.gix_reads) Sample.emptyRepo 0 Sample.keptOps s tracked ?_ hrun'⟩
  exact hchecked.imp_of_invariant (fun _ => True) (fun st op _ => Sample.keepsMarked_of_check)
    (fun _ _ _ _ _ _ => trivial) trivial

end BaleForGit
