import Mathlib.Logic.Function.Basic
import BaleForGit.Library.Machine
import BaleForGit.Client.Site

set_option autoImplicit false

/-! # Clean and gc, interleaved (`do_clean`, `handle_clean`, `reconcile`)

`Site` runs whole operations one after the other. Here the same operations are taken apart at the
points where another process can get in between: a clean looks its path up in the clean cache
before it takes the store lock, and holds the lock from then on; gc holds the lock from its try-lock
to its return. Git operations hold a `*.lock` file from before their first clean until they have
recorded the pointers they were given.

A `Yard` is a `Site` together with the store lock, the `*.lock` files, what each git operation is
waiting for or has not recorded yet, and where each clean and each gc run has got to. Any number of
cleans, git operations and gc runs take their steps in any order. `run_clean` and `run_gc` say that
a clean or a gc run which nothing interrupts is `doClean` or `reconcile`. -/

namespace BaleForGit

/-! ## States -/

/-- A clean request: the git operation that waits for it, the path and the file. -/
structure CleanRequest where
  op : Nat
  pathname : String
  payload : List UInt8
deriving DecidableEq, Repr

/-- Where a clean has got to. -/
inductive CleanPc where
  | idle
  | started (r : CleanRequest)
  | looked (r : CleanRequest) (hit : Option CacheEntry)
  | locked (r : CleanRequest) (hit : Option CacheEntry)
  | touched (r : CleanRequest) (entry : CacheEntry)
  | written (r : CleanRequest) (info : XetFileInfo)
  | marked (r : CleanRequest) (info : XetFileInfo)
  | answered (r : CleanRequest) (info : XetFileInfo)
  | done

/-- Where a gc run has got to. -/
inductive GcPc where
  | idle
  | locked (grace : Nat)
  | checked (grace : Nat)
  | listed (grace : Nat) (want : Finset String)
  | lived (grace : Nat) (want live : Finset String)
  | filtered (want dead : Finset String)
  | removed (want dead : Finset String)
  | forgot
  | done

/-- Who holds the store lock. -/
inductive Holder where
  | clean (i : Nat)
  | gc (j : Nat)
deriving DecidableEq, Repr

/-- A git operation: the cleans it waits for, and the pointers it has not recorded yet. -/
structure GitProc where
  awaiting : Finset Nat
  pending : List String

structure Yard (Oid Obj Key : Type) where
  site : Site Oid Obj Key
  lock : Option Holder
  /-- The git operations whose `*.lock` file is in the git dir. -/
  lockFiles : Finset Nat
  ops : Nat → GitProc
  cleans : Nat → CleanPc
  gcs : Nat → GcPc

/-- One step. `clean` and `gc` continue a running clean or gc run; `record` is git writing its index
    or a ref, with whatever repository results. -/
inductive YardAct (Oid : Type) where
  | begin (o : Nat)
  | record (o : Nat) (repo : Repository Oid)
  | finish (o : Nat)
  | startClean (i : Nat) (r : CleanRequest)
  | clean (i : Nat)
  | startGc (j : Nat) (grace : Nat)
  | gc (j : Nat)
  | tick (secs : Nat)

namespace Yard

variable {Oid Obj Key : Type}

/-- Nothing has run yet. -/
def fresh (repo : Repository Oid) (now : Nat) : Yard Oid Obj Key where
  site := Site.fresh repo now
  lock := none
  lockFiles := ∅
  ops := fun _ => ⟨∅, []⟩
  cleans := fun _ => .idle
  gcs := fun _ => .idle

variable (s : Yard Oid Obj Key)

def setClean (i : Nat) (pc : CleanPc) : Yard Oid Obj Key :=
  { s with cleans := Function.update s.cleans i pc }

def setGc (j : Nat) (pc : GcPc) : Yard Oid Obj Key :=
  { s with gcs := Function.update s.gcs j pc }

def setOp (o : Nat) (p : GitProc) : Yard Oid Obj Key :=
  { s with ops := Function.update s.ops o p }

/-- Git reads the answer of a clean it waits for. -/
def answer (i o : Nat) (pointers : List String) : Yard Oid Obj Key :=
  s.setOp o ⟨(s.ops o).awaiting.erase i, (s.ops o).pending ++ pointers⟩

def setMarkers (m : Markers) : Yard Oid Obj Key :=
  { s with site := { s.site with dir := { s.site.dir with markers := m } } }

def setCache (cache : CleanCache Key) : Yard Oid Obj Key :=
  { s with site := { s.site with dir := { s.site.dir with cache := cache } } }

def setStores (stores : Stores Obj) : Yard Oid Obj Key :=
  { s with site := { s.site with stores := stores } }

end Yard

/-! ## Steps -/

section Step

variable {Oid Obj Key : Type} [DecidableEq Oid] [DecidableEq Key] (deps : Deps Obj Key)
  (gixOf : Repository Oid → Gix Oid) (cfg : SiteConfig)

/-- The next step of clean `i`. -/
def cleanStep (s : Yard Oid Obj Key) (i : Nat) : Option (Yard Oid Obj Key) :=
  match s.cleans i with
  | .idle => none
  | .started r =>
    match cacheLookup deps s.site.dir.cache r.pathname r.payload with
    -- the verifier panics: git gets no pointer
    | none => some ((s.answer i r.op []).setClean i .idle)
    | some hit => some (s.setClean i (.looked r hit))
  | .looked r hit =>
    if s.lock = none then some ({ s with lock := some (.clean i) }.setClean i (.locked r hit))
    else none
  | .locked r (some entry) =>
    some ((s.setMarkers (touchCached deps s.site.dir.markers entry s.site.now)).setClean i
      (.touched r entry))
  | .touched r entry => some ((s.answer i r.op [entry.pointer]).setClean i .done)
  | .locked r none =>
    let (store, info) := deps.xet.clean (s.site.stores cfg.root) r.payload
    some ((s.setStores (Function.update s.site.stores cfg.root store)).setClean i
      (.written r info))
  | .written r info =>
    some ((s.setMarkers (s.site.dir.markers.markFileStaged info.hash r.payload.length
      s.site.now)).setClean i (.marked r info))
  | .marked r info =>
    some ((s.answer i r.op [encodePointerString deps.serde info]).setClean i (.answered r info))
  | .answered r info =>
    some ((s.setCache (s.site.dir.cache.save (deps.pathKey r.pathname)
      (cleanEntry deps r.payload info))).setClean i .done)
  | .done => some ({ s with lock := none }.setClean i .idle)

/-- The start of a gc run: nothing to do for a shared store, or when the try-lock fails. -/
def gcStart (s : Yard Oid Obj Key) (j grace : Nat) : Yard Oid Obj Key :=
  if cfg.localMode && cfg.localShared then s
  else if s.lock ≠ none then s
  else { s with lock := some (.gc j) }.setGc j (.locked grace)

/-- The sweep of a gc run that has found no marker left. -/
def yardSweep (s : Yard Oid Obj Key) : Yard Oid Obj Key :=
  (s.setMarkers s.site.dir.markers.clear).setStores
    (removeAllStagedObjects s.site.stores cfg.root)

/-- The reclaim grace, applied to the staged hashes that were not found live. -/
def yardDead (s : Yard Oid Obj Key) (grace : Nat) (want live : Finset String) : Finset String :=
  (want \ live).filter (fun h => markerAgeExceeds GcFailures.none s.site.dir.markers
    ⟨true, false, s.site.now, grace⟩ h = true)

/-- The next step of gc run `j`. -/
def gcStep (s : Yard Oid Obj Key) (j : Nat) : Option (Yard Oid Obj Key) :=
  match s.gcs j with
  | .idle => none
  | .locked grace =>
    -- `git_op_in_flight`
    if s.lockFiles = ∅ then some (s.setGc j (.checked grace)) else some (s.setGc j .done)
  | .checked grace =>
    let want := s.site.dir.markers.listStaged
    if want = ∅ then some (s.setGc j .done) else some (s.setGc j (.listed grace want))
  | .listed grace want =>
    some (s.setGc j (.lived grace want (gcLive deps.serde (gixOf s.site.repo) cfg.raw want)))
  | .lived grace want live =>
    let dead := yardDead s grace want live
    if dead = ∅ then some (s.setGc j .done) else some (s.setGc j (.filtered want dead))
  | .filtered want dead =>
    some ((s.setMarkers (s.site.dir.markers.removeAll dead)).setGc j (.removed want dead))
  | .removed want dead =>
    some ((s.setCache (s.site.dir.cache.forgetHashes deps.serde
      (gcOrphaned deps.serde (gixOf s.site.repo) cfg.raw want dead))).setGc j .forgot)
  | .forgot =>
    if s.site.dir.markers.listStaged.card = 0 then some ((yardSweep cfg s).setGc j .done)
    else some (s.setGc j .done)
  | .done => some ({ s with lock := none }.setGc j .idle)

def yardStep (s : Yard Oid Obj Key) (a : YardAct Oid) : Option (Yard Oid Obj Key) :=
  match a with
  | .begin o => some { s with lockFiles := insert o s.lockFiles }
  | .record o repo =>
    if o ∈ s.lockFiles then
      some ({ s with site := { s.site with repo := repo } }.setOp o ⟨(s.ops o).awaiting, []⟩)
    else none
  | .finish o =>
    if (s.ops o).awaiting = ∅ ∧ (s.ops o).pending = [] then
      some { s with lockFiles := s.lockFiles.erase o }
    else none
  | .startClean i r =>
    match s.cleans i with
    | .idle =>
      if r.op ∈ s.lockFiles then
        some ((s.setOp r.op ⟨insert i (s.ops r.op).awaiting, (s.ops r.op).pending⟩).setClean i
          (.started r))
      else none
    | _ => none
  | .clean i => cleanStep deps cfg s i
  | .startGc j grace =>
    match s.gcs j with
    | .idle => some (gcStart cfg s j grace)
    | _ => none
  | .gc j => gcStep deps gixOf cfg s j
  | .tick secs => some { s with site := { s.site with now := s.site.now + secs } }

/-! ## Uninterrupted runs -/

variable {deps gixOf cfg}

/-- **A clean that nothing interrupts is `doClean`**: from a free lock it gives the lock back, leaves
    the git dir and the store of `doClean`, and hands its pointer to the git operation. -/
theorem run_clean {s : Yard Oid Obj Key} {i : Nat} {r : CleanRequest} {out : CleanOutcome Obj Key}
    (hidle : s.cleans i = .idle) (hop : r.op ∈ s.lockFiles) (hlock : s.lock = none)
    (hout : doClean deps s.site.dir (s.site.stores cfg.root) r.pathname r.payload s.site.now =
      some out) :
    ∃ n, (Machine.run (yardStep deps gixOf cfg) s
        (.startClean i r :: List.replicate n (.clean i))).map
          (fun s' => (s'.site, (s'.ops r.op).pending, s'.lock)) =
      some ({ s.site with dir := out.dir,
                          stores := Function.update s.site.stores cfg.root out.store },
        (s.ops r.op).pending ++ [out.pointer], none) := by
  unfold doClean at hout
  cases hlook : cacheLookup deps s.site.dir.cache r.pathname r.payload with
  | none => simp [hlook] at hout
  | some hit =>
      cases hit with
      | some entry =>
          simp only [hlook, Option.some.injEq] at hout
          subst hout
          -- look, lock, touch, answer, unlock
          refine ⟨5, ?_⟩
          simp [Machine.run, yardStep, cleanStep, hidle, hop, hlock, hlook, List.replicate,
            Yard.setOp, Yard.setClean, Yard.setMarkers, Yard.answer]
      | none =>
          simp only [hlook, Option.some.injEq] at hout
          subst hout
          -- look, lock, write, mark, answer, save, unlock
          refine ⟨7, ?_⟩
          simp [Machine.run, yardStep, cleanStep, hidle, hop, hlock, hlook, List.replicate,
            Yard.setOp, Yard.setClean, Yard.setMarkers, Yard.setStores, Yard.setCache,
            Yard.answer, fullClean, cleanEntry]

/-- **A gc run that nothing interrupts is `reconcile`**: from a free lock it gives the lock back and
    leaves what `reconcile` leaves, with the `*.lock` files there as the operations in flight. -/
theorem run_gc {s : Yard Oid Obj Key} {j : Nat} (grace : Nat) (hidle : s.gcs j = .idle)
    (hlock : s.lock = none) :
    let out := reconcile deps.serde (gixOf s.site.repo) (some cfg.raw) cfg.gitDir
      ⟨true, decide (s.lockFiles ≠ ∅), s.site.now, grace⟩ GcFailures.none s.site.dir s.site.stores
    ∃ n, (Machine.run (yardStep deps gixOf cfg) s
        (.startGc j grace :: List.replicate n (.gc j))).map (fun s' => (s'.site, s'.lock)) =
      some ({ s.site with dir := out.dir, stores := out.stores }, none) := by
  intro out
  obtain ⟨env, henv⟩ : ∃ env : GcEnv, env = ⟨true, decide (s.lockFiles ≠ ∅), s.site.now, grace⟩ :=
    ⟨_, rfl⟩
  have hout : out = reconcile deps.serde (gixOf s.site.repo) (some cfg.raw) cfg.gitDir env
      GcFailures.none s.site.dir s.site.stores := by rw [henv]
  obtain ⟨dead, hdead⟩ : ∃ dead, dead = gcDropped deps.serde (gixOf s.site.repo)
    (gcConfig (some cfg.raw) cfg.gitDir) env GcFailures.none s.site.dir.markers := ⟨_, rfl⟩
  rw [reconcile_eq] at hout
  simp only at hout
  rw [← hdead] at hout
  clear_value out
  unfold gcDropped at hdead
  by_cases hsh : (cfg.localMode && cfg.localShared) = true
  · have hproc : gcProceeds (gcConfig (some cfg.raw) cfg.gitDir) env GcFailures.none = false := by
      simp [gcProceeds, gcConfig, SiteConfig.raw, hsh]
    rw [hproc] at hdead
    rw [if_pos (by simpa using hdead)] at hout
    subst hout
    exact ⟨0, by simp [Machine.run, yardStep, hidle, gcStart, hsh, hlock]⟩
  by_cases hfl : s.lockFiles = ∅
  · have hproc : gcProceeds (gcConfig (some cfg.raw) cfg.gitDir) env GcFailures.none = true := by
      rw [Bool.not_eq_true] at hsh
      simp [gcProceeds, gcConfig, SiteConfig.raw, GcFailures.none, henv, hfl, hsh]
    have hfilter : ∀ t : Yard Oid Obj Key, t.site = s.site →
        yardDead t grace s.site.dir.markers.listStaged (gcLive deps.serde (gixOf s.site.repo)
          cfg.raw s.site.dir.markers.listStaged) = dead := by
      intro t ht
      rw [hdead, hproc, henv]
      unfold yardDead
      rw [ht]
      rfl
    by_cases hwant : s.site.dir.markers.listStaged = ∅
    · have hempty : dead = ∅ := by
        rw [← hfilter s rfl, hwant]
        simp [yardDead]
      rw [if_pos hempty] at hout
      subst hout
      -- check, list, unlock
      exact ⟨3, by simp [Machine.run, yardStep, hidle, gcStart, hsh, hlock, gcStep, hfl, hwant,
        List.replicate, Yard.setGc]⟩
    by_cases hempty : dead = ∅
    · rw [if_pos hempty] at hout
      subst hout
      -- check, list, live, filter, unlock
      refine ⟨5, ?_⟩
      simp [Machine.run, yardStep, hidle, gcStart, hsh, hlock, gcStep, hfl, hwant, hfilter, hempty,
        List.replicate, Yard.setGc]
    rw [if_neg hempty] at hout
    have hsweeps : (s.site.dir.markers.removeAll dead).listStaged = ∅ ↔
        gcSweeps GcFailures.none s.site.dir.markers dead := by
      rw [Markers.listStaged_removeAll, Finset.sdiff_eq_empty_iff_subset]
      simp [gcSweeps, GcFailures.none]
    -- check, list, live, filter, remove, forget, sweep, unlock
    refine ⟨8, ?_⟩
    by_cases hleft : gcSweeps GcFailures.none s.site.dir.markers dead
    · rw [if_pos hleft] at hout
      subst hout
      simp [Machine.run, yardStep, hidle, gcStart, hsh, hlock, gcStep, hfl, hwant, hfilter, hempty,
        hsweeps, hleft, List.replicate, Yard.setGc, Yard.setMarkers, Yard.setCache, Yard.setStores,
        yardSweep, gcConfig, SiteConfig.root]
    · rw [if_neg hleft] at hout
      subst hout
      simp [Machine.run, yardStep, hidle, gcStart, hsh, hlock, gcStep, hfl, hwant, hfilter, hempty,
        hsweeps, hleft, List.replicate, Yard.setGc, Yard.setMarkers, Yard.setCache, gcConfig]
  · have hproc : gcProceeds (gcConfig (some cfg.raw) cfg.gitDir) env GcFailures.none = false := by
      simp [gcProceeds, henv, hfl]
    rw [hproc] at hdead
    rw [if_pos (by simpa using hdead)] at hout
    subst hout
    -- check, unlock
    exact ⟨2, by simp [Machine.run, yardStep, hidle, gcStart, hsh, hlock, gcStep, hfl,
      List.replicate, Yard.setGc]⟩

end Step

end BaleForGit
