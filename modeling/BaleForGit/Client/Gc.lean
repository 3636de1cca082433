import BaleForGit.Client.Store
import BaleForGit.Git.Reachable

set_option autoImplicit false

/-! # Reconciliation of the staging area (`gc.rs`: `reconcile`)

One gc run of a git dir: list the markers, keep those whose hash the index or a visible commit
still names, drop the others once they are older than the grace, forget their clean-cache entries,
and sweep the whole object store when no marker is left.

`reconcile` follows the source with every read it makes as an input: what `gix` answers, whether
the repository can be discovered, the configuration loaded, the marker directory listed (twice) and
a marker's age read. `reconcile_eq` is its one-line summary, and the two lemmas after it say which
marker files a run leaves and which directory it sweeps; everything else about gc is derived from
these. -/

namespace BaleForGit

/-- What a run meets outside its own repository: the outcome of the try-lock, `git_op_in_flight`,
    the clock and the reclaim grace. -/
structure GcEnv where
  lockAcquired : Bool
  opInFlight : Bool
  now : Nat
  grace : Nat
deriving DecidableEq, Repr

/-- Reads that can fail besides those of `gix`: discovering the repository, listing the marker
    directory at the start and again before the sweep, reading a marker's modification time. -/
structure GcFailures where
  discover : Bool
  list : Bool
  relist : Bool
  mtime : String → Bool

/-- No read fails. -/
def GcFailures.none : GcFailures := ⟨false, false, false, fun _ => false⟩

/-! ## The pieces of a run -/

/-- The configuration of a run: a failed load assumes server mode. -/
def gcConfig (loaded : Option RawConfig) (gitDir : Path) : RawConfig :=
  loaded.getD ⟨some gitDir, false, none, false⟩

/-- The store a run locks and may sweep. -/
def gcStore (raw : RawConfig) (gitDir : Path) : Path :=
  (objectStoreRoot raw).getD (stagingRoot gitDir)

/-- `marker_age_exceeds`: an unreadable or future mtime counts as young. -/
def markerAgeExceeds (F : GcFailures) (m : Markers) (env : GcEnv) (h : String) : Bool :=
  if F.mtime h || decide (h ∉ m.files) then false
  else if m.mtime h > env.now then false
  else decide (env.now - m.mtime h > env.grace)

section Reconcile

variable {Oid Obj Key : Type} [DecidableEq Oid] (serde : Serde) (g : Gix Oid)

/-- The live set: in local mode every ref is a tip, in server mode remote-tracking refs hide what
    they reach. -/
def gcLive (raw : RawConfig) (want : Finset String) : Finset String :=
  if raw.localMode then
    reachableHashes serde.fromStr g want ((refTips g).1 ++ (refTips g).2) []
  else reachableHashes serde.fromStr g want (refTips g).1 (refTips g).2

/-- Staged hashes that are not live and older than the grace. -/
def gcDead (raw : RawConfig) (F : GcFailures) (m : Markers) (env : GcEnv) (want : Finset String) :
    Finset String :=
  (want \ gcLive serde g raw want).filter (fun h => markerAgeExceeds F m env h = true)

/-- Dead hashes that were never pushed. -/
def gcOrphaned (raw : RawConfig) (want dead : Finset String) : Finset String :=
  if raw.localMode || (refTips g).2.isEmpty then dead
  else dead \ reachableHashes serde.fromStr g want ((refTips g).1 ++ (refTips g).2) []

/-- What a run leaves behind; `swept` is the argument of `remove_all_staged_objects`, if called. -/
structure GcOutcome (Obj Key : Type) where
  dir : BaleDir Key
  stores : Stores Obj
  swept : Option Path

/-- `reconcile`. -/
def reconcile (loaded : Option RawConfig) (gitDir : Path) (env : GcEnv) (F : GcFailures)
    (dir : BaleDir Key) (stores : Stores Obj) : GcOutcome Obj Key :=
  if F.discover then ⟨dir, stores, none⟩
  else
    let raw := gcConfig loaded gitDir
    -- shared store: append-only, only empty directories are tidied
    if raw.localMode && raw.localShared then ⟨dir, stores, none⟩
    else if !env.lockAcquired then ⟨dir, stores, none⟩
    else if env.opInFlight then ⟨dir, stores, none⟩
    else
      let want := if F.list then ∅ else dir.markers.listStaged
      if want = ∅ then ⟨dir, stores, none⟩
      else
        let dead := gcDead serde g raw F dir.markers env want
        if dead = ∅ then ⟨dir, stores, none⟩
        else
          let markers := dir.markers.removeAll dead
          let cache := dir.cache.forgetHashes serde (gcOrphaned serde g raw want dead)
          -- `list_staged_files(..).map(|v| v.len()).unwrap_or(0)`
          let remaining := if F.relist then 0 else markers.listStaged.card
          if remaining = 0 then
            ⟨⟨markers.clear, cache⟩, removeAllStagedObjects stores (gcStore raw gitDir),
              some (gcStore raw gitDir)⟩
          else ⟨⟨markers, cache⟩, stores, none⟩

/-! ## What a run does -/

/-- A run gets as far as reading the markers. -/
def gcProceeds (raw : RawConfig) (env : GcEnv) (F : GcFailures) : Bool :=
  !F.discover && !(raw.localMode && raw.localShared) && env.lockAcquired && !env.opInFlight

/-- The hashes a run drops: none unless it proceeds. -/
def gcDropped (raw : RawConfig) (env : GcEnv) (F : GcFailures) (m : Markers) : Finset String :=
  if gcProceeds raw env F then gcDead serde g raw F m env (if F.list then ∅ else m.listStaged)
  else ∅

/-- The sweep condition: the second listing fails, or finds nothing. -/
def gcSweeps (F : GcFailures) (m : Markers) (dead : Finset String) : Prop :=
  F.relist = true ∨ m.listStaged ⊆ dead

instance (F : GcFailures) (m : Markers) (dead : Finset String) : Decidable (gcSweeps F m dead) :=
  inferInstanceAs (Decidable (_ ∨ _))

variable (loaded : Option RawConfig) (gitDir : Path) (env : GcEnv) (F : GcFailures)
  (dir : BaleDir Key) (stores : Stores Obj)

/-- **What a gc run does**, as one case split. -/
theorem reconcile_eq :
    reconcile serde g loaded gitDir env F dir stores =
      let raw := gcConfig loaded gitDir
      let dead := gcDropped serde g raw env F dir.markers
      let cache := dir.cache.forgetHashes serde (gcOrphaned serde g raw dir.markers.listStaged dead)
      if dead = ∅ then ⟨dir, stores, none⟩
      else if gcSweeps F dir.markers dead then
        ⟨⟨(dir.markers.removeAll dead).clear, cache⟩,
          removeAllStagedObjects stores (gcStore raw gitDir), some (gcStore raw gitDir)⟩
      else ⟨⟨dir.markers.removeAll dead, cache⟩, stores, none⟩ := by
  have hdead : ∀ raw, gcDead serde g raw F dir.markers env ∅ = ∅ := by
    intro raw
    simp [gcDead]
  unfold reconcile gcDropped
  simp only
  cases hdis : F.discover with
  | true => simp [gcProceeds, hdis]
  | false =>
      cases hsh : (gcConfig loaded gitDir).localMode && (gcConfig loaded gitDir).localShared with
      | true => simp [gcProceeds, hdis, hsh]
      | false =>
          cases hlock : env.lockAcquired with
          | false => simp [gcProceeds, hdis, hsh, hlock]
          | true =>
              cases hfl : env.opInFlight with
              | true => simp [gcProceeds, hdis, hsh, hlock, hfl]
              | false =>
                  have hproc : gcProceeds (gcConfig loaded gitDir) env F = true := by
                    simp [gcProceeds, hdis, hsh, hlock, hfl]
                  simp only [hproc, Bool.false_eq_true, if_false, if_true, Bool.not_true]
                  cases hlist : F.list with
                  | true => simp [hdead]
                  | false =>
                      simp only [Bool.false_eq_true, if_false]
                      by_cases hwant : dir.markers.listStaged = ∅
                      · rw [if_pos hwant, hwant, hdead, if_pos rfl]
                      · rw [if_neg hwant]
                        have hiff : ∀ dead, (if F.relist then 0 else
                            (dir.markers.removeAll dead).listStaged.card) = 0 ↔
                              gcSweeps F dir.markers dead := by
                          intro dead
                          unfold gcSweeps
                          cases F.relist with
                          | true => simp
                          | false =>
                              simp only [Bool.false_eq_true, if_false, false_or,
                                Finset.card_eq_zero, Markers.listStaged_removeAll,
                                Finset.sdiff_eq_empty_iff_subset]
                        simp only [hiff]

/-- The marker files that a run leaves. -/
theorem files_reconcile :
    (reconcile serde g loaded gitDir env F dir stores).dir.markers.files =
      if gcDropped serde g (gcConfig loaded gitDir) env F dir.markers = ∅ then dir.markers.files
      else if gcSweeps F dir.markers (gcDropped serde g (gcConfig loaded gitDir) env F dir.markers)
      then ∅
      else dir.markers.files \ gcDropped serde g (gcConfig loaded gitDir) env F dir.markers := by
  rw [reconcile_eq]
  simp only
  split_ifs <;> rfl

/-- The directory that a run sweeps. -/
theorem swept_reconcile :
    (reconcile serde g loaded gitDir env F dir stores).swept =
      if gcDropped serde g (gcConfig loaded gitDir) env F dir.markers = ∅ then none
      else if gcSweeps F dir.markers (gcDropped serde g (gcConfig loaded gitDir) env F dir.markers)
      then some (gcStore (gcConfig loaded gitDir) gitDir)
      else none := by
  rw [reconcile_eq]
  simp only
  split_ifs <;> rfl

/-- The stores after a run: swept below the reported directory, else unchanged. -/
theorem stores_reconcile :
    (reconcile serde g loaded gitDir env F dir stores).stores =
      match (reconcile serde g loaded gitDir env F dir stores).swept with
      | none => stores
      | some root => removeAllStagedObjects stores root := by
  rw [reconcile_eq]
  simp only
  split_ifs <;> rfl

/-- The clean-cache entries that a run leaves name no orphaned hash. -/
theorem cache_reconcile {k : Key} {e : CacheEntry}
    (h : (reconcile serde g loaded gitDir env F dir stores).dir.cache k = some e) :
    dir.cache k = some e ∧ ∀ h', serde.hashField e.pointer = some h' →
      h' ∉ gcOrphaned serde g (gcConfig loaded gitDir) dir.markers.listStaged
        (gcDropped serde g (gcConfig loaded gitDir) env F dir.markers) := by
  rw [reconcile_eq] at h
  simp only at h
  split_ifs at h with hempty hsweep
  · refine ⟨h, fun h' _ => ?_⟩
    rw [hempty]
    unfold gcOrphaned
    split_ifs <;> simp
  · exact CleanCache.forgetHashes_eq_some h
  · exact CleanCache.forgetHashes_eq_some h

/-- In local mode every dropped hash is an orphan. -/
theorem gcOrphaned_local {raw : RawConfig} (hlocal : raw.localMode = true)
    (want dead : Finset String) : gcOrphaned serde g raw want dead = dead := by
  simp [gcOrphaned, hlocal]

end Reconcile

/-! ## Dead hashes, in terms of the repository -/

namespace Repository

variable {Oid : Type} (fromStr : String → Option XetFileInfo) (repo : Repository Oid)

/-- What a gc run with read failures `F` finds live. -/
def GcLiveUnder (F : ReadFailures Oid) (localMode : Bool) (h : String) : Prop :=
  if localMode then
    repo.LiveUnder fromStr F (repo.localTipsUnder F ++ repo.remoteTipsUnder F) [] h
  else repo.LiveUnder fromStr F (repo.localTipsUnder F) (repo.remoteTipsUnder F) h

/-- What a gc run without read failures finds live: in local mode whatever is referenced, in server
    mode what the index names or a commit introduces that no remote-tracking ref reaches. -/
def GcLive (localMode : Bool) (h : String) : Prop :=
  if localMode then repo.Refers fromStr h
  else repo.Live fromStr repo.localTips repo.remoteTips h

theorem gcLiveUnder_none_iff (localMode : Bool) (h : String) :
    repo.GcLiveUnder fromStr (ReadFailures.none Oid) localMode h ↔
      repo.GcLive fromStr localMode h := by
  unfold GcLiveUnder GcLive
  cases localMode with
  | true =>
      simp only [if_true, liveUnder_none_iff]
      exact repo.live_all_iff fromStr h
  | false =>
      simp only [Bool.false_eq_true, if_false, liveUnder_none_iff]
      rfl

end Repository

section Dead

variable {Oid : Type} [DecidableEq Oid] (serde : Serde) {g : Gix Oid} {repo : Repository Oid}

theorem mem_gcLive_fail (hg : g.Reads repo) (FG : ReadFailures Oid) (raw : RawConfig)
    (want : Finset String) (h : String) :
    h ∈ gcLive serde (g.fail FG) raw want ↔
      h ∈ want ∧ repo.GcLiveUnder serde.fromStr FG raw.localMode h := by
  unfold gcLive Repository.GcLiveUnder
  rw [refTips_fail FG hg]
  split_ifs
  · exact mem_reachableHashes_fail serde.fromStr FG hg want _ _
      (fun t ht => repo.tipsUnder_mem ht) h
  · exact mem_reachableHashes_fail serde.fromStr FG hg want _ _
      (fun t ht => repo.localTipsUnder_mem ht) h

/-- The hashes that a run with failing reads drops. -/
theorem mem_gcDropped_fail (hg : g.Reads repo) (FG : ReadFailures Oid) (raw : RawConfig)
    (env : GcEnv) (F : GcFailures) (m : Markers) (h : String) :
    h ∈ gcDropped serde (g.fail FG) raw env F m ↔
      gcProceeds raw env F = true ∧ F.list = false ∧ h ∈ m.listStaged ∧
        markerAgeExceeds F m env h = true ∧
          ¬ repo.GcLiveUnder serde.fromStr FG raw.localMode h := by
  unfold gcDropped gcDead
  cases gcProceeds raw env F with
  | false => simp
  | true =>
      cases F.list with
      | true => simp
      | false =>
          simp only [if_true, Bool.false_eq_true, if_false, Finset.mem_filter, Finset.mem_sdiff,
            mem_gcLive_fail serde hg, true_and]
          tauto

/-- The hashes that a run without failing reads drops. -/
theorem mem_gcDropped (hg : g.Reads repo) (raw : RawConfig) (env : GcEnv) (m : Markers)
    (h : String) :
    h ∈ gcDropped serde g raw env GcFailures.none m ↔
      gcProceeds raw env GcFailures.none = true ∧ h ∈ m.listStaged ∧
        markerAgeExceeds GcFailures.none m env h = true ∧
          ¬ repo.GcLive serde.fromStr raw.localMode h := by
  have hmem := mem_gcDropped_fail serde hg (ReadFailures.none Oid) raw env GcFailures.none m h
  rw [Gix.fail_none, repo.gcLiveUnder_none_iff] at hmem
  rw [hmem]
  exact ⟨fun ⟨hp, _, hrest⟩ => ⟨hp, hrest⟩, fun ⟨hp, hrest⟩ => ⟨hp, rfl, hrest⟩⟩

end Dead

end BaleForGit
