import BaleForGit.Client.Drain
import BaleForGit.Client.RaceSafety

set_option autoImplicit false

/-! # The drain loses nothing

A staged file is safe as long as its marker is there: the objects of every marker are in the store
(`StagedInv`), since objects are only removed by someone who has the store lock and sees no marker
left, and a clean has the lock from before it writes its objects until its marker is there. The
drain takes the same lock, so it is one more sweeper; and it removes only markers that it has
uploaded.

Unlike the invariant of `RaceSafety`, this one needs nothing of the cache: a hit that a sweep
overtakes leaves no marker. -/

namespace BaleForGit

section Inv

variable {Oid Obj Key : Type} [DecidableEq Oid] [DecidableEq Key] (deps : Deps Obj Key)
  (gixOf : Repository Oid → Gix Oid) (cfg : SiteConfig)

/-! ## The yard -/

/-- A clean that has locked the store has the lock; one that has not set its marker yet has its
    objects there. -/
def CleanLocked (y : Yard Oid Obj Key) (i : Nat) : Prop :=
  match y.cleans i with
  | .idle => True
  | .started _ => True
  | .looked _ _ => True
  | .written _ info => y.lock = some (.clean i) ∧ Stored deps (y.site.stores cfg.root) info
  | _ => y.lock = some (.clean i)

structure StagedInv (y : Yard Oid Obj Key) : Prop where
  cleans : ∀ i, CleanLocked deps cfg y i
  gcs : ∀ j, y.gcs j ≠ .idle → y.lock = some (.gc j)
  backed : ∀ h ∈ y.site.dir.markers.listStaged, deps.xet.Holds (y.site.stores cfg.root) h

variable {deps gixOf cfg} {y y' : Yard Oid Obj Key}

omit [DecidableEq Oid] [DecidableEq Key] in
theorem CleanLocked.frame (law : deps.Lawful) {i : Nat} (hok : CleanLocked deps cfg y i)
    (hpc : y'.cleans i = y.cleans i)
    (hlock : y.lock = some (.clean i) → y'.lock = some (.clean i))
    (hstore : y.lock = some (.clean i) → y.site.stores cfg.root ⊆ y'.site.stores cfg.root) :
    CleanLocked deps cfg y' i := by
  unfold CleanLocked at hok ⊢
  rw [hpc]
  cases hc : y.cleans i <;> simp only [hc] at hok ⊢
  case written r info => exact ⟨hlock hok.1, hok.2.mono law (hstore hok.1)⟩
  all_goals exact hlock hok

omit [DecidableEq Oid] [DecidableEq Key] in
/-- A step of process `p`, or of git, leaves the others what they rely on: the lock, and to a clean that
    has it, the objects. -/
theorem StagedInv.step_of (law : deps.Lawful) (hinv : StagedInv deps cfg y) (p : Option Holder)
    (hcleans : ∀ k, some (.clean k) ≠ p → y'.cleans k = y.cleans k)
    (hgcs : ∀ k, some (.gc k) ≠ p → y'.gcs k = y.gcs k)
    (hlock : ∀ h, some h ≠ p → y.lock = some h → y'.lock = some h)
    (hstore : ∀ k, some (.clean k) ≠ p → y.lock = some (.clean k) →
      y.site.stores cfg.root ⊆ y'.site.stores cfg.root)
    (hclean : ∀ i, p = some (.clean i) → CleanLocked deps cfg y' i)
    (hgc : ∀ j, p = some (.gc j) → y'.gcs j ≠ .idle → y'.lock = some (.gc j))
    (hbacked : ∀ h ∈ y'.site.dir.markers.listStaged,
      deps.xet.Holds (y'.site.stores cfg.root) h) : StagedInv deps cfg y' := by
  refine ⟨fun k => ?_, fun k => ?_, hbacked⟩
  · by_cases hk : some (.clean k) = p
    · exact hclean k hk.symm
    · exact (hinv.cleans k).frame law (hcleans k hk) (hlock _ hk) (hstore k hk)
  · by_cases hk : some (.gc k) = p
    · exact hgc k hk.symm
    · intro hne
      rw [hgcs k hk] at hne
      exact hlock _ hk (hinv.gcs k hne)

omit [DecidableEq Oid] [DecidableEq Key] in
/-- The markers stay, or lose some, and the objects stay, or gain some. -/
theorem StagedInv.backed_of (law : deps.Lawful) (hinv : StagedInv deps cfg y)
    (hmark : y'.site.dir.markers.listStaged ⊆ y.site.dir.markers.listStaged)
    (hstore : y.site.stores cfg.root ⊆ y'.site.stores cfg.root) :
    ∀ h ∈ y'.site.dir.markers.listStaged, deps.xet.Holds (y'.site.stores cfg.root) h :=
  fun h hh => law.holds_mono _ _ _ hstore (hinv.backed h (hmark hh))

omit [DecidableEq Oid] [DecidableEq Key] in
/-- A step of clean `i` that ends at `pc`. -/
theorem StagedInv.clean_step_of (law : deps.Lawful) (hinv : StagedInv deps cfg y)
    {t : Yard Oid Obj Key} {i : Nat} {pc : CleanPc} (hcleans : t.cleans = y.cleans)
    (hgcs : t.gcs = y.gcs) (hlock : ∀ h, h ≠ .clean i → y.lock = some h → t.lock = some h)
    (hstore : y.site.stores cfg.root ⊆ t.site.stores cfg.root)
    (hclean : CleanLocked deps cfg (t.setClean i pc) i)
    (hbacked : ∀ h ∈ t.site.dir.markers.listStaged,
      deps.xet.Holds (t.site.stores cfg.root) h) : StagedInv deps cfg (t.setClean i pc) := by
  refine hinv.step_of law (some (.clean i)) ?_ ?_ ?_ (fun _ _ _ => hstore) ?_ ?_ hbacked
  · intro k hk
    have hne : k ≠ i := fun heq => hk (by rw [heq])
    simp only [Yard.setClean, Function.update_of_ne hne, hcleans]
  · intro k _
    simp only [Yard.setClean, hgcs]
  · intro h hh
    exact hlock h (fun heq => hh (by rw [heq]))
  · intro k hk
    obtain rfl : i = k := by simpa using hk
    exact hclean
  · intro j hj
    simp at hj

omit [DecidableEq Oid] in
/-- **A step of a clean keeps the markers backed**: on a miss the marker comes after the objects, with
    the lock held in between. -/
theorem cleanStep_staged (law : deps.Lawful) (hinv : StagedInv deps cfg y) {i : Nat}
    (hstep : cleanStep deps cfg y i = some y') : StagedInv deps cfg y' := by
  have hok := hinv.cleans i
  have hsame := hinv.backed
  unfold CleanLocked at hok
  unfold cleanStep at hstep
  cases hc : y.cleans i with
  | idle => simp [hc] at hstep
  | started r =>
      simp only [hc] at hstep
      cases hlook : cacheLookup deps y.site.dir.cache r.pathname r.payload <;>
        simp only [hlook, Option.some.injEq] at hstep <;> subst hstep <;>
        refine hinv.clean_step_of law rfl rfl (fun _ _ h => h) (Finset.Subset.refl _) ?_ hsame <;>
        simp only [CleanLocked, Yard.setClean, Function.update_self]
  | looked r hit =>
      simp only [hc] at hstep
      split_ifs at hstep with hfree
      simp only [Option.some.injEq] at hstep
      subst hstep
      refine hinv.clean_step_of law rfl rfl ?_ (Finset.Subset.refl _) ?_ hsame
      · intro h _ hheld
        rw [hfree] at hheld
        simp at hheld
      · simp only [CleanLocked, Yard.setClean, Function.update_self]
  | locked r hit =>
      simp only [hc] at hok
      cases hit with
      | some entry =>
          simp only [hc, Option.some.injEq] at hstep
          subst hstep
          refine hinv.clean_step_of law rfl rfl (fun _ _ h => h) (Finset.Subset.refl _) ?_ ?_
          · simpa only [CleanLocked, Yard.setClean, Yard.setMarkers, Function.update_self] using hok
          · intro h hh
            change h ∈ (touchCached deps y.site.dir.markers entry y.site.now).listStaged at hh
            rw [listStaged_touchCached] at hh
            exact hsame h hh
      | none =>
          simp only [hc, Option.some.injEq] at hstep
          subst hstep
          have hgrow : y.site.stores cfg.root ⊆ Function.update y.site.stores cfg.root
              (deps.xet.clean (y.site.stores cfg.root) r.payload).1 cfg.root := by
            rw [Function.update_self]
            exact law.clean_subset _ _
          refine hinv.clean_step_of law rfl rfl (fun _ _ h => h) hgrow ?_
            (hinv.backed_of law (Finset.Subset.refl _) hgrow)
          simp only [CleanLocked, Yard.setClean, Yard.setStores, Function.update_self]
          exact ⟨hok, ⟨_, _, rfl⟩, law.clean_holds _ _⟩
  | written r info =>
      simp only [hc, Option.some.injEq] at hstep hok
      subst hstep
      obtain ⟨hlock, hstored⟩ := hok
      refine hinv.clean_step_of law rfl rfl (fun _ _ h => h) (Finset.Subset.refl _) ?_ ?_
      · simpa only [CleanLocked, Yard.setClean, Yard.setMarkers, Function.update_self] using hlock
      · -- the new marker is the one whose objects were written
        intro h hh
        obtain ⟨hmem, hhex⟩ := Markers.mem_listStaged.1 hh
        obtain rfl | hold := Finset.mem_insert.1 hmem
        · exact hstored.2
        · exact hsame h (Markers.mem_listStaged.2 ⟨hold, hhex⟩)
  | touched r entry =>
      simp only [hc, Option.some.injEq] at hstep hok
      subst hstep
      refine hinv.clean_step_of law rfl rfl (fun _ _ h => h) (Finset.Subset.refl _) ?_ hsame
      simpa only [CleanLocked, Yard.setClean, Yard.answer, Yard.setOp, Function.update_self] using hok
  | marked r info =>
      simp only [hc, Option.some.injEq] at hstep hok
      subst hstep
      refine hinv.clean_step_of law rfl rfl (fun _ _ h => h) (Finset.Subset.refl _) ?_ hsame
      simpa only [CleanLocked, Yard.setClean, Yard.answer, Yard.setOp, Function.update_self] using hok
  | answered r info =>
      simp only [hc, Option.some.injEq] at hstep hok
      subst hstep
      refine hinv.clean_step_of law rfl rfl (fun _ _ h => h) (Finset.Subset.refl _) ?_ hsame
      simpa only [CleanLocked, Yard.setClean, Yard.setCache, Function.update_self] using hok
  | done =>
      simp only [hc, Option.some.injEq] at hstep hok
      subst hstep
      refine hinv.clean_step_of law rfl rfl ?_ (Finset.Subset.refl _) ?_ hsame
      · intro h hne hheld
        rw [hok] at hheld
        exact absurd (Option.some.inj hheld).symm hne
      · simp only [CleanLocked, Yard.setClean, Function.update_self]

omit [DecidableEq Oid] [DecidableEq Key] in
/-- A step of gc run `j`, which has the lock, that ends at `pc`. -/
theorem StagedInv.gc_step_of (law : deps.Lawful) (hinv : StagedInv deps cfg y)
    {t : Yard Oid Obj Key} {j : Nat} {pc : GcPc} (hcleans : t.cleans = y.cleans)
    (hgcs : t.gcs = y.gcs) (hlock : y.lock = some (.gc j))
    (hend : t.lock = some (.gc j) ∨ pc = .idle)
    (hbacked : ∀ h ∈ t.site.dir.markers.listStaged,
      deps.xet.Holds (t.site.stores cfg.root) h) : StagedInv deps cfg (t.setGc j pc) := by
  refine hinv.step_of law (some (.gc j)) ?_ ?_ ?_ ?_ ?_ ?_ hbacked
  · intro k _
    simp only [Yard.setGc, hcleans]
  · intro k hk
    have hne : k ≠ j := fun heq => hk (by rw [heq])
    simp only [Yard.setGc, Function.update_of_ne hne, hgcs]
  · intro h hh hheld
    rw [hlock] at hheld
    exact absurd hheld.symm hh
  · intro k _ hk
    rw [hlock] at hk
    simp at hk
  · intro i hi
    simp at hi
  · intro k hk hne
    obtain rfl : j = k := by simpa using hk
    simp only [Yard.setGc, Function.update_self] at hne
    exact hend.resolve_right hne

omit [DecidableEq Key] in
/-- **A step of a gc run keeps the markers backed**: it sweeps when there are none. -/
theorem gcStep_staged (law : deps.Lawful) (hinv : StagedInv deps cfg y) {j : Nat}
    (hstep : gcStep deps gixOf cfg y j = some y') : StagedInv deps cfg y' := by
  have hsame := hinv.backed
  have hmove : ∀ pc, y.lock = some (.gc j) → StagedInv deps cfg (y.setGc j pc) :=
    fun pc hlock => hinv.gc_step_of law rfl rfl hlock (Or.inl hlock) hsame
  have hlock := hinv.gcs j
  unfold gcStep at hstep
  cases hc : y.gcs j with
  | idle => simp [hc] at hstep
  | locked grace =>
      simp only [hc] at hstep
      split_ifs at hstep <;> simp only [Option.some.injEq] at hstep <;> subst hstep <;>
        exact hmove _ (hlock (by simp [hc]))
  | checked grace =>
      simp only [hc] at hstep
      split_ifs at hstep <;> simp only [Option.some.injEq] at hstep <;> subst hstep <;>
        exact hmove _ (hlock (by simp [hc]))
  | listed grace want =>
      simp only [hc, Option.some.injEq] at hstep
      subst hstep
      exact hmove _ (hlock (by simp [hc]))
  | lived grace want live =>
      simp only [hc] at hstep
      split_ifs at hstep <;> simp only [Option.some.injEq] at hstep <;> subst hstep <;>
        exact hmove _ (hlock (by simp [hc]))
  | filtered want dead =>
      simp only [hc, Option.some.injEq] at hstep
      subst hstep
      have hheld := hlock (by simp [hc])
      refine hinv.gc_step_of law rfl rfl hheld (Or.inl hheld) (hinv.backed_of law ?_ ?_)
      · change (y.site.dir.markers.removeAll dead).listStaged ⊆ _
        rw [Markers.listStaged_removeAll]
        exact Finset.sdiff_subset
      · exact Finset.Subset.refl _
  | removed want dead =>
      simp only [hc, Option.some.injEq] at hstep
      subst hstep
      have hheld := hlock (by simp [hc])
      exact hinv.gc_step_of law rfl rfl hheld (Or.inl hheld) hsame
  | forgot =>
      have hheld := hlock (by simp [hc])
      simp only [hc] at hstep
      split_ifs at hstep <;> simp only [Option.some.injEq] at hstep <;> subst hstep
      · refine hinv.gc_step_of law rfl rfl hheld (Or.inl hheld) (fun h hh => ?_)
        exact absurd (Markers.listStaged_subset _ hh) (Finset.notMem_empty h)
      · exact hmove _ hheld
  | done =>
      simp only [hc, Option.some.injEq] at hstep
      subst hstep
      exact hinv.gc_step_of law rfl rfl (hlock (by simp [hc])) (Or.inr rfl) hsame

omit [DecidableEq Oid] [DecidableEq Key] in
/-- What git and the clock do leaves the store alone. -/
theorem StagedInv.git_step_of (law : deps.Lawful) (hinv : StagedInv deps cfg y)
    (hcleans : y'.cleans = y.cleans) (hgcs : y'.gcs = y.gcs) (hlock : y'.lock = y.lock)
    (hdir : y'.site.dir = y.site.dir) (hstores : y'.site.stores = y.site.stores) :
    StagedInv deps cfg y' := by
  refine hinv.step_of law none (fun _ _ => by rw [hcleans]) (fun _ _ => by rw [hgcs])
    (fun _ _ h => by rw [hlock]; exact h) (fun _ _ _ => by rw [hstores]) (by simp) (by simp) ?_
  rw [hdir, hstores]
  exact hinv.backed

theorem yardStep_staged (law : deps.Lawful) {a : YardAct Oid} (hinv : StagedInv deps cfg y)
    (hstep : yardStep deps gixOf cfg y a = some y') : StagedInv deps cfg y' := by
  cases a with
  | begin o =>
      simp only [yardStep, Option.some.injEq] at hstep
      subst hstep
      exact hinv.git_step_of law rfl rfl rfl rfl rfl
  | record o repo =>
      simp only [yardStep] at hstep
      split_ifs at hstep
      simp only [Option.some.injEq] at hstep
      subst hstep
      exact hinv.git_step_of law rfl rfl rfl rfl rfl
  | finish o =>
      simp only [yardStep] at hstep
      split_ifs at hstep
      simp only [Option.some.injEq] at hstep
      subst hstep
      exact hinv.git_step_of law rfl rfl rfl rfl rfl
  | startClean i r =>
      simp only [yardStep] at hstep
      split at hstep
      · split_ifs at hstep
        simp only [Option.some.injEq] at hstep
        subst hstep
        refine hinv.clean_step_of law rfl rfl (fun _ _ h => h) (Finset.Subset.refl _) ?_ hinv.backed
        simp only [CleanLocked, Yard.setClean, Function.update_self]
      · simp at hstep
  | clean i => exact cleanStep_staged law hinv hstep
  | startGc j grace =>
      simp only [yardStep] at hstep
      split at hstep
      · simp only [Option.some.injEq] at hstep
        subst hstep
        unfold gcStart
        split_ifs with hshared hheld
        · exact hinv
        · exact hinv
        · rw [not_not] at hheld
          refine hinv.step_of law (some (.gc j)) (fun _ _ => rfl) ?_ ?_ ?_ ?_ ?_ hinv.backed
          · intro k hk
            have hne : k ≠ j := fun heq => hk (by rw [heq])
            simp only [Yard.setGc, Function.update_of_ne hne]
          · intro h _ hh
            rw [hheld] at hh
            simp at hh
          · intro k _ hk
            rw [hheld] at hk
            simp at hk
          · intro i hi
            simp at hi
          · intro k hk _
            obtain rfl : j = k := by simpa using hk
            rfl
      · simp at hstep
  | gc j => exact gcStep_staged law hinv hstep
  | tick secs =>
      simp only [yardStep, Option.some.injEq] at hstep
      subst hstep
      exact hinv.git_step_of law rfl rfl rfl rfl rfl

omit [DecidableEq Oid] [DecidableEq Key] in
theorem stagedInv_fresh (repo : Repository Oid) (now : Nat) :
    StagedInv deps cfg (Yard.fresh repo now : Yard Oid Obj Key) := by
  refine ⟨fun i => trivial, fun j hj => absurd rfl hj, fun h hh => ?_⟩
  exact absurd (Markers.listStaged_subset _ hh) (Finset.notMem_empty h)

/-! ## Markers that stay -/

omit [DecidableEq Oid] [DecidableEq Key] in
/-- A gc run removes the marker of `h`. -/
def GcDrops (y : Yard Oid Obj Key) (a : YardAct Oid) (h : String) : Prop :=
  match a with
  | .gc j => ∃ want dead, y.gcs j = .filtered want dead ∧ h ∈ dead
  | _ => False

omit [DecidableEq Oid] in
theorem cleanStep_marker {i : Nat} {h : String} (hstep : cleanStep deps cfg y i = some y')
    (hm : h ∈ y.site.dir.markers.listStaged) : h ∈ y'.site.dir.markers.listStaged := by
  unfold cleanStep at hstep
  cases hc : y.cleans i with
  | idle => simp [hc] at hstep
  | started r =>
      simp only [hc] at hstep
      cases hlook : cacheLookup deps y.site.dir.cache r.pathname r.payload <;>
        simp only [hlook, Option.some.injEq] at hstep <;> subst hstep <;> exact hm
  | looked r hit =>
      simp only [hc] at hstep
      split_ifs at hstep
      simp only [Option.some.injEq] at hstep
      subst hstep
      exact hm
  | locked r hit =>
      cases hit with
      | some entry =>
          simp only [hc, Option.some.injEq] at hstep
          subst hstep
          change h ∈ (touchCached deps y.site.dir.markers entry y.site.now).listStaged
          rw [listStaged_touchCached]
          exact hm
      | none =>
          simp only [hc, Option.some.injEq] at hstep
          subst hstep
          exact hm
  | written r info =>
      simp only [hc, Option.some.injEq] at hstep
      subst hstep
      obtain ⟨hmem, hhex⟩ := Markers.mem_listStaged.1 hm
      exact Markers.mem_listStaged.2 ⟨Finset.mem_insert_of_mem hmem, hhex⟩
  | touched r entry =>
      simp only [hc, Option.some.injEq] at hstep
      subst hstep
      exact hm
  | marked r info =>
      simp only [hc, Option.some.injEq] at hstep
      subst hstep
      exact hm
  | answered r info =>
      simp only [hc, Option.some.injEq] at hstep
      subst hstep
      exact hm
  | done =>
      simp only [hc, Option.some.injEq] at hstep
      subst hstep
      exact hm

omit [DecidableEq Key] in
theorem gcStep_marker {j : Nat} {h : String} (hstep : gcStep deps gixOf cfg y j = some y')
    (hm : h ∈ y.site.dir.markers.listStaged) (hkeep : ¬ GcDrops y (.gc j) h) :
    h ∈ y'.site.dir.markers.listStaged := by
  unfold gcStep at hstep
  cases hc : y.gcs j with
  | idle => simp [hc] at hstep
  | locked grace =>
      simp only [hc] at hstep
      split_ifs at hstep <;> simp only [Option.some.injEq] at hstep <;> subst hstep <;> exact hm
  | checked grace =>
      simp only [hc] at hstep
      split_ifs at hstep <;> simp only [Option.some.injEq] at hstep <;> subst hstep <;> exact hm
  | listed grace want =>
      simp only [hc, Option.some.injEq] at hstep
      subst hstep
      exact hm
  | lived grace want live =>
      simp only [hc] at hstep
      split_ifs at hstep <;> simp only [Option.some.injEq] at hstep <;> subst hstep <;> exact hm
  | filtered want dead =>
      simp only [hc, Option.some.injEq] at hstep
      subst hstep
      change h ∈ (y.site.dir.markers.removeAll dead).listStaged
      rw [Markers.listStaged_removeAll]
      exact Finset.mem_sdiff.2 ⟨hm, fun hd => hkeep ⟨want, dead, hc, hd⟩⟩
  | removed want dead =>
      simp only [hc, Option.some.injEq] at hstep
      subst hstep
      exact hm
  | forgot =>
      simp only [hc] at hstep
      split_ifs at hstep with hcard <;> simp only [Option.some.injEq] at hstep <;> subst hstep
      · -- a sweep: the marker would not be there
        rw [Finset.card_eq_zero.1 hcard] at hm
        exact absurd hm (Finset.notMem_empty h)
      · exact hm
  | done =>
      simp only [hc, Option.some.injEq] at hstep
      subst hstep
      exact hm

/-- **Only a gc run that drops a marker removes it** in the yard. -/
theorem yardStep_marker {a : YardAct Oid} {h : String}
    (hstep : yardStep deps gixOf cfg y a = some y') (hm : h ∈ y.site.dir.markers.listStaged)
    (hkeep : ¬ GcDrops y a h) : h ∈ y'.site.dir.markers.listStaged := by
  cases a with
  | begin o =>
      simp only [yardStep, Option.some.injEq] at hstep
      subst hstep
      exact hm
  | record o repo =>
      simp only [yardStep] at hstep
      split_ifs at hstep
      simp only [Option.some.injEq] at hstep
      subst hstep
      exact hm
  | finish o =>
      simp only [yardStep] at hstep
      split_ifs at hstep
      simp only [Option.some.injEq] at hstep
      subst hstep
      exact hm
  | startClean i r =>
      simp only [yardStep] at hstep
      split at hstep
      · split_ifs at hstep
        simp only [Option.some.injEq] at hstep
        subst hstep
        exact hm
      · simp at hstep
  | clean i => exact cleanStep_marker hstep hm
  | startGc j grace =>
      simp only [yardStep] at hstep
      split at hstep
      · simp only [Option.some.injEq] at hstep
        subst hstep
        unfold gcStart
        split_ifs <;> exact hm
      · simp at hstep
  | gc j => exact gcStep_marker hstep hm hkeep
  | tick secs =>
      simp only [yardStep, Option.some.injEq] at hstep
      subst hstep
      exact hm

/-! ## The run beside the yard -/

/-- A step that is locked out is a step of the yard, or none at all. -/
theorem lockedOutStep_cases {a : YardAct Oid} (h : lockedOutStep deps gixOf cfg y a = some y') :
    y' = y ∨ yardStep deps gixOf cfg y a = some y' := by
  unfold lockedOutStep at h
  cases a with
  | clean i =>
      simp only at h
      split at h
      · simp at h
      · exact Or.inr h
  | startGc j grace =>
      simp only at h
      split at h
      · exact Or.inl (Option.some.inj h).symm
      · simp at h
  | _ => exact Or.inr h

/-- **A step that is locked out does not take the lock.** -/
theorem lockedOutStep_lock {a : YardAct Oid} (hinv : StagedInv deps cfg y) (hfree : y.lock = none)
    (h : lockedOutStep deps gixOf cfg y a = some y') : y'.lock = none := by
  have hcleans := hinv.cleans
  have hgcs := hinv.gcs
  unfold CleanLocked at hcleans
  simp only [hfree, reduceCtorEq, false_and, imp_false, not_not] at hcleans hgcs
  cases a with
  | begin o =>
      simp only [lockedOutStep, yardStep, Option.some.injEq] at h
      rw [← h]
      exact hfree
  | record o repo =>
      simp only [lockedOutStep, yardStep] at h
      split_ifs at h
      simp only [Option.some.injEq] at h
      rw [← h]
      exact hfree
  | finish o =>
      simp only [lockedOutStep, yardStep] at h
      split_ifs at h
      simp only [Option.some.injEq] at h
      rw [← h]
      exact hfree
  | startClean i r =>
      simp only [lockedOutStep, yardStep] at h
      split at h
      · split_ifs at h
        simp only [Option.some.injEq] at h
        rw [← h]
        exact hfree
      · simp at h
  | clean i =>
      have hok := hcleans i
      simp only [lockedOutStep] at h
      cases hc : y.cleans i with
      | idle => simp [hc, cleanStep] at h
      | started r =>
          simp only [hc, cleanStep] at h
          cases hlook : cacheLookup deps y.site.dir.cache r.pathname r.payload <;>
            simp only [hlook, Option.some.injEq] at h <;> rw [← h] <;> exact hfree
      | looked r hit => simp [hc] at h
      | _ => simp [hc] at hok
  | startGc j grace =>
      simp only [lockedOutStep] at h
      split at h
      · rw [← Option.some.inj h]
        exact hfree
      · simp at h
  | gc j => simp [lockedOutStep, yardStep, gcStep, hgcs j] at h
  | tick secs =>
      simp only [lockedOutStep, yardStep, Option.some.injEq] at h
      rw [← h]
      exact hfree

/-! ## The whole -/

omit [DecidableEq Oid] [DecidableEq Key] in
variable (deps) in
/-- What the run has listed, uploaded and registered so far. -/
def PushOk (s : DrainYard Oid Obj Key) : Prop :=
  match s.push with
  | .reading names staged => (∀ h ∈ names, h ∈ s.listed) ∧ ∀ f ∈ staged, f.1 ∈ s.listed
  | .uploading staged todo session => (∀ f ∈ staged, f.1 ∈ s.listed) ∧
      (∀ f ∈ staged, f ∈ todo ∨ f.1 ∈ session) ∧ ∀ h ∈ session, deps.xet.Holds s.server h
  | .finalized staged => ∀ f ∈ staged, f.1 ∈ s.listed ∧ f.1 ∈ s.registered
  | .locked staged => ∀ f ∈ staged, f.1 ∈ s.listed ∧ f.1 ∈ s.registered
  | _ => True

variable (deps cfg) in
structure DrainInv (s : DrainYard Oid Obj Key) : Prop where
  staged : StagedInv deps cfg s.yard
  lock : s.push.holdsLock = true → s.yard.lock = none
  push : PushOk deps s
  registered : ∀ h ∈ s.registered, deps.xet.Holds s.server h
  drained : s.drained ⊆ s.registered

variable {s s' : DrainYard Oid Obj Key}

theorem mem_sortStaged {staged : List (String × Nat)} {f : String × Nat} :
    f ∈ sortStaged staged ↔ f ∈ staged :=
  List.mem_mergeSort

omit [DecidableEq Oid] [DecidableEq Key] in
/-- **A step of the run keeps the invariant**: the drain removes what was registered, and sweeps when no
    marker is left. -/
theorem pushStep_inv (law : deps.Lawful) (hinv : DrainInv deps cfg s)
    (hstep : pushStep cfg s = some s') : DrainInv deps cfg s' := by
  obtain ⟨hstaged, hlock, hpush, hregistered, hdrained⟩ := hinv
  unfold PushOk at hpush
  unfold pushStep at hstep
  cases hc : s.push with
  | idle => simp [hc] at hstep
  | reading names staged =>
      simp only [hc] at hpush
      cases names with
      | nil =>
          simp only [hc] at hstep
          split_ifs at hstep <;> simp only [Option.some.injEq] at hstep <;> subst hstep
          · exact ⟨hstaged, by simp [PushPc.holdsLock], trivial, hregistered, hdrained⟩
          · refine ⟨hstaged, by simp [PushPc.holdsLock], ⟨fun f hf => ?_, fun f hf => Or.inl hf, by simp⟩,
              hregistered, hdrained⟩
            exact hpush.2 f (mem_sortStaged.1 hf)
      | cons h names =>
          simp only [hc] at hstep
          split at hstep <;> simp only [Option.some.injEq] at hstep <;> subst hstep
          · refine ⟨hstaged, by simp [PushPc.holdsLock], ⟨?_, fun f hf => ?_⟩, hregistered, hdrained⟩
            · exact fun h' hh' => hpush.1 h' (List.mem_cons_of_mem h hh')
            · obtain hold | hnew := List.mem_append.1 hf
              · exact hpush.2 f hold
              · rw [List.mem_singleton.1 hnew]
                exact hpush.1 h List.mem_cons_self
          · exact ⟨hstaged, by simp [PushPc.holdsLock], trivial, hregistered, hdrained⟩
  | uploading staged todo session =>
      simp only [hc] at hpush
      obtain ⟨hlisted, huploaded, hsession⟩ := hpush
      cases todo with
      | nil =>
          simp only [hc, Option.some.injEq] at hstep
          subst hstep
          refine ⟨hstaged, by simp [PushPc.holdsLock], fun f hf => ⟨hlisted f hf, ?_⟩, fun h hh => ?_,
            hdrained.trans Finset.subset_union_left⟩
          · have hin := (huploaded f hf).resolve_left List.not_mem_nil
            exact Finset.mem_union_right _ (List.mem_toFinset.2 hin)
          · obtain hold | hnew := Finset.mem_union.1 hh
            · exact hregistered h hold
            · exact hsession h (List.mem_toFinset.1 hnew)
      | cons f todo => simp [hc] at hstep
  | finalized staged =>
      simp only [hc] at hstep hpush
      split_ifs at hstep with hfree
      simp only [Option.some.injEq] at hstep
      subst hstep
      exact ⟨hstaged, fun _ => hfree, hpush, hregistered, hdrained⟩
  | locked staged =>
      simp only [hc, Option.some.injEq] at hstep hpush
      subst hstep
      refine ⟨?_, fun _ => hlock (by rw [hc]; rfl), trivial, hregistered, ?_⟩
      · refine hstaged.step_of law none (fun _ _ => rfl) (fun _ _ => rfl) (fun _ _ h => h)
          (fun _ _ _ => Finset.Subset.refl _) (by simp) (by simp)
          (hstaged.backed_of law ?_ (Finset.Subset.refl _))
        change (s.yard.site.dir.markers.removeAll _).listStaged ⊆ _
        rw [Markers.listStaged_removeAll]
        exact Finset.sdiff_subset
      · refine Finset.union_subset hdrained (fun h hh => ?_)
        obtain ⟨f, hf, rfl⟩ := List.mem_map.1 (List.mem_toFinset.1 (Finset.mem_inter.1 hh).2)
        exact (hpush f hf).2
  | removed staged =>
      have hfree := hlock (by rw [hc]; rfl)
      simp only [hc] at hstep
      split_ifs at hstep with hcard <;> simp only [Option.some.injEq] at hstep <;> subst hstep
      · refine ⟨?_, fun _ => hfree, trivial, hregistered, hdrained⟩
        refine hstaged.step_of law none (fun _ _ => rfl) (fun _ _ => rfl) (fun _ _ h => h) ?_ (by simp)
          (by simp) ?_
        · intro k _ hk
          rw [hfree] at hk
          simp at hk
        · intro h hh
          change h ∈ s.markers.listStaged at hh
          rw [Finset.card_eq_zero.1 hcard] at hh
          exact absurd hh (Finset.notMem_empty h)
      · exact ⟨hstaged, fun _ => hfree, trivial, hregistered, hdrained⟩
  | swept staged =>
      simp only [hc, Option.some.injEq] at hstep
      subst hstep
      exact ⟨hstaged, by simp [PushPc.holdsLock], trivial, hregistered, hdrained⟩
  | done => simp [hc] at hstep
  | failed => simp [hc] at hstep

/-- **Every step keeps the invariant.** -/
theorem drainStep_inv (law : deps.Lawful) (s : DrainYard Oid Obj Key) (a : DrainAct Oid)
    (s' : DrainYard Oid Obj Key) (hinv : DrainInv deps cfg s)
    (hstep : drainStep deps gixOf cfg s a = some s') : DrainInv deps cfg s' := by
  cases a with
  | yard a =>
      simp only [drainStep] at hstep
      obtain ⟨y', hy, rfl⟩ := Option.map_eq_some_iff.1 hstep
      split_ifs at hy with hheld
      · refine ⟨?_, fun _ => lockedOutStep_lock hinv.staged (hinv.lock hheld) hy, hinv.push,
          hinv.registered, hinv.drained⟩
        obtain rfl | hyard := lockedOutStep_cases hy
        · exact hinv.staged
        · exact yardStep_staged law hinv.staged hyard
      · exact ⟨yardStep_staged law hinv.staged hy, fun h => absurd h hheld, hinv.push, hinv.registered,
          hinv.drained⟩
  | start names =>
      simp only [drainStep] at hstep
      split at hstep
      · split_ifs at hstep with hlocal hnames <;> simp only [Option.some.injEq] at hstep <;> subst hstep
        · exact ⟨hinv.staged, by simp [PushPc.holdsLock], trivial, hinv.registered, hinv.drained⟩
        · refine ⟨hinv.staged, by simp [PushPc.holdsLock], ⟨fun h hh => ?_, by simp⟩, hinv.registered,
            hinv.drained⟩
          change h ∈ s.markers.listStaged
          rw [← hnames.2]
          exact List.mem_toFinset.2 hh
      · simp at hstep
  | translate bytes =>
      have hpush := hinv.push
      unfold PushOk at hpush
      simp only [drainStep] at hstep
      split at hstep
      · rename_i staged h size todo session hc
        simp only [hc] at hpush
        obtain ⟨hlisted, huploaded, hsession⟩ := hpush
        have hgrow := law.clean_subset s.server (bytes.take size)
        split_ifs at hstep with hhash <;> simp only [Option.some.injEq] at hstep <;> subst hstep
        · refine ⟨hinv.staged, by simp [PushPc.holdsLock], ⟨hlisted, fun f hf => ?_, fun h' hh' => ?_⟩,
            fun h' hh' => law.holds_mono _ _ _ hgrow (hinv.registered h' hh'), hinv.drained⟩
          · obtain htodo | hdone := huploaded f hf
            · obtain rfl | htodo := List.mem_cons.1 htodo
              · exact Or.inr (List.mem_append_right session (List.mem_singleton_self h))
              · exact Or.inl htodo
            · exact Or.inr (List.mem_append_left _ hdone)
          · obtain hold | hnew := List.mem_append.1 hh'
            · exact law.holds_mono _ _ _ hgrow (hsession h' hold)
            · -- the file was cleaned again to the hash of its marker
              rw [List.mem_singleton.1 hnew, ← hhash]
              exact law.clean_holds _ _
        · exact ⟨hinv.staged, by simp [PushPc.holdsLock], trivial, hinv.registered, hinv.drained⟩
      · simp at hstep
  | push => exact pushStep_inv law hinv hstep
  | fail =>
      simp only [drainStep] at hstep
      split at hstep <;> simp only [Option.some.injEq, reduceCtorEq] at hstep <;> subst hstep <;>
        exact ⟨hinv.staged, by simp [PushPc.holdsLock], trivial, hinv.registered, hinv.drained⟩

omit [DecidableEq Oid] [DecidableEq Key] in
theorem drainInv_fresh (repo : Repository Oid) (now : Nat) (server : Finset Obj) :
    DrainInv deps cfg (DrainYard.fresh repo now server : DrainYard Oid Obj Key) :=
  ⟨stagedInv_fresh repo now, by simp [DrainYard.fresh, PushPc.holdsLock], trivial,
    fun h hh => absurd hh (Finset.notMem_empty h), Finset.Subset.refl _⟩

/-! ## A marker that was not listed -/

omit [DecidableEq Oid] [DecidableEq Key] in
/-- No gc run drops the marker of `h` in this step. -/
def Undropped (h : String) (s : DrainYard Oid Obj Key) (a : DrainAct Oid) : Prop :=
  match a with
  | .yard a => ¬ GcDrops s.yard a h
  | _ => True

/-- The run has begun without the marker of `h`, and it is there now. -/
structure AddedSince (h : String) (s : DrainYard Oid Obj Key) : Prop where
  begun : s.push ≠ .idle
  unlisted : h ∉ s.listed
  marked : h ∈ s.markers.listStaged

omit [DecidableEq Oid] [DecidableEq Key] in
theorem pushStep_added {h : String} (hinv : DrainInv deps cfg s) (hadded : AddedSince h s)
    (hstep : pushStep cfg s = some s') : AddedSince h s' := by
  obtain ⟨hbegun, hunlisted, hm⟩ := hadded
  have hpush := hinv.push
  unfold PushOk at hpush
  unfold pushStep at hstep
  cases hc : s.push with
  | idle => exact absurd hc hbegun
  | reading names staged =>
      cases names with
      | nil =>
          simp only [hc] at hstep
          split_ifs at hstep <;> simp only [Option.some.injEq] at hstep <;> subst hstep <;>
            exact ⟨by simp, hunlisted, hm⟩
      | cons h' names =>
          simp only [hc] at hstep
          split at hstep <;> simp only [Option.some.injEq] at hstep <;> subst hstep <;>
            exact ⟨by simp, hunlisted, hm⟩
  | uploading staged todo session =>
      cases todo with
      | nil =>
          simp only [hc, Option.some.injEq] at hstep
          subst hstep
          exact ⟨by simp, hunlisted, hm⟩
      | cons f todo => simp [hc] at hstep
  | finalized staged =>
      simp only [hc] at hstep
      split_ifs at hstep
      simp only [Option.some.injEq] at hstep
      subst hstep
      exact ⟨by simp, hunlisted, hm⟩
  | locked staged =>
      simp only [hc, Option.some.injEq] at hstep hpush
      subst hstep
      refine ⟨by simp, hunlisted, ?_⟩
      change h ∈ (s.markers.removeAll _).listStaged
      rw [Markers.listStaged_removeAll]
      refine Finset.mem_sdiff.2 ⟨hm, fun hin => hunlisted ?_⟩
      obtain ⟨f, hf, rfl⟩ := List.mem_map.1 (List.mem_toFinset.1 hin)
      exact (hpush f hf).1
  | removed staged =>
      simp only [hc] at hstep
      split_ifs at hstep <;> simp only [Option.some.injEq] at hstep <;> subst hstep <;>
        exact ⟨by simp, hunlisted, hm⟩
  | swept staged =>
      simp only [hc, Option.some.injEq] at hstep
      subst hstep
      exact ⟨by simp, hunlisted, hm⟩
  | done => simp [hc] at hstep
  | failed => simp [hc] at hstep

/-- **A marker that was added since stays**, until a gc run drops it. -/
theorem drainStep_added {a : DrainAct Oid} {h : String} (hinv : DrainInv deps cfg s)
    (hadded : AddedSince h s) (hkeep : Undropped h s a)
    (hstep : drainStep deps gixOf cfg s a = some s') : AddedSince h s' := by
  cases a with
  | yard a =>
      simp only [drainStep] at hstep
      obtain ⟨y', hy, rfl⟩ := Option.map_eq_some_iff.1 hstep
      refine ⟨hadded.begun, hadded.unlisted, ?_⟩
      split_ifs at hy
      · obtain rfl | hyard := lockedOutStep_cases hy
        · exact hadded.marked
        · exact yardStep_marker hyard hadded.marked hkeep
      · exact yardStep_marker hy hadded.marked hkeep
  | start names =>
      simp only [drainStep] at hstep
      split at hstep
      · next hidle => exact absurd hidle hadded.begun
      · simp at hstep
  | translate bytes =>
      simp only [drainStep] at hstep
      split at hstep
      · split_ifs at hstep <;> simp only [Option.some.injEq] at hstep <;> subst hstep <;>
          exact ⟨by simp, hadded.unlisted, hadded.marked⟩
      · simp at hstep
  | push => exact pushStep_added hinv hadded hstep
  | fail =>
      simp only [drainStep] at hstep
      split at hstep <;> simp only [Option.some.injEq, reduceCtorEq] at hstep <;> subst hstep <;>
        exact ⟨by simp, hadded.unlisted, hadded.marked⟩

/-- **The drain loses nothing.** In every state of every interleaving of one push-pending run with cleans,
    git operations and gc runs: a marker that the run has removed names a file that it has registered and
    whose objects it has uploaded; a marker that is there has its objects in the store; and a file that
    was added after the run had listed the markers, and that no gc run drops, keeps its marker and its
    objects. -/
theorem drain_loses_nothing (law : deps.Lawful) (repo : Repository Oid) (now : Nat)
    (server : Finset Obj) (acts : List (DrainAct Oid)) (s : DrainYard Oid Obj Key)
    (hrun : Machine.run (drainStep deps gixOf cfg) (DrainYard.fresh repo now server) acts = some s) :
    (∀ h ∈ s.drained, h ∈ s.registered ∧ deps.xet.Holds s.server h) ∧
    (∀ h ∈ s.markers.listStaged, deps.xet.Holds (s.yard.site.stores cfg.root) h) ∧
    (∀ h, AddedSince h s → ∀ (acts' : List (DrainAct Oid)) (t : DrainYard Oid Obj Key),
      Machine.Admissible (drainStep deps gixOf cfg) (Undropped h) s acts' →
      Machine.run (drainStep deps gixOf cfg) s acts' = some t →
      h ∈ t.markers.listStaged ∧ deps.xet.Holds (t.yard.site.stores cfg.root) h) := by
  have hinv : DrainInv deps cfg s :=
    Machine.run_invariant_of_step (drainStep_inv law) (drainInv_fresh repo now server) hrun
  refine ⟨fun h hh => ⟨hinv.drained hh, hinv.registered h (hinv.drained hh)⟩, hinv.staged.backed,
    fun h hadded acts' t hkeep hrun' => ?_⟩
  have hend : DrainInv deps cfg t ∧ AddedSince h t :=
    @Machine.run_invariant _ _ _ _ (fun s => DrainInv deps cfg s ∧ AddedSince h s)
      (fun s a s' hs hok hstep =>
        ⟨drainStep_inv law s a s' hs.1 hstep, drainStep_added hs.1 hs.2 hok hstep⟩)
      _ _ _ ⟨hinv, hadded⟩ hkeep hrun'
  exact ⟨hend.2.marked, hend.1.staged.backed h hend.2.marked⟩

end Inv

namespace Sample

/-- The sample repository in server mode. -/
def serverConfig : SiteConfig := { siteConfig with localMode := false }

/-- Clean `i` of git operation `o`, to its end. -/
def addAt (i o : Nat) (name : String) (bytes : List UInt8) : List (DrainAct Nat) :=
  List.map DrainAct.yard ([.begin o, .startClean i ⟨o, name, bytes⟩] ++ List.replicate 7 (.clean i))

/-- Add `a.bin`; push-pending lists it; add `b.bin`. -/
def drainActs : List (DrainAct Nat) :=
  addAt 0 0 "a.bin" [1] ++ [.start [hash 'a'], .push, .push] ++ addAt 1 1 "b.bin" [2]

/-- Push-pending uploads `a.bin` and drains it. -/
def drainEnd : List (DrainAct Nat) :=
  .translate [1] :: List.replicate 5 .push

theorem drainActs_run :
    (Machine.run (drainStep deps Repository.gix serverConfig) (DrainYard.fresh emptyRepo 0 ∅)
      drainActs).map (fun s => (match s.push with | .idle => false | _ => true,
        decide (hash 'b' ∉ s.listed ∧ hash 'b' ∈ s.markers.listStaged),
        (Machine.run (drainStep deps Repository.gix serverConfig) s drainEnd).map (fun t =>
          decide (hash 'a' ∈ t.drained)))) = some (true, true, some true) := by
  decide +kernel

end Sample

/-- A file is added while the upload is running: it keeps its marker and its objects, and the one that
    was uploaded is drained. -/
theorem drain_loses_nothing_added :
    ∃ s t, Machine.run (drainStep Sample.deps Repository.gix Sample.serverConfig)
        (DrainYard.fresh Sample.emptyRepo 0 ∅) Sample.drainActs = some s ∧
      Machine.run (drainStep Sample.deps Repository.gix Sample.serverConfig) s Sample.drainEnd =
        some t ∧
      (Sample.hash 'a' ∈ t.drained ∧ Sample.hash 'a' ∈ t.registered ∧
        Sample.deps.xet.Holds t.server (Sample.hash 'a')) ∧
      Sample.hash 'b' ∈ t.markers.listStaged ∧
        Sample.deps.xet.Holds (t.yard.site.stores Sample.serverConfig.root) (Sample.hash 'b') := by
  obtain ⟨s, hrun, hs⟩ := Option.map_eq_some_iff.1 Sample.drainActs_run
  simp only [Prod.mk.injEq, decide_eq_true_eq] at hs
  obtain ⟨hbegun, ⟨hunlisted, hmarked⟩, hend⟩ := hs
  obtain ⟨t, hrun', ht⟩ := Option.map_eq_some_iff.1 hend
  have hdrained : Sample.hash 'a' ∈ t.drained := by simpa using ht
  have hadded : AddedSince (Sample.hash 'b') s := by
    refine ⟨fun hidle => ?_, hunlisted, hmarked⟩
    rw [hidle] at hbegun
    simp at hbegun
  have hall : Machine.run (drainStep Sample.deps Repository.gix Sample.serverConfig)
      (DrainYard.fresh Sample.emptyRepo 0 ∅) (Sample.drainActs ++ Sample.drainEnd) = some t := by
    rw [Machine.run_append, hrun]
    exact hrun'
  have huploaded := (drain_loses_nothing Sample.lawful Sample.emptyRepo 0 ∅ _ t hall).1 _ hdrained
  have hkept := (drain_loses_nothing Sample.lawful Sample.emptyRepo 0 ∅ _ s hrun).2.2 _ hadded
    Sample.drainEnd t ?_ hrun'
  · exact ⟨s, t, hrun, hrun', ⟨hdrained, huploaded⟩, hkept⟩
  · refine Machine.admissible_of_forall (fun s a ha => ?_) s
    obtain rfl | ha := List.mem_cons.1 ha
    · trivial
    · obtain rfl := (List.mem_replicate.1 ha).2
      trivial

end BaleForGit
