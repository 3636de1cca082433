import BaleForGit.Client.Race

set_option autoImplicit false

/-! # Clean against gc

Three mechanisms keep a pointer's objects between the moment clean answers with it and the moment
git has recorded it: the store lock, gc's check for `*.lock` files once it has the lock, and the
order in which gc forgets cache entries before it sweeps. Together they cover every interleaving
but one. A clean loads its cache entry and verifies it without the lock; when it belongs to a git
operation that began after gc's check, gc may sweep the store between that load and the clean's own
lock, and the clean answers with a pointer whose objects are gone. (The verification compares the
entry with the file it was asked about and reads nothing another process writes, so load and
verification are one step here.)

`YardInv` is the invariant of every run in which no sweep falls into that window (`SweepClear`). -/

namespace BaleForGit

section Inv

variable {Oid Obj Key : Type} [DecidableEq Oid] [DecidableEq Key] (deps : Deps Obj Key)
  (gixOf : Repository Oid → Gix Oid) (cfg : SiteConfig)

/-- No gc run sweeps while a clean that has loaded a cache entry it goes on to answer from has not
    got the store lock yet. -/
def SweepClear (s : Yard Oid Obj Key) (a : YardAct Oid) : Prop :=
  match a with
  | .gc j => s.gcs j = .forgot → s.site.dir.markers.listStaged = ∅ →
      ∀ i r entry, s.cleans i ≠ .looked r (some entry)
  | _ => True

/-! ## The invariant -/

/-- `info` is the answer of a clean whose objects are still in the store. -/
def Stored (store : Finset Obj) (info : XetFileInfo) : Prop :=
  (∃ store₀ payload, info = (deps.xet.clean store₀ payload).2) ∧ deps.xet.Holds store info.hash

/-- What a clean relies on, wherever it has got to. -/
def CleanOk (s : Yard Oid Obj Key) (i : Nat) : Prop :=
  match s.cleans i with
  | .idle => True
  | .started r => i ∈ (s.ops r.op).awaiting
  | .looked r hit => i ∈ (s.ops r.op).awaiting ∧
      ∀ e, hit = some e → deps.Backed (s.site.stores cfg.root) e.pointer
  | .locked r hit => s.lock = some (.clean i) ∧ i ∈ (s.ops r.op).awaiting ∧
      ∀ e, hit = some e → deps.Backed (s.site.stores cfg.root) e.pointer
  | .touched r e => s.lock = some (.clean i) ∧ i ∈ (s.ops r.op).awaiting ∧
      deps.Backed (s.site.stores cfg.root) e.pointer
  | .written r info => s.lock = some (.clean i) ∧ i ∈ (s.ops r.op).awaiting ∧
      Stored deps (s.site.stores cfg.root) info
  | .marked r info => s.lock = some (.clean i) ∧ i ∈ (s.ops r.op).awaiting ∧
      Stored deps (s.site.stores cfg.root) info ∧ info.hash ∈ s.site.dir.markers.listStaged
  | .answered _ info => s.lock = some (.clean i) ∧
      Stored deps (s.site.stores cfg.root) info ∧ info.hash ∈ s.site.dir.markers.listStaged
  | .done => s.lock = some (.clean i)

/-- No git operation has an unrecorded pointer. -/
def Quiet (s : Yard Oid Obj Key) : Prop := ∀ o, (s.ops o).pending = []

/-- What holds during a gc run: it has the lock, and after its check no pointer is unrecorded. -/
def GcOk (s : Yard Oid Obj Key) (j : Nat) : Prop :=
  match s.gcs j with
  | .idle => True
  | .locked _ => s.lock = some (.gc j)
  | .done => s.lock = some (.gc j)
  | _ => s.lock = some (.gc j) ∧ Quiet s

/-- A gc run has removed the marker of `h` and is about to forget its cache entries. -/
def Forgetting (s : Yard Oid Obj Key) (h : String) : Prop :=
  ∃ j want dead, s.gcs j = .removed want dead ∧ h ∈ dead

/-- Cached pointers have their objects; their marker is there, or they are about to be forgotten. -/
def CacheOk (s : Yard Oid Obj Key) : Prop :=
  ∀ k e, s.site.dir.cache k = some e →
    ∃ info, parsePointer deps.serde.fromStr (asBytes e.pointer) = .ok info ∧
      deps.serde.hashField e.pointer = some info.hash ∧
      deps.xet.Holds (s.site.stores cfg.root) info.hash ∧
      (info.hash ∈ s.site.dir.markers.listStaged ∨ Forgetting s info.hash)

/-- A git operation with a clean to wait for or a pointer to record has its `*.lock` file. -/
structure OpsOk (s : Yard Oid Obj Key) : Prop where
  lockFile : ∀ o, o ∉ s.lockFiles → (s.ops o).awaiting = ∅ ∧ (s.ops o).pending = []
  backed : ∀ o, ∀ p ∈ (s.ops o).pending, deps.Backed (s.site.stores cfg.root) p

structure YardInv (s : Yard Oid Obj Key) : Prop where
  cleans : ∀ i, CleanOk deps cfg s i
  gcs : ∀ j, GcOk s j
  cache : CacheOk deps cfg s
  ops : OpsOk deps cfg s

/-! ## Frames -/

variable {deps gixOf cfg} {s s' : Yard Oid Obj Key}

omit [DecidableEq Oid] [DecidableEq Key] in
theorem Stored.mono (law : deps.Lawful) {store store' : Finset Obj} {info : XetFileInfo}
    (hsub : store ⊆ store') (h : Stored deps store info) : Stored deps store' info :=
  ⟨h.1, law.holds_mono _ _ _ hsub h.2⟩

omit [DecidableEq Oid] [DecidableEq Key] in
/-- The pointer text of a stored file is read back with its hash, by git-bale and by
    `forget_hashes`. -/
theorem Stored.reads (law : deps.Lawful) {store : Finset Obj} {info : XetFileInfo}
    (h : Stored deps store info) : ∃ info', parsePointer deps.serde.fromStr
      (asBytes (encodePointerString deps.serde info)) = .ok info' ∧
        deps.serde.hashField (encodePointerString deps.serde info) = some info'.hash ∧
          info.hash = info'.hash := by
  obtain ⟨⟨store₀, payload, rfl⟩, -⟩ := h
  obtain ⟨info', hparse, hhash⟩ := law.parse_encode store₀ payload
  exact ⟨info', hparse, by rw [hhash]; exact law.hashField_encode store₀ payload, hhash.symm⟩

omit [DecidableEq Oid] [DecidableEq Key] in
theorem Stored.backed (law : deps.Lawful) {store : Finset Obj} {info : XetFileInfo}
    (h : Stored deps store info) : deps.Backed store (encodePointerString deps.serde info) := by
  obtain ⟨info', hparse, -, hhash⟩ := h.reads law
  exact ⟨info', hparse, hhash ▸ h.2⟩

omit [DecidableEq Oid] [DecidableEq Key] in
/-- A clean is not disturbed by steps that leave it its lock, its operation, its objects and, while
    it has the lock, the markers. -/
theorem CleanOk.frame (law : deps.Lawful) {i : Nat} (hok : CleanOk deps cfg s i)
    (hpc : s'.cleans i = s.cleans i)
    (hlock : s.lock = some (.clean i) → s'.lock = some (.clean i))
    (hawait : ∀ o, i ∈ (s.ops o).awaiting → i ∈ (s'.ops o).awaiting)
    (hstore : s.site.stores cfg.root ⊆ s'.site.stores cfg.root)
    (hmark : s.lock = some (.clean i) →
      s.site.dir.markers.listStaged ⊆ s'.site.dir.markers.listStaged) : CleanOk deps cfg s' i := by
  unfold CleanOk at hok ⊢
  rw [hpc]
  cases hc : s.cleans i with
  | idle => trivial
  | started r =>
      simp only [hc] at hok
      exact hawait r.op hok
  | looked r hit =>
      simp only [hc] at hok
      exact ⟨hawait r.op hok.1, fun e he => (hok.2 e he).mono law hstore⟩
  | locked r hit =>
      simp only [hc] at hok
      obtain ⟨hl, ha, hb⟩ := hok
      exact ⟨hlock hl, hawait r.op ha, fun e he => (hb e he).mono law hstore⟩
  | touched r e =>
      simp only [hc] at hok
      obtain ⟨hl, ha, hb⟩ := hok
      exact ⟨hlock hl, hawait r.op ha, hb.mono law hstore⟩
  | written r info =>
      simp only [hc] at hok
      obtain ⟨hl, ha, hs⟩ := hok
      exact ⟨hlock hl, hawait r.op ha, hs.mono law hstore⟩
  | marked r info =>
      simp only [hc] at hok
      obtain ⟨hl, ha, hs, hm⟩ := hok
      exact ⟨hlock hl, hawait r.op ha, hs.mono law hstore, hmark hl hm⟩
  | answered r info =>
      simp only [hc] at hok
      obtain ⟨hl, hs, hm⟩ := hok
      exact ⟨hlock hl, hs.mono law hstore, hmark hl hm⟩
  | done =>
      simp only [hc] at hok
      exact hlock hok

omit [DecidableEq Oid] [DecidableEq Key] in
theorem GcOk.lock {j : Nat} (hok : GcOk s j) (hpc : s.gcs j ≠ .idle) :
    s.lock = some (.gc j) := by
  unfold GcOk at hok
  cases hc : s.gcs j <;> simp only [hc] at hok
  case idle => exact absurd hc hpc
  case locked => exact hok
  case done => exact hok
  all_goals exact hok.1

omit [DecidableEq Oid] [DecidableEq Key] in
/-- A gc run is not disturbed by steps that leave it the lock and, while it has the lock, answer no
    git operation. -/
theorem GcOk.frame {j : Nat} (hok : GcOk s j) (hpc : s'.gcs j = s.gcs j)
    (hlock : s.lock = some (.gc j) → s'.lock = some (.gc j))
    (hquiet : s.lock = some (.gc j) → Quiet s → Quiet s') : GcOk s' j := by
  unfold GcOk at hok ⊢
  rw [hpc]
  cases hc : s.gcs j <;> simp only [hc] at hok ⊢
  case locked => exact hlock hok
  case done => exact hlock hok
  all_goals exact ⟨hlock hok.1, hquiet hok.1 hok.2⟩

omit [DecidableEq Oid] [DecidableEq Key] in
/-- **Frame rule**: a step of process `p` keeps the invariant of all other processes when it leaves
    them their lock, their operations, the objects and, to whoever has the lock, the markers. -/
theorem YardInv.step_of (law : deps.Lawful) (hinv : YardInv deps cfg s) (p : Option Holder)
    (hcleans : ∀ k, some (.clean k) ≠ p → s'.cleans k = s.cleans k)
    (hgcs : ∀ k, some (.gc k) ≠ p → s'.gcs k = s.gcs k)
    (hlock : ∀ h, some h ≠ p → s.lock = some h → s'.lock = some h)
    (hawait : ∀ o k, some (.clean k) ≠ p → k ∈ (s.ops o).awaiting → k ∈ (s'.ops o).awaiting)
    (hquiet : ∀ j, some (.gc j) ≠ p → s.lock = some (.gc j) → Quiet s → Quiet s')
    (hstore : s.site.stores cfg.root ⊆ s'.site.stores cfg.root)
    (hmark : ∀ k, some (.clean k) ≠ p → s.lock = some (.clean k) →
      s.site.dir.markers.listStaged ⊆ s'.site.dir.markers.listStaged)
    (hclean : ∀ i, p = some (.clean i) → CleanOk deps cfg s' i)
    (hgc : ∀ j, p = some (.gc j) → GcOk s' j)
    (hcache : CacheOk deps cfg s') (hops : OpsOk deps cfg s') : YardInv deps cfg s' := by
  refine ⟨?_, ?_, hcache, hops⟩
  · intro k
    by_cases hk : some (.clean k) = p
    · exact hclean k hk.symm
    · exact (hinv.cleans k).frame law (hcleans k hk) (hlock _ hk) (fun o => hawait o k hk) hstore
        (hmark k hk)
  · intro k
    by_cases hk : some (.gc k) = p
    · exact hgc k hk.symm
    · exact (hinv.gcs k).frame (hgcs k hk) (hlock _ hk) (hquiet k hk)

omit [DecidableEq Oid] [DecidableEq Key] in
theorem CacheOk.frame (law : deps.Lawful) (hok : CacheOk deps cfg s)
    (hcache : s'.site.dir.cache = s.site.dir.cache)
    (hstore : s.site.stores cfg.root ⊆ s'.site.stores cfg.root)
    (hmark : ∀ h, h ∈ s.site.dir.markers.listStaged →
      h ∈ s'.site.dir.markers.listStaged ∨ Forgetting s' h)
    (hforget : ∀ h, Forgetting s h → Forgetting s' h) : CacheOk deps cfg s' := by
  intro k e hk
  rw [hcache] at hk
  obtain ⟨info, hparse, hfield, hholds, hanchor⟩ := hok k e hk
  refine ⟨info, hparse, hfield, law.holds_mono _ _ _ hstore hholds, ?_⟩
  rcases hanchor with hm | hf
  · exact hmark _ hm
  · exact Or.inr (hforget _ hf)

omit [DecidableEq Oid] [DecidableEq Key] in
theorem OpsOk.frame (law : deps.Lawful) (hok : OpsOk deps cfg s) (hops : s'.ops = s.ops)
    (hfiles : s.lockFiles ⊆ s'.lockFiles)
    (hstore : s.site.stores cfg.root ⊆ s'.site.stores cfg.root) : OpsOk deps cfg s' := by
  refine ⟨fun o ho => ?_, fun o p hp => ?_⟩
  · rw [hops]
    exact hok.lockFile o (fun hin => ho (hfiles hin))
  · rw [hops] at hp
    exact (hok.backed o p hp).mono law hstore

omit [DecidableEq Oid] [DecidableEq Key] in
/-- Git takes an answer whose pointers are backed. -/
theorem OpsOk.answer (hok : OpsOk deps cfg s) {i o : Nat} {ps : List String}
    (hawait : i ∈ (s.ops o).awaiting)
    (hps : ∀ p ∈ ps, deps.Backed (s.site.stores cfg.root) p) :
    OpsOk deps cfg (s.answer i o ps) := by
  have hfile : o ∈ s.lockFiles := by
    by_contra hno
    rw [(hok.lockFile o hno).1] at hawait
    exact absurd hawait (Finset.notMem_empty i)
  refine ⟨fun o' ho' => ?_, fun o' p hp => ?_⟩
  · have hne : o' ≠ o := fun heq => ho' (heq ▸ hfile)
    simp only [Yard.answer, Yard.setOp, Function.update_of_ne hne]
    exact hok.lockFile o' ho'
  · by_cases heq : o' = o
    · subst heq
      simp only [Yard.answer, Yard.setOp, Function.update_self, List.mem_append] at hp
      rcases hp with hold | hnew
      · exact hok.backed o' p hold
      · exact hps p hnew
    · simp only [Yard.answer, Yard.setOp, Function.update_of_ne heq] at hp
      exact hok.backed o' p hp

/-! ## Steps of a clean -/

omit [DecidableEq Oid] [DecidableEq Key] in
/-- The frame rule for a step of clean `i` that ends at `pc`. -/
theorem YardInv.clean_step_of (law : deps.Lawful) (hinv : YardInv deps cfg s)
    {t : Yard Oid Obj Key} {i : Nat} {pc : CleanPc} (hcleans : t.cleans = s.cleans)
    (hgcs : t.gcs = s.gcs) (hlock : ∀ h, h ≠ .clean i → s.lock = some h → t.lock = some h)
    (hawait : ∀ o k, k ≠ i → k ∈ (s.ops o).awaiting → k ∈ (t.ops o).awaiting)
    (hquiet : ∀ j, s.lock = some (.gc j) → Quiet s → Quiet t)
    (hstore : s.site.stores cfg.root ⊆ t.site.stores cfg.root)
    (hmark : s.site.dir.markers.listStaged ⊆ t.site.dir.markers.listStaged)
    (hclean : CleanOk deps cfg (t.setClean i pc) i) (hcache : CacheOk deps cfg t)
    (hops : OpsOk deps cfg t) : YardInv deps cfg (t.setClean i pc) := by
  refine hinv.step_of law (some (.clean i)) ?_ ?_ ?_ ?_ ?_ hstore (fun _ _ _ => hmark) ?_ ?_ hcache
    ⟨hops.lockFile, hops.backed⟩
  · intro k hk
    have hne : k ≠ i := fun heq => hk (by rw [heq])
    simp only [Yard.setClean, Function.update_of_ne hne, hcleans]
  · intro k _
    simp only [Yard.setClean, hgcs]
  · intro h hh
    exact hlock h (fun heq => hh (by rw [heq]))
  · intro o k hk
    exact hawait o k (fun heq => hk (by rw [heq]))
  · intro j _
    exact hquiet j
  · intro k hk
    obtain rfl : i = k := by simpa using hk
    exact hclean
  · intro j hj
    simp at hj

omit [DecidableEq Oid] [DecidableEq Key] in
/-- The markers and objects a clean step leaves are enough for the cache. -/
theorem CacheOk.grow (law : deps.Lawful) (hok : CacheOk deps cfg s)
    (hcache : s'.site.dir.cache = s.site.dir.cache) (hgcs : s'.gcs = s.gcs)
    (hstore : s.site.stores cfg.root ⊆ s'.site.stores cfg.root)
    (hmark : s.site.dir.markers.listStaged ⊆ s'.site.dir.markers.listStaged) :
    CacheOk deps cfg s' := by
  refine hok.frame law hcache hstore (fun h hh => Or.inl (hmark hh)) (fun h hf => ?_)
  unfold Forgetting at hf ⊢
  rw [hgcs]
  exact hf

omit [DecidableEq Oid] [DecidableEq Key] in
theorem Yard.pending_answer (s : Yard Oid Obj Key) (i o o' : Nat) (ps : List String) :
    ((s.answer i o ps).ops o').pending =
      if o' = o then (s.ops o').pending ++ ps else (s.ops o').pending := by
  by_cases heq : o' = o
  · subst heq
    simp [Yard.answer, Yard.setOp]
  · simp [Yard.answer, Yard.setOp, heq]

omit [DecidableEq Oid] [DecidableEq Key] in
/-- A clean answers the git operation that waits for it. -/
theorem YardInv.answer_step (law : deps.Lawful) (hinv : YardInv deps cfg s) {i o : Nat}
    {ps : List String} {pc : CleanPc} (hawait : i ∈ (s.ops o).awaiting)
    (hquiet : ∀ j, s.lock = some (.gc j) → Quiet s → Quiet (s.answer i o ps))
    (hps : ∀ p ∈ ps, deps.Backed (s.site.stores cfg.root) p)
    (hclean : CleanOk deps cfg ((s.answer i o ps).setClean i pc) i) :
    YardInv deps cfg ((s.answer i o ps).setClean i pc) := by
  refine hinv.clean_step_of law rfl rfl (fun _ _ h => h) ?_ hquiet (Finset.Subset.refl _)
    (Finset.Subset.refl _) hclean hinv.cache (hinv.ops.answer hawait hps)
  intro o' k hne hk
  by_cases heq : o' = o
  · subst heq
    simp only [Yard.answer, Yard.setOp, Function.update_self]
    exact Finset.mem_erase.2 ⟨hne, hk⟩
  · simpa only [Yard.answer, Yard.setOp, Function.update_of_ne heq] using hk

omit [DecidableEq Oid] in
/-- **A step of a clean keeps the invariant.** -/
theorem cleanStep_inv (law : deps.Lawful) (hinv : YardInv deps cfg s) {i : Nat}
    (hstep : cleanStep deps cfg s i = some s') : YardInv deps cfg s' := by
  have hok := hinv.cleans i
  unfold CleanOk at hok
  unfold cleanStep at hstep
  cases hc : s.cleans i with
  | idle => simp [hc] at hstep
  | started r =>
      simp only [hc] at hstep hok
      cases hlook : cacheLookup deps s.site.dir.cache r.pathname r.payload with
      | none =>
          simp only [hlook, Option.some.injEq] at hstep
          subst hstep
          refine hinv.answer_step law hok ?_ (by simp) (by simp [CleanOk, Yard.setClean])
          intro j _ hquiet o
          rw [Yard.pending_answer, hquiet o]
          split_ifs <;> rfl
      | some hit =>
          simp only [hlook, Option.some.injEq] at hstep
          subst hstep
          refine hinv.clean_step_of law rfl rfl (fun _ _ h => h) (fun _ _ _ h => h)
            (fun _ _ h => h) (Finset.Subset.refl _) (Finset.Subset.refl _) ?_ hinv.cache hinv.ops
          simp only [CleanOk, Yard.setClean, Function.update_self]
          -- the entry is backed now; that it stays so without the lock is what `SweepClear` is for
          refine ⟨hok, fun e he => ?_⟩
          subst he
          obtain ⟨info, hparse, -, hholds, -⟩ := hinv.cache _ e (cacheLookup_hit deps hlook)
          exact ⟨info, hparse, hholds⟩
  | looked r hit =>
      simp only [hc] at hstep hok
      split_ifs at hstep with hfree
      simp only [Option.some.injEq] at hstep
      subst hstep
      refine hinv.clean_step_of law rfl rfl ?_ (fun _ _ _ h => h) (fun _ _ h => h)
        (Finset.Subset.refl _) (Finset.Subset.refl _) ?_ hinv.cache
        ⟨hinv.ops.lockFile, hinv.ops.backed⟩
      · intro h _ hheld
        rw [hfree] at hheld
        simp at hheld
      · simp only [CleanOk, Yard.setClean, Function.update_self]
        exact ⟨trivial, hok⟩
  | locked r hit =>
      cases hit with
      | some entry =>
          simp only [hc, Option.some.injEq] at hstep hok
          subst hstep
          have hsame : ∀ m, (touchCached deps m entry s.site.now).listStaged = m.listStaged :=
            fun m => listStaged_touchCached deps m entry s.site.now
          refine hinv.clean_step_of law rfl rfl (fun _ _ h => h) (fun _ _ _ h => h)
            (fun _ _ h => h) (Finset.Subset.refl _) (hsame _).ge ?_
            (hinv.cache.grow law rfl rfl (Finset.Subset.refl _) (hsame _).ge)
            (hinv.ops.frame law rfl (Finset.Subset.refl _) (Finset.Subset.refl _))
          simp only [CleanOk, Yard.setClean, Function.update_self]
          exact ⟨hok.1, hok.2.1, hok.2.2 entry rfl⟩
      | none =>
          simp only [hc, Option.some.injEq] at hstep hok
          subst hstep
          -- a miss writes the objects first, then the marker, then answers
          have hgrow : s.site.stores cfg.root ⊆ Function.update s.site.stores cfg.root
              (deps.xet.clean (s.site.stores cfg.root) r.payload).1 cfg.root := by
            rw [Function.update_self]
            exact law.clean_subset _ _
          refine hinv.clean_step_of law rfl rfl (fun _ _ h => h) (fun _ _ _ h => h)
            (fun _ _ h => h) hgrow (Finset.Subset.refl _) ?_
            (hinv.cache.grow law rfl rfl hgrow (Finset.Subset.refl _))
            (hinv.ops.frame law rfl (Finset.Subset.refl _) hgrow)
          simp only [CleanOk, Yard.setClean, Yard.setStores, Function.update_self]
          exact ⟨hok.1, hok.2.1, ⟨_, _, rfl⟩, law.clean_holds _ _⟩
  | touched r entry =>
      simp only [hc, Option.some.injEq] at hstep hok
      subst hstep
      obtain ⟨hlock, hawait, hbacked⟩ := hok
      refine hinv.answer_step law hawait ?_ ?_ ?_
      · intro j hj
        rw [hlock] at hj
        simp at hj
      · intro p hp
        rw [List.mem_singleton.1 hp]
        exact hbacked
      · simpa only [CleanOk, Yard.setClean, Yard.answer, Yard.setOp, Function.update_self]
          using hlock
  | written r info =>
      simp only [hc, Option.some.injEq] at hstep hok
      subst hstep
      obtain ⟨hlock, hawait, hstored⟩ := hok
      have hgrow : s.site.dir.markers.listStaged ⊆ (s.site.dir.markers.markFileStaged info.hash
          r.payload.length s.site.now).listStaged := by
        intro h hh
        rw [Markers.mem_listStaged] at hh ⊢
        exact ⟨Finset.mem_insert_of_mem hh.1, hh.2⟩
      refine hinv.clean_step_of law rfl rfl (fun _ _ h => h) (fun _ _ _ h => h)
        (fun _ _ h => h) (Finset.Subset.refl _) hgrow ?_
        (hinv.cache.grow law rfl rfl (Finset.Subset.refl _) hgrow)
        (hinv.ops.frame law rfl (Finset.Subset.refl _) (Finset.Subset.refl _))
      simp only [CleanOk, Yard.setClean, Yard.setMarkers, Function.update_self]
      refine ⟨hlock, hawait, hstored, Markers.mem_listStaged.2 ⟨Finset.mem_insert_self _ _, ?_⟩⟩
      obtain ⟨⟨store₀, payload, rfl⟩, -⟩ := hstored
      exact law.clean_hash store₀ payload
  | marked r info =>
      simp only [hc, Option.some.injEq] at hstep hok
      subst hstep
      obtain ⟨hlock, hawait, hstored, hmark⟩ := hok
      refine hinv.answer_step law hawait ?_ ?_ ?_
      · intro j hj
        rw [hlock] at hj
        simp at hj
      · intro p hp
        rw [List.mem_singleton.1 hp]
        exact hstored.backed law
      · simp only [CleanOk, Yard.setClean, Yard.answer, Yard.setOp, Function.update_self]
        exact ⟨hlock, hstored, hmark⟩
  | answered r info =>
      simp only [hc, Option.some.injEq] at hstep hok
      subst hstep
      obtain ⟨hlock, hstored, hmark⟩ := hok
      refine hinv.clean_step_of law rfl rfl (fun _ _ h => h) (fun _ _ _ h => h)
        (fun _ _ h => h) (Finset.Subset.refl _) (Finset.Subset.refl _) ?_ ?_
        (hinv.ops.frame law rfl (Finset.Subset.refl _) (Finset.Subset.refl _))
      · simpa only [CleanOk, Yard.setClean, Yard.setCache, Function.update_self] using hlock
      -- the new entry has its marker; every other one is as before
      · intro k e hk
        rcases CleanCache.save_eq_some hk with rfl | hold
        · obtain ⟨info', hparse, hfield, hhash⟩ := hstored.reads law
          exact ⟨info', hparse, hfield, hhash ▸ hstored.2, Or.inl (hhash ▸ hmark)⟩
        · exact hinv.cache k e hold
  | done =>
      simp only [hc, Option.some.injEq] at hstep hok
      subst hstep
      refine hinv.clean_step_of law rfl rfl ?_ (fun _ _ _ h => h) (fun _ _ h => h)
        (Finset.Subset.refl _) (Finset.Subset.refl _) ?_ hinv.cache
        ⟨hinv.ops.lockFile, hinv.ops.backed⟩
      · intro h hne hheld
        rw [hok] at hheld
        exact absurd (Option.some.inj hheld).symm hne
      · simp only [CleanOk, Yard.setClean, Function.update_self]

/-! ## Steps of a gc run -/

omit [DecidableEq Oid] [DecidableEq Key] in
/-- The frame rule for a step of gc run `j` that ends at `pc`. -/
theorem YardInv.gc_step_of (law : deps.Lawful) (hinv : YardInv deps cfg s)
    {t : Yard Oid Obj Key} {j : Nat} {pc : GcPc} (hcleans : t.cleans = s.cleans)
    (hgcs : t.gcs = s.gcs) (hops : t.ops = s.ops) (hfiles : t.lockFiles = s.lockFiles)
    (hlock : ∀ h, h ≠ .gc j → s.lock = some h → t.lock = some h)
    (hstore : s.site.stores cfg.root ⊆ t.site.stores cfg.root)
    (hmark : ∀ k, s.lock = some (.clean k) →
      s.site.dir.markers.listStaged ⊆ t.site.dir.markers.listStaged)
    (hgc : GcOk (t.setGc j pc) j) (hcache : CacheOk deps cfg (t.setGc j pc)) :
    YardInv deps cfg (t.setGc j pc) := by
  have hsame : (t.setGc j pc).ops = s.ops := hops
  refine hinv.step_of law (some (.gc j)) ?_ ?_ ?_ ?_ ?_ hstore (fun k _ => hmark k) ?_ ?_ hcache
    (hinv.ops.frame law hsame hfiles.ge hstore)
  · intro k _
    simp only [Yard.setGc, hcleans]
  · intro k hk
    have hne : k ≠ j := fun heq => hk (by rw [heq])
    simp only [Yard.setGc, Function.update_of_ne hne, hgcs]
  · intro h hh
    exact hlock h (fun heq => hh (by rw [heq]))
  · intro o k _ hk
    rw [hsame]
    exact hk
  · intro k _ _ hquiet o
    rw [hsame]
    exact hquiet o
  · intro i hi
    simp at hi
  · intro k hk
    obtain rfl : j = k := by simpa using hk
    exact hgc

omit [DecidableEq Oid] [DecidableEq Key] in
/-- A gc run that is not about to forget may move on without losing what others forget. -/
theorem Forgetting.setGc {t : Yard Oid Obj Key} {j : Nat} {pc : GcPc} {h : String}
    (hf : Forgetting s h) (hgcs : t.gcs = s.gcs)
    (hpc : ∀ want dead, s.gcs j ≠ .removed want dead) : Forgetting (t.setGc j pc) h := by
  obtain ⟨k, want, dead, hk, hdead⟩ := hf
  have hne : k ≠ j := fun heq => hpc want dead (heq ▸ hk)
  exact ⟨k, want, dead, by simp only [Yard.setGc, Function.update_of_ne hne, hgcs, hk], hdead⟩

/-- What holds of a gc run at `pc`. -/
def GcAt (s : Yard Oid Obj Key) (j : Nat) : GcPc → Prop
  | .idle => True
  | .locked _ => s.lock = some (.gc j)
  | .done => s.lock = some (.gc j)
  | _ => s.lock = some (.gc j) ∧ Quiet s

omit [DecidableEq Oid] [DecidableEq Key] in
theorem gcOk_setGc {j : Nat} {pc : GcPc} (h : GcAt s j pc) : GcOk (s.setGc j pc) j := by
  unfold GcOk
  simp only [Yard.setGc, Function.update_self]
  cases pc <;> exact h

omit [DecidableEq Oid] [DecidableEq Key] in
/-- A gc step that only moves on. -/
theorem YardInv.gc_move (law : deps.Lawful) (hinv : YardInv deps cfg s) {j : Nat} {pc : GcPc}
    (hpc : ∀ want dead, s.gcs j ≠ .removed want dead) (hgc : GcAt s j pc) :
    YardInv deps cfg (s.setGc j pc) :=
  hinv.gc_step_of law rfl rfl rfl rfl (fun _ _ h => h) (Finset.Subset.refl _)
    (fun _ _ => Finset.Subset.refl _) (gcOk_setGc hgc)
    (hinv.cache.frame law rfl (Finset.Subset.refl _) (fun _ hh => Or.inl hh)
      (fun _ hf => hf.setGc rfl hpc))

omit [DecidableEq Oid] [DecidableEq Key] in
/-- Only one gc run can be about to forget: it has the lock. -/
theorem YardInv.forgetting_iff (hinv : YardInv deps cfg s) {j : Nat}
    (hlock : s.lock = some (.gc j)) (h : String) :
    Forgetting s h ↔ ∃ want dead, s.gcs j = .removed want dead ∧ h ∈ dead := by
  constructor
  · rintro ⟨k, want, dead, hk, hdead⟩
    have hheld := (hinv.gcs k).lock (by rw [hk]; simp)
    rw [hlock, Option.some.injEq, Holder.gc.injEq] at hheld
    exact ⟨want, dead, hheld ▸ hk, hdead⟩
  · rintro ⟨want, dead, hj, hdead⟩
    exact ⟨j, want, dead, hj, hdead⟩

omit [DecidableEq Oid] [DecidableEq Key] in
/-- **A sweep outside the window keeps the invariant**: no pointer is unrecorded, the cache is
    empty, and nobody else holds the lock. -/
theorem YardInv.sweep (hinv : YardInv deps cfg s) {j : Nat} (hpc : s.gcs j = .forgot)
    (hnone : s.site.dir.markers.listStaged = ∅)
    (hclear : ∀ i r entry, s.cleans i ≠ .looked r (some entry)) :
    YardInv deps cfg ((yardSweep cfg s).setGc j .done) := by
  have hgc := hinv.gcs j
  simp only [GcOk, hpc] at hgc
  obtain ⟨hlock, hquiet⟩ := hgc
  have hno : ∀ k, s.lock ≠ some (.clean k) := by
    intro k hk
    rw [hlock] at hk
    simp at hk
  refine ⟨fun k => ?_, fun k => ?_, fun k e hk => ?_, ?_⟩
  · have hok := hinv.cleans k
    unfold CleanOk at hok
    have hsame : ((yardSweep cfg s).setGc j .done).cleans k = s.cleans k := rfl
    unfold CleanOk
    rw [hsame]
    cases hc : s.cleans k with
    | idle => trivial
    | started r =>
        simp only [hc] at hok
        exact hok
    | looked r hit =>
        simp only [hc] at hok
        refine ⟨hok.1, fun e he => ?_⟩
        exact absurd (he ▸ hc) (hclear k r e)
    | locked r hit => simp only [hc] at hok; exact absurd hok.1 (hno k)
    | touched r e => simp only [hc] at hok; exact absurd hok.1 (hno k)
    | written r info => simp only [hc] at hok; exact absurd hok.1 (hno k)
    | marked r info => simp only [hc] at hok; exact absurd hok.1 (hno k)
    | answered r info => simp only [hc] at hok; exact absurd hok.1 (hno k)
    | done => simp only [hc] at hok; exact absurd hok (hno k)
  · by_cases hk : k = j
    · subst hk
      simp only [GcOk, Yard.setGc, Function.update_self]
      exact hlock
    · refine (hinv.gcs k).frame ?_ (fun h => h) (fun _ h => h)
      simp only [Yard.setGc, Function.update_of_ne hk]
      rfl
  · -- every cached hash would have a marker
    obtain ⟨info, -, -, -, hmark | hforget⟩ := hinv.cache k e hk
    · rw [hnone] at hmark
      exact absurd hmark (Finset.notMem_empty _)
    · obtain ⟨want, dead, hj, -⟩ := (hinv.forgetting_iff hlock _).1 hforget
      rw [hpc] at hj
      simp at hj
  · refine ⟨hinv.ops.lockFile, fun o p hp => ?_⟩
    have hpend : (s.ops o).pending = [] := hquiet o
    exact absurd (hpend ▸ hp) (List.not_mem_nil)

omit [DecidableEq Key] in
/-- **A step of a gc run keeps the invariant**, unless it sweeps into the window. -/
theorem gcStep_inv (law : deps.Lawful) (hlocal : cfg.localMode = true)
    (hinv : YardInv deps cfg s) {j : Nat} (hclear : SweepClear s (.gc j))
    (hstep : gcStep deps gixOf cfg s j = some s') : YardInv deps cfg s' := by
  have hgc := hinv.gcs j
  unfold GcOk at hgc
  unfold gcStep at hstep
  cases hc : s.gcs j with
  | idle => simp [hc] at hstep
  | locked grace =>
      simp only [hc] at hstep hgc
      have hpc : ∀ want dead, s.gcs j ≠ .removed want dead := by simp [hc]
      split_ifs at hstep with hfiles <;> simp only [Option.some.injEq] at hstep <;> subst hstep
      · refine hinv.gc_move law hpc ⟨hgc, fun o => (hinv.ops.lockFile o ?_).2⟩
        rw [hfiles]
        exact Finset.notMem_empty o
      · exact hinv.gc_move law hpc hgc
  | checked grace =>
      simp only [hc] at hstep hgc
      have hpc : ∀ want dead, s.gcs j ≠ .removed want dead := by simp [hc]
      split_ifs at hstep <;> simp only [Option.some.injEq] at hstep <;> subst hstep
      · exact hinv.gc_move law hpc hgc.1
      · exact hinv.gc_move law hpc hgc
  | listed grace want =>
      simp only [hc, Option.some.injEq] at hstep hgc
      subst hstep
      exact hinv.gc_move law (by simp [hc]) hgc
  | lived grace want live =>
      simp only [hc] at hstep hgc
      have hpc : ∀ want dead, s.gcs j ≠ .removed want dead := by simp [hc]
      split_ifs at hstep <;> simp only [Option.some.injEq] at hstep <;> subst hstep
      · exact hinv.gc_move law hpc hgc.1
      · exact hinv.gc_move law hpc hgc
  | filtered want dead =>
      simp only [hc, Option.some.injEq] at hstep hgc
      subst hstep
      refine hinv.gc_step_of law rfl rfl rfl rfl (fun _ _ h => h) (Finset.Subset.refl _) ?_ ?_ ?_
      · intro k hk
        rw [hgc.1] at hk
        simp at hk
      · simp only [GcOk, Yard.setGc, Yard.setMarkers, Function.update_self]
        exact hgc
      · refine hinv.cache.frame law rfl (Finset.Subset.refl _) ?_
          (fun _ hf => hf.setGc rfl (by simp [hc]))
        -- an entry whose marker goes is one that this run will forget
        intro h hh
        by_cases hd : h ∈ dead
        · exact Or.inr ⟨j, want, dead, by simp only [Yard.setGc, Function.update_self], hd⟩
        · refine Or.inl ?_
          change h ∈ (s.site.dir.markers.removeAll dead).listStaged
          rw [Markers.listStaged_removeAll]
          exact Finset.mem_sdiff.2 ⟨hh, hd⟩
  | removed want dead =>
      simp only [hc, Option.some.injEq] at hstep hgc
      subst hstep
      refine hinv.gc_step_of law rfl rfl rfl rfl (fun _ _ h => h) (Finset.Subset.refl _)
        (fun _ _ => Finset.Subset.refl _) ?_ ?_
      · simp only [GcOk, Yard.setGc, Yard.setCache, Function.update_self]
        exact hgc
      · intro k e hk
        obtain ⟨hold, hforgot⟩ := CleanCache.forgetHashes_eq_some hk
        rw [gcOrphaned_local deps.serde (gixOf s.site.repo) hlocal] at hforgot
        obtain ⟨info, hparse, hfield, hholds, hmark | hforget⟩ := hinv.cache k e hold
        · exact ⟨info, hparse, hfield, hholds, Or.inl hmark⟩
        · obtain ⟨want', dead', hj, hdead⟩ := (hinv.forgetting_iff hgc.1 _).1 hforget
          rw [hc, GcPc.removed.injEq] at hj
          exact absurd (hj.2 ▸ hdead) (hforgot info.hash hfield)
  | forgot =>
      simp only [hc] at hstep hgc
      split_ifs at hstep with hcard <;> simp only [Option.some.injEq] at hstep <;> subst hstep
      -- the sweep: no marker is left, and nobody is between lookup and lock
      · have hnone := Finset.card_eq_zero.1 hcard
        exact hinv.sweep hc hnone (hclear hc hnone)
      · exact hinv.gc_move law (by simp [hc]) hgc.1
  | done =>
      simp only [hc, Option.some.injEq] at hstep hgc
      subst hstep
      refine hinv.gc_step_of law rfl rfl rfl rfl ?_ (Finset.Subset.refl _)
        (fun _ _ => Finset.Subset.refl _) ?_ ?_
      · intro h hne hheld
        rw [hgc] at hheld
        exact absurd (Option.some.inj hheld).symm hne
      · simp only [GcOk, Yard.setGc, Function.update_self]
      · exact hinv.cache.frame law rfl (Finset.Subset.refl _) (fun _ hh => Or.inl hh)
          (fun _ hf => hf.setGc rfl (by simp [hc]))

/-! ## Runs -/

omit [DecidableEq Oid] [DecidableEq Key] in
/-- The frame rule for what git and the clock do to a site between two steps of clean and gc. -/
theorem YardInv.git_step_of (law : deps.Lawful) (hinv : YardInv deps cfg s)
    {t : Yard Oid Obj Key} (hcleans : t.cleans = s.cleans) (hgcs : t.gcs = s.gcs)
    (hlock : t.lock = s.lock) (hawait : ∀ o, (t.ops o).awaiting = (s.ops o).awaiting)
    (hquiet : Quiet s → Quiet t) (hdir : t.site.dir = s.site.dir)
    (hstores : t.site.stores = s.site.stores) (hops : OpsOk deps cfg t) :
    YardInv deps cfg t := by
  refine hinv.step_of law none (fun _ _ => by rw [hcleans]) (fun _ _ => by rw [hgcs])
    (fun _ _ h => by rw [hlock]; exact h) (fun _ _ _ h => by rw [hawait]; exact h)
    (fun _ _ _ => hquiet) (by rw [hstores]) (fun _ _ _ => by rw [hdir]) (by simp) (by simp) ?_ hops
  exact hinv.cache.grow law (by rw [hdir]) hgcs (by rw [hstores]) (by rw [hdir])

omit [DecidableEq Oid] [DecidableEq Key] in
theorem YardInv.start_clean (law : deps.Lawful) (hinv : YardInv deps cfg s) {i : Nat}
    {r : CleanRequest} (hfile : r.op ∈ s.lockFiles) :
    YardInv deps cfg ((s.setOp r.op ⟨insert i (s.ops r.op).awaiting,
      (s.ops r.op).pending⟩).setClean i (.started r)) := by
  have hpend : ∀ o, ((s.setOp r.op ⟨insert i (s.ops r.op).awaiting,
      (s.ops r.op).pending⟩).ops o).pending = (s.ops o).pending := by
    intro o
    by_cases heq : o = r.op
    · subst heq
      simp [Yard.setOp]
    · simp [Yard.setOp, heq]
  refine hinv.clean_step_of law rfl rfl (fun _ _ h => h) ?_ ?_ (Finset.Subset.refl _)
    (Finset.Subset.refl _) ?_ hinv.cache ⟨fun o ho => ?_, fun o p hp => ?_⟩
  · intro o k _ hk
    by_cases heq : o = r.op
    · subst heq
      simp only [Yard.setOp, Function.update_self]
      exact Finset.mem_insert_of_mem hk
    · simpa only [Yard.setOp, Function.update_of_ne heq] using hk
  · intro j _ hquiet o
    rw [hpend o]
    exact hquiet o
  · simp only [CleanOk, Yard.setClean, Yard.setOp, Function.update_self]
    exact Finset.mem_insert_self _ _
  · have hne : o ≠ r.op := fun heq => ho (heq ▸ hfile)
    simp only [Yard.setOp, Function.update_of_ne hne]
    exact hinv.ops.lockFile o ho
  · rw [hpend o] at hp
    exact hinv.ops.backed o p hp

omit [DecidableEq Oid] [DecidableEq Key] in
theorem YardInv.start_gc (law : deps.Lawful) (hinv : YardInv deps cfg s) {j : Nat} (grace : Nat)
    (hidle : s.gcs j = .idle) : YardInv deps cfg (gcStart cfg s j grace) := by
  unfold gcStart
  split_ifs with hshared hheld
  · exact hinv
  · exact hinv
  · rw [not_not] at hheld
    refine hinv.gc_step_of law rfl rfl rfl rfl ?_ (Finset.Subset.refl _)
      (fun _ _ => Finset.Subset.refl _) ?_ ?_
    · intro h _ hh
      rw [hheld] at hh
      simp at hh
    · simp only [GcOk, Yard.setGc, Function.update_self]
    · exact hinv.cache.frame law rfl (Finset.Subset.refl _) (fun _ hh => Or.inl hh)
        (fun _ hf => hf.setGc rfl (by simp [hidle]))

/-- **Every step keeps the invariant**, unless it is a sweep into the window. -/
theorem yardStep_inv (law : deps.Lawful) (hlocal : cfg.localMode = true) (s : Yard Oid Obj Key)
    (a : YardAct Oid) (s' : Yard Oid Obj Key) (hinv : YardInv deps cfg s)
    (hclear : SweepClear s a) (hstep : yardStep deps gixOf cfg s a = some s') :
    YardInv deps cfg s' := by
  cases a with
  | begin o =>
      simp only [yardStep, Option.some.injEq] at hstep
      subst hstep
      refine hinv.git_step_of law rfl rfl rfl (fun _ => rfl) (fun h => h) rfl rfl ?_
      exact hinv.ops.frame law rfl (Finset.subset_insert _ _) (Finset.Subset.refl _)
  | record o repo =>
      simp only [yardStep] at hstep
      split_ifs at hstep with hfile
      simp only [Option.some.injEq] at hstep
      subst hstep
      have hops : ∀ o', (Function.update s.ops o ⟨(s.ops o).awaiting, []⟩ o').awaiting =
          (s.ops o').awaiting ∧ ∀ p ∈ (Function.update s.ops o ⟨(s.ops o).awaiting, []⟩
            o').pending, p ∈ (s.ops o').pending := by
        intro o'
        by_cases heq : o' = o
        · subst heq
          simp
        · simp [heq]
      refine hinv.git_step_of law rfl rfl rfl (fun o' => (hops o').1) ?_ rfl rfl ⟨?_, ?_⟩
      · intro hquiet o'
        refine List.eq_nil_iff_forall_not_mem.2 (fun p hp => ?_)
        have hold := (hops o').2 p hp
        rw [hquiet o'] at hold
        exact absurd hold List.not_mem_nil
      · intro o' ho'
        have hne : o' ≠ o := fun heq => ho' (heq ▸ hfile)
        simp only [Yard.setOp, Function.update_of_ne hne]
        exact hinv.ops.lockFile o' ho'
      · intro o' p hp
        exact hinv.ops.backed o' p ((hops o').2 p hp)
  | finish o =>
      simp only [yardStep] at hstep
      split_ifs at hstep with hdone
      simp only [Option.some.injEq] at hstep
      subst hstep
      refine hinv.git_step_of law rfl rfl rfl (fun _ => rfl) (fun h => h) rfl rfl
        ⟨fun o' ho' => ?_, hinv.ops.backed⟩
      by_cases heq : o' = o
      · rw [heq]
        exact hdone
      · exact hinv.ops.lockFile o' (fun hin => ho' (Finset.mem_erase.2 ⟨heq, hin⟩))
  | startClean i r =>
      simp only [yardStep] at hstep
      split at hstep
      · split_ifs at hstep with hfile
        simp only [Option.some.injEq] at hstep
        subst hstep
        exact hinv.start_clean law hfile
      · simp at hstep
  | clean i => exact cleanStep_inv law hinv hstep
  | startGc j grace =>
      simp only [yardStep] at hstep
      split at hstep
      · next hidle =>
          simp only [Option.some.injEq] at hstep
          subst hstep
          exact hinv.start_gc law grace hidle
      · simp at hstep
  | gc j => exact gcStep_inv law hlocal hinv hclear hstep
  | tick secs =>
      simp only [yardStep, Option.some.injEq] at hstep
      subst hstep
      exact hinv.git_step_of law rfl rfl rfl (fun _ => rfl) (fun h => h) rfl rfl
        ⟨hinv.ops.lockFile, hinv.ops.backed⟩

omit [DecidableEq Oid] [DecidableEq Key] in
theorem yardInv_fresh (repo : Repository Oid) (now : Nat) :
    YardInv deps cfg (Yard.fresh repo now : Yard Oid Obj Key) := by
  refine ⟨fun i => trivial, fun j => trivial, fun k e hk => ?_, ⟨fun o _ => ⟨rfl, rfl⟩, ?_⟩⟩
  · simp [Yard.fresh, Site.fresh, CleanCache.empty] at hk
  · intro o p hp
    simp [Yard.fresh] at hp

/-- **Answered pointers keep their objects until they are recorded.** In local mode, in every state
    of every interleaving of cleans, git operations and gc runs in which no sweep falls between a
    clean's load of the cache entry it answers from and its lock, the objects of every pointer that a git
    operation has been given and has not recorded are in the store. -/
theorem pending_pointers_backed (law : deps.Lawful) (hlocal : cfg.localMode = true)
    (repo : Repository Oid) (now : Nat) (acts : List (YardAct Oid)) (s : Yard Oid Obj Key)
    (hclear : Machine.Admissible (yardStep deps gixOf cfg) SweepClear (Yard.fresh repo now) acts)
    (hrun : Machine.run (yardStep deps gixOf cfg) (Yard.fresh repo now) acts = some s) :
    ∀ o, ∀ p ∈ (s.ops o).pending, deps.Backed (s.site.stores cfg.root) p :=
  (Machine.run_invariant (yardStep_inv law hlocal) (yardInv_fresh repo now) hclear
    hrun).ops.backed

/-! ## Runs of few cleans

A run that starts no clean from number `n` on can be checked for `SweepClear` by running it. -/

/-- A clean that has loaded the entry it goes on to answer from, without the lock. -/
def CleanPc.fromCache : CleanPc → Bool
  | .looked _ (some _) => true
  | _ => false

/-- A gc run about to see whether any marker is left. -/
def GcPc.toSweep : GcPc → Bool
  | .forgot => true
  | _ => false

/-- `SweepClear` as far as the cleans below `n` go; no other clean starts. -/
def SweepClearBelow (n : Nat) (s : Yard Oid Obj Key) (a : YardAct Oid) : Prop :=
  match a with
  | .startClean i _ => i < n
  | .gc j => (s.gcs j).toSweep = true → s.site.dir.markers.listStaged = ∅ →
      ∀ i < n, (s.cleans i).fromCache = false
  | _ => True

instance SweepClearBelow.decidable (n : Nat) (s : Yard Oid Obj Key) :
    ∀ a, Decidable (SweepClearBelow n s a)
  | .startClean i _ => inferInstanceAs (Decidable (i < n))
  | .gc j => inferInstanceAs (Decidable ((s.gcs j).toSweep = true →
      s.site.dir.markers.listStaged = ∅ → ∀ i < n, (s.cleans i).fromCache = false))
  | .begin _ | .record _ _ | .finish _ | .clean _ | .startGc _ _ | .tick _ => .isTrue trivial

omit [DecidableEq Oid] in
/-- A clean moves itself only. -/
theorem cleanStep_cleans {i : Nat} (hstep : cleanStep deps cfg s i = some s') :
    s.cleans i ≠ .idle ∧
      ∃ (t : Yard Oid Obj Key) (pc : CleanPc), s' = t.setClean i pc ∧ t.cleans = s.cleans := by
  unfold cleanStep at hstep
  cases hc : s.cleans i with
  | idle => simp [hc] at hstep
  | started r =>
      simp only [hc] at hstep
      refine ⟨by simp, ?_⟩
      cases hlook : cacheLookup deps s.site.dir.cache r.pathname r.payload with
      | none =>
          rw [hlook] at hstep
          exact ⟨_, _, (Option.some.inj hstep).symm, rfl⟩
      | some hit =>
          rw [hlook] at hstep
          exact ⟨_, _, (Option.some.inj hstep).symm, rfl⟩
  | looked r hit =>
      simp only [hc] at hstep
      split_ifs at hstep
      exact ⟨by simp, _, _, (Option.some.inj hstep).symm, rfl⟩
  | locked r hit =>
      refine ⟨by simp, ?_⟩
      cases hit <;>
      · simp only [hc] at hstep
        exact ⟨_, _, (Option.some.inj hstep).symm, rfl⟩
  | _ =>
      simp only [hc] at hstep
      exact ⟨by simp, _, _, (Option.some.inj hstep).symm, rfl⟩

omit [DecidableEq Key] in
theorem gcStep_cleans {j : Nat} (hstep : gcStep deps gixOf cfg s j = some s') :
    s'.cleans = s.cleans := by
  unfold gcStep at hstep
  cases hg : s.gcs j with
  | idle => simp [hg] at hstep
  | locked grace | checked grace | lived grace want live | forgot =>
      simp only [hg] at hstep
      split_ifs at hstep <;>
      · obtain rfl := Option.some.inj hstep
        rfl
  | listed grace want | filtered want dead | removed want dead | done =>
      simp only [hg] at hstep
      obtain rfl := Option.some.inj hstep
      rfl

/-- The cleans from `n` on do not take part. -/
theorem yardStep_idle {n : Nat} {a : YardAct Oid} (hidle : ∀ i, n ≤ i → s.cleans i = .idle)
    (hok : SweepClearBelow n s a) (hstep : yardStep deps gixOf cfg s a = some s') :
    ∀ i, n ≤ i → s'.cleans i = .idle := by
  -- all but two actions leave the cleans alone
  have hframe : s'.cleans = s.cleans → ∀ i, n ≤ i → s'.cleans i = .idle :=
    fun hsame i hi => hsame ▸ hidle i hi
  cases a with
  | startClean i r =>
      simp only [yardStep] at hstep
      split at hstep
      · split_ifs at hstep
        simp only [Option.some.injEq] at hstep
        subst hstep
        exact Machine.idle_update hidle (Or.inl hok)
      · simp at hstep
  | clean i =>
      obtain ⟨hbusy, t, pc, rfl, ht⟩ := cleanStep_cleans hstep
      refine Machine.idle_update (fun k hk => ht ▸ hidle k hk) (Or.inl ?_)
      by_contra hge
      exact hbusy (hidle i (Nat.le_of_not_lt hge))
  | gc j => exact hframe (gcStep_cleans hstep)
  | startGc j grace =>
      simp only [yardStep] at hstep
      split at hstep
      · simp only [Option.some.injEq] at hstep
        subst hstep
        refine hframe ?_
        unfold gcStart
        split_ifs <;> rfl
      · simp at hstep
  | record o repo =>
      simp only [yardStep] at hstep
      split_ifs at hstep
      simp only [Option.some.injEq] at hstep
      subst hstep
      exact hframe rfl
  | finish o =>
      simp only [yardStep] at hstep
      split_ifs at hstep
      simp only [Option.some.injEq] at hstep
      subst hstep
      exact hframe rfl
  | begin o =>
      simp only [yardStep, Option.some.injEq] at hstep
      subst hstep
      exact hframe rfl
  | tick secs =>
      simp only [yardStep, Option.some.injEq] at hstep
      subst hstep
      exact hframe rfl

theorem sweepClear_of_below {n : Nat} {acts : List (YardAct Oid)}
    (hidle : ∀ i, n ≤ i → s.cleans i = .idle)
    (h : Machine.Admissible (yardStep deps gixOf cfg) (SweepClearBelow n) s acts) :
    Machine.Admissible (yardStep deps gixOf cfg) SweepClear s acts := by
  refine h.imp_of_invariant (fun s => ∀ i, n ≤ i → s.cleans i = .idle) (fun t a ht hok => ?_)
    (fun t a t' => yardStep_idle) hidle
  cases a with
  | gc j =>
      intro hforgot hempty i r entry hlooked
      by_cases hlt : i < n
      · have hno := hok (by rw [hforgot]; rfl) hempty i hlt
        rw [hlooked] at hno
        cases hno
      · have hid := ht i (Nat.le_of_not_lt hlt)
        rw [hlooked] at hid
        cases hid
  | _ => trivial

end Inv

/-! ## The window -/

namespace Sample

/-- `a.bin` is in the index. -/
def repoWithA : Repository Nat := { emptyRepo with index := [file "a.bin" 10] }

/-- `git add a.bin`, up to the answered pointer. -/
def addA : List (YardAct Nat) :=
  [.begin 0, .startClean 0 ⟨0, "a.bin", [1]⟩] ++ List.replicate 7 (.clean 0)

/-- Add `a.bin`, then take it out of the index again. When its marker has aged, gc takes the lock
    and finds no operation in flight; a second `git add a.bin` begins and verifies its cache entry;
    gc drops the marker and sweeps; the add gets the lock and answers with the cached pointer. -/
def windowActs : List (YardAct Nat) :=
  addA ++ [.record 0 repoWithA, .finish 0, .begin 1, .record 1 emptyRepo, .finish 1, .tick 1000,
    .startGc 0 600, .gc 0, .begin 2, .startClean 1 ⟨2, "a.bin", [1]⟩, .clean 1] ++
  List.replicate 7 (.gc 0) ++ List.replicate 3 (.clean 1)

/-- The run of `windowActs`: the last add has been given the pointer to `a`, whose objects are not
    in the store. -/
theorem windowActs_run :
    (Machine.run (yardStep deps Repository.gix siteConfig) (Yard.fresh emptyRepo 0)
      windowActs).map (fun s => ((s.ops 2).pending,
        decide (deps.xet.Holds (s.site.stores siteConfig.root) (hash 'a')))) =
      some ([encodePointerString serde (info 'a')], false) := by
  decide +kernel

end Sample

/-- **A sweep into the window loses an answered pointer's objects.** -/
theorem cache_hit_races_sweep :
    ¬ ∀ (acts : List (YardAct Nat)) (s : Yard Nat Char String),
      Machine.run (yardStep Sample.deps Repository.gix Sample.siteConfig)
        (Yard.fresh Sample.emptyRepo 0) acts = some s →
      ∀ o, ∀ p ∈ (s.ops o).pending,
        Sample.deps.Backed (s.site.stores Sample.siteConfig.root) p := by
  intro hall
  obtain ⟨s, hrun, hs⟩ := Option.map_eq_some_iff.1 Sample.windowActs_run
  simp only [Prod.mk.injEq, decide_eq_false_iff_not] at hs
  obtain ⟨hpend, hlost⟩ := hs
  obtain ⟨info, hparse, hholds⟩ := hall _ s hrun 2 _ (by rw [hpend]; exact List.mem_singleton_self _)
  have hread := Sample.parse_encode [1]
  change parsePointer Sample.serde.fromStr (asBytes (encodePointerString Sample.serde
    (Sample.info 'a'))) = .ok (Sample.info 'a') at hread
  change parsePointer Sample.serde.fromStr _ = _ at hparse
  rw [hread, Except.ok.injEq] at hparse
  subst hparse
  exact hlost hholds

namespace Sample

/-- `git add a.bin`, then `a.bin` is taken out of the index and its marker ages. gc finds no operation
    in flight; a second `git add` begins, but its clean loads the cache only when gc has forgotten
    the entry and swept: it writes the objects again. A third clean of the same operation is
    answered from the cache. -/
def sweepActs : List (YardAct Nat) :=
  addA ++ [.record 0 repoWithA, .finish 0, .begin 1, .record 1 emptyRepo, .finish 1, .tick 1000,
    .startGc 0 600, .gc 0, .begin 2, .startClean 1 ⟨2, "a.bin", [1]⟩] ++
  List.replicate 7 (.gc 0) ++ List.replicate 7 (.clean 1) ++
  .startClean 2 ⟨2, "a.bin", [1]⟩ :: List.replicate 5 (.clean 2)

/-- The run of `sweepActs`: the store is empty after the sweep, and at the end the add has been given
    the pointer to `a` twice. -/
theorem sweepActs_run :
    (Machine.run (yardStep deps Repository.gix siteConfig) (Yard.fresh emptyRepo 0)
      (sweepActs.take 26)).map (fun s => s.site.stores siteConfig.root) = some ∅ ∧
    (Machine.run (yardStep deps Repository.gix siteConfig) (Yard.fresh emptyRepo 0)
      sweepActs).map (fun s => (s.ops 2).pending) =
      some [encodePointerString serde (info 'a'), encodePointerString serde (info 'a')] := by
  constructor <;> decide +kernel

end Sample

/-- An add that begins after gc's check and loads the cache after its sweep, with a miss and a hit:
    it is given its pointer twice, and the objects are in the store. -/
theorem pending_pointers_backed_add :
    ∃ s, Machine.run (yardStep Sample.deps Repository.gix Sample.siteConfig)
        (Yard.fresh Sample.emptyRepo 0) Sample.sweepActs = some s ∧
      (s.ops 2).pending = [encodePointerString Sample.serde (Sample.info 'a'),
        encodePointerString Sample.serde (Sample.info 'a')] ∧
        ∀ o, ∀ p ∈ (s.ops o).pending,
          Sample.deps.Backed (s.site.stores Sample.siteConfig.root) p := by
  obtain ⟨s, hrun, hpend⟩ := Option.map_eq_some_iff.1 Sample.sweepActs_run.2
  have hclear : Machine.Admissible (yardStep Sample.deps Repository.gix Sample.siteConfig)
      (SweepClearBelow 3) (Yard.fresh Sample.emptyRepo 0) Sample.sweepActs := by
    decide +kernel
  exact ⟨s, hrun, hpend, pending_pointers_backed Sample.lawful rfl Sample.emptyRepo 0
    Sample.sweepActs s (sweepClear_of_below (fun _ _ => rfl) hclear) hrun⟩

end BaleForGit
