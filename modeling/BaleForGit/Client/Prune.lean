import Mathlib.Data.String.Basic
import Mathlib.Data.List.Sort
import BaleForGit.Client.Gc

set_option autoImplicit false

/-! # Compacting a shared store (`prune.rs`: `prune --shared`)

A shared store is append-only for gc; `prune --shared` rebuilds it. The live files are, over all
registered repositories, the markers of a repository that are reachable in *that* repository. Each
of them is reconstructed from the old store and cleaned into a new one, which then replaces the old
store.

`pruneLive_ok_iff` and `foldlM_compactOne_ok` say what the two loops compute; `prune_swapped` and
`prune_of_swaps` put them together: when a run replaces the store, the new store holds exactly the
live files. -/

namespace BaleForGit

/-! ## Iterating a set in order -/

section InOrder

variable {α : Type} [LinearOrder α]

/-- The elements of a set in increasing order, as a `BTreeSet` iterates them. -/
def inOrder (s : Finset α) : List α :=
  Quot.liftOn s.val (fun l => l.insertionSort (· ≤ ·)) (fun l l' (h : List.Perm l l') =>
    List.Perm.eq_of_pairwise (fun _ _ _ _ => le_antisymm)
      (List.pairwise_insertionSort (· ≤ ·) l) (List.pairwise_insertionSort (· ≤ ·) l')
      (((List.perm_insertionSort (· ≤ ·) l).trans h).trans
        (List.perm_insertionSort (· ≤ ·) l').symm))

theorem mem_inOrder {s : Finset α} {a : α} : a ∈ inOrder s ↔ a ∈ s := by
  obtain ⟨m, hm⟩ := s
  induction m using Quot.inductionOn with
  | h l => exact (List.perm_insertionSort (· ≤ ·) l).mem_iff

end InOrder

/-! ## The run -/

inductive PruneError where
  | notShared
  | noStore
  | lock
  | registry
  | noRepos
  | missing
  | noSize (h : String)
  | reconstruct (h : String)
  | hashMismatch (h : String)
  | changed
  | copyRegistry
  | moveAside
  | swap
deriving DecidableEq, Repr

/-- A registered repository as a run finds it: whether its git dir exists, its markers and what
    `gix` answers in it, and which of the reads fail: the first listing of the markers, opening the
    repository, the second listing in `collect_sizes`. -/
structure RepoView (Oid : Type) where
  present : Bool
  markers : Markers
  gix : Gix Oid
  listFails : Bool
  openFails : Bool
  relistFails : Bool

/-- The outcome of the file-system steps around the compaction: the lock, the fingerprints taken
    before and after, the copy of the registry and the two renames of the swap. -/
structure PruneEnv where
  lockAcquired : Bool
  unchanged : Bool
  registryCopied : Bool
  movedAside : Bool
  movedIn : Bool
deriving DecidableEq, Repr

section Prune

variable {Oid Obj : Type} [DecidableEq Oid] (fromStr : String → Option XetFileInfo) (xet : Xet Obj)

/-- The marker hashes the first loop reads. -/
def RepoView.markerSet (v : RepoView Oid) : Finset String :=
  if v.listFails then ∅ else v.markers.listStaged

/-- `reachable_in_repo`: a repository that cannot be opened counts as having no refs. -/
def reachableInRepo (v : RepoView Oid) (want : Finset String) : Finset String :=
  if v.openFails then ∅ else reachableAll fromStr v.gix want

/-- One round of the loop over the registered repositories, on `(want_all, live)`. -/
def scanRepo (force : Bool) (acc : Finset String × Finset String) (v : RepoView Oid) :
    Except PruneError (Finset String × Finset String) :=
  if !v.present then
    if force then .ok acc else .error .missing
  else .ok (acc.1 ∪ v.markerSet, acc.2 ∪ reachableInRepo fromStr v v.markerSet)

/-- All candidate hashes and the live ones among them. -/
def pruneLive (force : Bool) (repos : List (RepoView Oid)) :
    Except PruneError (Finset String × Finset String) :=
  repos.foldlM (scanRepo fromStr force) (∅, ∅)

/-- `collect_sizes`, for one hash: the first sized marker wins. -/
def sizeIn (repos : List (RepoView Oid)) (h : String) : Option Nat :=
  repos.findSome? (fun v =>
    if v.present && !v.relistFails && decide (h ∈ v.markers.listStaged) then v.markers.size h
    else none)

/-- One round of the compaction: reconstruct from the old store, clean into the new one. -/
def compactOne (old : Finset Obj) (size : String → Option Nat) (new : Finset Obj) (h : String) :
    Except PruneError (Finset Obj) :=
  match size h with
  | none => .error (.noSize h)
  | some n =>
    match xet.downloadToWriter old ⟨h, some n, none⟩ n with
    | none => .error (.reconstruct h)
    | some bytes =>
      if (xet.clean new bytes).2.hash ≠ h then .error (.hashMismatch h)
      else .ok (xet.clean new bytes).1

def compact (old : Finset Obj) (size : String → Option Nat) (live : Finset String) :
    Except PruneError (Finset Obj) :=
  (inOrder live).foldlM (compactOne xet old size) ∅

/-- The part of a run after the live set: `none` when there is nothing to reclaim, else the new
    store. -/
def pruneStore (env : PruneEnv) (repos : List (RepoView Oid)) (old : Finset Obj)
    (want live : Finset String) : Except PruneError (Option (Finset Obj)) :=
  if want \ live = ∅ then .ok none
  else match (inOrder live).find? (fun h => (sizeIn repos h).isNone) with
    | some h => .error (.noSize h)
    | none =>
      match compact xet old (sizeIn repos) live with
      | .error e => .error e
      | .ok new =>
        if !env.unchanged then .error .changed
        else if !env.registryCopied then .error .copyRegistry
        else if !env.movedAside then .error .moveAside
        else if !env.movedIn then .error .swap
        else .ok (some new)

/-- `run`: `registered` is the answer of `registered_repos`. -/
def prune (raw : RawConfig) (force : Bool) (env : PruneEnv)
    (registered : Option (List (RepoView Oid))) (old : Finset Obj) :
    Except PruneError (Option (Finset Obj)) :=
  if !raw.localMode || !raw.localShared then .error .notShared
  else match objectStoreRoot raw with
    | none => .error .noStore
    | some _ =>
      if !env.lockAcquired then .error .lock
      else match registered with
        | none => .error .registry
        | some repos =>
          if repos.isEmpty then .error .noRepos
          else match pruneLive fromStr force repos with
            | .error e => .error e
            | .ok (want, live) => pruneStore xet env repos old want live

/-- The store after a run. -/
def pruneResult (old : Finset Obj) (res : Except PruneError (Option (Finset Obj))) : Finset Obj :=
  match res with
  | .ok (some new) => new
  | _ => old

/-! ## What the loops compute -/

theorem ok_bind {ε α β : Type} (a : α) (f : α → Except ε β) : (Except.ok a >>= f) = f a := rfl

/-- The first loop succeeds when no repository is missing, or missing ones are skipped. -/
theorem foldlM_scanRepo (force : Bool) (repos : List (RepoView Oid))
    (acc : Finset String × Finset String) :
    repos.foldlM (scanRepo fromStr force) acc =
      if force = true ∨ ∀ v ∈ repos, v.present = true then
        .ok ((repos.filter (fun v => v.present)).foldl (fun a v =>
          (a.1 ∪ v.markerSet, a.2 ∪ reachableInRepo fromStr v v.markerSet)) acc)
      else .error .missing := by
  induction repos generalizing acc with
  | nil => simp; rfl
  | cons v repos ih =>
      rw [List.foldlM_cons]
      cases hp : v.present with
      | false =>
          cases force with
          | false => simp [scanRepo, hp]; rfl
          | true =>
              have hskip : scanRepo fromStr true acc v = .ok acc := by simp [scanRepo, hp]
              rw [hskip, ok_bind, ih acc]
              simp [hp]
      | true =>
          have hadd : scanRepo fromStr force acc v = .ok (acc.1 ∪ v.markerSet,
              acc.2 ∪ reachableInRepo fromStr v v.markerSet) := by simp [scanRepo, hp]
          rw [hadd, ok_bind, ih]
          simp [hp]

omit [DecidableEq Oid] in
theorem mem_foldl_union (f k : RepoView Oid → Finset String) (repos : List (RepoView Oid))
    (acc : Finset String × Finset String) (h : String) :
    (h ∈ (repos.foldl (fun a v => (a.1 ∪ f v, a.2 ∪ k v)) acc).1 ↔
        h ∈ acc.1 ∨ ∃ v ∈ repos, h ∈ f v) ∧
      (h ∈ (repos.foldl (fun a v => (a.1 ∪ f v, a.2 ∪ k v)) acc).2 ↔
        h ∈ acc.2 ∨ ∃ v ∈ repos, h ∈ k v) := by
  induction repos generalizing acc with
  | nil => simp
  | cons v repos ih =>
      rw [List.foldl_cons]
      refine ⟨(ih _).1.trans ?_, (ih _).2.trans ?_⟩ <;>
        simp only [Finset.mem_union, List.mem_cons, exists_eq_or_imp, or_assoc]

/-- **The live set of a prune run**: the marker hashes of a repository that the same repository
    reaches. -/
theorem pruneLive_ok_iff (force : Bool) (repos : List (RepoView Oid)) (want live : Finset String) :
    pruneLive fromStr force repos = .ok (want, live) ↔
      (force = true ∨ ∀ v ∈ repos, v.present = true) ∧
        (∀ h, h ∈ want ↔ ∃ v ∈ repos, v.present = true ∧ h ∈ v.markerSet) ∧
          ∀ h, h ∈ live ↔
            ∃ v ∈ repos, v.present = true ∧ h ∈ reachableInRepo fromStr v v.markerSet := by
  unfold pruneLive
  rw [foldlM_scanRepo]
  have hmem := mem_foldl_union RepoView.markerSet
    (fun v => reachableInRepo fromStr v v.markerSet) (repos.filter (fun v => v.present)) (∅, ∅)
  simp only [Finset.notMem_empty, false_or, List.mem_filter, and_assoc] at hmem
  split_ifs with hok
  · rw [Except.ok.injEq]
    constructor
    · intro heq
      rw [heq] at hmem
      exact ⟨hok, fun h => (hmem h).1, fun h => (hmem h).2⟩
    · rintro ⟨-, hwant, hlive⟩
      refine Prod.ext (Finset.ext fun h => ?_) (Finset.ext fun h => ?_)
      · rw [hwant h]
        exact (hmem h).1
      · rw [hlive h]
        exact (hmem h).2
  · constructor
    · intro heq
      exact absurd heq (by simp)
    · intro h
      exact absurd h.1 hok

/-- What compaction relies on of xet-data: an empty store holds nothing, cleaning a file adds that
    file and no other, and a file's hash depends on its content only. -/
structure Xet.Compacts (xet : Xet Obj) : Prop where
  not_holds_empty : ∀ h, ¬ xet.Holds ∅ h
  clean_holds_iff : ∀ s b h, xet.Holds (xet.clean s b).1 h ↔ xet.Holds s h ∨ h = (xet.clean s b).2.hash
  clean_hash_eq : ∀ s b, (xet.clean s b).2.hash = (xet.clean ∅ b).2.hash

/-- The old store has the file, and reading the recorded number of bytes gives back its hash. -/
def Compactable (old : Finset Obj) (size : String → Option Nat) (h : String) : Prop :=
  ∃ n b, size h = some n ∧ xet.reconstruct old h = some b ∧ (xet.clean ∅ (b.take n)).2.hash = h

variable {xet}

theorem compactOne_ok (law : xet.Compacts) {old new new' : Finset Obj} {size : String → Option Nat}
    {h : String} (hok : compactOne xet old size new h = .ok new') :
    Compactable xet old size h ∧ ∀ h', xet.Holds new' h' ↔ xet.Holds new h' ∨ h' = h := by
  unfold compactOne Xet.downloadToWriter at hok
  cases hsize : size h with
  | none => simp [hsize] at hok
  | some n =>
      cases hrec : xet.reconstruct old h with
      | none => simp [hsize, hrec] at hok
      | some b =>
          simp only [hsize, hrec, Option.map_some] at hok
          split_ifs at hok with hhash
          rw [ne_eq, not_not] at hhash
          rw [Except.ok.injEq] at hok
          refine ⟨⟨n, b, hsize, hrec, ?_⟩, fun h' => ?_⟩
          · rw [← law.clean_hash_eq new]
            exact hhash
          · rw [← hok, law.clean_holds_iff, hhash]

theorem compactOne_of_compactable (law : xet.Compacts) {old : Finset Obj} (new : Finset Obj)
    {size : String → Option Nat} {h : String} (hc : Compactable xet old size h) :
    ∃ new', compactOne xet old size new h = .ok new' := by
  obtain ⟨n, b, hsize, hrec, hhash⟩ := hc
  refine ⟨(xet.clean new (b.take n)).1, ?_⟩
  unfold compactOne Xet.downloadToWriter
  simp only [hsize, hrec, Option.map_some]
  rw [if_neg]
  rw [ne_eq, not_not, law.clean_hash_eq]
  exact hhash

theorem foldlM_compactOne_ok (law : xet.Compacts) {old : Finset Obj} {size : String → Option Nat}
    (l : List String) (new new' : Finset Obj)
    (hok : l.foldlM (compactOne xet old size) new = .ok new') :
    (∀ h ∈ l, Compactable xet old size h) ∧
      ∀ h, xet.Holds new' h ↔ xet.Holds new h ∨ h ∈ l := by
  induction l generalizing new with
  | nil =>
      have heq : new = new' := Except.ok.inj hok
      subst heq
      simp
  | cons x l ih =>
      rw [List.foldlM_cons] at hok
      cases hone : compactOne xet old size new x with
      | error e => rw [hone] at hok; exact absurd hok (by intro h; cases h)
      | ok new₁ =>
          rw [hone, ok_bind] at hok
          obtain ⟨hx, hholds₁⟩ := compactOne_ok law hone
          obtain ⟨hl, hholds⟩ := ih new₁ hok
          refine ⟨List.forall_mem_cons.2 ⟨hx, hl⟩, fun h => ?_⟩
          rw [hholds h, hholds₁ h, List.mem_cons, or_assoc]

theorem foldlM_compactOne_of_compactable (law : xet.Compacts) {old : Finset Obj}
    {size : String → Option Nat} (l : List String) (new : Finset Obj)
    (hall : ∀ h ∈ l, Compactable xet old size h) :
    ∃ new', l.foldlM (compactOne xet old size) new = .ok new' := by
  induction l generalizing new with
  | nil => exact ⟨new, rfl⟩
  | cons x l ih =>
      obtain ⟨new₁, hone⟩ := compactOne_of_compactable law new (hall x List.mem_cons_self)
      obtain ⟨new', hrest⟩ := ih new₁ (fun h hh => hall h (List.mem_cons_of_mem x hh))
      exact ⟨new', by rw [List.foldlM_cons, hone, ok_bind, hrest]⟩

/-! ## What a run does -/

/-- A marker hash of some present repository, as far as the run reads it. -/
def ViewMarked (repos : List (RepoView Oid)) (h : String) : Prop :=
  ∃ v ∈ repos, v.present = true ∧ h ∈ v.markerSet

/-- A marker hash that the repository it was read from reaches. -/
def ViewLive (repos : List (RepoView Oid)) (h : String) : Prop :=
  ∃ v ∈ repos, v.present = true ∧ h ∈ reachableInRepo fromStr v v.markerSet

/-- Everything around the live set goes well: configuration, lock, registry, renames. -/
def PruneProceeds (raw : RawConfig) (force : Bool) (env : PruneEnv) (repos : List (RepoView Oid)) :
    Prop :=
  raw.localMode = true ∧ raw.localShared = true ∧ objectStoreRoot raw ≠ none ∧
    env = ⟨true, true, true, true, true⟩ ∧ repos ≠ [] ∧
      (force = true ∨ ∀ v ∈ repos, v.present = true)

variable (xet) in
/-- With these marked and live files, some marker is dead and every live file can be carried over,
    its size read from a marker. -/
def SwapsWith (raw : RawConfig) (force : Bool) (env : PruneEnv) (repos : List (RepoView Oid))
    (old : Finset Obj) (marked live : String → Prop) : Prop :=
  PruneProceeds raw force env repos ∧ (∃ h, marked h ∧ ¬ live h) ∧
    ∀ h, live h → Compactable xet old (sizeIn repos) h

variable (xet) in
/-- A run replaces the store. -/
def PruneSwaps (raw : RawConfig) (force : Bool) (env : PruneEnv) (repos : List (RepoView Oid))
    (old : Finset Obj) : Prop :=
  SwapsWith xet raw force env repos old (ViewMarked repos) (ViewLive fromStr repos)

omit [DecidableEq Oid] in
theorem pruneStore_swapped (law : xet.Compacts) {env : PruneEnv} {repos : List (RepoView Oid)}
    {old new : Finset Obj} {want live : Finset String}
    (hok : pruneStore xet env repos old want live = .ok (some new)) :
    want \ live ≠ ∅ ∧ (∀ h ∈ live, Compactable xet old (sizeIn repos) h) ∧
      (env.unchanged = true ∧ env.registryCopied = true ∧ env.movedAside = true ∧
        env.movedIn = true) ∧ ∀ h, xet.Holds new h ↔ h ∈ live := by
  unfold pruneStore at hok
  by_cases hdead : want \ live = ∅
  · simp [hdead] at hok
  rw [if_neg hdead] at hok
  refine ⟨hdead, ?_⟩
  cases hsize : (inOrder live).find? (fun h => (sizeIn repos h).isNone) with
  | some h => simp [hsize] at hok
  | none =>
      simp only [hsize] at hok
      cases hcomp : compact xet old (sizeIn repos) live with
      | error e => simp [hcomp] at hok
      | ok new₁ =>
          simp only [hcomp] at hok
          split_ifs at hok with h₁ h₂ h₃ h₄
          simp only [Except.ok.injEq, Option.some.injEq] at hok
          subst hok
          obtain ⟨hall, hholds⟩ := foldlM_compactOne_ok law _ _ _ hcomp
          refine ⟨fun h hh => hall h (mem_inOrder.2 hh), ?_, fun h => ?_⟩
          · simp only [Bool.not_eq_true', Bool.not_eq_false] at h₁ h₂ h₃ h₄
            exact ⟨h₁, h₂, h₃, h₄⟩
          · rw [hholds h, mem_inOrder]
            simp [law.not_holds_empty h]

/-- A successful run got past the configuration, the lock and the registry, and ends with what it
    does about the live set. -/
theorem prune_ok {raw : RawConfig} {force : Bool} {env : PruneEnv} {repos : List (RepoView Oid)}
    {old : Finset Obj} {res : Option (Finset Obj)}
    (hok : prune fromStr xet raw force env (some repos) old = .ok res) :
    (raw.localMode = true ∧ raw.localShared = true ∧ objectStoreRoot raw ≠ none ∧
        env.lockAcquired = true ∧ repos ≠ []) ∧
      ∃ want live, pruneLive fromStr force repos = .ok (want, live) ∧
        pruneStore xet env repos old want live = .ok res := by
  unfold prune at hok
  by_cases hmode : (!raw.localMode || !raw.localShared) = true
  · simp [hmode] at hok
  rw [if_neg hmode] at hok
  cases hroot : objectStoreRoot raw with
  | none => simp [hroot] at hok
  | some root =>
      by_cases hlock : (!env.lockAcquired) = true
      · simp [hroot, hlock] at hok
      by_cases hempty : repos.isEmpty = true
      · simp only [hroot, if_neg hlock, hempty, if_true] at hok
        exact absurd hok (by simp)
      simp only [hroot, if_neg hlock, if_neg hempty] at hok
      have hparts : raw.localMode = true ∧ raw.localShared = true := by simpa using hmode
      refine ⟨⟨hparts.1, hparts.2, by simp, by simpa using hlock, by simpa using hempty⟩, ?_⟩
      cases hscan : pruneLive fromStr force repos with
      | error e => simp [hscan] at hok
      | ok acc => exact ⟨acc.1, acc.2, rfl, by simpa [hscan] using hok⟩

/-- **A run that replaces the store** had something to reclaim, and its new store holds exactly the
    live files. -/
theorem prune_swapped (law : xet.Compacts) {raw : RawConfig} {force : Bool} {env : PruneEnv}
    {repos : List (RepoView Oid)} {old new : Finset Obj}
    (hok : prune fromStr xet raw force env (some repos) old = .ok (some new)) :
    PruneSwaps fromStr xet raw force env repos old ∧
      ∀ h, xet.Holds new h ↔ ViewLive fromStr repos h := by
  obtain ⟨⟨hlocal, hshared, hroot, hlock, hne⟩, want, live, hscan, hstore⟩ := prune_ok fromStr hok
  obtain ⟨hpresent, hwant, hlive⟩ := (pruneLive_ok_iff fromStr force repos want live).1 hscan
  obtain ⟨hdead, hall, henv, hholds⟩ := pruneStore_swapped law hstore
  refine ⟨⟨⟨hlocal, hshared, hroot, ?_, hne, hpresent⟩, ?_, ?_⟩, ?_⟩
  · obtain ⟨lockAcquired, unchanged, copied, aside, moved⟩ := env
    simp only at hlock henv
    simp [hlock, henv]
  · obtain ⟨h, hh⟩ := Finset.nonempty_iff_ne_empty.2 hdead
    rw [Finset.mem_sdiff] at hh
    exact ⟨h, (hwant h).1 hh.1, fun hl => hh.2 ((hlive h).2 hl)⟩
  · exact fun h hl => hall h ((hlive h).2 hl)
  · exact fun h => (hholds h).trans (hlive h)

/-- Conversely, such a run does replace the store. -/
theorem prune_of_swaps (law : xet.Compacts) {raw : RawConfig} {force : Bool} {env : PruneEnv}
    {repos : List (RepoView Oid)} {old : Finset Obj}
    (hswaps : PruneSwaps fromStr xet raw force env repos old) :
    ∃ new, prune fromStr xet raw force env (some repos) old = .ok (some new) := by
  obtain ⟨⟨hlocal, hshared, hroot, henv, hne, hpresent⟩, ⟨h₀, hmarked, hdead⟩, hall⟩ := hswaps
  obtain ⟨root, hroot⟩ := Option.ne_none_iff_exists'.1 hroot
  have hscan := foldlM_scanRepo fromStr force repos (∅, ∅)
  rw [if_pos hpresent] at hscan
  set acc := (repos.filter (fun v => v.present)).foldl (fun a v =>
    (a.1 ∪ v.markerSet, a.2 ∪ reachableInRepo fromStr v v.markerSet))
      ((∅, ∅) : Finset String × Finset String)
  have hscan' : pruneLive fromStr force repos = .ok (acc.1, acc.2) := hscan
  obtain ⟨-, hwant, hlive⟩ := (pruneLive_ok_iff fromStr force repos acc.1 acc.2).1 hscan'
  have hne' : acc.1 \ acc.2 ≠ ∅ := by
    refine Finset.ne_empty_of_mem (a := h₀) (Finset.mem_sdiff.2 ⟨(hwant h₀).2 hmarked, ?_⟩)
    exact fun hl => hdead ((hlive h₀).1 hl)
  have hcompact : ∀ h ∈ inOrder acc.2, Compactable xet old (sizeIn repos) h :=
    fun h hh => hall h ((hlive h).1 (mem_inOrder.1 hh))
  have hsizes : (inOrder acc.2).find? (fun h => (sizeIn repos h).isNone) = none := by
    rw [List.find?_eq_none]
    intro h hh
    obtain ⟨n, b, hn, -⟩ := hcompact h hh
    simp [hn]
  obtain ⟨new, hnew⟩ := foldlM_compactOne_of_compactable law (inOrder acc.2) ∅ hcompact
  have hnew' : compact xet old (sizeIn repos) acc.2 = .ok new := hnew
  refine ⟨new, ?_⟩
  subst henv
  simp [prune, pruneStore, hlocal, hshared, hroot, hne, hscan', hne', hsizes, hnew']

/-- A run that finds nothing to reclaim found every marker live. -/
theorem prune_kept {raw : RawConfig} {force : Bool} {env : PruneEnv}
    {repos : List (RepoView Oid)} {old : Finset Obj}
    (hok : prune fromStr xet raw force env (some repos) old = .ok none) (h : String)
    (hmarked : ViewMarked repos h) : ViewLive fromStr repos h := by
  obtain ⟨-, want, live, hscan, hstore⟩ := prune_ok fromStr hok
  obtain ⟨-, hwant, hlive⟩ := (pruneLive_ok_iff fromStr force repos want live).1 hscan
  have hnone : want \ live = ∅ := by
    by_contra hdead
    unfold pruneStore at hstore
    rw [if_neg hdead] at hstore
    cases hsize : (inOrder live).find? (fun h => (sizeIn repos h).isNone) with
    | some h => simp [hsize] at hstore
    | none =>
        cases hcomp : compact xet old (sizeIn repos) live with
        | error e => simp [hsize, hcomp] at hstore
        | ok new =>
            simp only [hsize, hcomp] at hstore
            split_ifs at hstore
            exact absurd hstore (by simp)
  exact (hlive h).1 (Finset.sdiff_eq_empty_iff_subset.1 hnone ((hwant h).2 hmarked))

end Prune

end BaleForGit
