import Mathlib.Data.Finset.Card
import Mathlib.Data.Finset.Insert
import BaleForGit.Library.FoldUntil
import BaleForGit.Git.Repository

set_option autoImplicit false

/-! # Reachable file hashes (`gc.rs`: `reachable_hashes`, `ref_tips`, `reachable_all`)

`reachableHashes` scans the index, then the blobs each walked commit changes against its first
parent, and keeps the wanted hashes whose pointers it meets. The scan carries a seen-set shared by
all its loops and leaves each of them as soon as every wanted hash is found.

`mem_reachableHashes` says what it computes for *any* answers of `gix`, failures included: a wanted
hash is returned iff some blob that the scan could list and read names it. For truthful answers
about a repository, `mem_reachableHashes_reads` restates this with the repository's own notions:
the hash is named from the index, or introduced by a visible commit. -/

namespace BaleForGit

variable {Oid : Type} [DecidableEq Oid]

/-! ## Tips -/

section Tips

variable (g : Gix Oid)

/-- `is_commit`. -/
def isCommit (id : Oid) : Bool :=
  match g.findHeader id with
  | some header => header.kind == .commit
  | none => false

/-- One ref of the iteration in `ref_tips`, appended to the tips of its side. -/
def addRefTip (tips : List Oid × List Oid) (r : Option (Reference Oid)) : List Oid × List Oid :=
  match r with
  | none => tips
  | some r =>
    match r.peelToId with
    | none => tips
    | some id =>
      if !isCommit g id then tips
      else if isRemoteName r.name then (tips.1, tips.2 ++ [id])
      else (tips.1 ++ [id], tips.2)

/-- `ref_tips`: commit ref tips as `(local, remote)`; `HEAD` counts as local. -/
def refTips : List Oid × List Oid :=
  let tips := match g.headId with
    | some id => if isCommit g id then [id] else []
    | none => []
  match g.references with
  | none => (tips, [])
  | some none => (tips, [])
  | some (some refs) => refs.foldl (addRefTip g) (tips, [])

end Tips

/-! ## The scan -/

/-- State of the scan: blobs seen, and the wanted hashes found. -/
structure Scan (Oid : Type) (want : Finset String) where
  seen : Finset Oid
  live : Finset String
  sub : live ⊆ want

namespace Scan

variable {want : Finset String}

def start : Scan Oid want := ⟨∅, ∅, Finset.empty_subset want⟩

/-- `live.len() == want.len()`. -/
def full (s : Scan Oid want) : Bool := s.live.card == want.card

/-- Mark a blob as seen. -/
def see (s : Scan Oid want) (id : Oid) : Scan Oid want := { s with seen := insert id s.seen }

omit [DecidableEq Oid] in
/-- A full scan has found every wanted hash. -/
theorem live_eq_of_full {s : Scan Oid want} (h : s.full = true) : s.live = want :=
  Finset.eq_of_subset_of_card_le s.sub (by simp only [full, beq_iff_eq] at h; omega)

end Scan

section Reachable

variable (fromStr : String → Option XetFileInfo) (g : Gix Oid)

/-- `consider_blob`. -/
def considerBlob {want : Finset String} (s : Scan Oid want) (id : Oid) : Scan Oid want :=
  if id ∈ s.seen then s
  else match g.findHeader id with
    | none => s.see id
    | some header =>
      if header.kind ≠ .blob ∨ header.size = 0 ∨ header.size > pointerMaxBytes then s.see id
      else match g.findObject id with
        | none => s.see id
        | some data =>
          match parsePointer fromStr data with
          | .error _ => s.see id
          | .ok info =>
            if hw : info.hash ∈ want then
              ⟨insert id s.seen, insert info.hash s.live,
                Finset.insert_subset_iff.2 ⟨hw, s.sub⟩⟩
            else s.see id

/-- Blobs that a change leaves in the newer tree. -/
def Change.blobId? (ch : Change Oid) : Option Oid :=
  match ch with
  | .addition mode id => if mode.isBlob then some id else none
  | .modification mode id => if mode.isBlob then some id else none
  | .deletion => none

/-- The blob ids `collect_changed_pointers` looks at, in the order of the diff. -/
def changedBlobs (parentTree commitTree : Tree Oid) : List Oid :=
  ((g.treeChanges parentTree commitTree).getD []).filterMap Change.blobId?

/-- `collect_changed_pointers`. -/
def collectChangedPointers {want : Finset String} (s : Scan Oid want)
    (trees : Tree Oid × Tree Oid) : Scan Oid want :=
  (foldUntil Scan.full (considerBlob fromStr g) s (changedBlobs g trees.1 trees.2)).1

/-- The trees `reachable_hashes` diffs for one item of the walk: the first parent's (the empty tree
    when there is none or it cannot be read) and the commit's. -/
def walkTrees (item : Option (WalkInfo Oid)) : Option (Tree Oid × Tree Oid) :=
  match item with
  | none => none
  | some info =>
    match g.commitTree info.id with
    | none => none
    | some commitTree => some ((info.parentIds.head?.bind g.parentTree).getD [], commitTree)

/-- Ids of the index entries that are regular or executable files. -/
def indexBlobs (entries : List (Entry Oid)) : List Oid :=
  (entries.filter (fun e => !(e.mode != .blob && e.mode != .blobExecutable))).map Entry.id

/-- `reachable_hashes`. -/
def reachableHashes (want : Finset String) (tips hidden : List Oid) : Finset String :=
  let (s, done) := match g.indexOrEmpty with
    | some entries => foldUntil Scan.full (considerBlob fromStr g) (Scan.start : Scan Oid want)
        (indexBlobs entries)
    | none => ((Scan.start : Scan Oid want), false)
  if done then s.live
  else if tips.isEmpty then s.live
  else match g.revWalk tips hidden with
    | none => s.live
    | some walk =>
      (foldUntil Scan.full (collectChangedPointers fromStr g) s (walk.filterMap (walkTrees g))).1.live

/-- `reachable_all`: nothing hidden, every ref a tip. -/
def reachableAll (want : Finset String) : Finset String :=
  reachableHashes fromStr g want ((refTips g).1 ++ (refTips g).2) []

/-! ## What the scan finds -/

/-- The hash that reading blob `id` yields, if its header and data can be read and it is a
    pointer. -/
def pointerHash (id : Oid) : Option String :=
  match g.findHeader id with
  | none => none
  | some header =>
    if header.kind ≠ .blob ∨ header.size = 0 ∨ header.size > pointerMaxBytes then none
    else match g.findObject id with
      | none => none
      | some data =>
        match parsePointer fromStr data with
        | .error _ => none
        | .ok info => some info.hash

/-- Every wanted hash that a seen blob names has been found. -/
def Accounted {want : Finset String} (s : Scan Oid want) : Prop :=
  ∀ id ∈ s.seen, ∀ h ∈ want, pointerHash fromStr g id = some h → h ∈ s.live

/-- `s'` is `s` plus the wanted hashes that the blobs `ids` name. -/
def Adds {want : Finset String} (ids : List Oid) (s s' : Scan Oid want) : Prop :=
  Accounted fromStr g s' ∧
    ∀ h, h ∈ s'.live ↔ h ∈ s.live ∨ (h ∈ want ∧ ∃ id ∈ ids, pointerHash fromStr g id = some h)

theorem considerBlob_adds {want : Finset String} (s : Scan Oid want) (id : Oid)
    (hs : Accounted fromStr g s) : Adds fromStr g [id] s (considerBlob fromStr g s id) := by
  -- every way in which the blob turns out not to be a pointer ends in `see`
  have hsee : pointerHash fromStr g id = none → Adds fromStr g [id] s (s.see id) := by
    intro hnone
    refine ⟨?_, ?_⟩
    · intro id' hid' h hw hp
      rcases Finset.mem_insert.1 hid' with rfl | hid'
      · rw [hnone] at hp; exact absurd hp (by simp)
      · exact hs id' hid' h hw hp
    · intro h
      simp [Scan.see, hnone]
  by_cases hseen : id ∈ s.seen
  · rw [considerBlob, if_pos hseen]
    refine ⟨hs, fun h => ⟨Or.inl, ?_⟩⟩
    rintro (hl | ⟨hw, id', hid', hp⟩)
    · exact hl
    · rw [List.mem_singleton] at hid'
      exact hs id hseen h hw (hid' ▸ hp)
  · rw [considerBlob, if_neg hseen]
    cases hhead : g.findHeader id with
    | none => exact hsee (by simp [pointerHash, hhead])
    | some header =>
        by_cases hskip : header.kind ≠ .blob ∨ header.size = 0 ∨ header.size > pointerMaxBytes
        · simp only [if_pos hskip]
          exact hsee (by simp only [pointerHash, hhead, if_pos hskip])
        · simp only [if_neg hskip]
          cases hobj : g.findObject id with
          | none => exact hsee (by simp only [pointerHash, hhead, if_neg hskip, hobj])
          | some data =>
              simp only
              cases hparse : parsePointer fromStr data with
              | error e =>
                  exact hsee (by simp only [pointerHash, hhead, if_neg hskip, hobj, hparse])
              | ok info =>
                  have hhash : pointerHash fromStr g id = some info.hash := by
                    simp only [pointerHash, hhead, if_neg hskip, hobj, hparse]
                  simp only
                  split_ifs with hw
                  · refine ⟨?_, ?_⟩
                    · intro id' hid' h hwh hp
                      rcases Finset.mem_insert.1 hid' with rfl | hid'
                      · rw [hhash, Option.some.injEq] at hp
                        exact Finset.mem_insert.2 (Or.inl hp.symm)
                      · exact Finset.mem_insert_of_mem (hs id' hid' h hwh hp)
                    · intro h
                      simp only [Finset.mem_insert, List.mem_singleton, exists_eq_left, hhash,
                        Option.some.injEq]
                      constructor
                      · rintro (rfl | hl)
                        · exact Or.inr ⟨hw, rfl⟩
                        · exact Or.inl hl
                      · rintro (hl | ⟨-, rfl⟩)
                        · exact Or.inr hl
                        · exact Or.inl rfl
                  · -- a pointer, but not one that is asked for
                    refine ⟨?_, ?_⟩
                    · intro id' hid' h hwh hp
                      rcases Finset.mem_insert.1 hid' with rfl | hid'
                      · rw [hhash, Option.some.injEq] at hp
                        exact absurd (hp ▸ hwh) hw
                      · exact hs id' hid' h hwh hp
                    · intro h
                      simp only [Scan.see, List.mem_singleton, exists_eq_left, hhash,
                        Option.some.injEq]
                      constructor
                      · exact Or.inl
                      · rintro (hl | ⟨hwh, rfl⟩)
                        · exact hl
                        · exact absurd hwh hw

omit [DecidableEq Oid] in
/-- **The early exits lose nothing.** A loop whose body adds what its element names adds, over the
    whole list, what all the elements name, wherever it stops. -/
theorem foldUntil_adds {α : Type} {want : Finset String} (f : Scan Oid want → α → Scan Oid want)
    (ids : α → List Oid)
    (hf : ∀ s a, Accounted fromStr g s → Adds fromStr g (ids a) s (f s a)) (l : List α)
    (s : Scan Oid want) (hs : Accounted fromStr g s) :
    Adds fromStr g (l.flatMap ids) s (foldUntil Scan.full f s l).1 := by
  have h := @foldUntil_induction _ _ Scan.full f
    (fun done s' => Adds fromStr g (done.flatMap ids) s s') ?_ ?_ l [] s ?_
  · simpa using h
  · intro done s' a hinv
    obtain ⟨hacc, hlive⟩ := hinv
    obtain ⟨hacc', hlive'⟩ := hf s' a hacc
    refine ⟨hacc', fun h => ?_⟩
    rw [hlive' h, hlive h]
    simp only [List.flatMap_append, List.mem_append, List.flatMap_cons, List.flatMap_nil,
      List.append_nil, or_and_right, exists_or, and_or_left, or_assoc]
  · intro done s' rest hinv hfull
    obtain ⟨hacc, hlive⟩ := hinv
    refine ⟨hacc, fun h => ⟨fun hl => ?_, ?_⟩⟩
    · rcases (hlive h).1 hl with hl | ⟨hw, id, hid, hp⟩
      · exact Or.inl hl
      · exact Or.inr ⟨hw, id, by
          rw [List.flatMap_append]; exact List.mem_append_left _ hid, hp⟩
    · -- a stopped scan already holds every wanted hash
      rw [Scan.live_eq_of_full hfull]
      rintro (hl | ⟨hw, -⟩)
      · exact s.sub hl
      · exact hw
  · exact ⟨hs, fun h => by simp⟩

theorem collectChangedPointers_adds {want : Finset String} (s : Scan Oid want)
    (trees : Tree Oid × Tree Oid) (hs : Accounted fromStr g s) :
    Adds fromStr g (changedBlobs g trees.1 trees.2) s
      (collectChangedPointers fromStr g s trees) := by
  have h := foldUntil_adds fromStr g (considerBlob fromStr g) (fun id => [id])
    (fun s id hs => considerBlob_adds fromStr g s id hs) (changedBlobs g trees.1 trees.2) s hs
  simpa [collectChangedPointers] using h

/-- The blobs that the walk part of the scan looks at. -/
def introducedBlobs (tips hidden : List Oid) : List Oid :=
  if tips.isEmpty then []
  else (((g.revWalk tips hidden).getD []).filterMap (walkTrees g)).flatMap
    (fun trees => changedBlobs g trees.1 trees.2)

/-- **What `reachable_hashes` returns**, whatever the reads answered: the wanted hashes named by a
    readable blob of the index or of a change the walk could list. -/
theorem mem_reachableHashes (want : Finset String) (tips hidden : List Oid) (h : String) :
    h ∈ reachableHashes fromStr g want tips hidden ↔
      h ∈ want ∧ ((∃ id ∈ indexBlobs (g.indexOrEmpty.getD []), pointerHash fromStr g id = some h) ∨
        ∃ id ∈ introducedBlobs g tips hidden, pointerHash fromStr g id = some h) := by
  -- the index loop
  set first := (match g.indexOrEmpty with
    | some entries => foldUntil Scan.full (considerBlob fromStr g) (Scan.start : Scan Oid want)
        (indexBlobs entries)
    | none => ((Scan.start : Scan Oid want), false)) with hfirst
  have hstart : Accounted fromStr g (Scan.start : Scan Oid want) := by
    intro id hid
    simp [Scan.start] at hid
  have hindex : Adds fromStr g (indexBlobs (g.indexOrEmpty.getD [])) Scan.start first.1 := by
    rw [hfirst]
    cases g.indexOrEmpty with
    | none => exact ⟨hstart, fun h => by simp [indexBlobs]⟩
    | some entries =>
        simpa using foldUntil_adds fromStr g (considerBlob fromStr g) (fun id => [id])
          (fun s id hs => considerBlob_adds fromStr g s id hs) (indexBlobs entries) Scan.start
          hstart
  have hlive : h ∈ first.1.live ↔
      h ∈ want ∧ ∃ id ∈ indexBlobs (g.indexOrEmpty.getD []), pointerHash fromStr g id = some h := by
    rw [hindex.2 h]
    simp [Scan.start]
  have hunfold : reachableHashes fromStr g want tips hidden =
      if first.2 then first.1.live
      else if tips.isEmpty then first.1.live
      else match g.revWalk tips hidden with
        | none => first.1.live
        | some walk => (foldUntil Scan.full (collectChangedPointers fromStr g) first.1
            (walk.filterMap (walkTrees g))).1.live := rfl
  rw [hunfold]
  split_ifs with hdone hempty
  · -- every wanted hash was found in the index
    have hfull : first.1.full = true := by
      rw [hfirst] at hdone ⊢
      cases hidx : g.indexOrEmpty with
      | none => rw [hidx] at hdone; simp at hdone
      | some entries =>
          rw [hidx] at hdone
          exact foldUntil_flag _ _ _ _ hdone
    have hall := Scan.live_eq_of_full hfull
    constructor
    · intro hl
      exact ⟨first.1.sub hl, Or.inl (hlive.1 hl).2⟩
    · rintro ⟨hw, -⟩
      rw [hall]; exact hw
  · rw [hlive, introducedBlobs, if_pos hempty]
    simp
  · cases hwalk : g.revWalk tips hidden with
    | none =>
        rw [hlive, introducedBlobs, if_neg hempty, hwalk]
        simp
    | some walk =>
        have hadds := foldUntil_adds fromStr g (collectChangedPointers fromStr g)
          (fun trees => changedBlobs g trees.1 trees.2)
          (fun s trees hs => collectChangedPointers_adds fromStr g s trees hs)
          (walk.filterMap (walkTrees g)) first.1 hindex.1
        simp only
        rw [hadds.2 h, hlive, introducedBlobs, if_neg hempty, hwalk, Option.getD_some]
        constructor
        · rintro (⟨hw, hid⟩ | ⟨hw, hid⟩)
          · exact ⟨hw, Or.inl hid⟩
          · exact ⟨hw, Or.inr hid⟩
        · rintro ⟨hw, hid | hid⟩
          · exact Or.inl ⟨hw, hid⟩
          · exact Or.inr ⟨hw, hid⟩

end Reachable

/-! ## In terms of the repository -/

namespace Repository

variable (fromStr : String → Option XetFileInfo) (repo : Repository Oid)

/-- The index has a regular or executable file whose blob is a pointer naming `h`. -/
def IndexNames (h : String) : Prop :=
  ∃ e ∈ repo.index, e.mode.isBlob = true ∧ repo.db.Names fromStr e.id h

/-- The tree of commit `c` has a regular or executable file whose blob names `h`. -/
def TreeNames (c : Oid) (h : String) : Prop :=
  ∃ e ∈ repo.db.tree c, e.mode.isBlob = true ∧ repo.db.Names fromStr e.id h

/-- The tree that commit `c` is diffed against: its first parent's, or the empty tree when there is
    no first parent or `F` makes it unreadable. -/
def baseTree (F : ReadFailures Oid) (c : Oid) : Tree Oid :=
  match (repo.db.parents c).head? with
  | none => []
  | some p => if F.parentTree p then [] else repo.db.tree p

/-- Some file of the index names `h` and can still be read under `F`. -/
def IndexSpared (F : ReadFailures Oid) (h : String) : Prop :=
  F.index = false ∧ ∃ e ∈ repo.index, e.mode.isBlob = true ∧ repo.db.Names fromStr e.id h ∧
    F.header e.id = false ∧ F.object e.id = false

/-- Commit `c` is delivered and readable under `F`, and has a readable file naming `h` that its
    base tree does not have. -/
def IntroducesUnder (F : ReadFailures Oid) (c : Oid) (h : String) : Prop :=
  F.walkItem c = false ∧ F.commitTree c = false ∧
    F.diffSetup (repo.baseTree F c) (repo.db.tree c) = false ∧
    ∃ e ∈ repo.db.tree c, e.mode.isBlob = true ∧ repo.db.Names fromStr e.id h ∧
      F.header e.id = false ∧ F.object e.id = false ∧
      F.diffLost (repo.baseTree F c) (repo.db.tree c) e.mode e.id = false ∧
      e ∉ repo.baseTree F c

/-- `F` leaves an occurrence of `h` readable: in the index, or introduced by a commit that is
    reachable from the tips and from no hidden tip. -/
def LiveUnder (F : ReadFailures Oid) (tips hidden : List Oid) (h : String) : Prop :=
  repo.IndexSpared fromStr F h ∨
    (F.walkSetup = false ∧
      ∃ c, repo.db.Reach tips c ∧ ¬ repo.db.Reach hidden c ∧ repo.IntroducesUnder fromStr F c h)

/-- Commit `c` has a file naming `h` that its first parent, if any, does not have. -/
def Introduces (c : Oid) (h : String) : Prop :=
  ∃ e ∈ repo.db.tree c, e.mode.isBlob = true ∧ repo.db.Names fromStr e.id h ∧
    repo.db.FirstParentLacks (fun d => e ∈ repo.db.tree d) c

/-- `h` is named from the index, or introduced by a commit that is reachable from the tips and
    from no hidden tip. -/
def Live (tips hidden : List Oid) (h : String) : Prop :=
  repo.IndexNames fromStr h ∨
    ∃ c, repo.db.Reach tips c ∧ ¬ repo.db.Reach hidden c ∧ repo.Introduces fromStr c h

/-- `h` is named from the index or from the tree of a commit reachable from any ref. -/
def Refers (h : String) : Prop :=
  repo.IndexNames fromStr h ∨
    ∃ c, repo.db.Reach (repo.localTips ++ repo.remoteTips) c ∧ repo.TreeNames fromStr c h

omit [DecidableEq Oid] in
theorem not_mem_baseTree_none (c : Oid) (e : Entry Oid) :
    e ∉ repo.baseTree (ReadFailures.none Oid) c ↔
      repo.db.FirstParentLacks (fun d => e ∈ repo.db.tree d) c := by
  unfold baseTree Dag.FirstParentLacks
  cases (repo.db.parents c).head? with
  | none => simp
  | some p => simp [ReadFailures.none]

omit [DecidableEq Oid] in
theorem liveUnder_none_iff (tips hidden : List Oid) (h : String) :
    repo.LiveUnder fromStr (ReadFailures.none Oid) tips hidden h ↔
      repo.Live fromStr tips hidden h := by
  unfold LiveUnder Live IndexSpared IndexNames IntroducesUnder Introduces
  simp only [not_mem_baseTree_none]
  simp [ReadFailures.none]

omit [DecidableEq Oid] in
/-- **First-parent diffs cover whole trees.** An entry of a visible commit that no hidden commit
    has is introduced by a visible commit. -/
theorem live_of_tree {tips hidden : List Oid} {c : Oid} {e : Entry Oid} {h : String}
    (hc : repo.db.Reach tips c) (he : e ∈ repo.db.tree c) (hmode : e.mode.isBlob = true)
    (hname : repo.db.Names fromStr e.id h)
    (hhidden : ∀ d, repo.db.Reach hidden d → e ∉ repo.db.tree d) :
    repo.Live fromStr tips hidden h := by
  obtain ⟨v, hanc, hvis, hin, hlack⟩ := repo.db.exists_introduced
    (fun d => e ∈ repo.db.tree d) (fun d => repo.db.Reach hidden d) hhidden
    (repo.db.generation c) c (Nat.le_refl _) he
  exact Or.inr ⟨v, hc.ancestor hanc, hvis, e, hin, hmode, hname, hlack⟩

omit [DecidableEq Oid] in
/-- With nothing hidden, the live hashes are the referenced ones. -/
theorem live_all_iff (h : String) :
    repo.Live fromStr (repo.localTips ++ repo.remoteTips) [] h ↔ repo.Refers fromStr h := by
  constructor
  · rintro (hidx | ⟨c, hc, -, e, he, hmode, hname, -⟩)
    · exact Or.inl hidx
    · exact Or.inr ⟨c, hc, e, he, hmode, hname⟩
  · rintro (hidx | ⟨c, hc, e, he, hmode, hname⟩)
    · exact Or.inl hidx
    · exact repo.live_of_tree fromStr hc he hmode hname
        (fun d hd => absurd hd (repo.db.not_reach_nil d))

end Repository

/-! ## Truthful reads, with failures -/

section Reads

variable (fromStr : String → Option XetFileInfo) {g : Gix Oid} {repo : Repository Oid}
  (F : ReadFailures Oid)

omit [DecidableEq Oid] in
theorem isCommit_fail (hg : g.Reads repo) (id : Oid) :
    isCommit (g.fail F) id = (!F.header id && repo.db.isCommit id) := by
  unfold isCommit ObjectDb.isCommit
  simp only [Gix.fail]
  cases F.header id with
  | true => rfl
  | false =>
      simp only [hg.findHeader id]
      cases repo.db.object id <;> rfl

omit [DecidableEq Oid] in
theorem foldl_addRefTip (hg : g.Reads repo) (refs : List (String × Oid))
    (tips : List Oid × List Oid) :
    (refs.map (fun r => F.readRef (⟨r.1, some r.2⟩ : Reference Oid))).foldl
        (addRefTip (g.fail F)) tips =
      (tips.1 ++ (refs.filter (fun r => !F.refItem r.1 && !F.peel r.1 && !F.header r.2 &&
          isRemoteName r.1 == false && repo.db.isCommit r.2)).map Prod.snd,
        tips.2 ++ (refs.filter (fun r => !F.refItem r.1 && !F.peel r.1 && !F.header r.2 &&
          isRemoteName r.1 == true && repo.db.isCommit r.2)).map Prod.snd) := by
  induction refs generalizing tips with
  | nil => simp
  | cons r refs ih =>
      rw [List.map_cons, List.foldl_cons, ih]
      simp only [ReadFailures.readRef]
      cases hi : F.refItem r.1 with
      | true => simp [addRefTip, hi]
      | false =>
          cases hp : F.peel r.1 with
          | true => simp [addRefTip, hi, hp]
          | false =>
              simp only [addRefTip, isCommit_fail F hg]
              cases hh : F.header r.2 <;> cases hc : repo.db.isCommit r.2 <;>
                cases hr : isRemoteName r.1 <;> simp [hi, hp, hh, hc, hr]

omit [DecidableEq Oid] in
theorem refTips_fail (hg : g.Reads repo) :
    refTips (g.fail F) = (repo.localTipsUnder F, repo.remoteTipsUnder F) := by
  have hhead : (match (g.fail F).headId with
      | some id => if isCommit (g.fail F) id then [id] else []
      | none => []) = (if F.head then [] else repo.head.toList.filter (fun id =>
        !F.header id && repo.db.isCommit id)) := by
    have hid : (g.fail F).headId = if F.head then none else repo.head := by
      rw [← hg.headId]
      rfl
    rw [hid]
    cases F.head with
    | true => rfl
    | false =>
        cases repo.head with
        | none => rfl
        | some id =>
            simp only [Bool.false_eq_true, if_false, isCommit_fail F hg, Option.toList_some]
            cases hh : (!F.header id && repo.db.isCommit id) <;> simp [hh]
  unfold refTips
  simp only [hhead]
  unfold Repository.localTipsUnder Repository.remoteTipsUnder Repository.refCommits
  cases hr : F.references with
  | true => simp [Gix.fail, hr]
  | false =>
      cases ha : F.referencesAll with
      | true => simp [Gix.fail, hg.references, hr, ha]
      | false =>
          have hrefs : (g.fail F).references = some (some (repo.refs.map (fun r =>
              F.readRef (⟨r.1, some r.2⟩ : Reference Oid)))) := by
            simp [Gix.fail, hg.references, hr, ha, List.map_map, Function.comp_def]
          rw [hrefs]
          simp only [foldl_addRefTip F hg, Bool.or_self, Bool.false_eq_true, if_false,
            List.nil_append]

omit [DecidableEq Oid] in
/-- A readable blob yields a hash iff it is a pointer naming it: the size and kind pre-filter
    drops no pointer. -/
theorem pointerHash_fail (hg : g.Reads repo) (id : Oid) (h : String) :
    pointerHash fromStr (g.fail F) id = some h ↔
      F.header id = false ∧ F.object id = false ∧ repo.db.Names fromStr id h := by
  unfold pointerHash ObjectDb.Names
  simp only [Gix.fail, hg.findHeader id, hg.findObject id]
  cases F.header id with
  | true => simp
  | false =>
      cases hobj : repo.db.object id with
      | none => simp
      | some o =>
          obtain ⟨kind, data⟩ := o
          simp only [Option.map_some, Option.some.injEq, Prod.mk.injEq, Bool.false_eq_true,
            if_false, true_and]
          constructor
          · intro hp
            split_ifs at hp with hskip hfail
            push Not at hskip
            cases hparse : parsePointer fromStr data with
            | error e => simp [hparse] at hp
            | ok info =>
                simp only [hparse, Option.some.injEq] at hp
                exact ⟨by simpa using hfail, data, info, ⟨hskip.1, rfl⟩, hparse, hp⟩
          · rintro ⟨hfail, data', info, ⟨rfl, rfl⟩, hparse, rfl⟩
            have hlen := parsePointer_length fromStr hparse
            rw [if_neg (by push Not; exact ⟨rfl, hlen.1, hlen.2⟩)]
            simp [hfail, hparse]

omit [DecidableEq Oid] in
theorem mem_changedBlobs_fail (hg : g.Reads repo) (a b : Tree Oid) (id : Oid) :
    id ∈ changedBlobs (g.fail F) a b ↔ F.diffSetup a b = false ∧
      ∃ e ∈ b, e.mode.isBlob = true ∧ e.id = id ∧ F.diffLost a b e.mode e.id = false ∧ e ∉ a := by
  obtain ⟨l, hl, hspec⟩ := hg.treeChanges a b
  unfold changedBlobs
  simp only [Gix.fail, hl]
  cases F.diffSetup a b with
  | true => simp
  | false =>
      simp only [Bool.false_eq_true, if_false, Option.map_some, Option.getD_some, true_and,
        List.mem_filterMap, List.mem_filter]
      constructor
      · rintro ⟨ch, ⟨hch, hdel⟩, hid⟩
        have hleaves : ∃ mode, EntryKind.isBlob mode = true ∧ ch.leaves mode id ∧
            F.diffLost a b mode id = false := by
          cases ch with
          | deletion => simp [Change.blobId?] at hid
          | addition mode id' =>
              simp only [Change.blobId?] at hid
              split_ifs at hid with hmode
              simp only [Option.some.injEq] at hid
              subst hid
              exact ⟨mode, hmode, Or.inl rfl, by simpa [ReadFailures.delivers] using hdel⟩
          | modification mode id' =>
              simp only [Change.blobId?] at hid
              split_ifs at hid with hmode
              simp only [Option.some.injEq] at hid
              subst hid
              exact ⟨mode, hmode, Or.inr rfl, by simpa [ReadFailures.delivers] using hdel⟩
        obtain ⟨mode, hmode, hleaves, hlost⟩ := hleaves
        obtain ⟨path, hb, ha⟩ := (hspec mode id).1 ⟨ch, hch, hleaves⟩
        exact ⟨⟨path, mode, id⟩, hb, hmode, rfl, hlost, ha⟩
      · rintro ⟨e, hb, hmode, rfl, hlost, ha⟩
        obtain ⟨ch, hch, hleaves⟩ := (hspec e.mode e.id).2 ⟨e.path, hb, ha⟩
        refine ⟨ch, ⟨hch, ?_⟩, ?_⟩
        · rcases hleaves with rfl | rfl <;> simp [ReadFailures.delivers, hlost]
        · rcases hleaves with rfl | rfl <;> simp [Change.blobId?, hmode]

omit [DecidableEq Oid] in
theorem mem_indexBlobs (entries : List (Entry Oid)) (id : Oid) :
    id ∈ indexBlobs entries ↔ ∃ e ∈ entries, e.mode.isBlob = true ∧ e.id = id := by
  simp only [indexBlobs, List.mem_map, List.mem_filter, and_assoc]
  constructor
  · rintro ⟨e, he, hmode, rfl⟩
    exact ⟨e, he, by cases hm : e.mode <;> simp_all [EntryKind.isBlob], rfl⟩
  · rintro ⟨e, he, hmode, rfl⟩
    exact ⟨e, he, by cases hm : e.mode <;> simp_all [EntryKind.isBlob], rfl⟩

omit [DecidableEq Oid] in
theorem parentTree_fail (hg : g.Reads repo) (c : Oid) :
    ((repo.db.parents c).head?.bind (g.fail F).parentTree).getD [] = repo.baseTree F c := by
  unfold Repository.baseTree
  cases (repo.db.parents c).head? with
  | none => rfl
  | some p =>
      simp only [Option.bind_some, Gix.fail, hg.parentTree p]
      cases F.parentTree p <;> rfl

omit [DecidableEq Oid] in
theorem mem_introducedBlobs_fail (hg : g.Reads repo) (tips hidden : List Oid)
    (htips : ∀ t ∈ tips, t ∈ repo.db.commits) (id : Oid) :
    id ∈ introducedBlobs (g.fail F) tips hidden ↔
      F.walkSetup = false ∧ ∃ c, repo.db.Reach tips c ∧ ¬ repo.db.Reach hidden c ∧
        F.walkItem c = false ∧ F.commitTree c = false ∧
          id ∈ changedBlobs (g.fail F) (repo.baseTree F c) (repo.db.tree c) := by
  obtain ⟨infos, hwalk, hspec⟩ := hg.revWalk tips hidden htips
  unfold introducedBlobs
  split_ifs with hempty
  · have hnil : tips = [] := List.isEmpty_iff.1 hempty
    subst hnil
    simp only [List.not_mem_nil, false_iff]
    rintro ⟨-, c, hc, -⟩
    exact repo.db.not_reach_nil c hc
  · have hitems : (g.fail F).revWalk tips hidden = if F.walkSetup then none
        else some ((infos.map some).map (fun item =>
          item.filter (fun info => !F.walkItem info.id))) := by
      simp [Gix.fail, hwalk]
    rw [hitems]
    cases F.walkSetup with
    | true => simp
    | false =>
        simp only [Bool.false_eq_true, if_false, Option.getD_some, true_and, List.mem_flatMap,
          List.mem_filterMap, List.mem_map]
        constructor
        · rintro ⟨trees, ⟨item, ⟨item', ⟨info, hinfo, rfl⟩, rfl⟩, htrees⟩, hid⟩
          obtain ⟨hin, hvis, hpar⟩ := (hspec info).1 hinfo
          cases hw : F.walkItem info.id with
          | true => simp [Option.filter, hw, walkTrees] at htrees
          | false =>
              cases hct : F.commitTree info.id with
              | true => simp [Option.filter, hw, walkTrees, Gix.fail, hct] at htrees
              | false =>
                  have hpair : trees = (repo.baseTree F info.id, repo.db.tree info.id) := by
                    rw [← parentTree_fail F hg, ← hpar]
                    simp only [Option.filter, hw, Bool.not_false, if_true, walkTrees] at htrees
                    have hself : (g.fail F).commitTree info.id = some (repo.db.tree info.id) := by
                      simp [Gix.fail, hct, hg.commitTree]
                    rw [hself] at htrees
                    simpa using htrees.symm
                  subst hpair
                  exact ⟨info.id, hin, hvis, hw, hct, hid⟩
        · rintro ⟨c, hin, hvis, hw, hct, hid⟩
          refine ⟨(repo.baseTree F c, repo.db.tree c), ⟨some ⟨c, repo.db.parents c⟩,
            ⟨some ⟨c, repo.db.parents c⟩, ⟨⟨c, repo.db.parents c⟩, ?_, rfl⟩, ?_⟩, ?_⟩, hid⟩
          · exact (hspec _).2 ⟨hin, hvis, rfl⟩
          · simp [Option.filter, hw]
          · have hself : (g.fail F).commitTree c = some (repo.db.tree c) := by
              simp [Gix.fail, hct, hg.commitTree]
            simp only [walkTrees, hself, parentTree_fail F hg]

/-- **`reachable_hashes` under read failures**: the wanted hashes of which the failures leave an
    occurrence readable. -/
theorem mem_reachableHashes_fail (hg : g.Reads repo) (want : Finset String)
    (tips hidden : List Oid) (htips : ∀ t ∈ tips, t ∈ repo.db.commits) (h : String) :
    h ∈ reachableHashes fromStr (g.fail F) want tips hidden ↔
      h ∈ want ∧ repo.LiveUnder fromStr F tips hidden h := by
  rw [mem_reachableHashes]
  simp only [mem_introducedBlobs_fail F hg tips hidden htips, mem_changedBlobs_fail F hg,
    pointerHash_fail fromStr F hg]
  have hidx : (∃ id ∈ indexBlobs ((g.fail F).indexOrEmpty.getD []),
      F.header id = false ∧ F.object id = false ∧ repo.db.Names fromStr id h) ↔
        repo.IndexSpared fromStr F h := by
    unfold Repository.IndexSpared
    simp only [Gix.fail, hg.indexOrEmpty]
    cases F.index with
    | true => simp [indexBlobs]
    | false =>
        simp only [Bool.false_eq_true, if_false, Option.getD_some, mem_indexBlobs, true_and]
        constructor
        · rintro ⟨id, ⟨e, he, hmode, rfl⟩, hh, ho, hn⟩
          exact ⟨e, he, hmode, hn, hh, ho⟩
        · rintro ⟨e, he, hmode, hn, hh, ho⟩
          exact ⟨e.id, ⟨e, he, hmode, rfl⟩, hh, ho, hn⟩
  rw [hidx]
  unfold Repository.LiveUnder Repository.IntroducesUnder
  constructor
  · rintro ⟨hw, hi | ⟨id, ⟨hs, c, hin, hvis, hwi, hct, hds, e, he, hmode, rfl, hl, hb⟩,
      hh, ho, hn⟩⟩
    · exact ⟨hw, Or.inl hi⟩
    · exact ⟨hw, Or.inr ⟨hs, c, hin, hvis, hwi, hct, hds, e, he, hmode, hn, hh, ho, hl, hb⟩⟩
  · rintro ⟨hw, hi | ⟨hs, c, hin, hvis, hwi, hct, hds, e, he, hmode, hn, hh, ho, hl, hb⟩⟩
    · exact ⟨hw, Or.inl hi⟩
    · exact ⟨hw, Or.inr ⟨e.id, ⟨hs, c, hin, hvis, hwi, hct, hds, e, he, hmode, rfl, hl, hb⟩,
        hh, ho, hn⟩⟩

/-- `reachable_all` under read failures. -/
theorem mem_reachableAll_fail (hg : g.Reads repo) (want : Finset String) (h : String) :
    h ∈ reachableAll fromStr (g.fail F) want ↔ h ∈ want ∧
      repo.LiveUnder fromStr F (repo.localTipsUnder F ++ repo.remoteTipsUnder F) [] h := by
  unfold reachableAll
  rw [refTips_fail F hg]
  exact mem_reachableHashes_fail fromStr F hg want _ _ (fun t ht => repo.tipsUnder_mem ht) h

/-! ## Truthful reads, no failures -/

omit [DecidableEq Oid] in
theorem refTips_reads (hg : g.Reads repo) : refTips g = (repo.localTips, repo.remoteTips) := by
  have h := refTips_fail (ReadFailures.none Oid) hg
  rwa [Gix.fail_none] at h

/-- **`reachable_hashes` on truthful reads**: the wanted hashes that are live. -/
theorem mem_reachableHashes_reads (hg : g.Reads repo) (want : Finset String)
    (tips hidden : List Oid) (htips : ∀ t ∈ tips, t ∈ repo.db.commits) (h : String) :
    h ∈ reachableHashes fromStr g want tips hidden ↔
      h ∈ want ∧ repo.Live fromStr tips hidden h := by
  have hmem := mem_reachableHashes_fail fromStr (ReadFailures.none Oid) hg want tips hidden htips h
  rwa [Gix.fail_none, repo.liveUnder_none_iff] at hmem

/-- `reachable_all` on truthful reads: the wanted hashes that are referenced. -/
theorem mem_reachableAll_reads (hg : g.Reads repo) (want : Finset String) (h : String) :
    h ∈ reachableAll fromStr g want ↔ h ∈ want ∧ repo.Refers fromStr h := by
  have hmem := mem_reachableAll_fail fromStr (ReadFailures.none Oid) hg want h
  rw [Gix.fail_none, repo.liveUnder_none_iff] at hmem
  exact hmem.trans (and_congr_right fun _ => repo.live_all_iff fromStr h)

end Reads

end BaleForGit
