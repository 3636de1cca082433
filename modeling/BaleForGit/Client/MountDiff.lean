import BaleForGit.Client.Mount

set_option autoImplicit false

/-! # What a diff mount shows (`mount/diff.rs`)

The changes between two trees become entries with a path and a blob on each side. The filters are
matched on the bytes of a path, apart from the matchers of the file system in `mount/vfs.rs`;
`filters_agree_iff` says for which filters the two select the same files. -/

namespace BaleForGit.Mount

variable {Oid : Type}

/-! ## Changes -/

/-- A change reported by the tree diff, with its location as bytes; rename tracking is off. -/
inductive Change (Oid : Type) where
  | addition (location : List UInt8) (id : Oid) (entryMode : EntryKind)
  | deletion (location : List UInt8) (id : Oid) (entryMode : EntryKind)
  | modification (location : List UInt8) (previousId id : Oid)
      (previousEntryMode entryMode : EntryKind)
  | rewrite
deriving DecidableEq, Repr

def Change.location : Change Oid → Option (List UInt8)
  | .addition location _ _ => some location
  | .deletion location _ _ => some location
  | .modification location _ _ _ _ => some location
  | .rewrite => none

inductive DiffStatus where
  | added
  | deleted
  | modified
  | other
deriving DecidableEq, Repr

structure DiffEntry (Oid : Type) where
  pathA : Option String
  pathB : Option String
  oidA : Option Oid
  oidB : Option Oid
  status : DiffStatus
deriving DecidableEq, Repr

/-- `bstr_path_matches`: `f` itself, or what is below it. -/
def bstrPathMatches (location : List UInt8) (filters : List String) : Bool :=
  filters.any (fun f =>
    let f := asBytes (trimEndSlashes f)
    if f.isEmpty then true
    else location == f ||
      (decide (location.length > f.length) && f.isPrefixOf location && location[f.length]? == some 47))

def changeInPathspec (change : Change Oid) (filters : List String) : Bool :=
  if filters.isEmpty then true
  else match change with
    | .addition location _ _ => bstrPathMatches location filters
    | .deletion location _ _ => bstrPathMatches location filters
    | .modification location _ _ _ _ => bstrPathMatches location filters
    | .rewrite => false

section RunDiff

-- the text `to_str_lossy` makes of bytes that are no UTF-8
variable (lossy : List UInt8 → String)

def bstrString (b : List UInt8) : String := (fromUtf8 b).getD (lossy b)

variable [DecidableEq Oid]

def changeToEntry : Change Oid → Option (DiffEntry Oid)
  | .addition location id entryMode =>
    if !entryMode.isBlob then none
    else some ⟨none, some (bstrString lossy location), none, some id, .added⟩
  | .deletion location id entryMode =>
    if !entryMode.isBlob then none
    else some ⟨some (bstrString lossy location), none, some id, none, .deleted⟩
  | .modification location previousId id previousEntryMode entryMode =>
    if !entryMode.isBlob && !previousEntryMode.isBlob then none
    -- only the mode has changed
    else if previousId = id then none
    else some ⟨some (bstrString lossy location), some (bstrString lossy location), some previousId,
      some id, .modified⟩
  | .rewrite => none

/-- `run_diff`, from the changes of the tree diff on. -/
def runDiff (changes : List (Change Oid)) (paths : List String) : List (DiffEntry Oid) :=
  (changes.filter (fun c => changeInPathspec c paths)).filterMap (changeToEntry lossy)

end RunDiff

/-! ## Paths of a repository -/

/-- A path: its components, none empty. -/
structure RepoPath where
  names : List String
  nonempty : names ≠ []
  names_ne : ∀ name ∈ names, name ≠ ""
  no_slash : ∀ name ∈ names, '/' ∉ name.toList

def RepoPath.text (p : RepoPath) : String := joinPath p.names

/-- A directory above a path, or the path. -/
def RepoPath.Covers (d p : RepoPath) : Prop := d.names <+: p.names

/-- A path is below the directories above it. -/
theorem RepoPath.Covers.isUnder {d p : RepoPath} (h : d.Covers p) (hd : d.names ≠ p.names) :
    Mount.isUnder p.text d.text = true := by
  obtain ⟨rest, hrest⟩ := h
  have hnil : rest ≠ [] := by
    rintro rfl
    exact hd (by rw [← hrest, List.append_nil])
  unfold RepoPath.text
  rw [← hrest]
  exact isUnder_joinPath d.nonempty hnil

theorem isUnder_empty {names : List String} (hne : ∀ name ∈ names, name ≠ "")
    (hslash : ∀ name ∈ names, '/' ∉ name.toList) : isUnder (joinPath names) "" = false := by
  rw [Bool.eq_false_iff]
  intro h
  rw [isUnder_iff, String.toList_empty, List.nil_append] at h
  cases names with
  | nil => simp [joinPath] at h
  | cons name rest =>
      have hstart : ∃ tail, (joinPath (name :: rest)).toList = name.toList ++ tail := by
        cases rest with
        | nil => exact ⟨[], (List.append_nil _).symm⟩
        | cons b rest =>
            exact ⟨_, by rw [joinPath_cons (List.cons_ne_nil _ _), String.append_assoc,
              String.toList_append]⟩
      obtain ⟨tail, htail⟩ := hstart
      cases hname : name.toList with
      | nil => exact hne name List.mem_cons_self (String.toList_eq_nil_iff.1 hname)
      | cons c cs =>
          rw [htail, hname, List.cons_append, List.cons_prefix_cons] at h
          refine hslash name List.mem_cons_self ?_
          rw [hname, ← h.1]
          exact List.mem_cons_self

/-- **What is below a text is below the components that it joins.** -/
theorem exists_of_isUnder {names : List String} (hne : ∀ name ∈ names, name ≠ "")
    (hslash : ∀ name ∈ names, '/' ∉ name.toList) {f : String} (hf : f ≠ "")
    (h : isUnder (joinPath names) f = true) :
    ∃ done rest, names = done ++ rest ∧ done ≠ [] ∧ rest ≠ [] ∧ f = joinPath done := by
  induction names generalizing f with
  | nil =>
      rw [isUnder_iff] at h
      simp [joinPath] at h
  | cons name rest ih =>
      have hname := hslash name List.mem_cons_self
      have hnot : ∀ cs : List Char, ¬ cs ++ ['/'] <+: name.toList := by
        intro cs hcs
        exact hname (hcs.subset (by simp))
      rw [isUnder_iff] at h
      by_cases hrest : rest = []
      · subst hrest
        exact absurd h (hnot _)
      · have hjoin : (joinPath (name :: rest)).toList =
            (name.toList ++ ['/']) ++ (joinPath rest).toList := by
          rw [joinPath_cons hrest, String.toList_append, String.toList_append]
          rfl
        rw [hjoin] at h
        rcases List.prefix_or_prefix_of_prefix h (List.prefix_append _ _) with hpre | hpre
        · rcases List.prefix_concat_iff.1 hpre with heq | hpre
          · exact ⟨[name], rest, rfl, List.cons_ne_nil _ _, hrest,
              String.toList_injective (List.append_cancel_right heq)⟩
          · exact absurd hpre (hnot _)
        · rcases List.prefix_concat_iff.1 hpre with heq | hpre
          · exact ⟨[name], rest, rfl, List.cons_ne_nil _ _, hrest,
              String.toList_injective (List.append_cancel_right heq).symm⟩
          · obtain ⟨g, hg⟩ := hpre
            rw [← hg, List.append_assoc, List.prefix_append_right_inj] at h
            have hunder : isUnder (joinPath rest) (String.ofList g) = true := by
              rw [isUnder_iff, String.toList_ofList]
              exact h
            have hne' := fun n hn => hne n (List.mem_cons_of_mem name hn)
            have hslash' := fun n hn => hslash n (List.mem_cons_of_mem name hn)
            have hgne : String.ofList g ≠ "" := by
              intro hempty
              rw [hempty, isUnder_empty hne' hslash'] at hunder
              cases hunder
            obtain ⟨done, rest', hsplit, hdone, hrest', hgdone⟩ := ih hne' hslash' hgne hunder
            refine ⟨name :: done, rest', by rw [hsplit]; rfl, List.cons_ne_nil _ _, hrest', ?_⟩
            refine String.toList_injective ?_
            have hglist : (joinPath done).toList = g := by rw [← hgdone, String.toList_ofList]
            rw [← hg, joinPath_cons hdone, String.toList_append, String.toList_append, hglist]
            rfl

/-! ## The two matchers -/

/-- `bytes.starts_with(f)`, and a `/` after it. -/
theorem slash_after_iff {f location : List UInt8} :
    (location.length > f.length ∧ f <+: location ∧ location[f.length]? = some 47) ↔
      f ++ [47] <+: location := by
  constructor
  · rintro ⟨-, ⟨rest, rfl⟩, hslash⟩
    rw [List.getElem?_append_right (Nat.le_refl _), Nat.sub_self] at hslash
    cases rest with
    | nil => cases hslash
    | cons b rest =>
        rw [List.prefix_append_right_inj, Option.some.inj hslash]
        exact ⟨rest, rfl⟩
  · rintro ⟨rest, rfl⟩
    refine ⟨by simp, ⟨47 :: rest, by simp⟩, by simp⟩

/-- On the bytes of a text it is the test on the text. -/
theorem slash_after_asBytes (path f : String) :
    asBytes f ++ [47] <+: asBytes path ↔ isUnder path f = true := by
  have hslash : asBytes f ++ [47] = Utf8.bytes (f.toList ++ ['/']) := by
    rw [Utf8.bytes_append, asBytes_eq]
    rfl
  rw [hslash, asBytes_eq, Utf8.bytes_isPrefix_iff, isUnder_iff]

theorem bstrPathMatches_iff (path : String) (filters : List String) :
    bstrPathMatches (asBytes path) filters = true ↔
      ∃ f ∈ filters, trimEndSlashes f = "" ∨ path = trimEndSlashes f ∨
        isUnder path (trimEndSlashes f) = true := by
  unfold bstrPathMatches
  rw [List.any_eq_true]
  refine exists_congr (fun f => and_congr_right (fun _ => ?_))
  have hempty : (asBytes (trimEndSlashes f)).isEmpty = true ↔ trimEndSlashes f = "" := by
    rw [List.isEmpty_iff, ← asBytes_inj]
    exact Iff.rfl
  simp only
  by_cases htrim : trimEndSlashes f = ""
  · rw [if_pos (hempty.2 htrim)]
    simp [htrim]
  · rw [if_neg (fun h => htrim (hempty.1 h))]
    simp only [Bool.or_eq_true, Bool.and_eq_true, beq_iff_eq, decide_eq_true_eq,
      List.isPrefixOf_iff_prefix, asBytes_inj, htrim, false_or, and_assoc]
    rw [slash_after_iff, slash_after_asBytes]

theorem pathspecMatchesFile_iff {path : String} {filters : List String} (hne : filters ≠ []) :
    pathspecMatchesFile path filters = true ↔
      ∃ f ∈ filters, path = trimEndSlashes f ∨ isUnder path (trimEndSlashes f) = true := by
  unfold pathspecMatchesFile
  rw [if_neg (by simpa using hne), List.any_eq_true]
  simp only [Bool.or_eq_true, beq_iff_eq]

/-- A change is selected by its location. -/
theorem changeInPathspec_iff {change : Change Oid} {path : String} {filters : List String}
    (hloc : change.location = some (asBytes path)) (hne : filters ≠ []) :
    changeInPathspec change filters = true ↔ bstrPathMatches (asBytes path) filters = true := by
  unfold changeInPathspec
  rw [if_neg (by simpa using hne)]
  cases change with
  | rewrite => cases hloc
  | addition location id mode => rw [Option.some.inj hloc]
  | deletion location id mode => rw [Option.some.inj hloc]
  | modification location previousId id previousMode mode => rw [Option.some.inj hloc]

/-- A text that does not end up empty names the path or a directory above it. -/
theorem RepoPath.matches_iff (p : RepoPath) {f : String} (hf : f ≠ "") :
    (p.text = f ∨ isUnder p.text f = true) ↔ ∃ d : RepoPath, d.Covers p ∧ f = d.text := by
  constructor
  · rintro (rfl | hunder)
    · exact ⟨p, List.prefix_rfl, rfl⟩
    · obtain ⟨done, rest, hsplit, hdone, -, rfl⟩ :=
        exists_of_isUnder p.names_ne p.no_slash hf hunder
      have hmem : ∀ name ∈ done, name ∈ p.names := by
        intro name hname
        rw [hsplit]
        exact List.mem_append_left _ hname
      exact ⟨⟨done, hdone, fun n hn => p.names_ne n (hmem n hn),
        fun n hn => p.no_slash n (hmem n hn)⟩, ⟨rest, hsplit.symm⟩, rfl⟩
  · rintro ⟨d, hcovers, rfl⟩
    by_cases hd : d.names = p.names
    · exact Or.inl (congrArg joinPath hd.symm)
    · exact Or.inr (hcovers.isUnder hd)

theorem RepoPath.text_ne_empty (p : RepoPath) : p.text ≠ "" :=
  joinPath_ne_empty p.nonempty p.names_ne

/-- A filter of slashes only. -/
def NamesRoot (f : String) : Prop := trimEndSlashes f = ""

/-- A filter that names the path, or a directory above it. -/
def NamesAbove (f : String) (p : RepoPath) : Prop :=
  ∃ d : RepoPath, d.Covers p ∧ trimEndSlashes f = d.text

/-- **Which files a mount shows**: those that a filter names, itself or with a directory above. -/
theorem pathspecMatchesFile_text_iff (p : RepoPath) {filters : List String} (hne : filters ≠ []) :
    pathspecMatchesFile p.text filters = true ↔ ∃ f ∈ filters, NamesAbove f p := by
  rw [pathspecMatchesFile_iff hne]
  refine exists_congr (fun f => and_congr_right (fun _ => ?_))
  by_cases htrim : trimEndSlashes f = ""
  · refine iff_of_false ?_ ?_
    · rw [htrim]
      rintro (h | h)
      · exact p.text_ne_empty h
      · have := isUnder_empty p.names_ne p.no_slash
        unfold RepoPath.text at h
        rw [this] at h
        cases h
    · rintro ⟨d, -, hd⟩
      exact d.text_ne_empty (hd ▸ htrim)
  · exact p.matches_iff htrim

/-- **Which files a diff mount shows**: all of them once a filter names the root. -/
theorem changeInPathspec_text_iff (p : RepoPath) {change : Change Oid}
    (hloc : change.location = some (asBytes p.text)) {filters : List String} (hne : filters ≠ []) :
    changeInPathspec change filters = true ↔ ∃ f ∈ filters, NamesRoot f ∨ NamesAbove f p := by
  rw [changeInPathspec_iff hloc hne, bstrPathMatches_iff]
  refine exists_congr (fun f => and_congr_right (fun _ => ?_))
  by_cases htrim : trimEndSlashes f = ""
  · exact iff_of_true (Or.inl htrim) (Or.inl htrim)
  · refine or_congr Iff.rfl ?_
    exact p.matches_iff htrim

/-- The mount and the diff mount select the same files, and the mount prunes no directory above
    one of them. -/
def FiltersAgree (Oid : Type) (p : RepoPath) (filters : List String) : Prop :=
  (∀ change : Change Oid, change.location = some (asBytes p.text) →
    (pathspecMatchesFile p.text filters = true ↔ changeInPathspec change filters = true)) ∧
  ∀ d : RepoPath, d.Covers p → d.names ≠ p.names →
    pathspecMatchesFile p.text filters = true → pathspecIntersectsDir d.text filters = true

/-- **The filters agree** unless one of them names the root and none the path. -/
theorem filters_agree_iff [Inhabited Oid] (p : RepoPath) (filters : List String) :
    FiltersAgree Oid p filters ↔
      (∀ f ∈ filters, ¬ NamesRoot f) ∨ ∃ f ∈ filters, NamesAbove f p := by
  have hprune : ∀ d : RepoPath, d.Covers p → d.names ≠ p.names →
      pathspecMatchesFile p.text filters = true → pathspecIntersectsDir d.text filters = true :=
    fun d hcovers hd => intersects_of_matches (hcovers.isUnder hd)
  by_cases hne : filters = []
  · subst hne
    refine iff_of_true ⟨fun change _ => ?_, hprune⟩ (Or.inl (by simp))
    exact iff_of_true rfl rfl
  · constructor
    · rintro ⟨hagree, -⟩
      by_contra hnot
      rw [not_or] at hnot
      obtain ⟨hroot, habove⟩ := hnot
      have hdiff : changeInPathspec (Change.deletion (asBytes p.text) (default : Oid) .blob)
          filters = true ↔ ∃ f ∈ filters, NamesRoot f ∨ NamesAbove f p :=
        changeInPathspec_text_iff p rfl hne
      have hsame := hagree (.deletion (asBytes p.text) default .blob) rfl
      rw [pathspecMatchesFile_text_iff p hne, hdiff] at hsame
      refine hroot (fun f hf hnames => habove (hsame.2 ⟨f, hf, Or.inl hnames⟩))
    · intro hcond
      refine ⟨fun change hloc => ?_, hprune⟩
      rw [pathspecMatchesFile_text_iff p hne, changeInPathspec_text_iff p hloc hne]
      constructor
      · rintro ⟨f, hf, habove⟩
        exact ⟨f, hf, Or.inr habove⟩
      · rintro ⟨f, hf, hroot | habove⟩
        · rcases hcond with hnone | hsome
          · exact absurd hroot (hnone f hf)
          · exact hsome
        · exact ⟨f, hf, habove⟩

def docsPath : RepoPath := ⟨["docs"], by decide, by decide, by decide⟩

/-- The filter `/` selects all changes, and no file of the mount. -/
theorem root_filter_disagrees : ¬ FiltersAgree Nat docsPath ["/"] := by
  rintro ⟨hagree, -⟩
  have hsame := hagree (.deletion (asBytes docsPath.text) 0 .blob) rfl
  exact absurd hsame (by decide)

end BaleForGit.Mount
