import BaleForGit.Library.Results
import BaleForGit.Library.Table
import BaleForGit.Client.GcSafety

set_option autoImplicit false

/-! # What a push advertises (`push_pending.rs`: `run`, `reachable_pointers`)

As a pre-push hook, push-pending reads from its input which refs are pushed, walks the commits that
the remote does not have, and collects the pointers that each of them changes against its first
parent. These, and the staged files, are what it makes sure the remote's server has.

What git reports is read word by word (`readRefUpdates`); an update that is not understood is
skipped. `pushWalk` are the items of the walk: for tips that are commits, without hidden tips if the
walk with them cannot be set up. What the run does for each file on the network is the environment's
(`PushEnv`).

`push_backed_iff` says when a run that succeeds has taken care of every pointer of the pushed
commits; `walkCovers_of_commits` that it has for pushes of commits whose walk does not fail. -/

namespace BaleForGit

namespace Push

/-! ## The input -/

/-- One line of git's: the refs are as they were given on the command line, and a missing sha is
    written as the null one. -/
structure RefUpdate (Oid : Type) where
  localRef : String
  localSha : Option Oid
  remoteRef : String
  remoteSha : Option Oid
deriving DecidableEq, Repr

/-- How object ids are written and read: `ObjectId::from_hex`, and the null id. -/
structure Hex (Oid : Type) where
  fromHex : String → Option Oid
  toHex : Oid → String
  null : Oid

section Input

variable {Oid : Type} [DecidableEq Oid] (hex : Hex Oid)

def updateLine (u : RefUpdate Oid) : String :=
  u.localRef ++ " " ++ hex.toHex (u.localSha.getD hex.null) ++ " " ++ u.remoteRef ++ " " ++
    hex.toHex (u.remoteSha.getD hex.null)

/-- What git writes to the hook. -/
def updatesText (us : List (RefUpdate Oid)) : String :=
  String.ofList (us.flatMap (fun u => (updateLine hex u).toList ++ ['\n']))

/-- `str::lines`. -/
def textLines (text : String) : List String :=
  let parts := text.toList.splitOnP (fun c => c == '\n')
  (if parts.getLast? = some [] then parts.dropLast else parts).map (fun line =>
    String.ofList (if line.getLast? = some '\r' then line.dropLast else line))

/-- `split_whitespace`. -/
def splitWhitespace (line : String) : List String :=
  ((line.toList.splitOnP isWhiteSpace).filter (fun word => !word.isEmpty)).map String.ofList

/-- `parse_oid`. -/
def parseOid (s : String) : Option Oid :=
  match hex.fromHex s with
  | none => none
  | some oid => if oid = hex.null then none else some oid

/-- One line; a delete and what cannot be parsed are skipped. -/
def parseUpdate (line : String) : Option (Oid × Option Oid) :=
  match splitWhitespace line with
  | _ :: localSha :: _ :: remoteSha :: _ =>
    (parseOid hex localSha).map (fun oid => (oid, parseOid hex remoteSha))
  | _ => none

/-- `read_ref_updates_from_stdin`. -/
def readRefUpdates (stdin : String) : List (Oid × Option Oid) :=
  (textLines stdin).filterMap (parseUpdate hex)

/-! ## What git writes is read back -/

/-- A word of a line. -/
def IsWord (word : String) : Prop :=
  word.toList ≠ [] ∧ ∀ c ∈ word.toList, isWhiteSpace c = false

theorem isWord_of_all {word : String} (hne : word.toList ≠ [])
    (h : word.toList.all (fun c => !isWhiteSpace c) = true) : IsWord word := by
  refine ⟨hne, fun c hc => ?_⟩
  simpa using List.all_eq_true.1 h c hc

/-- What git writes for an update is four words, and the ids are read back. -/
structure RefUpdate.Readable (hex : Hex Oid) (u : RefUpdate Oid) : Prop where
  localRef : IsWord u.localRef
  localWord : IsWord (hex.toHex (u.localSha.getD hex.null))
  remoteRef : IsWord u.remoteRef
  remoteWord : IsWord (hex.toHex (u.remoteSha.getD hex.null))
  localSha : parseOid hex (hex.toHex (u.localSha.getD hex.null)) = u.localSha
  remoteSha : parseOid hex (hex.toHex (u.remoteSha.getD hex.null)) = u.remoteSha

omit [DecidableEq Oid] in
theorem updateLine_toList (u : RefUpdate Oid) : (updateLine hex u).toList =
    u.localRef.toList ++ ' ' :: ((hex.toHex (u.localSha.getD hex.null)).toList ++
      ' ' :: (u.remoteRef.toList ++ ' ' :: (hex.toHex (u.remoteSha.getD hex.null)).toList)) := by
  simp [updateLine, String.toList_append]

/-- Four words are taken apart again. -/
theorem splitWhitespace_updateLine {u : RefUpdate Oid} (hu : u.Readable hex) :
    splitWhitespace (updateLine hex u) =
      [u.localRef, hex.toHex (u.localSha.getD hex.null), u.remoteRef,
        hex.toHex (u.remoteSha.getD hex.null)] := by
  have hspace : isWhiteSpace ' ' = true := by decide
  have hword : ∀ word, IsWord word → (!word.toList.isEmpty) = true := by
    intro word hword
    simpa using hword.1
  unfold splitWhitespace
  rw [updateLine_toList, List.splitOnP_append_cons_of_forall_mem hu.localRef.2 _ hspace,
    List.splitOnP_append_cons_of_forall_mem hu.localWord.2 _ hspace,
    List.splitOnP_append_cons_of_forall_mem hu.remoteRef.2 _ hspace,
    List.splitOnP_eq_singleton hu.remoteWord.2]
  simp only [List.filter_cons, hword _ hu.localRef, hword _ hu.localWord, hword _ hu.remoteRef,
    hword _ hu.remoteWord, if_true, List.filter_nil, List.map_cons, List.map_nil,
    String.ofList_toList]

omit [DecidableEq Oid] in
/-- Lines without a line break, and without a carriage return at the end, are taken apart again. -/
theorem textLines_updatesText {us : List (RefUpdate Oid)}
    (hbreak : ∀ u ∈ us, ∀ c ∈ (updateLine hex u).toList, c ≠ '\n')
    (hend : ∀ u ∈ us, (updateLine hex u).toList.getLast? ≠ some '\r') :
    textLines (updatesText hex us) = us.map (updateLine hex) := by
  have hsplit : (us.flatMap (fun u => (updateLine hex u).toList ++ ['\n'])).splitOnP
      (fun c => c == '\n') = us.map (fun u => (updateLine hex u).toList) ++ [[]] := by
    clear hend
    induction us with
    | nil => rfl
    | cons u us ih =>
        have hfirst : ∀ c ∈ (updateLine hex u).toList, (c == '\n') = false := by
          intro c hc
          simpa using hbreak u (List.mem_cons_self ..) c hc
        rw [List.flatMap_cons, List.append_assoc, List.singleton_append,
          List.splitOnP_append_cons_of_forall_mem hfirst _ (by rfl),
          ih (fun v hv => hbreak v (List.mem_cons_of_mem _ hv)), List.map_cons, List.cons_append]
  unfold textLines updatesText
  simp only [String.toList_ofList, hsplit, List.getLast?_append, List.getLast?_singleton,
    Option.some_or, if_true, List.dropLast_concat, List.map_map]
  refine List.map_congr_left (fun u hu => ?_)
  simp only [Function.comp_apply]
  rw [if_neg (hend u hu), String.ofList_toList]

/-- **The hook reads what git writes**, but for the deletes. -/
theorem readRefUpdates_text {us : List (RefUpdate Oid)} (hus : ∀ u ∈ us, u.Readable hex) :
    readRefUpdates hex (updatesText hex us) =
      us.filterMap (fun u => u.localSha.map (fun id => (id, u.remoteSha))) := by
  have hword : ∀ word, IsWord word → ∀ c ∈ word.toList, c ≠ '\n' := by
    rintro word ⟨-, hword⟩ c hc rfl
    exact absurd (hword '\n' hc) (by decide)
  have hlines : textLines (updatesText hex us) = us.map (updateLine hex) := by
    refine textLines_updatesText hex (fun u hu c hc => ?_) (fun u hu hend => ?_)
    · rw [updateLine_toList] at hc
      simp only [List.mem_append, List.mem_cons] at hc
      obtain hc | rfl | hc | rfl | hc | rfl | hc := hc
      · exact hword _ (hus u hu).localRef c hc
      · decide
      · exact hword _ (hus u hu).localWord c hc
      · decide
      · exact hword _ (hus u hu).remoteRef c hc
      · decide
      · exact hword _ (hus u hu).remoteWord c hc
    · -- the last word is not empty, so that the line's last character is in it
      have hne := (hus u hu).remoteWord.1
      rw [updateLine_toList, List.getLast?_append, List.getLast?_cons, List.getLast?_append,
        List.getLast?_cons, List.getLast?_append, List.getLast?_cons,
        List.getLast?_eq_some_getLast hne] at hend
      simp only [Option.getD_some, Option.some_or, Option.some.injEq] at hend
      have hin := List.getLast_mem hne
      rw [hend] at hin
      exact absurd ((hus u hu).remoteWord.2 '\r' hin) (by decide)
  unfold readRefUpdates
  rw [hlines, List.filterMap_map]
  refine List.filterMap_congr (fun u hu => ?_)
  simp only [Function.comp_apply, parseUpdate, splitWhitespace_updateLine hex (hus u hu),
    (hus u hu).localSha, (hus u hu).remoteSha]

end Input

/-! ## The pointers that are pushed -/

section Reachable

variable {Oid : Type} [DecidableEq Oid] (fromStr : String → Option XetFileInfo)

/-- `consider_blob`. -/
def considerBlob (g : Gix Oid) (out : List (String × Nat)) (id : Oid) : List (String × Nat) :=
  match g.findHeader id with
  | none => out
  | some header =>
    if header.kind ≠ .blob ∨ header.size = 0 ∨ header.size > pointerMaxBytes then out
    else match g.findObject id with
      | none => out
      | some data =>
        match parsePointer fromStr data with
        | .error _ => out
        | .ok info =>
          match info.fileSize with
          | none => out
          | some size => Table.upsert Prod.fst out (info.hash, size)

/-- `collect_changed_pointers`. -/
def collectChangedPointers (g : Gix Oid) (out : List (String × Nat))
    (trees : Tree Oid × Tree Oid) : List (String × Nat) :=
  (changedBlobs g trees.1 trees.2).foldl (considerBlob fromStr g) out

/-- `collect_delta`: whether the walk could be set up, and what it has collected. -/
def collectDelta (g : Gix Oid) (tips hidden : List Oid) (out : List (String × Nat)) :
    Bool × List (String × Nat) :=
  match g.revWalk tips hidden with
  | none => (false, out)
  | some walk => (true, (walk.filterMap (walkTrees g)).foldl (collectChangedPointers fromStr g) out)

/-- `reachable_pointers`; there may be no repository. -/
def reachablePointers (repo : Option (Gix Oid)) (updates : List (Oid × Option Oid)) :
    List (String × Nat) :=
  match repo with
  | none => []
  | some g =>
    let tips := (updates.map Prod.fst).filter (isCommit g)
    if tips.isEmpty then []
    else
      let hidden := updates.filterMap Prod.snd
      match collectDelta fromStr g tips hidden [] with
      | (true, out) => out
      | (false, out) => if hidden.isEmpty then out else (collectDelta fromStr g tips [] []).2

/-- The items of the walk that `reachable_pointers` goes through. -/
def pushWalk (repo : Option (Gix Oid)) (updates : List (Oid × Option Oid)) :
    List (Option (WalkInfo Oid)) :=
  match repo with
  | none => []
  | some g =>
    let tips := (updates.map Prod.fst).filter (isCommit g)
    if tips.isEmpty then []
    else
      let hidden := updates.filterMap Prod.snd
      match g.revWalk tips hidden with
      | some walk => walk
      | none => if hidden.isEmpty then [] else (g.revWalk tips []).getD []

end Reachable

/-! ## The run -/

/-- What a run finds, in order; an error is its text. -/
structure PushEnv (Oid : Type) where
  localMode : Bool
  gitDir : Bool
  remoteUrl : Option String
  /-- `list_staged_files`. -/
  staged : Except String (List (String × Option Nat))
  /-- There is a remote name. -/
  hookMode : Bool
  stdin : Except String String
  /-- `gix::discover`. -/
  repo : Option (Gix Oid)
  /-- The runtime, the authorization and the sessions. -/
  setup : Option String
  /-- `re_translate_one` of a staged file. -/
  retranslate : String × Nat → Option String
  /-- The client for the probe is there. -/
  probe : Bool
  /-- `file_registered_on_target`. -/
  registered : String → Bool
  /-- `re_translate_from_any`. -/
  resource : String × Nat → Option String
  finalize : Option String

/-- The files of a run that has succeeded: the staged ones, and what `reachable_pointers` returned. -/
structure PushReport where
  staged : List (String × Nat)
  reachable : List (String × Nat)
deriving DecidableEq, Repr

section Run

variable {Oid : Type} [DecidableEq Oid] (fromStr : String → Option XetFileInfo) (hex : Hex Oid)

/-- A step that may fail. -/
def check (error : Option String) : Except String Unit :=
  match error with
  | some text => .error text
  | none => .ok ()

/-- A staged file without a size is an error. -/
def sizedMarker (f : String × Option Nat) : Except String (String × Nat) :=
  match f.2 with
  | some size => .ok (f.1, size)
  | none => .error ("staged marker for " ++ f.1 ++ " has no size — was it written by an older " ++
      "client? Run `git add` again to re-stage with a size.")

/-- The staged file that `from_refs` leaves out. -/
def fromRefs (report : PushReport) : List (String × Nat) :=
  report.reachable.filter (fun f => decide (f.1 ∉ report.staged.map Prod.fst))

/-- The upload of a report's files. -/
def uploadFiles (env : PushEnv Oid) (report : PushReport) : Except String Unit := do
  check env.setup
  report.staged.forM (fun f => check (env.retranslate f))
  (fromRefs report).forM (fun f =>
    if env.probe && env.registered f.1 then .ok () else check (env.resource f))
  check env.finalize

/-- What the pushed refs advertise; nothing is read when the run is not a hook. -/
def hookPointers (env : PushEnv Oid) : Except String (List (String × Nat)) :=
  if env.hookMode then
    env.stdin.map (fun stdin => reachablePointers fromStr env.repo (readRefUpdates hex stdin))
  else .ok []

/-- `run`, up to the drain; `none` in local mode. -/
def pushPending (env : PushEnv Oid) : Except String (Option PushReport) :=
  if env.localMode then .ok none
  else if !env.gitDir then .error "not inside a git repository"
  else do
    check env.remoteUrl
    let listed ← env.staged
    let staged ← listed.mapM sizedMarker
    let reachable ← hookPointers fromStr hex env
    let report := ⟨staged, reachable⟩
    if staged.isEmpty && (fromRefs report).isEmpty then return some report
    else do
      uploadFiles env report
      return some report

end Run

/-! ## What a succeeding run has done -/

section Ok

variable {Oid : Type} [DecidableEq Oid] {fromStr : String → Option XetFileInfo} {hex : Hex Oid}
  {env : PushEnv Oid} {report : PushReport}

theorem check_eq_ok {error : Option String} : check error = .ok () ↔ error = none := by
  cases error <;> simp [check]

/-- A run that succeeds, step by step. -/
theorem pushPending_ok (hok : pushPending fromStr hex env = .ok (some report)) :
    (∃ listed, env.staged = .ok listed ∧ listed.mapM sizedMarker = .ok report.staged) ∧
      hookPointers fromStr hex env = .ok report.reachable ∧
      ((report.staged = [] ∧ fromRefs report = []) ∨ uploadFiles env report = .ok ()) := by
  unfold pushPending at hok
  split_ifs at hok
  · simp at hok
  · obtain ⟨-, -, hok⟩ := Results.bind_eq_ok.1 hok
    obtain ⟨listed, hlisted, hok⟩ := Results.bind_eq_ok.1 hok
    obtain ⟨staged, hstaged, hok⟩ := Results.bind_eq_ok.1 hok
    obtain ⟨reachable, hreachable, hok⟩ := Results.bind_eq_ok.1 hok
    simp only at hok
    split_ifs at hok with hempty
    · simp only [pure, Except.pure, Except.ok.injEq, Option.some.injEq] at hok
      subst hok
      rw [Bool.and_eq_true, List.isEmpty_iff, List.isEmpty_iff] at hempty
      exact ⟨⟨listed, hlisted, hstaged⟩, hreachable, Or.inl hempty⟩
    · obtain ⟨_, hupload, hok⟩ := Results.bind_eq_ok.1 hok
      simp only [pure, Except.pure, Except.ok.injEq, Option.some.injEq] at hok
      subst hok
      exact ⟨⟨listed, hlisted, hstaged⟩, hreachable, Or.inr hupload⟩

/-- A run that succeeds has the pointers of the refs that it read. -/
theorem reachable_of_ok (hhook : env.hookMode = true) {stdin : String} (hstdin : env.stdin = .ok stdin)
    (hok : pushPending fromStr hex env = .ok (some report)) :
    report.reachable = reachablePointers fromStr env.repo (readRefUpdates hex stdin) := by
  obtain ⟨-, hreachable, -⟩ := pushPending_ok hok
  unfold hookPointers at hreachable
  rw [if_pos hhook, hstdin] at hreachable
  exact (Except.ok.inj hreachable).symm

/-- **Nothing that it names is left out**: each staged file was uploaded, and each other one was found
    registered or was sourced from another remote, before the session was finalized. -/
theorem uploaded_of_ok (hok : pushPending fromStr hex env = .ok (some report)) :
    (∀ f ∈ report.staged, env.retranslate f = none) ∧
      ∀ f ∈ report.reachable, f.1 ∈ report.staged.map Prod.fst ∨
        (env.probe = true ∧ env.registered f.1 = true) ∨ env.resource f = none := by
  have hleft : ∀ f ∈ report.reachable, f.1 ∈ report.staged.map Prod.fst ∨ f ∈ fromRefs report := by
    intro f hf
    by_cases hin : f.1 ∈ report.staged.map Prod.fst
    · exact Or.inl hin
    · exact Or.inr (List.mem_filter.2 ⟨hf, by simpa using hin⟩)
  obtain ⟨-, -, ⟨hstaged, hrefs⟩ | hupload⟩ := pushPending_ok hok
  · rw [hstaged]
    refine ⟨by simp, fun f hf => ?_⟩
    obtain hin | hin := hleft f hf
    · rw [hstaged] at hin
      exact Or.inl hin
    · rw [hrefs] at hin
      exact absurd hin List.not_mem_nil
  · unfold uploadFiles at hupload
    obtain ⟨-, -, hupload⟩ := Results.bind_eq_ok.1 hupload
    obtain ⟨_, hstaged, hupload⟩ := Results.bind_eq_ok.1 hupload
    obtain ⟨_, hrefs, -⟩ := Results.bind_eq_ok.1 hupload
    refine ⟨fun f hf => check_eq_ok.1 (Results.forM_eq_ok.1 hstaged f hf), fun f hf => ?_⟩
    obtain hin | hin := hleft f hf
    · exact Or.inl hin
    · have hstep := Results.forM_eq_ok.1 hrefs f hin
      split_ifs at hstep with hregistered
      · exact Or.inr (Or.inl (by simpa using hregistered))
      · exact Or.inr (Or.inr (check_eq_ok.1 hstep))

end Ok

/-! ## What the walk finds -/

section Walk

variable {Oid : Type} [DecidableEq Oid] (fromStr : String → Option XetFileInfo)

/-- Blob `id` is a pointer with a size, and names the file hash `h`. -/
def NamesSized (db : ObjectDb Oid) (id : Oid) (h : String) : Prop :=
  ∃ data info, db.object id = some (.blob, data) ∧ parsePointer fromStr data = .ok info ∧
    info.hash = h ∧ info.fileSize.isSome = true

/-- `g` answers truthfully about `repo`, but for its walks: of these, only the parents of the commits
    that they deliver are known. -/
structure ReadsButWalk (g : Gix Oid) (repo : Repository Oid) : Prop where
  findHeader : ∀ id, g.findHeader id = (repo.db.object id).map (fun o => ⟨o.1, o.2.length⟩)
  findObject : ∀ id, g.findObject id = (repo.db.object id).map Prod.snd
  commitTree : ∀ c, g.commitTree c = some (repo.db.tree c)
  parentTree : ∀ c, g.parentTree c = some (repo.db.tree c)
  treeChanges : ∀ a b, ∃ l, g.treeChanges a b = some l ∧
    ∀ mode id, (∃ ch ∈ l, ch.leaves mode id) ↔ ∃ path, ⟨path, mode, id⟩ ∈ b ∧ ⟨path, mode, id⟩ ∉ a
  parents : ∀ tips hidden walk, g.revWalk tips hidden = some walk →
    ∀ info, some info ∈ walk → info.parentIds = repo.db.parents info.id

/-- Entry `e` is in the tree of `c` and not in its first parent's. -/
def IntroducesEntry (repo : Repository Oid) (c : Oid) (e : Entry Oid) : Prop :=
  e ∈ repo.db.tree c ∧ repo.db.FirstParentLacks (fun d => e ∈ repo.db.tree d) c

/-- Commit `c` has a regular or executable file that its first parent has not, with a pointer with a
    size that names `h`. -/
def IntroducesSized (repo : Repository Oid) (c : Oid) (h : String) : Prop :=
  ∃ e, IntroducesEntry repo c e ∧ e.mode.isBlob = true ∧ NamesSized fromStr repo.db e.id h

variable {g : Gix Oid} {repo : Repository Oid}

omit [DecidableEq Oid] in
/-- A blob is collected exactly if it is a pointer with a size: the size and kind pre-filter drops none. -/
theorem mem_considerBlob (hg : ReadsButWalk g repo) {out : List (String × Nat)} {id : Oid}
    {h : String} : h ∈ (considerBlob fromStr g out id).map Prod.fst ↔
      h ∈ out.map Prod.fst ∨ NamesSized fromStr repo.db id h := by
  unfold considerBlob NamesSized
  simp only [hg.findHeader id, hg.findObject id]
  cases hobj : repo.db.object id with
  | none => simp
  | some o =>
      obtain ⟨kind, data⟩ := o
      simp only [Option.map_some, Option.some.injEq, Prod.mk.injEq]
      split_ifs with hskip
      · refine ⟨Or.inl, fun hor => hor.resolve_right ?_⟩
        rintro ⟨data', info, ⟨rfl, rfl⟩, hparse, -⟩
        have hlen := parsePointer_length fromStr hparse
        simp only [ne_eq, not_true, false_or] at hskip
        omega
      · push Not at hskip
        obtain ⟨rfl, -, -⟩ := hskip
        cases hparse : parsePointer fromStr data with
        | error e => simp [hparse]
        | ok info =>
            cases hsize : info.fileSize with
            | none => simp [hparse, hsize]
            | some size =>
                simp only [hsize, Table.mem_keys_upsert]
                constructor
                · rintro (hout | rfl)
                  · exact Or.inl hout
                  · exact Or.inr ⟨data, info, ⟨trivial, rfl⟩, hparse, rfl, by rw [hsize]; rfl⟩
                · rintro (hout | ⟨data', info', ⟨-, rfl⟩, hparse', rfl, -⟩)
                  · exact Or.inl hout
                  · rw [hparse, Except.ok.injEq] at hparse'
                    exact Or.inr (by rw [hparse'])

omit [DecidableEq Oid] in
theorem mem_foldl_considerBlob (hg : ReadsButWalk g repo) {ids : List Oid}
    {out : List (String × Nat)} {h : String} :
    h ∈ (ids.foldl (considerBlob fromStr g) out).map Prod.fst ↔
      h ∈ out.map Prod.fst ∨ ∃ id ∈ ids, NamesSized fromStr repo.db id h := by
  induction ids generalizing out with
  | nil => simp
  | cons id ids ih =>
      rw [List.foldl_cons, ih, mem_considerBlob fromStr hg, or_assoc]
      simp

omit [DecidableEq Oid] in
/-- The diff shows the files that the older tree does not have. -/
theorem mem_changedBlobs [DecidableEq Oid] (hg : ReadsButWalk g repo) (a b : Tree Oid) (id : Oid) :
    id ∈ changedBlobs g a b ↔ ∃ e ∈ b, e.mode.isBlob = true ∧ e.id = id ∧ e ∉ a := by
  have hreads : ({ repo.gix with treeChanges := g.treeChanges } : Gix Oid).Reads repo :=
    { repo.gix_reads with treeChanges := hg.treeChanges }
  have h := mem_changedBlobs_fail (ReadFailures.none Oid) hreads a b id
  rw [Gix.fail_none] at h
  simpa [ReadFailures.none, changedBlobs] using h

omit [DecidableEq Oid] in
/-- The trees that are diffed for a commit which the walk delivers. -/
theorem walkTrees_some (hg : ReadsButWalk g repo) {info : WalkInfo Oid}
    (hparents : info.parentIds = repo.db.parents info.id) : ∃ base,
      walkTrees g (some info) = some (base, repo.db.tree info.id) ∧
        ∀ e, e ∉ base ↔ repo.db.FirstParentLacks (fun d => e ∈ repo.db.tree d) info.id := by
  refine ⟨((repo.db.parents info.id).head?.bind g.parentTree).getD [], ?_, fun e => ?_⟩
  · unfold walkTrees
    simp only [hg.commitTree, hparents]
  · unfold Dag.FirstParentLacks
    cases (repo.db.parents info.id).head? with
    | none => simp
    | some p => simp [hg.parentTree p]

/-- **What one walk collects**: what the commits that it delivers introduce. -/
theorem mem_collect (hg : ReadsButWalk g repo) {tips hidden : List Oid}
    {walk : List (Option (WalkInfo Oid))} (hwalk : g.revWalk tips hidden = some walk) {h : String} :
    h ∈ ((walk.filterMap (walkTrees g)).foldl (collectChangedPointers fromStr g) []).map Prod.fst ↔
      ∃ info, some info ∈ walk ∧ IntroducesSized fromStr repo info.id h := by
  have hparents := hg.parents tips hidden walk hwalk
  have hfold : ∀ (items : List (Tree Oid × Tree Oid)) (out : List (String × Nat)),
      h ∈ (items.foldl (collectChangedPointers fromStr g) out).map Prod.fst ↔
        h ∈ out.map Prod.fst ∨ ∃ trees ∈ items, ∃ id ∈ changedBlobs g trees.1 trees.2,
          NamesSized fromStr repo.db id h := by
    intro items
    induction items with
    | nil => simp
    | cons trees items ih =>
        intro out
        rw [List.foldl_cons, ih]
        unfold collectChangedPointers
        rw [mem_foldl_considerBlob fromStr hg, or_assoc]
        simp
  rw [hfold]
  simp only [List.map_nil, List.not_mem_nil, false_or, List.mem_filterMap]
  constructor
  · rintro ⟨trees, ⟨item, hitem, htrees⟩, id, hid, hnames⟩
    cases item with
    | none => simp [walkTrees] at htrees
    | some info =>
        obtain ⟨base, heq, hbase⟩ := walkTrees_some hg (hparents info hitem)
        rw [heq, Option.some.injEq] at htrees
        subst htrees
        obtain ⟨e, he, hmode, rfl, hnew⟩ := (mem_changedBlobs hg _ _ id).1 hid
        exact ⟨info, hitem, e, ⟨he, (hbase e).1 hnew⟩, hmode, hnames⟩
  · rintro ⟨info, hitem, e, ⟨he, hlacks⟩, hmode, hnames⟩
    obtain ⟨base, heq, hbase⟩ := walkTrees_some hg (hparents info hitem)
    exact ⟨_, ⟨some info, hitem, heq⟩, e.id,
      (mem_changedBlobs hg _ _ _).2 ⟨e, he, hmode, rfl, (hbase e).2 hlacks⟩, hnames⟩

/-- A commit that the walk of a push delivers. -/
def Delivered (env : Option (Gix Oid)) (updates : List (Oid × Option Oid)) (c : Oid) : Prop :=
  ∃ info, some info ∈ pushWalk env updates ∧ info.id = c

/-- **What `reachable_pointers` returns**: what the commits that its walk delivers introduce. -/
theorem mem_reachablePointers {env : Option (Gix Oid)}
    (hg : ∀ g, env = some g → ReadsButWalk g repo) {updates : List (Oid × Option Oid)} {h : String} :
    h ∈ (reachablePointers fromStr env updates).map Prod.fst ↔
      ∃ c, Delivered env updates c ∧ IntroducesSized fromStr repo c h := by
  have hiff : (∃ c, Delivered env updates c ∧ IntroducesSized fromStr repo c h) ↔
      ∃ info, some info ∈ pushWalk env updates ∧ IntroducesSized fromStr repo info.id h := by
    unfold Delivered
    constructor
    · rintro ⟨c, ⟨info, hinfo, rfl⟩, hintro⟩
      exact ⟨info, hinfo, hintro⟩
    · rintro ⟨info, hinfo, hintro⟩
      exact ⟨info.id, ⟨info, hinfo, rfl⟩, hintro⟩
  rw [hiff]
  unfold reachablePointers pushWalk
  cases henv : env with
  | none => simp
  | some g =>
      have hreads := hg g henv
      simp only
      by_cases htips : ((updates.map Prod.fst).filter (isCommit g)).isEmpty
      · rw [if_pos htips, if_pos htips]
        simp
      · rw [if_neg htips, if_neg htips]
        unfold collectDelta
        cases hwalk : g.revWalk ((updates.map Prod.fst).filter (isCommit g))
            (updates.filterMap Prod.snd) with
        | some walk => exact mem_collect fromStr hreads hwalk
        | none =>
            simp only
            by_cases hhidden : (updates.filterMap Prod.snd).isEmpty
            · rw [if_pos hhidden, if_pos hhidden]
              simp
            · rw [if_neg hhidden, if_neg hhidden]
              cases hretry : g.revWalk ((updates.map Prod.fst).filter (isCommit g)) [] with
              | some walk => exact mem_collect fromStr hreads hretry
              | none => simp

end Walk

/-! ## What is pushed -/

section Pushed

variable {Oid : Type} [DecidableEq Oid] (fromStr : String → Option XetFileInfo)
  (repo : Repository Oid) (peel : Oid → Option Oid) (us : List (RefUpdate Oid))

/-- The commits that the pushed refs lead to. -/
def localTips : List Oid := us.filterMap (fun u => u.localSha.bind peel)

/-- The commits that the refs had led to on the remote. -/
def reportedTips : List Oid := us.filterMap (fun u => u.remoteSha.bind peel)

/-- A commit that is pushed and that the remote does not have. -/
def Sent (c : Oid) : Prop :=
  repo.db.Reach (localTips peel us) c ∧ ¬ repo.db.Reach (reportedTips peel us) c

/-- A commit that the remote has has the blob at the same path. -/
def AtRemote (e : Entry Oid) : Prop :=
  ∃ d, repo.db.Reach (reportedTips peel us) d ∧
    ∃ e' ∈ repo.db.tree d, e'.path = e.path ∧ e'.id = e.id ∧ e'.mode.isBlob = true

/-- Every pointer with a size in the tree of a commit that is sent names one of the files, unless the
    remote has it at that path. -/
def Backed (files : List String) : Prop :=
  ∀ c e h, Sent repo peel us c → e ∈ repo.db.tree c → e.mode.isBlob = true →
    NamesSized fromStr repo.db e.id h → ¬ AtRemote repo peel us e → h ∈ files

/-- What a commit introduces that is sent but not delivered by the walk is staged, at the remote, or
    introduced by a commit that is delivered, too. -/
def WalkCovers (env : Option (Gix Oid)) (updates : List (Oid × Option Oid)) (staged : List String) :
    Prop :=
  ∀ c e h, Sent repo peel us c → ¬ Delivered env updates c → IntroducesEntry repo c e →
    e.mode.isBlob = true → NamesSized fromStr repo.db e.id h → ¬ AtRemote repo peel us e →
      h ∈ staged ∨ ∃ d, Delivered env updates d ∧ IntroducesSized fromStr repo d h

variable {fromStr repo peel us}

omit [DecidableEq Oid] in
theorem Sent.ancestor {c v : Oid} (h : Sent repo peel us c) (hanc : repo.db.Ancestor c v)
    (hnot : ¬ repo.db.Reach (reportedTips peel us) v) : Sent repo peel us v :=
  ⟨h.1.ancestor hanc, hnot⟩

/-- **The walk is complete on what it covers**: down the first parents of a commit there is one that
    introduces its entry, and it is delivered or covered. -/
theorem backed_iff {env : Option (Gix Oid)} (hg : ∀ g, env = some g → ReadsButWalk g repo)
    {updates : List (Oid × Option Oid)} {staged : List String} :
    Backed fromStr repo peel us
        (staged ++ (reachablePointers fromStr env updates).map Prod.fst) ↔
      WalkCovers fromStr repo peel us env updates staged := by
  constructor
  · intro hbacked c e h hsent _ hintro hmode hnames hnot
    refine (List.mem_append.1 (hbacked c e h hsent hintro.1 hmode hnames hnot)).imp id (fun hin => ?_)
    exact (mem_reachablePointers fromStr hg).1 hin
  · intro hcovers c e h hsent he hmode hnames hnot
    have hno : ∀ d, repo.db.Reach (reportedTips peel us) d → ¬ e ∈ repo.db.tree d :=
      fun d hd hin => hnot ⟨d, hd, e, hin, rfl, rfl, hmode⟩
    obtain ⟨v, hanc, hvis, hin, hlacks⟩ := repo.db.exists_introduced
      (fun d => e ∈ repo.db.tree d) (repo.db.Reach (reportedTips peel us)) hno
      (repo.db.generation c) c (Nat.le_refl _) he
    by_cases hdelivered : Delivered env updates v
    · exact List.mem_append_right _ ((mem_reachablePointers fromStr hg).2
        ⟨v, hdelivered, e, ⟨hin, hlacks⟩, hmode, hnames⟩)
    · refine List.mem_append.2 ?_
      refine (hcovers v e h (hsent.ancestor hanc hvis) hdelivered ⟨hin, hlacks⟩ hmode hnames
        hnot).imp id (fun hfound => ?_)
      exact (mem_reachablePointers fromStr hg).2 hfound

theorem sizedMarker_ok {f : String × Option Nat} {f' : String × Nat} (h : sizedMarker f = .ok f') :
    f'.1 = f.1 := by
  unfold sizedMarker at h
  cases hsize : f.2 with
  | none => simp [hsize] at h
  | some size =>
      simp only [hsize, Except.ok.injEq] at h
      rw [← h]

theorem names_of_mapM {listed : List (String × Option Nat)} {staged : List (String × Nat)}
    (h : listed.mapM sizedMarker = .ok staged) : staged.map Prod.fst = listed.map Prod.fst := by
  have hall := Results.mapM_eq_ok.1 h
  induction hall with
  | nil => rfl
  | cons hf _ ih =>
      rw [List.map_cons, List.map_cons, sizedMarker_ok hf, ih (Results.mapM_eq_ok.2 ‹_›)]

/-- **When a push is backed.** If push-pending succeeds as a hook, it has the files of all pointers that
    are pushed exactly if the commits that its walk does not deliver introduce nothing else. -/
theorem push_backed_iff {hex : Hex Oid} {env : PushEnv Oid} {report : PushReport}
    {listed : List (String × Option Nat)}
    (hg : ∀ g, env.repo = some g → ReadsButWalk g repo) (hhook : env.hookMode = true)
    (hstaged : env.staged = .ok listed) (hstdin : env.stdin = .ok (updatesText hex us))
    (hok : pushPending fromStr hex env = .ok (some report)) :
    Backed fromStr repo peel us (report.staged.map Prod.fst ++ report.reachable.map Prod.fst) ↔
      WalkCovers fromStr repo peel us env.repo (readRefUpdates hex (updatesText hex us))
        (listed.map Prod.fst) := by
  obtain ⟨⟨listed', hstaged', hsizes⟩, -, -⟩ := pushPending_ok hok
  obtain rfl := Except.ok.inj (hstaged.symm.trans hstaged')
  rw [names_of_mapM hsizes, reachable_of_ok hhook hstdin hok]
  exact backed_iff hg

end Pushed

/-! ## Pushing commits -/

section Commits

variable {Oid : Type} [DecidableEq Oid] {fromStr : String → Option XetFileInfo} {hex : Hex Oid}
  {repo : Repository Oid} {g : Gix Oid} {peel : Oid → Option Oid} {us : List (RefUpdate Oid)}

omit [DecidableEq Oid] in
theorem isCommit_reads (hg : g.Reads repo) (id : Oid) : isCommit g id = repo.db.isCommit id := by
  have h := isCommit_fail (ReadFailures.none Oid) hg id
  rw [Gix.fail_none] at h
  simpa [ReadFailures.none] using h

omit [DecidableEq Oid] in
/-- A truthful walk delivers what is reachable from a tip that is a commit, and from no hidden one. -/
theorem delivered_of_reach (hg : g.Reads repo) {updates : List (Oid × Option Oid)} {c : Oid}
    (htips : repo.db.Reach ((updates.map Prod.fst).filter (isCommit g)) c)
    (hhidden : ¬ repo.db.Reach (updates.filterMap Prod.snd) c) : Delivered (some g) updates c := by
  have hcommits : ∀ t ∈ (updates.map Prod.fst).filter (isCommit g), t ∈ repo.db.commits := by
    intro t ht
    have hcommit := (List.mem_filter.1 ht).2
    rw [isCommit_reads hg] at hcommit
    exact repo.db.isCommit_mem hcommit
  have hne : ((updates.map Prod.fst).filter (isCommit g)).isEmpty ≠ true := by
    obtain ⟨t, ht, -⟩ := htips
    rw [ne_eq, List.isEmpty_iff]
    exact List.ne_nil_of_mem ht
  obtain ⟨infos, hwalk, hall⟩ := hg.revWalk _ (updates.filterMap Prod.snd) hcommits
  refine ⟨⟨c, repo.db.parents c⟩, ?_, rfl⟩
  unfold pushWalk
  simp only
  rw [if_neg hne, hwalk]
  exact List.mem_map_of_mem ((hall _).2 ⟨htips, hhidden, rfl⟩)

/-- Every sha of the updates is a commit; what they lead to is then the sha. -/
structure OnlyCommits (repo : Repository Oid) (peel : Oid → Option Oid)
    (us : List (RefUpdate Oid)) : Prop where
  localSha : ∀ u ∈ us, ∀ id, u.localSha = some id → repo.db.isCommit id = true
  remoteSha : ∀ u ∈ us, ∀ id, u.remoteSha = some id → repo.db.isCommit id = true
  peel : ∀ id, repo.db.isCommit id = true → peel id = some id

/-- **A push of commits is covered**: if all git's answers are truthful, what git writes can be read
    and every pushed and reported sha is a commit, the walk delivers every commit that is sent. -/
theorem walkCovers_of_commits (hg : g.Reads repo) (hread : ∀ u ∈ us, u.Readable hex)
    (hus : OnlyCommits repo peel us) (staged : List String) :
    WalkCovers fromStr repo peel us (some g) (readRefUpdates hex (updatesText hex us)) staged := by
  rw [readRefUpdates_text hex hread]
  set updates := us.filterMap (fun u => u.localSha.map (fun id => (id, u.remoteSha))) with hupdates
  have htips : ∀ t ∈ localTips peel us, t ∈ (updates.map Prod.fst).filter (isCommit g) := by
    intro t ht
    obtain ⟨u, hu, hpeel⟩ := List.mem_filterMap.1 ht
    obtain ⟨id, hid, hpeel⟩ := Option.bind_eq_some_iff.1 hpeel
    have hcommit := hus.localSha u hu id hid
    rw [hus.peel id hcommit, Option.some.injEq] at hpeel
    subst hpeel
    refine List.mem_filter.2 ⟨List.mem_map.2 ⟨(id, u.remoteSha), List.mem_filterMap.2
      ⟨u, hu, by rw [hid]; rfl⟩, rfl⟩, ?_⟩
    rw [isCommit_reads hg]
    exact hcommit
  have hhidden : ∀ t ∈ updates.filterMap Prod.snd, t ∈ reportedTips peel us := by
    intro t ht
    obtain ⟨update, hupdate, hsnd⟩ := List.mem_filterMap.1 ht
    obtain ⟨u, hu, hmap⟩ := List.mem_filterMap.1 hupdate
    obtain ⟨id, -, rfl⟩ := Option.map_eq_some_iff.1 hmap
    have hsha : u.remoteSha = some t := hsnd
    refine List.mem_filterMap.2 ⟨u, hu, ?_⟩
    rw [hsha]
    exact hus.peel t (hus.remoteSha u hu t hsha)
  intro c e h hsent hnot
  exact absurd (delivered_of_reach hg (hsent.1.mono htips)
    (fun hreach => hsent.2 (hreach.mono hhidden))) hnot

end Commits

/-! ## An annotated tag -/

namespace Sample

open BaleForGit.Sample

/-- Forty times one digit. -/
def sha (id : Nat) : String := String.ofList (List.replicate 40 (Nat.digitChar (id % 16)))

def hex : Hex Nat where
  fromHex s := [16, 2, 20].find? (fun id => s == sha id)
  toHex := sha
  null := 16

/-- Commit two on top of commit one, which adds a pointer; twenty is a tag of it. -/
def tagged : Repository Nat where
  db := { db [(2, 1)] (fun c => if c = 1 ∨ c = 2 then [file "a.bin" 10] else []) with
    object := fun id => if id = 20 then some (.tag, []) else object id
    commit_mem := fun c data hobj => by
      split_ifs at hobj
      · simp at hobj
      · exact (db [] (fun _ => [])).commit_mem c data hobj }
  index := []
  head := some 1
  refs := []

/-- `peel_to_commit`. -/
def peel (id : Nat) : Option Nat := if id = 20 then some 1 else some id

/-- A push of one new ref. -/
def newRef (name : String) (id : Nat) : List (RefUpdate Nat) := [⟨name, some id, name, none⟩]

/-- A hook that finds nothing staged, and whose network does what it is asked to. -/
def hookEnv (us : List (RefUpdate Nat)) : PushEnv Nat where
  localMode := false
  gitDir := true
  remoteUrl := none
  staged := .ok []
  hookMode := true
  stdin := .ok (updatesText hex us)
  repo := some tagged.gix
  setup := none
  retranslate _ := none
  probe := true
  registered _ := false
  resource _ := none
  finalize := none

theorem tagged_reads : ReadsButWalk tagged.gix tagged where
  findHeader := tagged.gix_reads.findHeader
  findObject := tagged.gix_reads.findObject
  commitTree := tagged.gix_reads.commitTree
  parentTree := tagged.gix_reads.parentTree
  treeChanges := tagged.gix_reads.treeChanges
  parents tips hidden walk hwalk info hinfo := by
    have hall := Option.some.inj hwalk
    rw [← hall] at hinfo
    obtain ⟨c, -, hc⟩ := List.mem_map.1 hinfo
    rw [← Option.some.inj hc]

theorem names_a : NamesSized serde.fromStr tagged.db 10 (hash 'a') :=
  ⟨(pointerBlob 'a').2, info 'a', rfl, parse_pointer_a, rfl, rfl⟩

theorem sha_beq (a b : Nat) :
    (sha a == sha b) = (Nat.digitChar (a % 16) == Nat.digitChar (b % 16)) := by
  rw [Bool.eq_iff_iff, beq_iff_eq, beq_iff_eq]
  unfold sha
  rw [String.ofList_inj, List.replicate_inj]
  simp

theorem isWord_sha (id : Nat) (h : isWhiteSpace (Nat.digitChar (id % 16)) = false) :
    IsWord (sha id) := by
  unfold IsWord sha
  rw [String.toList_ofList]
  refine ⟨by simp, fun c hc => ?_⟩
  rw [List.eq_of_mem_replicate hc, h]

/-- A new ref with a name without white space is read. -/
theorem newRef_readable {name : String} (hname : IsWord name) {id : Nat} (hid : id = 2 ∨ id = 20) :
    ∀ u ∈ newRef name id, u.Readable hex := by
  intro u hu
  obtain rfl := List.mem_singleton.1 hu
  have hzero : parseOid hex (sha 16) = none := by
    simp only [parseOid, hex, List.find?, sha_beq]
    decide
  refine ⟨hname, ?_, hname, isWord_sha 16 (by decide), ?_, hzero⟩
  · obtain rfl | rfl := hid
    · exact isWord_sha 2 (by decide)
    · exact isWord_sha 20 (by decide)
  · obtain rfl | rfl := hid
    · simp only [parseOid, hex, Option.getD_some, List.find?, sha_beq]
      decide
    · simp only [parseOid, hex, Option.getD_some, List.find?, sha_beq]
      decide

/-- The run returns what the walk from the one sha finds, whatever it is. -/
theorem pushPending_newRef {name : String} (hname : IsWord name) {id : Nat} (hid : id = 2 ∨ id = 20) :
    pushPending serde.fromStr hex (hookEnv (newRef name id)) =
      .ok (some ⟨[], reachablePointers serde.fromStr (some tagged.gix) [(id, none)]⟩) := by
  have hread : readRefUpdates hex (updatesText hex (newRef name id)) = [(id, none)] :=
    readRefUpdates_text hex (newRef_readable hname hid)
  have hhook : hookPointers serde.fromStr hex (hookEnv (newRef name id)) =
      .ok (reachablePointers serde.fromStr (some tagged.gix) [(id, none)]) := by
    unfold hookPointers
    simp only [hookEnv, if_true, Except.map, hread]
  have hupload : ∀ report : PushReport, report.staged = [] →
      uploadFiles (hookEnv (newRef name id)) report = .ok () := by
    intro report hstaged
    have hrefs : ∀ f ∈ fromRefs report, (if (hookEnv (newRef name id)).probe &&
        (hookEnv (newRef name id)).registered f.1 then .ok ()
        else check ((hookEnv (newRef name id)).resource f) : Except String Unit) = .ok () :=
      fun _ _ => rfl
    unfold uploadFiles
    rw [hstaged, Results.forM_eq_ok.2 hrefs]
    rfl
  unfold pushPending
  rw [hhook]
  generalize reachablePointers serde.fromStr (some tagged.gix) [(id, none)] = found
  simp only [hookEnv, check, bind, Except.bind, List.mapM_nil, pure, Except.pure] at hupload ⊢
  simp only [Bool.false_eq_true, if_false, Bool.not_true, hupload]
  split_ifs <;> rfl

end Sample

/-- Only the tag is pushed: the run succeeds without a file, and the pointer of the commit that it
    leads to is not backed. -/
theorem tag_push_not_backed :
    pushPending Sample.serde.fromStr Sample.hex
        (Sample.hookEnv (Sample.newRef "refs/tags/v1" 20)) = .ok (some ⟨[], []⟩) ∧
      ¬ Backed Sample.serde.fromStr Sample.tagged Sample.peel
        (Sample.newRef "refs/tags/v1" 20) [] := by
  have hnone : reachablePointers Sample.serde.fromStr (some Sample.tagged.gix) [(20, none)] = [] := by
    rfl
  refine ⟨?_, fun hbacked => ?_⟩
  · rw [Sample.pushPending_newRef (isWord_of_all (by decide) (by decide)) (Or.inr rfl), hnone]
  have hsent : Sent Sample.tagged Sample.peel (Sample.newRef "refs/tags/v1" 20) 1 :=
    ⟨Dag.Reach.tip (by decide), Dag.not_reach_nil _ 1⟩
  have hremote : ¬ AtRemote Sample.tagged Sample.peel (Sample.newRef "refs/tags/v1" 20)
      (Sample.file "a.bin" 10) := by
    rintro ⟨d, hd, -⟩
    exact Dag.not_reach_nil _ d hd
  exact List.not_mem_nil (hbacked 1 (Sample.file "a.bin" 10) (Sample.hash 'a') hsent (by decide) rfl
    Sample.names_a hremote)

/-- The branch on top of the same commit is pushed: its file is found, and it is backed. -/
theorem push_backed_iff_branch :
    Backed Sample.serde.fromStr Sample.tagged Sample.peel (Sample.newRef "refs/heads/main" 2)
      [Sample.hash 'a'] := by
  have hname : IsWord "refs/heads/main" := isWord_of_all (by decide) (by decide)
  have hread : readRefUpdates Sample.hex (updatesText Sample.hex
      (Sample.newRef "refs/heads/main" 2)) = [(2, none)] :=
    readRefUpdates_text Sample.hex (Sample.newRef_readable hname (Or.inl rfl))
  have hfound : reachablePointers Sample.serde.fromStr (some Sample.tagged.gix) [(2, none)] =
      [(Sample.hash 'a', 1)] := by decide +kernel
  have hok : pushPending Sample.serde.fromStr Sample.hex
      (Sample.hookEnv (Sample.newRef "refs/heads/main" 2)) =
        .ok (some ⟨[], [(Sample.hash 'a', 1)]⟩) := by
    rw [Sample.pushPending_newRef hname (Or.inl rfl), hfound]
  refine (push_backed_iff (fun g hg => ?_) rfl rfl rfl hok).2 ?_
  · rw [← Option.some.inj hg]
    exact Sample.tagged_reads
  · rw [hread]
    intro c e h hsent hnot
    have htips : ∀ t ∈ localTips Sample.peel (Sample.newRef "refs/heads/main" 2),
        t ∈ [2].filter (isCommit Sample.tagged.gix) := by decide
    exact absurd (delivered_of_reach Sample.tagged.gix_reads (hsent.1.mono htips)
      (Dag.not_reach_nil _ c)) hnot

end Push

end BaleForGit
