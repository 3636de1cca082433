import BaleForGit.Server.Layout
import BaleForGit.Server.UploadShard
import BaleForGit.Server.WriteOnce

set_option autoImplicit false

/-! # When a stored file stays readable

`lookup_file` serves the terms of a hash only if they sum to the total in a `files` row of the hash,
any of them. The terms are those of the first list, for good; the row of a repository has the total
of the list it sent last. So a registration with another total makes the file unreadable, for
everyone, and `TotalsAgree` is what a registration has to meet not to. -/

namespace BaleForGit.Server

/-! ## Consistent totals -/

/-- Every recorded total of a hash with terms is the sum of its terms. -/
def Consistent (db : Db) : Prop :=
  ∀ h, db.fileTermList h ≠ [] → ∀ r ∈ db.files, r.fileHash = h →
    r.totalBytes = termSum (db.fileTermList h)

/-- The totals that meet in a registration: for each declared hash that has terms afterwards, that
    of the list declared last, and those other repositories have recorded. -/
def TotalsAgree (db : Db) (repo : RepoRef) (files : List (FileHash × List FileTerm)) : Prop :=
  ∀ h last, lastList h files = some last → termsAfter db h files ≠ [] →
    termSum last = termSum (termsAfter db h files) ∧
      ∀ r ∈ db.files, r.fileHash = h → r.repo.repoId ≠ repo.repoId →
        r.totalBytes = termSum (termsAfter db h files)

theorem nonnegI64ToU64_natCast (n : Nat) (label : String) :
    nonnegI64ToU64 (n : Int) label = .ok n := by
  unfold nonnegI64ToU64
  rw [if_neg (by omega), Int.toNat_natCast]

/-- **What `lookup_file` finds.** -/
theorem lookupFile_eq_some {db : Db} {pick : List FileRow → Option FileRow} {h : FileHash}
    {terms : List FileTerm} :
    db.lookupFile pick h = .ok (some terms) ↔ db.fileTermList h = terms ∧ terms ≠ [] ∧
      ∀ r, pick (db.files.filter (fun r => decide (r.fileHash = h))) = some r →
        r.totalBytes = termSum terms := by
  unfold Db.lookupFile
  by_cases hnil : db.fileTermList h = []
  · simp only [hnil, List.isEmpty_nil, if_true, Except.ok.injEq, reduceCtorEq, false_iff]
    rintro ⟨rfl, hne, -⟩
    exact hne rfl
  · simp only [List.isEmpty_iff, hnil, if_false]
    cases hpick : pick (db.files.filter (fun r => decide (r.fileHash = h))) with
    | none =>
        simp only [Except.ok.injEq, Option.some.injEq, reduceCtorEq, false_implies, implies_true,
          and_true]
        constructor
        · rintro rfl
          exact ⟨rfl, hnil⟩
        · exact fun hterms => hterms.1
    | some r =>
        simp only [Option.some.injEq, forall_eq']
        constructor
        · intro hlookup
          obtain ⟨total, htotal, hlookup⟩ := Results.bind_eq_ok.1 hlookup
          unfold nonnegI64ToU64 at htotal
          split_ifs at htotal with hneg
          split_ifs at hlookup with hsum
          obtain rfl := Option.some.inj (Except.ok.inj hlookup)
          refine ⟨rfl, hnil, ?_⟩
          rw [not_not.1 hsum, ← Except.ok.inj htotal, Int.toNat_of_nonneg (by omega)]
        · rintro ⟨rfl, -, htotal⟩
          refine Results.bind_eq_ok.2 ⟨termSum (db.fileTermList h), ?_, ?_⟩
          · rw [htotal, nonnegI64ToU64_natCast]
          · rw [if_neg (not_not.2 rfl)]

/-- The engine that returns the first row. -/
theorem limitOne_head : LimitOne List.head? :=
  ⟨fun _ _ hr => List.mem_of_mem_head? hr, fun _ hne => by simpa using hne⟩

/-- The engine that returns `r` whenever it matches. -/
def preferRow (r : FileRow) (rows : List FileRow) : Option FileRow :=
  if r ∈ rows then some r else rows.head?

theorem limitOne_preferRow (r : FileRow) : LimitOne (preferRow r) := by
  unfold preferRow
  refine ⟨fun rows x hx => ?_, fun rows hne => ?_⟩
  · split_ifs at hx with hin
    · rw [← Option.some.inj hx]
      exact hin
    · exact List.mem_of_mem_head? hx
  · split_ifs
    · simp
    · simpa using hne

/-- Every recorded total of `h` is `n`. -/
def TotalsMatch (db : Db) (h : FileHash) (n : Nat) : Prop :=
  ∀ r ∈ db.files, r.fileHash = h → r.totalBytes = n

/-- **A hash can be read whichever row `LIMIT 1` returns** when it has terms and all its totals are
    their sum. -/
theorem forall_lookupFile_iff {db : Db} {h : FileHash} :
    (∀ pick, LimitOne pick → db.lookupFile pick h = .ok (some (db.fileTermList h))) ↔
      db.fileTermList h ≠ [] ∧ TotalsMatch db h (termSum (db.fileTermList h)) := by
  constructor
  · intro hread
    have hterms := (lookupFile_eq_some.1 (hread List.head? limitOne_head)).2.1
    refine ⟨hterms, fun r hr hhash => ?_⟩
    refine (lookupFile_eq_some.1 (hread _ (limitOne_preferRow r))).2.2 r ?_
    exact if_pos (List.mem_filter.2 ⟨hr, decide_eq_true hhash⟩)
  · rintro ⟨hterms, htotals⟩ pick hpick
    refine lookupFile_eq_some.2 ⟨rfl, hterms, fun r hr => ?_⟩
    obtain ⟨hmem, hhash⟩ := List.mem_filter.1 (hpick.mem _ r hr)
    exact htotals r hmem (of_decide_eq_true hhash)

/-- **A database is consistent when every hash with terms can be read**, whichever row `LIMIT 1`
    returns. -/
theorem consistent_iff_lookupFile {db : Db} :
    Consistent db ↔ ∀ pick, LimitOne pick → ∀ h, db.fileTermList h ≠ [] →
      db.lookupFile pick h = .ok (some (db.fileTermList h)) := by
  constructor
  · intro hcons pick hpick h hterms
    exact forall_lookupFile_iff.2 ⟨hterms, hcons h hterms⟩ pick hpick
  · intro hread h hterms
    exact (forall_lookupFile_iff.1 (fun pick hpick => hread pick hpick h hterms)).2

/-- The totals of a declared hash after a registration: that of the list declared last, and those
    other repositories have recorded. -/
theorem totalsMatch_registerFiles_iff {db : Db} (repo : RepoRef) (now : Int) {h : FileHash}
    {files : List (FileHash × List FileTerm)} {last : List FileTerm}
    (hlast : lastList h files = some last) (hsmall : termSum last < 9223372036854775808) {n : Nat} :
    TotalsMatch (db.registerFiles repo files now) h n ↔ termSum last = n ∧
      ∀ r ∈ db.files, r.fileHash = h → r.repo.repoId ≠ repo.repoId → r.totalBytes = n := by
  have hmem : ∀ r : FileRow, r.fileHash = h → (r ∈ (db.registerFiles repo files now).files ↔
      r = fileRow h repo last now ∨ (r ∈ db.files ∧ r.repo.repoId ≠ repo.repoId)) := by
    intro r hr
    rw [mem_files_registerFiles db repo now hr, hlast]
  have hown : (fileRow h repo last now).totalBytes = termSum last := by
    simp only [fileRow, asI64_of_lt hsmall]
  constructor
  · intro hmatch
    refine ⟨?_, fun r hr hhash hne => hmatch r ((hmem r hhash).2 (Or.inr ⟨hr, hne⟩)) hhash⟩
    have htotal := hmatch (fileRow h repo last now) ((hmem _ rfl).2 (Or.inl rfl)) rfl
    rw [hown] at htotal
    exact Int.ofNat.inj htotal
  · rintro ⟨hsum, hothers⟩ r hr hhash
    rcases (hmem r hhash).1 hr with rfl | ⟨hin, hne⟩
    · rw [hown, hsum]
    · exact hothers r hin hhash hne

theorem termsAfter_of_lastList_none {db : Db} {h : FileHash}
    {files : List (FileHash × List FileTerm)} (hlast : lastList h files = none) :
    termsAfter db h files = db.fileTermList h := by
  unfold termsAfter
  rw [firstList_of_lastList_none hlast]
  split_ifs with hnone
  · exact hnone.symm
  · rfl

/-- **A registration keeps the totals consistent exactly when they agree.** -/
theorem consistent_registerFiles_iff {db : Db} (hcons : Consistent db) (repo : RepoRef)
    {files : List (FileHash × List FileTerm)} (now : Int)
    (hsmall : ∀ f ∈ files, termSum f.2 < 9223372036854775808) :
    Consistent (db.registerFiles repo files now) ↔ TotalsAgree db repo files := by
  unfold Consistent
  simp only [fileTermList_registerFiles]
  constructor
  · intro hafter h last hlast hterms
    exact (totalsMatch_registerFiles_iff repo now hlast (hsmall _ (lastList_mem hlast))).1
      (hafter h hterms)
  · intro hagree h hterms
    cases hlast : lastList h files with
    | none =>
        intro r hr hhash
        rw [termsAfter_of_lastList_none hlast] at hterms ⊢
        rw [mem_files_registerFiles db repo now hhash, hlast] at hr
        exact hcons h hterms r hr hhash
    | some last =>
        exact (totalsMatch_registerFiles_iff repo now hlast (hsmall _ (lastList_mem hlast))).2
          (hagree h last hlast hterms)

/-! ## What a shard has to meet -/

/-- What an upload has to meet for stored files to stay readable. -/
def SameTotal (st : ServerState) (a : ServerAct) : Prop :=
  match a with
  | .xorb _ => True
  | .shard r => TotalsAgree st.db r.repo r.files

/-! ## Runs -/

/-- The parts of the database that files and terms are in. -/
theorem serverStep_tables {svc : Service} {st st' : ServerState} {a : ServerAct}
    (hstep : serverStep svc st a = some st') : ∃ db : Db, db.files = st.db.files ∧
      db.fileTerms = st.db.fileTerms ∧ match a with
        | .xorb _ => st'.db = db
        | .shard r => st'.db = db.registerFiles r.repo r.files r.now := by
  cases a with
  | xorb r =>
      simp only [serverStep] at hstep
      cases hup : uploadXorb svc st r with
      | error e => simp [hup] at hstep
      | ok res =>
          obtain ⟨got, inserted⟩ := res
          simp only [hup, Option.some.injEq] at hstep
          subst hstep
          obtain ⟨hfiles, hterms⟩ := uploadXorb_tables hup
          exact ⟨got.db, hfiles, hterms, rfl⟩
  | shard r =>
      simp only [serverStep] at hstep
      cases hup : uploadShard svc st r with
      | mk got res =>
          cases res with
          | error e => simp [hup] at hstep
          | ok _ =>
              simp only [hup, Option.some.injEq] at hstep
              subst hstep
              obtain ⟨parsed, files, hparse, hfiles, db, hdbFiles, hdbTerms, hdb⟩ :=
                uploadShard_tables svc hup
              refine ⟨db, hdbFiles, hdbTerms, ?_⟩
              simp only [ShardRequest.files, hparse, hfiles]
              exact hdb

/-- Consistency is about files and terms only. -/
theorem Consistent.congr {db db' : Db} (hfiles : db'.files = db.files)
    (hterms : db'.fileTerms = db.fileTerms) : Consistent db' ↔ Consistent db := by
  unfold Consistent Db.fileTermList
  rw [hfiles, hterms]

theorem TotalsAgree.congr {db db' : Db} (hfiles : db'.files = db.files)
    (hterms : db'.fileTerms = db.fileTerms) (repo : RepoRef)
    (files : List (FileHash × List FileTerm)) :
    TotalsAgree db' repo files ↔ TotalsAgree db repo files := by
  unfold TotalsAgree termsAfter Db.fileTermList
  rw [hfiles, hterms]

/-- **An accepted upload keeps the totals consistent exactly when its own agree.** -/
theorem serverStep_consistent_iff (svc : Service) (st : ServerState) (a : ServerAct)
    (st' : ServerState) (hcons : Consistent st.db) (hstep : serverStep svc st a = some st') :
    Consistent st'.db ↔ SameTotal st a := by
  obtain ⟨db, hfiles, hterms, hdb⟩ := serverStep_tables hstep
  have hcons' : Consistent db := (Consistent.congr hfiles hterms).2 hcons
  cases a with
  | xorb r =>
      simp only at hdb
      rw [hdb]
      exact ⟨fun _ => trivial, fun _ => hcons'⟩
  | shard r =>
      simp only at hdb
      rw [hdb, consistent_registerFiles_iff hcons' r.repo r.now (files_termSum_lt r)]
      exact TotalsAgree.congr hfiles hterms r.repo r.files

/-- **Terms that are stored stay as they are.** -/
theorem serverStep_fileTermList {svc : Service} {st st' : ServerState} {a : ServerAct}
    (hstep : serverStep svc st a = some st') {h : FileHash} (hterms : st.db.fileTermList h ≠ []) :
    st'.db.fileTermList h = st.db.fileTermList h := by
  obtain ⟨db, -, htable, hdb⟩ := serverStep_tables hstep
  have hsame : db.fileTermList h = st.db.fileTermList h := by
    unfold Db.fileTermList
    rw [htable]
  cases a with
  | xorb r =>
      simp only at hdb
      rw [hdb, hsame]
  | shard r =>
      simp only at hdb
      rw [hdb, fileTermList_registerFiles, termsAfter, if_neg (by rw [hsame]; exact hterms), hsame]

theorem run_fileTermList {svc : Service} {acts : List ServerAct} {st st' : ServerState}
    (hrun : Machine.run (serverStep svc) st acts = some st') {h : FileHash}
    (hterms : st.db.fileTermList h ≠ []) : st'.db.fileTermList h = st.db.fileTermList h := by
  have hkeep : ∀ s a s', s.db.fileTermList h = st.db.fileTermList h →
      serverStep svc s a = some s' → s'.db.fileTermList h = st.db.fileTermList h := by
    intro s a s' hs hstep
    rw [serverStep_fileTermList hstep (by rw [hs]; exact hterms), hs]
  exact Machine.run_invariant_of_step hkeep rfl hrun

/-- In every state of the run, the terms that a hash had in an earlier state are what `lookup_file`
    returns, whichever row it compares them with. -/
def StaysReadable (svc : Service) (st : ServerState) (acts : List ServerAct) : Prop :=
  ∀ before between rest s s', acts = before ++ (between ++ rest) →
    Machine.run (serverStep svc) st before = some s →
    Machine.run (serverStep svc) s between = some s' →
    ∀ h, termsOf h s.db.fileTerms ≠ [] → ∀ pick, LimitOne pick →
      s'.db.lookupFile pick h = .ok (some (s.db.fileTermList h))

/-- **A stored file stays readable as long as the totals agree, and no longer.** In a run of accepted
    uploads on a server without files, every lookup of a hash that has terms returns these terms if
    and only if each shard meets `SameTotal` in the state it is registered in. -/
theorem stays_readable_iff (svc : Service) (st t : ServerState) (acts : List ServerAct)
    (hfiles : st.db.files = []) (hrun : Machine.run (serverStep svc) st acts = some t) :
    StaysReadable svc st acts ↔ Machine.Admissible (serverStep svc) SameTotal st acts := by
  have hinit : Consistent st.db := by
    intro h _ r hr
    simp [hfiles] at hr
  rw [Machine.admissible_iff_of_step (fun _ _ _ _ (_ : True) _ => trivial)
    (fun s a _ s' _ => serverStep_consistent_iff svc s a s') trivial hinit hrun]
  constructor
  · intro hread before rest s hacts hs
    rw [consistent_iff_lookupFile]
    intro pick hpick h hterms
    refine hread before [] rest s s hacts hs rfl h ?_ pick hpick
    exact fun hnil => hterms (fileTermList_eq_nil.2 hnil)
  · intro hcons before between rest s s' hacts hs hs' h hrows pick hpick
    have hterms : s.db.fileTermList h ≠ [] := fun hnil => hrows (fileTermList_eq_nil.1 hnil)
    have hsame := run_fileTermList hs' hterms
    have hreach : Machine.run (serverStep svc) st (before ++ between) = some s' := by
      rw [Machine.run_append, hs]
      exact hs'
    rw [← List.append_assoc] at hacts
    rw [← hsame]
    refine consistent_iff_lookupFile.1 (hcons _ rest s' hacts hreach) pick hpick h ?_
    rw [hsame]
    exact hterms

/-! ## Honest totals

A file hash stands for a content, and clients that send the term lists of what they hash send lists
that sum to its length. -/

/-- Every list that the shard declares has the total of its hash. -/
def DeclaresTotal (total : FileHash → Nat) : ServerAct → Prop
  | .xorb _ => True
  | .shard r => ∀ f ∈ r.files, termSum f.2 = total f.1

structure TotalsKnown (total : FileHash → Nat) (db : Db) : Prop where
  rows : ∀ r ∈ db.files, r.totalBytes = total r.fileHash
  terms : ∀ h, db.fileTermList h ≠ [] → termSum (db.fileTermList h) = total h

theorem termsAfter_total {total : FileHash → Nat} {db : Db} (hknown : TotalsKnown total db)
    {files : List (FileHash × List FileTerm)} (hdecl : ∀ f ∈ files, termSum f.2 = total f.1)
    {h : FileHash} (hterms : termsAfter db h files ≠ []) :
    termSum (termsAfter db h files) = total h := by
  unfold termsAfter at hterms ⊢
  split_ifs at hterms ⊢ with hnone
  · cases hfirst : firstList h files with
    | none => simp [hfirst] at hterms
    | some terms =>
        unfold firstList at hfirst
        obtain ⟨f, hfind, rfl⟩ := Option.map_eq_some_iff.1 hfirst
        have hpred := List.find?_some hfind
        simp only [Bool.and_eq_true, decide_eq_true_eq] at hpred
        rw [Option.getD_some, hdecl f (List.mem_of_find?_eq_some hfind), hpred.1]
  · exact hknown.terms h hnone

theorem TotalsKnown.totalsAgree {total : FileHash → Nat} {db : Db} (hknown : TotalsKnown total db)
    (repo : RepoRef) {files : List (FileHash × List FileTerm)}
    (hdecl : ∀ f ∈ files, termSum f.2 = total f.1) : TotalsAgree db repo files := by
  intro h last hlast hterms
  rw [termsAfter_total hknown hdecl hterms]
  refine ⟨hdecl _ (lastList_mem hlast), fun r hr hhash _ => ?_⟩
  rw [hknown.rows r hr, hhash]

theorem TotalsKnown.registerFiles {total : FileHash → Nat} {db : Db}
    (hknown : TotalsKnown total db) (repo : RepoRef) {files : List (FileHash × List FileTerm)}
    (now : Int) (hdecl : ∀ f ∈ files, termSum f.2 = total f.1)
    (hsmall : ∀ f ∈ files, termSum f.2 < 9223372036854775808) :
    TotalsKnown total (db.registerFiles repo files now) := by
  refine ⟨fun r hr => ?_, fun h hterms => ?_⟩
  · rw [mem_files_registerFiles db repo now rfl] at hr
    cases hlast : lastList r.fileHash files with
    | none =>
        rw [hlast] at hr
        exact hknown.rows r hr
    | some last =>
        rw [hlast] at hr
        have hmem := lastList_mem hlast
        rcases hr with hrow | ⟨hin, -⟩
        · rw [hrow]
          simp only [fileRow]
          rw [asI64_of_lt (hsmall _ hmem), hdecl _ hmem]
        · exact hknown.rows r hin
  · rw [fileTermList_registerFiles] at hterms ⊢
    exact termsAfter_total hknown hdecl hterms

/-- **Shards that agree on the total of each hash keep every stored file readable.** -/
theorem admissible_of_declaresTotal (svc : Service) (total : FileHash → Nat) {st : ServerState}
    (hfiles : st.db.files = []) (hterms : st.db.fileTerms = []) {acts : List ServerAct}
    (hdecl : ∀ a ∈ acts, DeclaresTotal total a) :
    Machine.Admissible (serverStep svc) SameTotal st acts := by
  have hinit : TotalsKnown total st.db := by
    refine ⟨fun r hr => by simp [hfiles] at hr, fun h hne => absurd ?_ hne⟩
    rw [fileTermList_eq_nil, hterms]
    rfl
  refine Machine.admissible_of_invariant (fun s => TotalsKnown total s.db) ?_ ?_ hinit
  · intro s a ha hknown
    cases a with
    | xorb r => trivial
    | shard r => exact hknown.totalsAgree r.repo (hdecl _ ha)
  · intro s a ha s' hknown hstep
    obtain ⟨db, hdbFiles, hdbTerms, hdb⟩ := serverStep_tables hstep
    have hknown' : TotalsKnown total db := by
      refine ⟨fun r hr => hknown.rows r (hdbFiles ▸ hr), fun h hne => ?_⟩
      have hsame : db.fileTermList h = s.db.fileTermList h := by
        unfold Db.fileTermList
        rw [hdbTerms]
      rw [hsame] at hne ⊢
      exact hknown.terms h hne
    cases a with
    | xorb r =>
        simp only at hdb
        rw [hdb]
        exact hknown'
    | shard r =>
        simp only at hdb
        rw [hdb]
        exact hknown'.registerFiles r.repo r.now (hdecl _ ha) (files_termSum_lt r)

/-! ## Two totals for one hash -/

namespace Sample

/-- A shard that declares the file `hash32 h`: the first chunk of the xorb `hash32 0x61`, as `n`
    bytes. -/
def shardBody (h n : UInt8) : List UInt8 :=
  List.replicate 32 0 ++ [2, 0, 0, 0, 0, 0, 0, 0] ++ List.replicate 8 0 ++
    List.replicate 32 h ++ [0, 0, 0, 0, 1, 0, 0, 0] ++ List.replicate 8 0 ++
    List.replicate 32 0x61 ++ [0, 0, 0, 0, n, 0, 0, 0, 0, 0, 0, 0, 1, 0, 0, 0] ++
    List.replicate 32 0xff ++ List.replicate 16 0 ++ List.replicate 32 0xff ++ List.replicate 16 0

def shardUpload (h n : UInt8) : ShardRequest := ⟨repo, shardBody h n, 0⟩

end Sample

/-- **A later shard makes a stored file unreadable**: it declares two bytes where one is stored. -/
theorem later_total_unreadable :
    ¬ ∀ (acts : List ServerAct) (t : ServerState),
      Machine.run (serverStep Sample.service) ServerState.empty acts = some t →
        StaysReadable Sample.service ServerState.empty acts := by
  have hstored : (Machine.run (serverStep Sample.service) ServerState.empty
      [.xorb Sample.plainUpload, .shard (Sample.shardUpload 1 1)]).map
        (fun s => (termsOf (Sample.hash32 1) s.db.fileTerms).length) = some 1 := by
    decide +kernel
  have hlost : ((Machine.run (serverStep Sample.service) ServerState.empty
      [.xorb Sample.plainUpload, .shard (Sample.shardUpload 1 1)]).bind (fun s =>
        Machine.run (serverStep Sample.service) s [.shard (Sample.shardUpload 1 2)])).map
          (fun s => (s.db.lookupFile List.head? (Sample.hash32 1)).toOption) = some none := by
    decide +kernel
  obtain ⟨s, hs, hrows⟩ := Option.map_eq_some_iff.1 hstored
  rw [hs, Option.bind_some] at hlost
  obtain ⟨t, ht, hlookup⟩ := Option.map_eq_some_iff.1 hlost
  intro hall
  have hrun : Machine.run (serverStep Sample.service) ServerState.empty
      ([.xorb Sample.plainUpload, .shard (Sample.shardUpload 1 1)] ++
        [.shard (Sample.shardUpload 1 2)]) = some t := by
    rw [Machine.run_append, hs, Option.bind_some]
    exact ht
  have hread := hall _ t hrun _ [.shard (Sample.shardUpload 1 2)] [] s t rfl hs ht
    (Sample.hash32 1) (by intro hnil; simp [hnil] at hrows) List.head? limitOne_head
  rw [hread] at hlookup
  simp [Except.toOption] at hlookup

/-- Two shards with the same total. -/
theorem stays_readable_iff_repeated : ∃ t,
    Machine.run (serverStep Sample.service) ServerState.empty
      [.xorb Sample.plainUpload, .shard (Sample.shardUpload 1 1),
        .shard (Sample.shardUpload 1 1)] = some t ∧
    StaysReadable Sample.service ServerState.empty
      [.xorb Sample.plainUpload, .shard (Sample.shardUpload 1 1),
        .shard (Sample.shardUpload 1 1)] := by
  have hrun : (Machine.run (serverStep Sample.service) ServerState.empty
      [.xorb Sample.plainUpload, .shard (Sample.shardUpload 1 1),
        .shard (Sample.shardUpload 1 1)]).map (fun _ => ()) = some () := by
    decide +kernel
  have hdecl : (Sample.shardUpload 1 1).files.all (fun f => decide (termSum f.2 = 1)) = true := by
    decide +kernel
  obtain ⟨t, ht, -⟩ := Option.map_eq_some_iff.1 hrun
  refine ⟨t, ht, (stays_readable_iff Sample.service _ t _ rfl ht).2 ?_⟩
  refine admissible_of_declaresTotal Sample.service (fun _ => 1) rfl rfl (fun a ha => ?_)
  simp only [List.mem_cons, List.not_mem_nil, or_false] at ha
  rcases ha with rfl | rfl | rfl
  · trivial
  · exact fun f hf => of_decide_eq_true (List.all_eq_true.1 hdecl f hf)
  · exact fun f hf => of_decide_eq_true (List.all_eq_true.1 hdecl f hf)

end BaleForGit.Server
