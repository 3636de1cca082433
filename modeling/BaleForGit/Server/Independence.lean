import BaleForGit.Server.Accounting
import BaleForGit.Server.Registration

set_option autoImplicit false

/-! # What other owners do to an owner's bytes

The stored bytes of an owner join its own `files` rows with term lists and `xorbs` rows that belong
to nobody. A shard of another owner can make them grow: by the row of a xorb that the owner's files
refer to and that has none yet, or by terms for a hash that the owner registered without terms.
And what an owner's own requests come to depends on the lists and rows that are there before. -/

namespace BaleForGit.Server

/-! ## Rows of owners -/

/-- Every row is filed under the owner of its repository. -/
def OwnerRows (db : Db) : Prop := ∀ f ∈ db.files, f.owner = f.repo.owner

/-- The owner has registered the hash. -/
def OwnerHas (db : Db) (owner : String) (h : FileHash) : Prop :=
  ∃ f ∈ db.files, f.fileHash = h ∧ f.owner = owner

instance (db : Db) (owner : String) (h : FileHash) : Decidable (OwnerHas db owner h) :=
  inferInstanceAs (Decidable (∃ f ∈ db.files, _ ∧ _))

section Files

variable {db : Db} {repo : RepoRef} {owner : String} {files : List (FileHash × List FileTerm)}
  {now : Int}

theorem OwnerRows.registerFiles (hrows : OwnerRows db) : OwnerRows (db.registerFiles repo files now) := by
  intro f hf
  rw [mem_files_registerFiles db repo now rfl] at hf
  cases hlast : lastList f.fileHash files with
  | none =>
      rw [hlast] at hf
      exact hrows f hf
  | some last =>
      rw [hlast] at hf
      rcases hf with hrow | ⟨hin, -⟩
      · rw [hrow]
        rfl
      · exact hrows f hin

/-- Registrations of others leave the rows of an owner alone. -/
theorem ownerRows_registerFiles_of_ne (hrows : OwnerRows db) (hne : repo.owner ≠ owner) :
    (db.registerFiles repo files now).files.filter (fun f => decide (f.owner = owner)) =
      db.files.filter (fun f => decide (f.owner = owner)) := by
  induction files generalizing db with
  | nil => rfl
  | cons f files ih =>
      have hstep : (db.writeFileInTx f.1 repo f.2 now).files.filter
          (fun f => decide (f.owner = owner)) =
            db.files.filter (fun f => decide (f.owner = owner)) := by
        rw [writeFileInTx_files]
        unfold Table.upsert
        have hnew : decide ((fileRow f.1 repo f.2 now).owner = owner) = false :=
          decide_eq_false hne
        rw [List.filter_append, List.filter_singleton, hnew, List.filter_filter]
        simp only [cond_false, List.append_nil]
        refine List.filter_congr (fun row hrow => ?_)
        by_cases hown : row.owner = owner
        · have hkey : FileRow.key row ≠ FileRow.key (fileRow f.1 repo f.2 now) := by
            intro heq
            have hrepo : row.repo.repoId = repo.repoId := (Prod.mk.inj heq).2
            refine hne ?_
            rw [← hown, hrows row hrow]
            unfold RepoRef.owner
            rw [hrepo]
          simp [hown, hkey]
        · simp [hown]
      have hrows' : OwnerRows (db.writeFileInTx f.1 repo f.2 now) := by
        have hone : db.writeFileInTx f.1 repo f.2 now = db.registerFiles repo [f] now := rfl
        rw [hone]
        exact hrows.registerFiles
      exact (ih hrows').trans hstep

theorem ownerHas_of_filter {db' : Db} (h : db'.files.filter (fun f => decide (f.owner = owner)) =
    db.files.filter (fun f => decide (f.owner = owner))) (k : FileHash) :
    OwnerHas db' owner k ↔ OwnerHas db owner k := by
  have hiff : ∀ d : Db, OwnerHas d owner k ↔
      ∃ f ∈ d.files.filter (fun f => decide (f.owner = owner)), f.fileHash = k := by
    intro d
    simp only [OwnerHas, List.mem_filter, decide_eq_true_eq]
    constructor
    · rintro ⟨f, hf, hk, hown⟩
      exact ⟨f, ⟨hf, hown⟩, hk⟩
    · rintro ⟨f, ⟨hf, hown⟩, hk⟩
      exact ⟨f, hf, hk, hown⟩
  rw [hiff, hiff, h]

end Files

/-- Every state that requests lead to has its rows under their owners. -/
theorem ownerRows_handle {svc : Service} {st : ServerState} (hrows : OwnerRows st.db) (a : Request) :
    OwnerRows (handle svc st a).db := by
  rcases handle_tables svc st a with ⟨hfiles, -⟩ | ⟨r, db, -, -, hfiles, -, hdb⟩
  · intro f hf
    rw [hfiles] at hf
    exact hrows f hf
  · rw [hdb]
    refine OwnerRows.registerFiles (fun f hf => ?_)
    rw [hfiles] at hf
    exact hrows f hf

theorem Reachable.ownerRows {svc : Service} {st : ServerState} (h : Reachable svc st) :
    OwnerRows st.db := by
  have hinit : OwnerRows ServerState.empty.db :=
    fun f hf => by simp [ServerState.empty, Db.empty] at hf
  exact Reachable.invariant (fun s => OwnerRows s.db) hinit
    (fun s a hs => ownerRows_handle hs a) h

/-! ## One request of another owner -/

/-- The xorbs that a registration adds to those of an owner that is not its own: terms of a hash that
    the owner has registered without terms. -/
def newlyReferred (db : Db) (owner : String) (files : List (FileHash × List FileTerm))
    (x : XorbHash) : Bool :=
  decide (∃ f ∈ files, OwnerHas db owner f.1 ∧ db.fileTermList f.1 = [] ∧
    firstList f.1 files = some f.2 ∧ ∃ t ∈ f.2, t.xorb = x)

theorem mem_xorbsOfOwner_iff {db : Db} {owner : String} {x : XorbHash} :
    x ∈ db.xorbsOfOwner owner ↔ ∃ t ∈ db.fileTerms, t.term.xorb = x ∧
      OwnerHas db owner t.fileHash :=
  mem_xorbsOfOwner

/-- **What a registration of another owner adds to the xorbs of an owner.** -/
theorem mem_xorbsOfOwner_registerFiles {db : Db} {repo : RepoRef} {owner : String}
    (hrows : OwnerRows db) (hne : repo.owner ≠ owner)
    (files : List (FileHash × List FileTerm)) (now : Int) (x : XorbHash) :
    x ∈ (db.registerFiles repo files now).xorbsOfOwner owner ↔
      x ∈ db.xorbsOfOwner owner ∨ newlyReferred db owner files x = true := by
  have hhas : ∀ h, OwnerHas (db.registerFiles repo files now) owner h ↔ OwnerHas db owner h :=
    ownerHas_of_filter (ownerRows_registerFiles_of_ne hrows hne)
  simp only [mem_xorbsOfOwner_iff, hhas, newlyReferred, decide_eq_true_eq]
  constructor
  · rintro ⟨t, ht, hx, hown⟩
    have hmem : t ∈ termsOf t.fileHash (db.registerFiles repo files now).fileTerms :=
      mem_termsOf.2 ⟨ht, rfl⟩
    rw [termsOf_registerFiles] at hmem
    split_ifs at hmem with hnone
    · right
      unfold firstRows at hmem
      cases hfirst : firstList t.fileHash files with
      | none => simp [hfirst] at hmem
      | some terms =>
          rw [hfirst] at hmem
          exact ⟨(t.fileHash, terms), (firstList_mem hfirst).1, hown,
            fileTermList_eq_nil.2 hnone, hfirst, t.term, (mem_termRows hmem).2, hx⟩
    · exact Or.inl ⟨t, (mem_termsOf.1 hmem).1, hx, hown⟩
  · rintro (⟨t, ht, hx, hown⟩ | ⟨f, -, hown, hnone, hfirst, u, hu, hx⟩)
    · exact ⟨t, mem_registerFiles_of_mem db repo now ht, hx, hown⟩
    · have hrowsAfter := termsOf_registerFiles db repo now f.1 files
      rw [if_pos (fileTermList_eq_nil.1 hnone)] at hrowsAfter
      unfold firstRows at hrowsAfter
      rw [hfirst] at hrowsAfter
      obtain ⟨row, hrow, hterm⟩ := exists_mem_termRows f.1 hu
      have hin : row ∈ termsOf f.1 (db.registerFiles repo files now).fileTerms := by
        rw [hrowsAfter]
        exact hrow
      obtain ⟨hin, hhash⟩ := mem_termsOf.1 hin
      exact ⟨row, hin, by rw [hterm, hx], by rw [hhash]; exact hown⟩

/-- What a request of another owner would add to the bytes of `owner`: the rows of its CAS blocks
    for xorbs the owner refers to, and, if it is accepted, the xorbs it makes the owner refer to. -/
def foreignBytes (svc : Service) (owner : String) (st : ServerState) (r : ShardRequest)
    (parsed : ParsedShard) : Nat :=
  newBytes st.db parsed.casBlocks r.now (fun x => decide (x ∈ st.db.xorbsOfOwner owner)) +
    match checkShardQuota svc (registerCasBlocks st.db parsed.casBlocks r.now) r.repo.owner
      parsed.files, filesToRegister parsed with
    | .ok _, .ok files => (registerCasBlocks st.db parsed.casBlocks r.now).diskBytes (fun x =>
        newlyReferred st.db owner files x && !decide (x ∈ st.db.xorbsOfOwner owner))
    | _, _ => 0

/-- The request adds no bytes to an owner's sum, or the sum has overflown. -/
def AddsNothing (svc : Service) (owner : String) (st : ServerState) (a : Request) : Prop :=
  match a with
  | .shard r => ∀ parsed, checkShard st r.body = .ok parsed →
      9223372036854775808 ≤ st.db.ownerBytes owner ∨ foreignBytes svc owner st r parsed = 0
  | _ => True

theorem ownerHas_congr {db db' : Db} (h : db'.files = db.files) (owner : String) (k : FileHash) :
    OwnerHas db' owner k ↔ OwnerHas db owner k := by
  unfold OwnerHas
  rw [h]

theorem newlyReferred_congr {db db' : Db} (hfiles : db'.files = db.files)
    (hterms : db'.fileTerms = db.fileTerms) (owner : String)
    (files : List (FileHash × List FileTerm)) (x : XorbHash) :
    newlyReferred db' owner files x = newlyReferred db owner files x := by
  have hlist : ∀ h, db'.fileTermList h = db.fileTermList h := by
    intro h
    unfold Db.fileTermList
    rw [hterms]
  unfold newlyReferred
  simp only [ownerHas_congr hfiles, hlist]

/-- The bytes of an owner after a registration of another. -/
theorem ownerBytes_registerFiles_of_ne {db : Db} {repo : RepoRef} {owner : String}
    (hrows : OwnerRows db) (hne : repo.owner ≠ owner)
    (files : List (FileHash × List FileTerm)) (now : Int) :
    (db.registerFiles repo files now).ownerBytes owner = db.ownerBytes owner +
      db.diskBytes (fun x => newlyReferred db owner files x &&
        !decide (x ∈ db.xorbsOfOwner owner)) := by
  obtain ⟨hxorbs, -, -, -⟩ := registerFiles_frame db repo files now
  unfold Db.ownerBytes Db.diskBytes
  rw [hxorbs, ← Table.sumOn_or]
  refine Table.sumOn_congr (fun row _ => ?_)
  rw [Bool.eq_iff_iff, decide_eq_true_eq, mem_xorbsOfOwner_registerFiles hrows hne, Bool.or_eq_true,
    decide_eq_true_eq]

/-- **What a shard of another owner does to the bytes of an owner.** -/
theorem ownerBytes_shard {svc : Service} {owner : String} {st : ServerState} {r : ShardRequest}
    (hrows : OwnerRows st.db) (hne : r.repo.owner ≠ owner) {parsed : ParsedShard}
    (hcheck : checkShard st r.body = .ok parsed) :
    (handle svc st (.shard r)).db.ownerBytes owner =
      st.db.ownerBytes owner + foreignBytes svc owner st r parsed := by
  obtain ⟨hfiles, hterms, -, -⟩ := registerCasBlocks_frame st.db parsed.casBlocks r.now
  have hcas := ownerBytes_registerCasBlocks st.db parsed.casBlocks r.now owner
  have hrows₁ : OwnerRows (registerCasBlocks st.db parsed.casBlocks r.now) := by
    intro f hf
    rw [hfiles] at hf
    exact hrows f hf
  simp only [handle]
  rcases uploadShard_cases svc st r with ⟨e, hbad, -⟩ | ⟨parsed', hcheck', hres⟩
  · rw [hbad] at hcheck
    simp at hcheck
  · rw [hcheck, Except.ok.injEq] at hcheck'
    subst hcheck'
    unfold foreignBytes
    rcases hres with ⟨e, hres, hquota | ⟨hquota, hlist⟩⟩ | ⟨files, hquota, hlist, hres⟩
    · rw [hres, hquota]
      exact hcas
    · rw [hres, hquota, hlist]
      exact hcas
    · rw [hres, hquota, hlist]
      simp only
      rw [ownerBytes_registerFiles_of_ne hrows₁ hne, hcas, Nat.add_assoc]
      simp only [newlyReferred_congr hfiles hterms, xorbsOfOwner_congr hfiles hterms]

/-- Requests of other owners leave the raw bytes alone. -/
theorem rawBytes_of_filter {db db' : Db} {owner : String}
    (h : db'.files.filter (fun f => decide (f.owner = owner)) =
      db.files.filter (fun f => decide (f.owner = owner))) :
    db'.rawBytesForOwner owner = db.rawBytesForOwner owner := by
  unfold Db.rawBytesForOwner
  rw [h]

theorem storedBytes_eq_iff {db db' : Db} {owner : String} {n : Nat}
    (h : db'.ownerBytes owner = db.ownerBytes owner + n) :
    db'.storedBytesForOwner owner = db.storedBytesForOwner owner ↔
      9223372036854775808 ≤ db.ownerBytes owner ∨ n = 0 := by
  have hsum : ∀ d : Db, ((d.xorbs.filter (fun r => decide (r.info.xorb ∈
      d.xorbsOfOwner owner))).map (fun r => r.info.numBytesOnDisk.toNat)).sum =
        d.ownerBytes owner := fun _ => rfl
  unfold Db.storedBytesForOwner
  rw [sumI64_eq_iff, hsum, hsum, h]
  omega

/-- **One request of another owner**: raw bytes stay, and stored bytes stay exactly when it adds
    nothing. -/
theorem foreign_request_iff {svc : Service} {owner : String} {st : ServerState} {a : Request}
    (hrows : OwnerRows st.db) (hother : ∃ p, a.owner = some p ∧ p ≠ owner) :
    ((handle svc st a).db.storedBytesForOwner owner = st.db.storedBytesForOwner owner ∧
      (handle svc st a).db.rawBytesForOwner owner = st.db.rawBytesForOwner owner) ↔
      AddsNothing svc owner st a := by
  obtain ⟨p, hp, hne⟩ := hother
  cases a with
  | quota o limit => simp [Request.owner] at hp
  | xorb r =>
      simp only [AddsNothing, iff_true, handle]
      cases hup : uploadXorb svc st r with
      | error e => exact ⟨rfl, rfl⟩
      | ok res =>
          obtain ⟨-, -, layout, -, hdb, -, -⟩ := uploadXorb_cases hup
          obtain ⟨hfiles, hterms, hxorbs, -, -⟩ := registerXorbLayout_frame st.db r.hash layout
          simp only [hdb]
          constructor
          · unfold Db.storedBytesForOwner
            rw [xorbsOfOwner_congr hfiles hterms, hxorbs]
          · unfold Db.rawBytesForOwner
            rw [hfiles]
  | shard r =>
      simp only [Request.owner, Option.some.injEq] at hp
      rw [← hp] at hne
      have hfilter : (handle svc st (.shard r)).db.files.filter
          (fun f => decide (f.owner = owner)) =
            st.db.files.filter (fun f => decide (f.owner = owner)) := by
        rcases handle_tables svc st (.shard r) with ⟨hfiles, -⟩ |
            ⟨r', db, hr, -, hfiles, -, hdb⟩
        · rw [hfiles]
        · obtain rfl : r = r' := Request.shard.inj hr
          have hrows' : OwnerRows db := by
            intro f hf
            rw [hfiles] at hf
            exact hrows f hf
          rw [hdb, ← hfiles]
          exact ownerRows_registerFiles_of_ne hrows' hne
      simp only [rawBytes_of_filter hfilter, and_true, AddsNothing]
      cases hcheck : checkShard st r.body with
      | error e =>
          have hsame : handle svc st (.shard r) = st := by
            simp only [handle, uploadShard, hcheck]
          simp [hsame]
      | ok parsed =>
          rw [storedBytes_eq_iff (ownerBytes_shard hrows hne hcheck)]
          simp

/-! ## Two runs -/

/-- The lists that shards of the owner declare, in order. -/
def ownFiles (owner : String) (reqs : List Request) : List (FileHash × List FileTerm) :=
  reqs.flatMap (fun a => match a with
    | .shard r => if r.repo.owner = owner then r.files else []
    | _ => [])

/-- The xorbs of the owner's own first lists. -/
def ownXorbs (log : List (FileHash × List FileTerm)) : List XorbHash :=
  (log.filter (fun f => decide (firstList f.1 log = some f.2))).flatMap
    (fun f => f.2.map (fun t => t.xorb))

/-- Two lists name the same xorbs. -/
def SameXorbs (terms terms' : List FileTerm) : Prop :=
  ∀ x, (∃ t ∈ terms, t.xorb = x) ↔ ∃ t ∈ terms', t.xorb = x

/-- What a xorb counts: the size of its row, or nothing. -/
def xorbBytes (db : Db) (x : XorbHash) : Nat := db.diskBytes (fun y => decide (y = x))

/-- The xorbs of the list count the given sizes. -/
def RowsSized (size : XorbHash → Nat) (db : Db) (terms : List FileTerm) : Prop :=
  ∀ t ∈ terms, xorbBytes db t.xorb = size t.xorb

/-- What requests have to meet for the bytes of the owner to follow from its own. Any shard: its CAS
    blocks add no bytes to xorbs that the owner refers to already. A shard of the owner: the list
    kept for each hash that is new to it names the xorbs of its own list, and the xorbs it refers to
    count the given sizes. A shard of another: it stores no terms for a hash that the owner has
    without any. -/
def Undisturbed (svc : Service) (owner : String) (size : XorbHash → Nat) (st : ServerState)
    (a : Request) : Prop :=
  match a with
  | .shard r =>
    (∀ parsed, checkShard st r.body = .ok parsed →
      newBytes st.db parsed.casBlocks r.now (fun x => decide (x ∈ st.db.xorbsOfOwner owner)) = 0) ∧
    if r.repo.owner = owner then
      ∀ parsed, checkShard st r.body = .ok parsed → ∀ h terms, (h, terms) ∈ r.files →
        (¬ OwnerHas st.db owner h →
          SameXorbs (termsAfter st.db h r.files) ((firstList h r.files).getD [])) ∧
        RowsSized size (registerCasBlocks st.db parsed.casBlocks r.now)
          (termsAfter st.db h r.files)
    else PassesChecks svc st r → ∀ h, OwnerHas st.db owner h → st.db.fileTermList h = [] →
      firstList h r.files = none
  | _ => True

/-- The owner's requests are accepted. -/
def OwnAccepted (svc : Service) (owner : String) (st : ServerState) (a : Request) : Prop :=
  a.owner = some owner → Accepted svc st a

/-- What the tables hold of an owner whose shards have declared `log`. -/
structure OwnerLog (owner : String) (size : XorbHash → Nat)
    (log : List (FileHash × List FileTerm)) (db : Db) : Prop where
  rows : OwnerRows db
  has : ∀ h, OwnerHas db owner h ↔ ∃ terms, (h, terms) ∈ log
  lists : ∀ h, OwnerHas db owner h → SameXorbs (db.fileTermList h) ((firstList h log).getD [])
  sized : ∀ h, OwnerHas db owner h → RowsSized size db (db.fileTermList h)

theorem mem_fileTermList {db : Db} {h : FileHash} {t : FileTerm} :
    t ∈ db.fileTermList h ↔ ∃ row ∈ db.fileTerms, row.fileHash = h ∧ row.term = t := by
  unfold Db.fileTermList Table.orderBy
  simp only [List.mem_map, List.mem_insertionSort, mem_termsOf]
  constructor
  · rintro ⟨row, ⟨hrow, hhash⟩, hterm⟩
    exact ⟨row, hrow, hhash, hterm⟩
  · rintro ⟨row, hrow, hhash, hterm⟩
    exact ⟨row, ⟨hrow, hhash⟩, hterm⟩

theorem mem_ownXorbs {log : List (FileHash × List FileTerm)} {x : XorbHash} :
    x ∈ ownXorbs log ↔ ∃ h, ∃ t ∈ (firstList h log).getD [], t.xorb = x := by
  simp only [ownXorbs, List.mem_flatMap, List.mem_filter, decide_eq_true_eq, List.mem_map]
  constructor
  · rintro ⟨f, ⟨-, hfirst⟩, t, ht, hx⟩
    exact ⟨f.1, t, by rw [hfirst]; exact ht, hx⟩
  · rintro ⟨h, t, ht, hx⟩
    cases hfirst : firstList h log with
    | none => simp [hfirst] at ht
    | some terms =>
        rw [hfirst] at ht
        exact ⟨(h, terms), ⟨(firstList_mem hfirst).1, hfirst⟩, t, ht, hx⟩

section Log

variable {owner : String} {size : XorbHash → Nat} {log : List (FileHash × List FileTerm)} {db : Db}

/-- **The bytes of an owner follow from its log.** -/
theorem OwnerLog.ownerBytes (hlog : OwnerLog owner size log db) :
    db.ownerBytes owner = ((ownXorbs log).dedup.map size).sum := by
  -- the owner refers to the xorbs of its own first lists, and each has the row of its size
  have hsame : ∀ x, x ∈ db.xorbsOfOwner owner ↔ x ∈ ownXorbs log := by
    intro x
    rw [mem_xorbsOfOwner_iff, mem_ownXorbs]
    constructor
    · rintro ⟨row, hrow, hx, hown⟩
      obtain ⟨t, ht, hx'⟩ := (hlog.lists _ hown x).1
        ⟨row.term, mem_fileTermList.2 ⟨row, hrow, rfl, rfl⟩, hx⟩
      exact ⟨row.fileHash, t, ht, hx'⟩
    · rintro ⟨h, t, ht, hx⟩
      have hown : OwnerHas db owner h := by
        cases hfirst : firstList h log with
        | none => simp [hfirst] at ht
        | some terms => exact (hlog.has h).2 ⟨terms, (firstList_mem hfirst).1⟩
      obtain ⟨u, hu, hx'⟩ := (hlog.lists h hown x).2 ⟨t, ht, hx⟩
      obtain ⟨row, hrow, hhash, hterm⟩ := mem_fileTermList.1 hu
      exact ⟨row, hrow, by rw [hterm, hx'], by rw [hhash]; exact hown⟩
  have hsized : ∀ x ∈ (ownXorbs log).dedup, xorbBytes db x = size x := by
    intro x hx
    obtain ⟨row, hrow, hxorb, hown⟩ := mem_xorbsOfOwner_iff.1 ((hsame x).2 (List.mem_dedup.1 hx))
    rw [← hxorb]
    exact hlog.sized _ hown row.term (mem_fileTermList.2 ⟨row, hrow, rfl, rfl⟩)
  rw [← List.map_congr_left hsized]
  refine Eq.trans ?_ (Table.sumOn_mem XorbRow.key (List.nodup_dedup _) db.xorbs)
  unfold Db.ownerBytes Db.diskBytes
  refine Table.sumOn_congr (fun row _ => ?_)
  rw [Bool.eq_iff_iff, decide_eq_true_eq, decide_eq_true_eq, List.mem_dedup]
  exact hsame row.info.xorb

/-- CAS blocks that add no bytes to the xorbs of an owner add none to any of these. -/
theorem xorbBytes_registerCasBlocks {blocks : List ParsedCasBlock} {now : Int}
    (hnone : newBytes db blocks now (fun x => decide (x ∈ db.xorbsOfOwner owner)) = 0)
    {x : XorbHash} (hx : x ∈ db.xorbsOfOwner owner) :
    xorbBytes (registerCasBlocks db blocks now) x = xorbBytes db x := by
  unfold xorbBytes
  rw [diskBytes_registerCasBlocks, Nat.add_eq_left]
  unfold newBytes at hnone ⊢
  rw [Table.sumOn_eq_zero] at hnone ⊢
  intro r hr heq
  refine hnone r hr (decide_eq_true ?_)
  rw [of_decide_eq_true heq]
  exact hx

/-- A change of the other tables. -/
theorem OwnerLog.of_same (hlog : OwnerLog owner size log db) {db' : Db}
    (hfiles : db'.files = db.files) (hterms : db'.fileTerms = db.fileTerms)
    (hxorbs : db'.xorbs = db.xorbs) : OwnerLog owner size log db' := by
  have hlist : ∀ h, db'.fileTermList h = db.fileTermList h := by
    intro h
    unfold Db.fileTermList
    rw [hterms]
  refine ⟨?_, fun h => ?_, fun h hown => ?_, fun h hown => ?_⟩
  · unfold OwnerRows
    rw [hfiles]
    exact hlog.rows
  · rw [ownerHas_congr hfiles]
    exact hlog.has h
  · rw [hlist]
    exact hlog.lists h ((ownerHas_congr hfiles owner h).1 hown)
  · rw [hlist]
    unfold RowsSized xorbBytes Db.diskBytes
    rw [hxorbs]
    exact hlog.sized h ((ownerHas_congr hfiles owner h).1 hown)

theorem OwnerLog.casBlocks (hlog : OwnerLog owner size log db) {blocks : List ParsedCasBlock}
    {now : Int} (hnone : newBytes db blocks now (fun x => decide (x ∈ db.xorbsOfOwner owner)) = 0) :
    OwnerLog owner size log (registerCasBlocks db blocks now) := by
  obtain ⟨hfiles, hterms, -, -⟩ := registerCasBlocks_frame db blocks now
  have hlist : ∀ h, (Server.registerCasBlocks db blocks now).fileTermList h = db.fileTermList h := by
    intro h
    unfold Db.fileTermList
    rw [hterms]
  refine ⟨?_, fun h => ?_, fun h hown => ?_, fun h hown => ?_⟩
  · unfold OwnerRows
    rw [hfiles]
    exact hlog.rows
  · rw [ownerHas_congr hfiles]
    exact hlog.has h
  · rw [hlist]
    exact hlog.lists h ((ownerHas_congr hfiles owner h).1 hown)
  · rw [hlist]
    intro t ht
    have hold := (ownerHas_congr hfiles owner h).1 hown
    obtain ⟨row, hrow, hhash, rfl⟩ := mem_fileTermList.1 ht
    rw [xorbBytes_registerCasBlocks hnone
      (mem_xorbsOfOwner_iff.2 ⟨row, hrow, rfl, by rw [hhash]; exact hold⟩)]
    exact hlog.sized h hold row.term ht

theorem ownerHas_registerFiles_own {repo : RepoRef} {files : List (FileHash × List FileTerm)}
    {now : Int} (hown : repo.owner = owner) (h : FileHash) :
    OwnerHas (db.registerFiles repo files now) owner h ↔
      OwnerHas db owner h ∨ ∃ terms, (h, terms) ∈ files := by
  cases hlast : lastList h files with
  | none =>
      have hrow : ∀ f : FileRow, f.fileHash = h →
          (f ∈ (db.registerFiles repo files now).files ↔ f ∈ db.files) := by
        intro f hf
        rw [mem_files_registerFiles db repo now hf, hlast]
      have hnot : ¬ ∃ terms, (h, terms) ∈ files :=
        fun ⟨terms, hmem⟩ => not_mem_of_lastList_none hlast hmem
      simp only [hnot, or_false]
      constructor
      · rintro ⟨f, hf, hhash, ho⟩
        exact ⟨f, (hrow f hhash).1 hf, hhash, ho⟩
      · rintro ⟨f, hf, hhash, ho⟩
        exact ⟨f, (hrow f hhash).2 hf, hhash, ho⟩
  | some last =>
      have hnew : OwnerHas (db.registerFiles repo files now) owner h := by
        refine ⟨fileRow h repo last now, ?_, rfl, hown⟩
        rw [mem_files_registerFiles db repo now rfl]
        simp only [fileRow, hlast, true_or]
      exact ⟨fun _ => Or.inr ⟨last, lastList_mem hlast⟩, fun _ => hnew⟩

theorem sameXorbs_nil {terms : List FileTerm} (h : SameXorbs terms []) : terms = [] := by
  cases terms with
  | nil => rfl
  | cons t terms =>
      obtain ⟨u, hu, -⟩ := (h t.xorb).1 ⟨t, List.mem_cons_self, rfl⟩
      simp at hu

/-- **Registering the owner's own files.** -/
theorem OwnerLog.registerOwn (hlog : OwnerLog owner size log db) {repo : RepoRef}
    (hown : repo.owner = owner) {files : List (FileHash × List FileTerm)} (now : Int)
    (hkept : ∀ h terms, (h, terms) ∈ files → ¬ OwnerHas db owner h →
      SameXorbs (termsAfter db h files) ((firstList h files).getD []))
    (hsized : ∀ h terms, (h, terms) ∈ files → RowsSized size db (termsAfter db h files)) :
    OwnerLog owner size (log ++ files) (db.registerFiles repo files now) := by
  obtain ⟨hxorbs, -, -, -⟩ := registerFiles_frame db repo files now
  refine ⟨hlog.rows.registerFiles, fun h => ?_, fun h hhas => ?_, fun h hhas => ?_⟩
  · rw [ownerHas_registerFiles_own hown, hlog.has]
    simp only [List.mem_append]
    exact exists_or.symm
  · rw [fileTermList_registerFiles, firstList_append]
    -- a hash the owner had keeps its first list, also when that is still to come; a new one gets
    -- the list that is kept for it
    by_cases hbefore : OwnerHas db owner h
    · have hsame := hlog.lists h hbefore
      cases hfirst : firstList h log with
      | none =>
          rw [hfirst, Option.getD_none] at hsame
          unfold termsAfter
          rw [if_pos (sameXorbs_nil hsame), Option.none_or]
          exact fun x => Iff.rfl
      | some terms =>
          rw [hfirst, Option.getD_some] at hsame
          have hne : db.fileTermList h ≠ [] := by
            intro hnil
            rw [hnil] at hsame
            exact (firstList_mem hfirst).2 (sameXorbs_nil (fun x => (hsame x).symm))
          unfold termsAfter
          rw [if_neg hne, Option.some_or, Option.getD_some]
          exact hsame
    · obtain hold | ⟨terms, hmem⟩ := (ownerHas_registerFiles_own hown h).1 hhas
      · exact absurd hold hbefore
      · have hnone : firstList h log = none := by
          cases hfirst : firstList h log with
          | none => rfl
          | some terms => exact absurd ((hlog.has h).2 ⟨terms, (firstList_mem hfirst).1⟩) hbefore
        rw [hnone, Option.none_or]
        exact hkept h terms hmem hbefore
  · rw [fileTermList_registerFiles]
    have hrows : RowsSized size db (termsAfter db h files) := by
      cases hlast : lastList h files with
      | some last => exact hsized h last (lastList_mem hlast)
      | none =>
          unfold termsAfter
          rw [firstList_of_lastList_none hlast]
          split_ifs with hnil
          · intro t ht
            simp at ht
          · rcases (ownerHas_registerFiles_own hown h).1 hhas with hold | ⟨terms, hmem⟩
            · exact hlog.sized h hold
            · exact absurd hmem (not_mem_of_lastList_none hlast)
    unfold RowsSized xorbBytes Db.diskBytes at hrows ⊢
    rw [hxorbs]
    exact hrows

/-- **Registering files of another owner.** -/
theorem OwnerLog.registerOther (hlog : OwnerLog owner size log db) {repo : RepoRef}
    (hne : repo.owner ≠ owner) {files : List (FileHash × List FileTerm)} (now : Int)
    (hclear : ∀ h, OwnerHas db owner h → db.fileTermList h = [] → firstList h files = none) :
    OwnerLog owner size log (db.registerFiles repo files now) := by
  obtain ⟨hxorbs, -, -, -⟩ := registerFiles_frame db repo files now
  have hhas : ∀ h, OwnerHas (db.registerFiles repo files now) owner h ↔ OwnerHas db owner h :=
    ownerHas_of_filter (ownerRows_registerFiles_of_ne hlog.rows hne)
  have hlist : ∀ h, OwnerHas db owner h →
      (db.registerFiles repo files now).fileTermList h = db.fileTermList h := by
    intro h hown
    rw [fileTermList_registerFiles]
    unfold termsAfter
    split_ifs with hnil
    · rw [hclear h hown hnil, Option.getD_none, hnil]
    · rfl
  refine ⟨hlog.rows.registerFiles, fun h => ?_, fun h hown => ?_, fun h hown => ?_⟩
  · rw [hhas]
    exact hlog.has h
  · rw [hlist h ((hhas h).1 hown)]
    exact hlog.lists h ((hhas h).1 hown)
  · rw [hlist h ((hhas h).1 hown)]
    unfold RowsSized xorbBytes Db.diskBytes
    rw [hxorbs]
    exact hlog.sized h ((hhas h).1 hown)

end Log

/-- **Every request keeps the log**, and adds what the owner's shards declare. -/
theorem OwnerLog.handle {svc : Service} {owner : String} {size : XorbHash → Nat}
    {log : List (FileHash × List FileTerm)} {st : ServerState}
    (hlog : OwnerLog owner size log st.db) {a : Request} (hacc : OwnAccepted svc owner st a)
    (hclear : Undisturbed svc owner size st a) :
    OwnerLog owner size (log ++ ownFiles owner [a]) (handle svc st a).db := by
  cases a with
  | xorb r =>
      simp only [ownFiles, List.flatMap_cons, List.flatMap_nil, List.append_nil, Server.handle]
      cases hup : uploadXorb svc st r with
      | error e => exact hlog
      | ok res =>
          obtain ⟨-, -, layout, -, hdb, -, -⟩ := uploadXorb_cases hup
          obtain ⟨hfiles, hterms, hxorbs, -, -⟩ := registerXorbLayout_frame st.db r.hash layout
          simp only [hdb]
          exact hlog.of_same hfiles hterms hxorbs
  | quota o limit =>
      obtain ⟨hxorbs, -, -, hfiles, hterms⟩ := setOwnerQuota_frame st.db o limit
      simp only [ownFiles, List.flatMap_cons, List.flatMap_nil, List.append_nil, Server.handle]
      exact hlog.of_same hfiles hterms hxorbs
  | shard r =>
      simp only [ownFiles, List.flatMap_cons, List.flatMap_nil, List.append_nil]
      simp only [Undisturbed] at hclear
      obtain ⟨hnone, hclear⟩ := hclear
      by_cases hown : r.repo.owner = owner
      · rw [if_pos hown] at hclear ⊢
        obtain ⟨parsed, hcheck, -, -, hres⟩ := accepted_shard (hacc (by rw [← hown]; rfl))
        obtain ⟨hfiles, hterms, -, -⟩ := registerCasBlocks_frame st.db parsed.casBlocks r.now
        have hafter : ∀ h, termsAfter (registerCasBlocks st.db parsed.casBlocks r.now) h r.files =
            termsAfter st.db h r.files := by
          intro h
          unfold termsAfter Db.fileTermList
          rw [hterms]
        rw [hres]
        refine (hlog.casBlocks (hnone parsed hcheck)).registerOwn hown r.now
          (fun h terms hmem hnew => ?_) (fun h terms hmem => ?_)
        · rw [hafter]
          exact (hclear parsed hcheck h terms hmem).1
            (fun hold => hnew ((ownerHas_congr hfiles owner h).2 hold))
        · rw [hafter]
          exact (hclear parsed hcheck h terms hmem).2
      · rw [if_neg hown] at hclear ⊢
        rw [List.append_nil]
        simp only [Server.handle]
        rcases uploadShard_cases svc st r with ⟨e, -, hres⟩ | ⟨parsed, hcheck, hres⟩
        · rw [hres]
          exact hlog
        · have hlog₁ := hlog.casBlocks (hnone parsed hcheck)
          rcases hres with ⟨e, hres, -⟩ | ⟨files, hquota, hlist, hres⟩
          · rw [hres]
            exact hlog₁
          · have hfilesEq : r.files = files := by
              unfold ShardRequest.files
              simp only [(checkShard_ok hcheck).1, hlist]
            obtain ⟨hfiles, hterms, -, -⟩ := registerCasBlocks_frame st.db parsed.casBlocks r.now
            rw [hres]
            refine hlog₁.registerOther hown r.now (fun h hhas hnil => ?_)
            rw [← hfilesEq]
            refine hclear ⟨parsed, files, hcheck, hquota, hlist⟩ h
              ((ownerHas_congr hfiles owner h).1 hhas) ?_
            unfold Db.fileTermList at hnil ⊢
            rw [← hterms]
            exact hnil

theorem run_ownerLog {svc : Service} {owner : String} {size : XorbHash → Nat}
    {reqs : List Request} {log : List (FileHash × List FileTerm)} {st t : ServerState}
    (hlog : OwnerLog owner size log st.db)
    (hacc : Machine.Admissible (requestStep svc) (OwnAccepted svc owner) st reqs)
    (hclear : Machine.Admissible (requestStep svc) (Undisturbed svc owner size) st reqs)
    (hrun : Machine.run (requestStep svc) st reqs = some t) :
    OwnerLog owner size (log ++ ownFiles owner reqs) t.db := by
  induction reqs generalizing st log with
  | nil =>
      obtain rfl : st = t := Option.some.inj hrun
      simpa [ownFiles] using hlog
  | cons a reqs ih =>
      obtain ⟨s, hs, hrest⟩ := Machine.run_cons_eq_some hrun
      obtain rfl : handle svc st a = s := Option.some.inj hs
      have hstep := ih (hlog.handle hacc.1 hclear.1) (hacc.2 _ hs) (hclear.2 _ hs) hrest
      have hsplit : ownFiles owner (a :: reqs) = ownFiles owner [a] ++ ownFiles owner reqs := by
        simp [ownFiles]
      rw [hsplit, ← List.append_assoc]
      exact hstep

/-- The requests that carry a token of the owner. -/
def ownRequests (owner : String) (reqs : List Request) : List Request :=
  reqs.filter (fun a => decide (a.owner = some owner))

theorem ownFiles_ownRequests (owner : String) (reqs : List Request) :
    ownFiles owner (ownRequests owner reqs) = ownFiles owner reqs := by
  induction reqs with
  | nil => rfl
  | cons a reqs ih =>
      unfold ownFiles ownRequests at ih ⊢
      rw [List.flatMap_cons, ← ih]
      cases a with
      | xorb r =>
          by_cases hown : r.repo.owner = owner <;>
            simp [Request.owner, hown]
      | shard r =>
          by_cases hown : r.repo.owner = owner <;>
            simp [Request.owner, hown]
      | quota o limit => simp [Request.owner]

theorem ownerLog_empty (owner : String) (size : XorbHash → Nat) :
    OwnerLog owner size [] ServerState.empty.db := by
  have hnone : ∀ h, ¬ OwnerHas ServerState.empty.db owner h := by
    rintro h ⟨f, hf, -⟩
    simp [ServerState.empty, Db.empty] at hf
  refine ⟨?_, fun h => ?_, fun h hown => ?_, fun h hown => ?_⟩
  · intro f hf
    simp [ServerState.empty, Db.empty] at hf
  · simp [hnone h]
  · exact absurd hown (hnone h)
  · exact absurd hown (hnone h)

/-- The stored bytes at the end of an undisturbed run follow from the owner's own requests. -/
theorem storedBytes_of_ownRequests {svc : Service} {owner : String} {size : XorbHash → Nat}
    {reqs : List Request} {t : ServerState}
    (hacc : Machine.Admissible (requestStep svc) (OwnAccepted svc owner) ServerState.empty reqs)
    (hclear : Machine.Admissible (requestStep svc) (Undisturbed svc owner size)
      ServerState.empty reqs)
    (hrun : Machine.run (requestStep svc) ServerState.empty reqs = some t) :
    t.db.ownerBytes owner =
      ((ownXorbs (ownFiles owner (ownRequests owner reqs))).dedup.map size).sum := by
  have hlog := run_ownerLog (ownerLog_empty owner size) hacc hclear hrun
  rw [List.nil_append] at hlog
  rw [hlog.ownerBytes, ownFiles_ownRequests]

/-- **When owners are accounted for independently.** One request of another owner leaves the bytes of
    an owner alone exactly when it adds nothing to them; and two runs with the same requests of the
    owner end with the same stored bytes when its requests are accepted and undisturbed in both. -/
theorem owner_accounting_independent (svc : Service) (owner : String) :
    (∀ (st : ServerState) (a : Request), Reachable svc st → (∃ p, a.owner = some p ∧ p ≠ owner) →
      (((handle svc st a).db.storedBytesForOwner owner = st.db.storedBytesForOwner owner ∧
        (handle svc st a).db.rawBytesForOwner owner = st.db.rawBytesForOwner owner) ↔
          AddsNothing svc owner st a)) ∧
    ∀ (size : XorbHash → Nat) (reqs₁ reqs₂ : List Request) (t₁ t₂ : ServerState),
      ownRequests owner reqs₁ = ownRequests owner reqs₂ →
      Machine.run (requestStep svc) ServerState.empty reqs₁ = some t₁ →
      Machine.run (requestStep svc) ServerState.empty reqs₂ = some t₂ →
      Machine.Admissible (requestStep svc) (OwnAccepted svc owner) ServerState.empty reqs₁ →
      Machine.Admissible (requestStep svc) (OwnAccepted svc owner) ServerState.empty reqs₂ →
      Machine.Admissible (requestStep svc) (Undisturbed svc owner size) ServerState.empty reqs₁ →
      Machine.Admissible (requestStep svc) (Undisturbed svc owner size) ServerState.empty reqs₂ →
      t₁.db.storedBytesForOwner owner = t₂.db.storedBytesForOwner owner := by
  constructor
  · intro st a hreach hother
    exact foreign_request_iff hreach.ownerRows hother
  · intro size reqs₁ reqs₂ t₁ t₂ hsame hrun₁ hrun₂ hacc₁ hacc₂ hclear₁ hclear₂
    have hbytes₁ := storedBytes_of_ownRequests hacc₁ hclear₁ hrun₁
    have hbytes₂ := storedBytes_of_ownRequests hacc₂ hclear₂ hrun₂
    rw [hsame, ← hbytes₂] at hbytes₁
    exact (storedBytes_eq_iff (n := 0) hbytes₁).2 (Or.inr rfl)

namespace Sample

/-- `bob` uploads a xorb of one byte. -/
def bobUpload : XorbRequest := ⟨bob, hash32 0x61, [0, 1, 0, 0, 0, 1, 0, 0, 0x61]⟩

/-- The file `hash32 h` as the one byte of that xorb, with or without its CAS block. -/
def blockFile (r : RepoRef) (h : UInt8) (blocks : List (List UInt8)) : ShardRequest :=
  ⟨r, shard [file h [(0x61, 1, 0, 1)]] blocks, 0⟩

def block : List (List UInt8) := [casBlock 0x61 [(0x61, 0, 1)]]

end Sample

/-- **A CAS block of another owner adds bytes**: the file of `alice` refers to a xorb that has no row
    yet, and a shard of `bob` brings the row. -/
theorem foreign_block_adds_bytes :
    ¬ ∀ (owner : String) (st : ServerState) (a : Request), Reachable Sample.service st →
      (∃ p, a.owner = some p ∧ p ≠ owner) →
      (handle Sample.service st a).db.storedBytesForOwner owner =
        st.db.storedBytesForOwner owner ∧
      (handle Sample.service st a).db.rawBytesForOwner owner = st.db.rawBytesForOwner owner := by
  intro hall
  have hsame := (hall "alice"
    (Sample.after [.xorb Sample.bobUpload, .shard (Sample.blockFile Sample.repo 1 [])])
    (.shard (Sample.blockFile Sample.bob 2 Sample.block)) ⟨_, Sample.run_after _⟩
    ⟨"bob", by decide +kernel, by decide⟩).1
  have hbefore : (Sample.after [.xorb Sample.bobUpload,
      .shard (Sample.blockFile Sample.repo 1 [])]).db.storedBytesForOwner "alice" = .ok 0 := by
    decide +kernel
  have hafter : (handle Sample.service (Sample.after [.xorb Sample.bobUpload,
      .shard (Sample.blockFile Sample.repo 1 [])]) (.shard (Sample.blockFile Sample.bob 2
        Sample.block))).db.storedBytesForOwner "alice" = .ok 9 := by
    decide +kernel
  rw [hbefore, hafter] at hsame
  simp at hsame

namespace Sample

/-- The CAS blocks of the shard add nothing to the xorbs that the owner refers to. -/
def addsNone (owner : String) (st : ServerState) (r : ShardRequest) : Bool :=
  (checkShard st r.body).toOption.all (fun parsed => decide (newBytes st.db parsed.casBlocks r.now
    (fun x => decide (x ∈ st.db.xorbsOfOwner owner)) = 0))

theorem newBytes_of_addsNone {owner : String} {st : ServerState} {r : ShardRequest}
    (h : addsNone owner st r = true) (parsed : ParsedShard)
    (hcheck : checkShard st r.body = .ok parsed) :
    newBytes st.db parsed.casBlocks r.now (fun x => decide (x ∈ st.db.xorbsOfOwner owner)) = 0 := by
  unfold addsNone at h
  rw [hcheck] at h
  exact of_decide_eq_true h

theorem undisturbed_of_check {svc : Service} {owner : String} {size : XorbHash → Nat}
    {st : ServerState} {r : ShardRequest} (hown : r.repo.owner = owner)
    (hnone : addsNone owner st r = true)
    (hkept : r.files.all (fun f => decide (termsAfter st.db f.1 r.files =
      (firstList f.1 r.files).getD [])) = true)
    (hsized : (checkShard st r.body).toOption.all (fun parsed => r.files.all (fun f =>
      (termsAfter st.db f.1 r.files).all (fun t => decide (xorbBytes
        (registerCasBlocks st.db parsed.casBlocks r.now) t.xorb = size t.xorb)))) = true) :
    Undisturbed svc owner size st (.shard r) := by
  refine ⟨newBytes_of_addsNone hnone, ?_⟩
  rw [if_pos hown]
  intro parsed hcheck h terms hmem
  have hlist := of_decide_eq_true (List.all_eq_true.1 hkept _ hmem)
  rw [hcheck] at hsized
  simp only [Except.toOption, Option.all_some, List.all_eq_true, decide_eq_true_eq] at hsized
  refine ⟨fun _ x => ?_, fun t ht => hsized (h, terms) hmem t ht⟩
  rw [hlist]

/-- `bob` uploads another xorb of one byte. -/
def bobUpload₂ : XorbRequest := ⟨bob, hash32 0x62, [0, 1, 0, 0, 0, 1, 0, 0, 0x62]⟩

/-- A file of `alice`: the bytes of both xorbs, with the CAS block of the first one only. -/
def bothBytes : ShardRequest := ⟨repo, shard [file 1 [(0x61, 1, 0, 1), (0x62, 1, 0, 1)]] block, 0⟩

end Sample

/-- With the CAS block in the shard of `alice`, it does not matter that `bob` registers it first; the
    xorb that nobody has a block for counts nothing in either run. -/
theorem owner_accounting_independent_block :
    (Sample.after [.xorb Sample.bobUpload, .xorb Sample.bobUpload₂,
      .shard (Sample.blockFile Sample.bob 2 Sample.block),
      .shard Sample.bothBytes]).db.storedBytesForOwner "alice" =
    (Sample.after [.xorb Sample.bobUpload, .xorb Sample.bobUpload₂,
      .shard Sample.bothBytes]).db.storedBytesForOwner "alice" := by
  refine (owner_accounting_independent Sample.service "alice").2
    (fun x => if x = Sample.hash32 0x61 then 9 else 0) _ _ _ _
    (by decide +kernel) (Sample.run_after _) (Sample.run_after _) ?_ ?_ ?_ ?_
  · refine admissible_requestStep_cons.2 ⟨?_, admissible_requestStep_cons.2 ⟨?_,
      admissible_requestStep_cons.2 ⟨?_, admissible_requestStep_cons.2 ⟨?_, trivial⟩⟩⟩⟩
    · exact fun hown => absurd hown (by decide +kernel)
    · exact fun hown => absurd hown (by decide +kernel)
    · exact fun hown => absurd hown (by decide +kernel)
    · intro _
      unfold Accepted
      decide +kernel
  · refine admissible_requestStep_cons.2 ⟨?_, admissible_requestStep_cons.2 ⟨?_,
      admissible_requestStep_cons.2 ⟨?_, trivial⟩⟩⟩
    · exact fun hown => absurd hown (by decide +kernel)
    · exact fun hown => absurd hown (by decide +kernel)
    · intro _
      unfold Accepted
      decide +kernel
  · refine admissible_requestStep_cons.2 ⟨trivial, admissible_requestStep_cons.2 ⟨trivial,
      admissible_requestStep_cons.2 ⟨⟨?_, ?_⟩, admissible_requestStep_cons.2 ⟨?_, trivial⟩⟩⟩⟩
    · exact Sample.newBytes_of_addsNone (by decide +kernel)
    · rw [if_neg (by decide +kernel)]
      rintro - h ⟨f, hf, -⟩
      have hnone : (handle Sample.service (handle Sample.service ServerState.empty
          (.xorb Sample.bobUpload)) (.xorb Sample.bobUpload₂)).db.files = [] := by
        decide +kernel
      rw [hnone] at hf
      simp at hf
    · exact Sample.undisturbed_of_check (by decide +kernel) (by decide +kernel)
        (by decide +kernel) (by decide +kernel)
  · refine admissible_requestStep_cons.2 ⟨trivial, admissible_requestStep_cons.2 ⟨trivial,
      admissible_requestStep_cons.2 ⟨?_, trivial⟩⟩⟩
    exact Sample.undisturbed_of_check (by decide +kernel) (by decide +kernel)
      (by decide +kernel) (by decide +kernel)

end BaleForGit.Server
