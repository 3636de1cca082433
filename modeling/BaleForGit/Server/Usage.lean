import BaleForGit.Server.BackendsAgree

set_option autoImplicit false

/-! # What the usage numbers mean

Two promises about numbers that different queries compute. The quota check of a shard adds to what an
owner stores the xorbs it does not refer to yet: for new files that is what the owner stores once
they are registered. And the exclusive bytes of a repository are what its owner would store less
without it.

Both are about which files of which repository and owner there are and which terms they have; the two
stores register files the same in that respect (`SameRefs`), though their tables differ. -/

namespace BaleForGit.Server

/-! ## What files refer to -/

/-- The same xorbs and terms, and the same hashes under the same repositories and owners. -/
structure SameRefs (d d' : Db) : Prop where
  xorbs : d'.xorbs = d.xorbs
  fileTerms : d'.fileTerms = d.fileTerms
  files : ∀ h repoId owner,
    (∃ f ∈ d'.files, f.fileHash = h ∧ f.repo.repoId = repoId ∧ f.owner = owner) ↔
      ∃ f ∈ d.files, f.fileHash = h ∧ f.repo.repoId = repoId ∧ f.owner = owner

namespace SameRefs

variable {d d' : Db}

theorem refl (d : Db) : SameRefs d d := ⟨rfl, rfl, fun _ _ _ => Iff.rfl⟩

theorem ownerHas (hsame : SameRefs d d') (owner : String) (h : FileHash) :
    OwnerHas d' owner h ↔ OwnerHas d owner h := by
  constructor
  · rintro ⟨f, hf, hh, howner⟩
    obtain ⟨g, hg, hgh, -, hgo⟩ := (hsame.files h f.repo.repoId owner).1 ⟨f, hf, hh, rfl, howner⟩
    exact ⟨g, hg, hgh, hgo⟩
  · rintro ⟨f, hf, hh, howner⟩
    obtain ⟨g, hg, hgh, -, hgo⟩ := (hsame.files h f.repo.repoId owner).2 ⟨f, hf, hh, rfl, howner⟩
    exact ⟨g, hg, hgh, hgo⟩

theorem ownerBytes (hsame : SameRefs d d') (owner : String) :
    d'.ownerBytes owner = d.ownerBytes owner := by
  unfold Db.ownerBytes Db.diskBytes
  rw [hsame.xorbs]
  refine Table.sumOn_congr (fun r _ => ?_)
  simp only [mem_xorbsOfOwner_iff, hsame.fileTerms, hsame.ownerHas]

end SameRefs

section Writes

variable (b : Backend)

/-- Both engines leave one row with the key. -/
theorem mem_putFile {t : List FileRow} {r f : FileRow} :
    f ∈ b.putFile t r ↔ (f ∈ t ∧ f.key ≠ r.key) ∨ f = r := by
  cases b with
  | sqlite => exact Table.mem_upsert
  | postgres =>
      simp only [Backend.putFile, Table.updateOnConflict]
      split_ifs with hin
      · obtain ⟨x, hx, hkey⟩ := List.mem_map.1 hin
        simp only [List.mem_map]
        constructor
        · rintro ⟨y, hy, rfl⟩
          split_ifs with heq
          · exact Or.inr (setExcluded_eq heq)
          · exact Or.inl ⟨hy, heq⟩
        · rintro (⟨hf, hne⟩ | rfl)
          · exact ⟨f, hf, if_neg hne⟩
          · exact ⟨x, hx, by rw [if_pos hkey, setExcluded_eq hkey]⟩
      · rw [List.mem_append, List.mem_singleton]
        constructor
        · rintro (hf | rfl)
          · exact Or.inl ⟨hf, fun heq => hin (heq ▸ List.mem_map_of_mem hf)⟩
          · exact Or.inr rfl
        · rintro (⟨hf, -⟩ | rfl)
          · exact Or.inl hf
          · exact Or.inr rfl

/-- A registration of one file that succeeds, as it is. -/
theorem writeFileInTx_eq_ok {db db' : Db} {h : FileHash} {repo : RepoRef} {terms : List FileTerm}
    {now : Int} (hok : b.writeFileInTx db h repo terms now = .ok db') :
    db' = { db.writeFileInTx h repo terms now with
      files := b.putFile db.files (fileRow h repo terms now) } := by
  unfold Backend.writeFileInTx at hok
  obtain ⟨-, -, hrest⟩ := Results.bind_eq_ok.1 hok
  unfold Db.writeFileInTx
  simp only [insertBatches_ok b TermRow.key (Nat.le_refl 7), bind, Except.bind] at hrest
  simp only [insertAll_batches]
  split_ifs at hrest ⊢ <;> exact (Except.ok.inj hrest).symm

/-- One file on one store and, at another time, on the single store. -/
theorem SameRefs.writeFileInTx {d d' e : Db} (hsame : SameRefs d d') {h : FileHash} {repo : RepoRef}
    {terms : List FileTerm} {now now' : Int} (hok : b.writeFileInTx d' h repo terms now' = .ok e) :
    SameRefs (d.writeFileInTx h repo terms now) e := by
  obtain ⟨hxorbs, -, -, -⟩ := writeFileInTx_frame d h repo terms now
  obtain ⟨hxorbs', -, -, -⟩ := writeFileInTx_frame d' h repo terms now'
  rw [writeFileInTx_eq_ok b hok]
  refine ⟨?_, ?_, fun k repoId owner => ?_⟩
  · simp only [hxorbs, hxorbs', hsame.xorbs]
  · unfold Db.writeFileInTx
    simp only [insertAll_batches, hsame.fileTerms]
    split_ifs <;> rfl
  · have hrow : ∀ {t : List FileRow} {now : Int},
        ((∃ f, ((f ∈ t ∧ f.key ≠ (fileRow h repo terms now).key) ∨ f = fileRow h repo terms now) ∧
            f.fileHash = k ∧ f.repo.repoId = repoId ∧ f.owner = owner) ↔
          ((∃ f ∈ t, f.fileHash = k ∧ f.repo.repoId = repoId ∧ f.owner = owner) ∧
            (k, repoId) ≠ (h, repo.repoId)) ∨
            (h = k ∧ repo.repoId = repoId ∧ repo.owner = owner)) := by
      intro t now
      constructor
      · rintro ⟨f, ⟨hf, hkey⟩ | rfl, hk, hr, ho⟩
        · refine Or.inl ⟨⟨f, hf, hk, hr, ho⟩, ?_⟩
          rw [← hk, ← hr]
          exact hkey
        · exact Or.inr ⟨hk, hr, ho⟩
      · rintro (⟨⟨f, hf, hk, hr, ho⟩, hkey⟩ | ⟨hk, hr, ho⟩)
        · refine ⟨f, Or.inl ⟨hf, ?_⟩, hk, hr, ho⟩
          rw [← hk, ← hr] at hkey
          exact hkey
        · exact ⟨fileRow h repo terms now, Or.inr rfl, hk, hr, ho⟩
    simp only [mem_putFile, writeFileInTx_files, Table.mem_upsert, hrow, hsame.files]

/-- **A registration on one store** refers to what the single store's refers to. -/
theorem sameRefs_registerFiles {clock : Nat → Int} {db db' : Db} {repo : RepoRef}
    {files : List (FileHash × List FileTerm)}
    (hok : b.registerFiles clock db repo files = .ok db') :
    SameRefs (db.registerFiles repo files 0) db' := by
  unfold Backend.registerFiles at hok
  split_ifs at hok with hempty
  · obtain rfl := Except.ok.inj hok
    rw [List.isEmpty_iff.1 hempty]
    exact .refl db
  · clear hempty
    have hrun : ∀ (l : List (FileHash × List FileTerm)) (i : Nat) (d d' : Db), SameRefs d d' →
        (l.zipIdx i).foldlM (fun d f => b.writeFileInTx d f.1.1 repo f.1.2 (clock f.2)) d' =
          .ok db' → SameRefs (d.registerFiles repo l 0) db' := by
      intro l
      induction l with
      | nil =>
          intro i d d' hsame hfold
          obtain rfl := Except.ok.inj hfold
          exact hsame
      | cons f l ih =>
          intro i d d' hsame hfold
          rw [List.zipIdx_cons, List.foldlM_cons] at hfold
          obtain ⟨e, he, hrest⟩ := Results.bind_eq_ok.1 hfold
          exact ih (i + 1) _ e (hsame.writeFileInTx b he) hrest
    exact hrun files 0 db db (.refl db) hok

end Writes

/-! ## Answers -/

section Answers

variable (b : Backend) {db : Db}

theorem SameResult.eq_ok_iff {α : Type} {r r' : CoreResult α} (h : SameResult r r') {v : α} :
    r = .ok v ↔ r' = .ok v := by
  unfold SameResult at h
  cases r <;> cases r' <;> simp_all [Except.toOption]

theorem storedBytes_eq_ok {label what : String} {p : XorbHash → Bool} {n : Nat} :
    b.storedBytes db label what p = .ok n ↔
      db.diskBytes p < 9223372036854775808 ∧ db.diskBytes p = n := by
  have hsame : SameResult (b.storedBytes db label what p) _ := storedBytes_single b label what p
  have hsum : ((db.xorbs.filter (fun r => p r.info.xorb)).map
      (fun r => r.info.numBytesOnDisk.toNat)).sum = db.diskBytes p := rfl
  rw [← hsum]
  exact hsame.eq_ok_iff.trans sumI64_ok

theorem storedBytesForOwner_eq_ok {owner : String} {n : Nat} :
    b.storedBytesForOwner db owner = .ok n ↔
      b.bindTexts "stored_bytes_for_owner" [owner] = .ok () ∧
        db.ownerBytes owner < 9223372036854775808 ∧ db.ownerBytes owner = n := by
  unfold Backend.storedBytesForOwner
  rw [Results.bind_eq_ok]
  simp only [storedBytes_eq_ok]
  exact ⟨fun ⟨(), ht, hn⟩ => ⟨ht, hn⟩, fun ⟨ht, hn⟩ => ⟨(), ht, hn⟩⟩

theorem mem_dedupSortedXorbs {xorbs : List XorbHash} {x : XorbHash} :
    x ∈ Backend.dedupSortedXorbs xorbs ↔ x ∈ xorbs := by
  simp [Backend.dedupSortedXorbs]

/-- A projection that is answered is the sum over the candidates the owner does not refer to. -/
theorem unaccounted_eq_of_ok {owner : String} {candidates : List XorbHash} {n : Nat}
    (h : b.unaccountedXorbBytesForOwner db owner candidates = .ok n) :
    db.unaccountedBytes owner candidates = n := by
  unfold Backend.unaccountedXorbBytesForOwner at h
  split_ifs at h with hempty
  · rw [← Except.ok.inj h, List.isEmpty_iff.1 hempty]
    unfold Db.unaccountedBytes Db.diskBytes
    rw [Table.sumOn_eq_zero]
    simp
  · obtain ⟨-, -, h⟩ := Results.bind_eq_ok.1 h
    obtain ⟨-, -, h⟩ := Results.bind_eq_ok.1 h
    rw [← ((storedBytes_eq_ok b).1 h).2]
    unfold Db.unaccountedBytes Db.diskBytes
    refine Table.sumOn_congr (fun r _ => ?_)
    simp only [mem_dedupSortedXorbs]

end Answers

/-! ## The projection of new files -/

section Projection

variable {db : Db} {repo : RepoRef} {files : List (FileHash × List FileTerm)} {now : Int}

/-- The hashes of an owner after one of its repositories registers files. -/
theorem ownerHas_registerFiles (h : FileHash) :
    OwnerHas (db.registerFiles repo files now) repo.owner h ↔
      OwnerHas db repo.owner h ∨ ∃ terms, (h, terms) ∈ files := by
  constructor
  · rintro ⟨f, hf, hh, howner⟩
    rw [mem_files_registerFiles db repo now hh] at hf
    cases hlast : lastList h files with
    | none =>
        rw [hlast] at hf
        exact Or.inl ⟨f, hf, hh, howner⟩
    | some terms => exact Or.inr ⟨terms, lastList_mem hlast⟩
  · intro hcase
    cases hlast : lastList h files with
    | some terms =>
        refine ⟨fileRow h repo terms now, ?_, rfl, rfl⟩
        rw [mem_files_registerFiles db repo now rfl]
        simp only [fileRow, hlast, true_or]
    | none =>
        rcases hcase with ⟨f, hf, hh, howner⟩ | ⟨terms, hterms⟩
        · refine ⟨f, ?_, hh, howner⟩
          rw [mem_files_registerFiles db repo now hh, hlast]
          exact hf
        · exact absurd hterms (not_mem_of_lastList_none hlast)

theorem firstList_of_nodup (hnodup : (files.map Prod.fst).Nodup) {h : FileHash}
    {terms : List FileTerm} (hmem : (h, terms) ∈ files) (hne : terms ≠ []) :
    firstList h files = some terms := by
  cases hfirst : firstList h files with
  | none => exact absurd hfirst (firstList_ne_none hmem hne)
  | some first =>
      have heq := List.inj_on_of_nodup_map hnodup (firstList_mem hfirst).1 hmem rfl
      rw [(Prod.mk.inj heq).2]

/-- **New files add their xorbs** to those the owner refers to, and nothing else. -/
theorem mem_xorbsOfOwner_registerFiles_of_new (hnodup : (files.map Prod.fst).Nodup)
    (hnew : ∀ f ∈ files, termsOf f.1 db.fileTerms = []) (x : XorbHash) :
    x ∈ (db.registerFiles repo files now).xorbsOfOwner repo.owner ↔
      x ∈ db.xorbsOfOwner repo.owner ∨ ∃ f ∈ files, ∃ t ∈ f.2, t.xorb = x := by
  simp only [mem_xorbsOfOwner_iff, ownerHas_registerFiles]
  constructor
  · rintro ⟨t, ht, hx, hown⟩
    rcases mem_fileTerms_registerFiles db repo now ht with hin | ⟨terms, hterms, hterm⟩
    · refine Or.inl ⟨t, hin, hx, hown.resolve_right ?_⟩
      rintro ⟨terms, hterms⟩
      have hrow : t ∈ termsOf t.fileHash db.fileTerms := mem_termsOf.2 ⟨hin, rfl⟩
      rw [hnew _ hterms] at hrow
      exact List.not_mem_nil hrow
    · exact Or.inr ⟨_, hterms, t.term, hterm, hx⟩
  · rintro (⟨t, ht, hx, hown⟩ | ⟨f, hf, u, hu, hx⟩)
    · exact ⟨t, mem_registerFiles_of_mem db repo now ht, hx, Or.inl hown⟩
    · -- the list of the hash goes in, since it is the only one and no terms are there
      have hrows := termsOf_registerFiles db repo now f.1 files
      rw [if_pos (hnew f hf)] at hrows
      simp only [firstRows, firstList_of_nodup hnodup hf (List.ne_nil_of_mem hu)] at hrows
      obtain ⟨row, hrow, hterm⟩ := exists_mem_termRows f.1 hu
      rw [← hrows] at hrow
      obtain ⟨hin, hhash⟩ := mem_termsOf.1 hrow
      exact ⟨row, hin, by rw [hterm, hx], Or.inr ⟨f.2, by rw [hhash]; exact hf⟩⟩

/-- The sums that the queries before and after compute. -/
theorem ownerBytes_registerFiles_of_new (hnodup : (files.map Prod.fst).Nodup)
    (hnew : ∀ f ∈ files, termsOf f.1 db.fileTerms = []) {xorbs : List XorbHash}
    (hxorbs : ∀ x, x ∈ xorbs ↔ ∃ f ∈ files, ∃ t ∈ f.2, t.xorb = x) :
    (db.registerFiles repo files now).ownerBytes repo.owner =
      db.ownerBytes repo.owner + db.unaccountedBytes repo.owner xorbs := by
  obtain ⟨hsame, -, -, -⟩ := registerFiles_frame db repo files now
  unfold Db.ownerBytes Db.unaccountedBytes Db.diskBytes
  rw [hsame]
  have hafter : Table.sumOn XorbRow.diskSize (fun r => decide (r.info.xorb ∈
      (db.registerFiles repo files now).xorbsOfOwner repo.owner)) db.xorbs =
        Table.sumOn XorbRow.diskSize (fun r => decide (r.info.xorb ∈ db.xorbsOfOwner repo.owner) ||
          decide (r.info.xorb ∈ xorbs)) db.xorbs :=
    Table.sumOn_congr (fun r _ => by
      simp only [mem_xorbsOfOwner_registerFiles_of_new hnodup hnew, ← hxorbs, Bool.decide_or])
  have hdelta : Table.sumOn XorbRow.diskSize (fun r => decide (r.info.xorb ∈ xorbs) &&
      !decide (r.info.xorb ∈ db.xorbsOfOwner repo.owner)) db.xorbs =
        Table.sumOn XorbRow.diskSize (fun r => decide (r.info.xorb ∈ xorbs) &&
          decide (r.info.xorb ∉ db.xorbsOfOwner repo.owner)) db.xorbs :=
    Table.sumOn_congr (fun r _ => by rw [decide_not])
  rw [hafter, Table.sumOn_or, hdelta]

end Projection

/-- **The quota projection is exact.** What an owner stores once new files are registered is what it
    stored before and the projection over all xorbs of their terms. -/
theorem quota_projection_exact (b : Backend) (clock : Nat → Int) (db db' : Db) (repo : RepoRef)
    (files : List (FileHash × List FileTerm)) (xorbs : List XorbHash)
    (hnodup : (files.map Prod.fst).Nodup) (hnew : ∀ f ∈ files, termsOf f.1 db.fileTerms = [])
    (hxorbs : ∀ x, x ∈ xorbs ↔ ∃ f ∈ files, ∃ t ∈ f.2, t.xorb = x)
    (hregister : b.registerFiles clock db repo files = .ok db') :
    db'.ownerBytes repo.owner =
        db.ownerBytes repo.owner + db.unaccountedBytes repo.owner xorbs ∧
      ∀ used delta, b.storedBytesForOwner db repo.owner = .ok used →
        b.unaccountedXorbBytesForOwner db repo.owner xorbs = .ok delta →
        ∀ n, b.storedBytesForOwner db' repo.owner = .ok n ↔
          n = used + delta ∧ n < 9223372036854775808 := by
  have hsum : db'.ownerBytes repo.owner =
      db.ownerBytes repo.owner + db.unaccountedBytes repo.owner xorbs := by
    rw [(sameRefs_registerFiles b hregister).ownerBytes,
      ownerBytes_registerFiles_of_new hnodup hnew hxorbs]
  refine ⟨hsum, fun used delta hused hdelta n => ?_⟩
  obtain ⟨htext, -, rfl⟩ := (storedBytesForOwner_eq_ok b).1 hused
  obtain rfl := unaccounted_eq_of_ok b hdelta
  rw [storedBytesForOwner_eq_ok, hsum]
  constructor
  · rintro ⟨-, hlt, rfl⟩
    exact ⟨rfl, hlt⟩
  · rintro ⟨rfl, hlt⟩
    exact ⟨htext, hlt, rfl⟩

namespace Sample

/-- Two xorbs, of nine and of five bytes, and no files yet. -/
def twoRows : Db :=
  { Db.empty with xorbs := [⟨⟨hash32 2, 1, 9, 9⟩, 0⟩, ⟨⟨hash32 3, 1, 5, 5⟩, 0⟩] }

/-- Two files that share the xorb `hash32 2`; the second also refers to one without a row. -/
def sharingFiles : List (FileHash × List FileTerm) :=
  [(hash32 1, [term 2 5]), (hash32 4, [term 2 5, term 7 1, term 3 5])]

end Sample

/-- A shared xorb counts once, and one without a row not at all. -/
theorem quota_projection_shared : ∃ db',
    Backend.postgres.registerFiles (fun _ => 0) Sample.twoRows Sample.repo Sample.sharingFiles =
      .ok db' ∧
    ∀ n, Backend.postgres.storedBytesForOwner db' "alice" = .ok n ↔
      n = 0 + 14 ∧ n < 9223372036854775808 := by
  have hok : (Backend.postgres.registerFiles (fun _ => 0) Sample.twoRows Sample.repo
      Sample.sharingFiles).toOption.isSome = true := by
    decide +kernel
  cases hregister : Backend.postgres.registerFiles (fun _ => 0) Sample.twoRows Sample.repo
      Sample.sharingFiles with
  | error e => simp [hregister, Except.toOption] at hok
  | ok db' =>
      have howner : Sample.repo.owner = "alice" := by decide +kernel
      have hprojection := quota_projection_exact .postgres (fun _ => 0) Sample.twoRows db'
        Sample.repo Sample.sharingFiles [Sample.hash32 7, Sample.hash32 2, Sample.hash32 3,
          Sample.hash32 2] (by decide) (fun _ _ => rfl)
        (fun x => by simp [Sample.sharingFiles, Sample.term]; tauto) hregister
      rw [howner] at hprojection
      exact ⟨db', rfl, hprojection.2 0 14 (by decide +kernel) (by decide +kernel)⟩

/-! ## Exclusive bytes -/

/-- The tables without the `files` rows of a repository. -/
def Db.dropRepo (db : Db) (repoId : String) : Db :=
  { db with files := db.files.filter (fun f => decide (f.repo.repoId ≠ repoId)) }

/-- The bytes that `exclusive_stored_bytes_for_repo` adds up. -/
def Db.exclusiveBytes (db : Db) (repoId : String) : Nat :=
  db.diskBytes (fun x => decide (x ∈ db.xorbsOfRepo repoId) &&
    decide (x ∉ db.xorbsOfSiblings repoId))

/-- The bytes that `stored_bytes_for_repo` adds up. -/
def Db.repoBytes (db : Db) (repoId : String) : Nat :=
  db.diskBytes (fun x => decide (x ∈ db.xorbsOfRepo repoId))

section OwnerRows

theorem OwnerRows.of_sameRefs {d d' : Db} (hsame : SameRefs d d') (hrows : OwnerRows d) :
    OwnerRows d' := by
  intro f hf
  obtain ⟨g, hg, -, hrepo, howner⟩ :=
    (hsame.files f.fileHash f.repo.repoId f.owner).1 ⟨f, hf, rfl, rfl, rfl⟩
  rw [← howner, hrows g hg]
  unfold RepoRef.owner
  rw [hrepo]

/-- Every operation files rows under the owner of their repository. -/
theorem OwnerRows.next {db : Db} (hrows : OwnerRows db) (b : Backend) (clock : Nat → Int)
    (op : MetaOp) : OwnerRows (b.next clock db op) := by
  cases op with
  | query q => exact hrows
  | write w =>
      unfold Backend.next
      simp only
      split
      · next db' hwrite =>
          cases w with
          | registerXorb xorb chunks =>
              simp only [Backend.write, registerXorb_ok, Except.ok.injEq] at hwrite
              rw [← hwrite]
              exact hrows
          | registerFile h repo terms =>
              have hsame : SameRefs (db.registerFiles repo [(h, terms)] 0) _ :=
                (SameRefs.refl db).writeFileInTx b hwrite
              exact hrows.registerFiles.of_sameRefs hsame
          | registerFiles repo files =>
              exact hrows.registerFiles.of_sameRefs (sameRefs_registerFiles b hwrite)
          | registerXorbLayout x frames =>
              simp only [Backend.write, registerXorbLayout_ok, Except.ok.injEq] at hwrite
              have hfiles : (db.registerXorbLayout x frames).files = db.files :=
                (registerXorbLayout_frame db x frames).1
              rw [← hwrite]
              unfold OwnerRows
              rw [hfiles]
              exact hrows
          | setOwnerQuota owner limitBytes =>
              cases limitBytes <;> simp only [Backend.write, Backend.setOwnerQuota] at hwrite <;>
                obtain ⟨-, -, hset⟩ := Results.bind_eq_ok.1 hwrite <;>
                rw [← Except.ok.inj hset] <;> exact hrows
      · exact hrows

theorem ownerRows_after (b : Backend) (acts : List MetaAct) : OwnerRows (b.after acts) := by
  have hrun : ∀ (acts : List MetaAct) (db : Db), OwnerRows db →
      OwnerRows (acts.foldl (fun db a => b.next (a.clock b) db a.op) db) := by
    intro acts
    induction acts with
    | nil => exact fun _ h => h
    | cons a acts ih => exact fun db h => ih _ (h.next b _ a.op)
  exact hrun acts Db.empty (fun f hf => absurd hf List.not_mem_nil)

end OwnerRows

section Exclusive

variable {db : Db}

/-- Without the repository, the owner refers to what its siblings refer to. -/
theorem mem_xorbsOfOwner_dropRepo {repoId : String} {x : XorbHash} :
    x ∈ (db.dropRepo repoId).xorbsOfOwner (ownerOfRepoId repoId) ↔ x ∈ db.xorbsOfSiblings repoId := by
  unfold Db.xorbsOfSiblings
  rw [mem_xorbsOfOwner, mem_xorbsWhere]
  simp only [Db.dropRepo, List.mem_filter, Bool.and_eq_true, decide_eq_true_eq]
  constructor
  · rintro ⟨t, ht, hx, f, ⟨hf, hrepo⟩, hh, howner⟩
    exact ⟨t, ht, hx, f, hf, hh, howner, hrepo⟩
  · rintro ⟨t, ht, hx, f, hf, hh, howner, hrepo⟩
    exact ⟨t, ht, hx, f, ⟨hf, hrepo⟩, hh, howner⟩

/-- The owner refers to what the repository or one of its siblings refers to. -/
theorem mem_xorbsOfOwner_iff_repo (hrows : OwnerRows db) {repoId : String} {x : XorbHash} :
    x ∈ db.xorbsOfOwner (ownerOfRepoId repoId) ↔
      x ∈ db.xorbsOfSiblings repoId ∨ x ∈ db.xorbsOfRepo repoId := by
  unfold Db.xorbsOfSiblings Db.xorbsOfRepo
  rw [mem_xorbsOfOwner, mem_xorbsWhere, mem_xorbsWhere]
  simp only [Bool.and_eq_true, decide_eq_true_eq]
  constructor
  · rintro ⟨t, ht, hx, f, hf, hh, howner⟩
    by_cases hrepo : f.repo.repoId = repoId
    · exact Or.inr ⟨t, ht, hx, f, hf, hh, hrepo⟩
    · exact Or.inl ⟨t, ht, hx, f, hf, hh, howner, hrepo⟩
  · rintro (⟨t, ht, hx, f, hf, hh, howner, -⟩ | ⟨t, ht, hx, f, hf, hh, hrepo⟩)
    · exact ⟨t, ht, hx, f, hf, hh, howner⟩
    · refine ⟨t, ht, hx, f, hf, hh, ?_⟩
      rw [hrows f hf]
      unfold RepoRef.owner ownerOfRepoId
      rw [hrepo]

/-- **The sums**: with the repository the owner stores its exclusive bytes more. -/
theorem ownerBytes_eq_dropRepo_add (hrows : OwnerRows db) (repoId : String) :
    db.ownerBytes (ownerOfRepoId repoId) =
      (db.dropRepo repoId).ownerBytes (ownerOfRepoId repoId) + db.exclusiveBytes repoId := by
  unfold Db.ownerBytes Db.exclusiveBytes Db.diskBytes
  have hall : Table.sumOn XorbRow.diskSize
      (fun r => decide (r.info.xorb ∈ db.xorbsOfOwner (ownerOfRepoId repoId))) db.xorbs =
        Table.sumOn XorbRow.diskSize (fun r => decide (r.info.xorb ∈ db.xorbsOfSiblings repoId) ||
          decide (r.info.xorb ∈ db.xorbsOfRepo repoId)) db.xorbs :=
    Table.sumOn_congr (fun r _ => by
      simp only [mem_xorbsOfOwner_iff_repo hrows, Bool.decide_or])
  have hleft : Table.sumOn XorbRow.diskSize (fun r => decide (r.info.xorb ∈
      (db.dropRepo repoId).xorbsOfOwner (ownerOfRepoId repoId))) (db.dropRepo repoId).xorbs =
        Table.sumOn XorbRow.diskSize
          (fun r => decide (r.info.xorb ∈ db.xorbsOfSiblings repoId)) db.xorbs :=
    Table.sumOn_congr (fun r _ => by simp only [mem_xorbsOfOwner_dropRepo])
  have hexcl : Table.sumOn XorbRow.diskSize (fun r => decide (r.info.xorb ∈ db.xorbsOfRepo repoId) &&
      !decide (r.info.xorb ∈ db.xorbsOfSiblings repoId)) db.xorbs =
        Table.sumOn XorbRow.diskSize (fun r => decide (r.info.xorb ∈ db.xorbsOfRepo repoId) &&
          decide (r.info.xorb ∉ db.xorbsOfSiblings repoId)) db.xorbs :=
    Table.sumOn_congr (fun r _ => by rw [decide_not])
  rw [hall, Table.sumOn_or, hleft, hexcl]

theorem exclusiveBytes_le (db : Db) (repoId : String) :
    db.exclusiveBytes repoId ≤ db.repoBytes repoId := by
  have hle : Table.sumOn XorbRow.diskSize (fun r => decide (r.info.xorb ∈ db.xorbsOfRepo repoId) &&
      decide (r.info.xorb ∉ db.xorbsOfSiblings repoId)) db.xorbs ≤
        Table.sumOn XorbRow.diskSize (fun r => decide (r.info.xorb ∈ db.xorbsOfRepo repoId))
          db.xorbs + Table.sumOn XorbRow.diskSize (fun _ => false) db.xorbs :=
    Table.sumOn_or_le (fun r _ hr => Or.inl (Bool.and_eq_true_iff.1 hr).1)
  have hzero : Table.sumOn XorbRow.diskSize (fun _ => false) db.xorbs = 0 := by
    simp [Table.sumOn_eq_zero]
  rw [hzero] at hle
  exact hle

end Exclusive

/-- **Exclusive bytes are what the owner would store less without the repository**, and they are at
    most what the repository stores. -/
theorem exclusive_bytes_freed (b : Backend) (acts : List MetaAct) (repoId : String) :
    (∀ stored, b.storedBytesForOwner (b.after acts) (ownerOfRepoId repoId) = .ok stored →
      ∃ left, left ≤ stored ∧
        b.storedBytesForOwner ((b.after acts).dropRepo repoId) (ownerOfRepoId repoId) = .ok left ∧
        ∀ exclusive, b.exclusiveStoredBytesForRepo (b.after acts) repoId = .ok exclusive ↔
          b.bindTexts "exclusive_stored_bytes_for_repo" [repoId, ownerOfRepoId repoId, repoId] =
            .ok () ∧ exclusive = stored - left) ∧
    ∀ exclusive stored, b.exclusiveStoredBytesForRepo (b.after acts) repoId = .ok exclusive →
      b.storedBytesForRepo (b.after acts) repoId = .ok stored → exclusive ≤ stored := by
  have hsum := ownerBytes_eq_dropRepo_add (ownerRows_after b acts) repoId
  have hexcl : ∀ n, b.exclusiveStoredBytesForRepo (b.after acts) repoId = .ok n ↔
      b.bindTexts "exclusive_stored_bytes_for_repo" [repoId, ownerOfRepoId repoId, repoId] = .ok () ∧
        (b.after acts).exclusiveBytes repoId < 9223372036854775808 ∧
          (b.after acts).exclusiveBytes repoId = n := by
    intro n
    unfold Backend.exclusiveStoredBytesForRepo
    rw [Results.bind_eq_ok]
    simp only [storedBytes_eq_ok]
    exact ⟨fun ⟨(), ht, hn⟩ => ⟨ht, hn⟩, fun ⟨ht, hn⟩ => ⟨(), ht, hn⟩⟩
  refine ⟨fun stored hstored => ?_, fun exclusive stored he hs => ?_⟩
  · obtain ⟨htext, hlt, rfl⟩ := (storedBytesForOwner_eq_ok b).1 hstored
    refine ⟨((b.after acts).dropRepo repoId).ownerBytes (ownerOfRepoId repoId), by omega,
      (storedBytesForOwner_eq_ok b).2 ⟨htext, by omega, rfl⟩, fun exclusive => ?_⟩
    rw [hexcl]
    constructor
    · rintro ⟨ht, -, rfl⟩
      exact ⟨ht, by omega⟩
    · rintro ⟨ht, rfl⟩
      exact ⟨ht, by omega, by omega⟩
  · obtain ⟨-, -, rfl⟩ := (hexcl exclusive).1 he
    unfold Backend.storedBytesForRepo at hs
    obtain ⟨-, -, hs⟩ := Results.bind_eq_ok.1 hs
    rw [← ((storedBytes_eq_ok b).1 hs).2]
    exact exclusiveBytes_le _ repoId

end BaleForGit.Server
