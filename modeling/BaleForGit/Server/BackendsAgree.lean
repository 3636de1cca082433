import BaleForGit.Library.Results
import BaleForGit.Server.Backends
import BaleForGit.Server.Readable

set_option autoImplicit false

/-! # The two metadata stores agree

Run from empty tables, with values in range, the stores hold the same rows and may return the same.
Two tables that mirror each other have the same rows up to `created_at` and their order, unique
keys, and totals that did not wrap. Every write keeps this (`Mirror.write`): it succeeds on both,
and replacing a row comes to the same as changing it. Every query returns on one side, for some choices,
what it returns on the other (`Mirror.query`): a sum of values that are not negative overflows in
passing exactly if it does in the end. -/

namespace BaleForGit.Server

open Backend (noNul)

/-! ## Values in range -/

/-- The lengths of a term list add up in an `i64`. -/
def TermsInRange (terms : List FileTerm) : Prop :=
  (terms.map (fun t => t.unpackedSegmentBytes.toNat)).sum < 9223372036854775808

def RepoRef.NoNul (repo : RepoRef) : Prop :=
  noNul repo.repoId = true ∧ noNul repo.revision = true

/-- The values of an operation: text without NUL, totals in an `i64`, and lists of xorbs that both
    engines can bind. -/
def MetaOp.InRange : MetaOp → Prop
  | .write (.registerFile _ repo terms) => repo.NoNul ∧ TermsInRange terms
  | .write (.registerFiles repo files) => repo.NoNul ∧ ∀ f ∈ files, TermsInRange f.2
  | .write (.setOwnerQuota owner _) => noNul owner = true
  | .query (.fileInRepo _ repoId) => noNul repoId = true
  | .query (.xorbFrameLayouts xorbs) =>
    ∀ b : Backend, (Backend.dedupSortedXorbs xorbs).length ≤ b.maxParams
  | .query (.rawBytesForOwner owner) => noNul owner = true
  | .query (.storedBytesForOwner owner) => noNul owner = true
  | .query (.getOwnerQuota owner) => noNul owner = true
  | .query (.unaccountedXorbBytesForOwner owner candidates) => noNul owner = true ∧
    ∀ b : Backend, (Backend.dedupSortedXorbs candidates).length + 1 ≤ b.maxParams
  | .query (.rawBytesForRepo repoId) => noNul repoId = true
  | .query (.storedBytesForRepo repoId) => noNul repoId = true
  | .query (.exclusiveStoredBytesForRepo repoId) => noNul repoId = true
  | _ => True

/-- Success with the same value, or an error on both sides. -/
def SameResult {α : Type} (r r' : CoreResult α) : Prop := r.toOption = r'.toOption

theorem SameResult.map {α β : Type} {r r' : CoreResult α} (h : SameResult r r') (f : α → β) :
    SameResult (r.map f) (r'.map f) := by
  have hmap : ∀ r : CoreResult α, (r.map f).toOption = r.toOption.map f := by
    intro r
    cases r <;> rfl
  unfold SameResult at h ⊢
  rw [hmap, hmap, h]

/-! ## What does not fail -/

section Checks

variable (b : Backend)

theorem bindTexts_ok {label : String} {texts : List String} (h : ∀ t ∈ texts, noNul t = true) :
    b.bindTexts label texts = .ok () := by
  cases b with
  | sqlite => rfl
  | postgres => exact if_pos (List.all_eq_true.2 h)

theorem bindText_ok {label text : String} (h : noNul text = true) :
    b.bindTexts label [text] = .ok () :=
  bindTexts_ok b (fun t ht => by rw [List.mem_singleton.1 ht, h])

theorem bindParams_ok {label : String} {n : Nat} (h : n ≤ b.maxParams) :
    b.bindParams label n = .ok () := if_pos h

theorem noNul_takeWhile {text : String} (h : noNul text = true) (p : Char → Bool) :
    noNul (String.ofList (text.toList.takeWhile p)) = true := by
  unfold noNul at h ⊢
  rw [String.toList_ofList]
  simp only [Bool.not_eq_true', List.contains_eq_mem, decide_eq_false_iff_not] at h ⊢
  exact fun hin => h (List.takeWhile_subset p hin)

/-- **A batch stays under either ceiling**: the widest row binds seven values. -/
theorem insertBatches_ok {ρ κ : Type} [DecidableEq κ] (key : ρ → κ) {width : Nat}
    (hwidth : width ≤ 7) (label : String) (t rows : List ρ) :
    b.insertBatches key width label t rows = .ok (Table.insertAll key t rows) := by
  have hsmall : ∀ batch ∈ batches rows, width * batch.length ≤ b.maxParams := by
    intro batch hbatch
    obtain ⟨i, -, rfl⟩ := List.mem_map.1 hbatch
    have hlen : ((rows.drop (i * chunkInsertBatch)).take chunkInsertBatch).length ≤ 500 :=
      List.length_take_le ..
    have hmul := Nat.mul_le_mul hwidth hlen
    have hmax : 32766 ≤ b.maxParams := by cases b <;> decide
    omega
  unfold Backend.insertBatches
  rw [Results.foldlM_eq_ok (g := Table.insertAll key), insertAll_batches]
  intro batch hbatch t
  rw [bindParams_ok b (hsmall batch hbatch)]
  rfl

end Checks

/-! ## Sums -/

section Sums

theorem runningSum_eq (acc : Int) {ns : List Int} (hacc : 0 ≤ acc)
    (hfit : acc < 9223372036854775808) (h : ∀ n ∈ ns, 0 ≤ n) :
    Backend.runningSum acc ns = if acc + ns.sum < 9223372036854775808
      then some (acc + ns.sum) else none := by
  induction ns generalizing acc with
  | nil => simp [Backend.runningSum, hfit]
  | cons n ns ih =>
      have hn := h n List.mem_cons_self
      have hrest : 0 ≤ ns.sum := List.sum_nonneg (fun m hm => h m (List.mem_cons_of_mem n hm))
      have hin : Backend.inI64 (acc + n) = decide (acc + n < 9223372036854775808) := by
        unfold Backend.inI64
        simp
        omega
      rw [Backend.runningSum, hin, List.sum_cons, ← Int.add_assoc]
      by_cases hlt : acc + n < 9223372036854775808
      · rw [decide_eq_true hlt, if_pos rfl]
        exact ih (acc + n) (by omega) hlt (fun m hm => h m (List.mem_cons_of_mem n hm))
      · rw [decide_eq_false hlt, if_neg Bool.false_ne_true, if_neg (by omega)]

/-- **Both engines add up the same**, as long as no value is negative. -/
theorem aggregate_toOption (b : Backend) {label what : String} {ns : List Int}
    (h : ∀ n ∈ ns, 0 ≤ n) : (b.aggregate label what ns).toOption =
      if ns.sum < 9223372036854775808 then some ns.sum.toNat else none := by
  have hsum : 0 ≤ ns.sum := List.sum_nonneg h
  have hread : nonnegI64ToU64 ns.sum what = .ok ns.sum.toNat := if_neg (by omega)
  unfold Backend.aggregate Backend.sum
  cases b with
  | sqlite =>
      simp only [runningSum_eq 0 (Int.le_refl 0) (by decide) h, Int.zero_add]
      split_ifs
      · simp only [bind, Except.bind, hread]
        rfl
      · rfl
  | postgres =>
      have hin : Backend.inI64 ns.sum = decide (ns.sum < 9223372036854775808) := by
        unfold Backend.inI64
        simp
        omega
      simp only [hin, decide_eq_true_eq]
      split_ifs
      · simp only [bind, Except.bind, hread]
        rfl
      · rfl

theorem aggregate_same (b b' : Backend) {label what : String} {ns ms : List Int}
    (h : ∀ n ∈ ns, 0 ≤ n) (hperm : ns.Perm ms) :
    SameResult (b.aggregate label what ns) (b'.aggregate label what ms) := by
  unfold SameResult
  rw [aggregate_toOption b h, aggregate_toOption b' (fun n hn => h n (hperm.mem_iff.2 hn)),
    hperm.sum_eq]

-- a sum that overflows in passing is an error in SQLite alone
example : (Backend.sqlite.sum "" [9223372036854775807, 1, -5]).toOption = none ∧
    (Backend.postgres.sum "" [9223372036854775807, 1, -5]).toOption =
      some 9223372036854775803 := by decide

end Sums

/-! ## Tables that mirror each other -/

def FileRow.timeless (r : FileRow) : FileRow := { r with createdAt := 0 }

def XorbRow.timeless (r : XorbRow) : XorbRow := { r with createdAt := 0 }

theorem perm_columns_iff {t u : List FileRow} :
    (t.map FileRow.columns).Perm (u.map FileRow.columns) ↔
      (t.map FileRow.timeless).Perm (u.map FileRow.timeless) :=
  Table.perm_map_iff (fun c => ⟨c.1, c.2.1, c.2.2.1, 0, c.2.2.2⟩) FileRow.columns (fun _ => rfl)
    (fun _ => rfl)

theorem perm_info_iff {t u : List XorbRow} :
    (t.map (fun r => r.info)).Perm (u.map (fun r => r.info)) ↔
      (t.map XorbRow.timeless).Perm (u.map XorbRow.timeless) :=
  Table.perm_map_iff (fun info => ⟨info, 0⟩) XorbRow.info (fun _ => rfl) (fun _ => rfl)

/-- Keys are unique, and no total is negative. -/
structure WellKept (db : Db) : Prop where
  xorbs : (db.xorbs.map XorbRow.key).Nodup
  xorbFrames : (db.xorbFrames.map FrameTableRow.key).Nodup
  files : (db.files.map FileRow.key).Nodup
  fileTerms : (db.fileTerms.map TermRow.key).Nodup
  ownerQuotas : (db.ownerQuotas.map QuotaRow.owner).Nodup
  totals : ∀ f ∈ db.files, 0 ≤ f.totalBytes

/-- The tables of two stores that were given the same. -/
structure Mirror (d d' : Db) : Prop where
  same : SameTables d d'
  left : WellKept d
  right : WellKept d'

theorem Mirror.empty : Mirror Db.empty Db.empty := by
  have hkept : WellKept Db.empty :=
    ⟨List.nodup_nil, List.nodup_nil, List.nodup_nil, List.nodup_nil, List.nodup_nil,
      fun f hf => absurd hf List.not_mem_nil⟩
  exact ⟨.refl _, hkept, hkept⟩

theorem SameTables.symm {d d' : Db} (h : SameTables d d') : SameTables d' d :=
  ⟨h.xorbs.symm, h.chunks.symm, h.xorbFrames.symm, h.files.symm, h.fileTerms.symm,
    h.ownerQuotas.symm⟩

theorem Mirror.symm {d d' : Db} (h : Mirror d d') : Mirror d' d := ⟨h.same.symm, h.right, h.left⟩

/-! ## Writes -/

section Writes

variable (b b' : Backend) {d d' : Db}

theorem setExcluded_eq {row excluded : FileRow} (h : row.key = excluded.key) :
    Backend.setExcluded row excluded = excluded := by
  obtain ⟨hhash, hrepo⟩ := Prod.mk.inj h
  obtain ⟨_, ⟨_, _, _⟩, _, _, _⟩ := row
  obtain ⟨_, ⟨_, _, _⟩, _, _, _⟩ := excluded
  simp only at hhash hrepo
  subst hhash hrepo
  rfl

/-- Both engines replace the row that has the key. -/
theorem perm_putFile {t : List FileRow} (hkeys : (t.map FileRow.key).Nodup) (r : FileRow) :
    (b.putFile t r).Perm (Table.upsert FileRow.key t r) := by
  cases b with
  | sqlite => exact .refl _
  | postgres => exact Table.perm_updateOnConflict hkeys (fun _ hrow => setExcluded_eq hrow)

/-- A registration of one file, as it is. -/
theorem writeFileInTx_ok (db : Db) (h : FileHash) {repo : RepoRef} (hrepo : repo.NoNul)
    (terms : List FileTerm) (now : Int) : b.writeFileInTx db h repo terms now =
      .ok { db.writeFileInTx h repo terms now with
        files := b.putFile db.files (fileRow h repo terms now) } := by
  have htexts : ∀ t ∈ [Backend.repoTypeText repo.repoType, repo.repoId, repo.revision, repo.owner],
      noNul t = true := by
    intro t ht
    simp only [List.mem_cons, List.not_mem_nil, or_false] at ht
    obtain rfl | rfl | rfl | rfl := ht
    · cases repo.repoType <;> decide
    · exact hrepo.1
    · exact hrepo.2
    · exact noNul_takeWhile hrepo.1 _
  unfold Backend.writeFileInTx Db.writeFileInTx
  rw [bindTexts_ok b htexts]
  simp only [bind, Except.bind, insertBatches_ok b TermRow.key (Nat.le_refl 7), insertAll_batches]
  split_ifs <;> rfl

theorem fileRow_totalBytes {h : FileHash} {repo : RepoRef} {terms : List FileTerm} {now : Int}
    (hterms : TermsInRange terms) :
    (fileRow h repo terms now).totalBytes = (termSum terms : Int) := by
  have hsum : termSum terms < 9223372036854775808 := by
    unfold termSum
    unfold TermsInRange at hterms
    omega
  simp only [fileRow, asI64_of_lt hsum]

theorem WellKept.writeFileInTx {db : Db} (hk : WellKept db) (h : FileHash) (repo : RepoRef)
    {terms : List FileTerm} (hterms : TermsInRange terms) (now : Int) :
    WellKept { db.writeFileInTx h repo terms now with
      files := b.putFile db.files (fileRow h repo terms now) } := by
  have hput := perm_putFile b hk.files (fileRow h repo terms now)
  obtain ⟨hxorbs, -, hframes, hquotas⟩ := writeFileInTx_frame db h repo terms now
  refine ⟨?_, ?_, ?_, ?_, ?_, fun f hf => ?_⟩
  · rw [hxorbs]
    exact hk.xorbs
  · rw [hframes]
    exact hk.xorbFrames
  · exact (hput.map FileRow.key).nodup_iff.2 (Table.nodup_upsert hk.files _)
  · unfold Db.writeFileInTx
    simp only [insertAll_batches]
    split_ifs
    · exact hk.fileTerms
    · exact Table.nodup_insertAll hk.fileTerms
  · rw [hquotas]
    exact hk.ownerQuotas
  · obtain ⟨hold, -⟩ | rfl := Table.mem_upsert.1 (hput.mem_iff.1 hf)
    · exact hk.totals f hold
    · -- the total is the sum of the lengths, which did not wrap
      rw [fileRow_totalBytes hterms]
      exact Int.natCast_nonneg _

/-- **One file is registered on both sides.** -/
theorem Mirror.writeFileInTx (hm : Mirror d d') (h : FileHash) {repo : RepoRef} (hrepo : repo.NoNul)
    {terms : List FileTerm} (hterms : TermsInRange terms) (now now' : Int) :
    ∃ e e', b.writeFileInTx d h repo terms now = .ok e ∧
      b'.writeFileInTx d' h repo terms now' = .ok e' ∧ Mirror e e' := by
  obtain ⟨hxorbs, hchunks, hframes, hquotas⟩ := writeFileInTx_frame d h repo terms now
  obtain ⟨hxorbs', hchunks', hframes', hquotas'⟩ := writeFileInTx_frame d' h repo terms now'
  refine ⟨_, _, writeFileInTx_ok b d h hrepo terms now, writeFileInTx_ok b' d' h hrepo terms now',
    ⟨?_, ?_, ?_, ?_, ?_, ?_⟩, hm.left.writeFileInTx b h repo hterms now,
    hm.right.writeFileInTx b' h repo hterms now'⟩
  · rw [hxorbs, hxorbs']
    exact hm.same.xorbs
  · rw [hchunks, hchunks']
    exact hm.same.chunks
  · rw [hframes, hframes']
    exact hm.same.xorbFrames
  · have hput : ∀ (b : Backend) {db : Db}, WellKept db → ∀ now : Int,
        ((b.putFile db.files (fileRow h repo terms now)).map FileRow.timeless).Perm
          (Table.upsert FileRow.key (db.files.map FileRow.timeless) (fileRow h repo terms 0)) := by
      intro b db hk now
      have hmap := (perm_putFile b hk.files (fileRow h repo terms now)).map FileRow.timeless
      have hrow : (fileRow h repo terms now).timeless = fileRow h repo terms 0 := by
        simp only [FileRow.timeless, fileRow]
      rwa [Table.map_upsert (f := FileRow.timeless) (fun _ => rfl), hrow] at hmap
    refine perm_columns_iff.2 ((hput b' hm.right now').trans (List.Perm.trans ?_
      (hput b hm.left now).symm))
    exact Table.perm_upsert (perm_columns_iff.1 hm.same.files) _
  · have hprobe : (termsOf h d'.fileTerms).Perm (termsOf h d.fileTerms) :=
      hm.same.fileTerms.filter _
    unfold Db.writeFileInTx
    simp only [insertAll_batches]
    by_cases hnone : termsOf h d.fileTerms = []
    · rw [hnone] at hprobe
      rw [if_neg (not_not.2 hnone), if_neg (not_not.2 hprobe.eq_nil)]
      exact Table.perm_insertAll hm.same.fileTerms _
    · have hnone' : termsOf h d'.fileTerms ≠ [] := by
        intro heq
        rw [heq] at hprobe
        exact hnone hprobe.symm.eq_nil
      rw [if_pos hnone, if_pos hnone']
      exact hm.same.fileTerms
  · rw [hquotas, hquotas']
    exact hm.same.ownerQuotas

/-- Both register a xorb as the single store does. -/
theorem registerXorb_ok (clock : Nat → Int) (db : Db) (xorb : XorbInfo) (chunks : List ChunkRow) :
    b.registerXorb clock db xorb chunks = .ok (db.registerXorb xorb chunks (clock 0)) := by
  unfold Backend.registerXorb Db.registerXorb
  simp only [insertBatches_ok b ChunkTableRow.key (by decide : 5 ≤ 7), insertAll_batches, bind,
    Except.bind]

theorem registerXorbLayout_ok (db : Db) (x : XorbHash) (frames : List XorbFrameRow) :
    b.registerXorbLayout db x frames = .ok (db.registerXorbLayout x frames) := by
  unfold Backend.registerXorbLayout Db.registerXorbLayout
  simp only [insertBatches_ok b FrameTableRow.key (by decide : 5 ≤ 7), insertAll_batches, bind,
    Except.bind]
  split_ifs <;> rfl

theorem Mirror.registerXorb (hm : Mirror d d') (xorb : XorbInfo) (chunks : List ChunkRow)
    (now now' : Int) :
    Mirror (d.registerXorb xorb chunks now) (d'.registerXorb xorb chunks now') := by
  have hkept : ∀ {db : Db}, WellKept db → ∀ now, WellKept (db.registerXorb xorb chunks now) := by
    intro db hk now
    have hrow : Table.insertIgnore XorbRow.key db.xorbs ⟨xorb, now⟩ =
        Table.insertAll XorbRow.key db.xorbs [⟨xorb, now⟩] := rfl
    refine ⟨?_, hk.xorbFrames, hk.files, hk.fileTerms, hk.ownerQuotas, hk.totals⟩
    unfold Db.registerXorb
    rw [hrow]
    exact Table.nodup_insertAll hk.xorbs
  refine ⟨⟨?_, ?_, hm.same.xorbFrames, hm.same.files, hm.same.fileTerms, hm.same.ownerQuotas⟩,
    hkept hm.left now, hkept hm.right now'⟩
  · refine perm_info_iff.2 ?_
    unfold Db.registerXorb
    simp only
    rw [Table.map_insertIgnore (f := XorbRow.timeless) (fun _ => rfl),
      Table.map_insertIgnore (f := XorbRow.timeless) (fun _ => rfl)]
    exact Table.perm_insertIgnore (perm_info_iff.1 hm.same.xorbs) _
  · unfold Db.registerXorb
    simp only [insertAll_batches]
    exact Table.perm_insertAll hm.same.chunks _

theorem Mirror.registerXorbLayout (hm : Mirror d d') (x : XorbHash) (frames : List XorbFrameRow) :
    Mirror (d.registerXorbLayout x frames) (d'.registerXorbLayout x frames) := by
  unfold Db.registerXorbLayout
  by_cases hempty : frames.isEmpty
  · rw [if_pos hempty, if_pos hempty]
    exact hm
  · rw [if_neg hempty, if_neg hempty]
    simp only [insertAll_batches]
    exact ⟨⟨hm.same.xorbs, hm.same.chunks, Table.perm_insertAll hm.same.xorbFrames _, hm.same.files,
        hm.same.fileTerms, hm.same.ownerQuotas⟩,
      ⟨hm.left.xorbs, Table.nodup_insertAll hm.left.xorbFrames, hm.left.files, hm.left.fileTerms,
        hm.left.ownerQuotas, hm.left.totals⟩,
      ⟨hm.right.xorbs, Table.nodup_insertAll hm.right.xorbFrames, hm.right.files,
        hm.right.fileTerms, hm.right.ownerQuotas, hm.right.totals⟩⟩

/-- A quota is replaced, or deleted, on both sides. -/
theorem Mirror.ownerQuotas (hm : Mirror d d') {q q' : List QuotaRow} (hperm : q'.Perm q)
    (hkeys : (q.map QuotaRow.owner).Nodup) :
    Mirror { d with ownerQuotas := q } { d' with ownerQuotas := q' } :=
  ⟨⟨hm.same.xorbs, hm.same.chunks, hm.same.xorbFrames, hm.same.files, hm.same.fileTerms, hperm⟩,
    ⟨hm.left.xorbs, hm.left.xorbFrames, hm.left.files, hm.left.fileTerms, hkeys, hm.left.totals⟩,
    ⟨hm.right.xorbs, hm.right.xorbFrames, hm.right.files, hm.right.fileTerms,
      (hperm.map QuotaRow.owner).nodup_iff.2 hkeys, hm.right.totals⟩⟩

theorem Mirror.setOwnerQuota (hm : Mirror d d') {owner : String} (howner : noNul owner = true)
    (limitBytes : Option UInt64) :
    ∃ e e', b.setOwnerQuota d owner limitBytes = .ok e ∧
      b'.setOwnerQuota d' owner limitBytes = .ok e' ∧ Mirror e e' := by
  cases limitBytes with
  | none =>
      unfold Backend.setOwnerQuota
      simp only [bindText_ok _ howner, bind, Except.bind]
      exact ⟨_, _, rfl, rfl, hm.ownerQuotas (hm.same.ownerQuotas.filter _)
        (hm.left.ownerQuotas.sublist (List.filter_sublist.map _))⟩
  | some n =>
      unfold Backend.setOwnerQuota
      simp only [bindText_ok _ howner, bind, Except.bind]
      have hput : ∀ {t : List QuotaRow}, (t.map QuotaRow.owner).Nodup →
          (Table.updateOnConflict QuotaRow.owner
            (fun row excluded => { row with limitBytes := excluded.limitBytes }) t
              ⟨owner, asI64 n.toNat⟩).Perm
            (Table.upsert QuotaRow.owner t ⟨owner, asI64 n.toNat⟩) := by
        intro t hkeys
        refine Table.perm_updateOnConflict hkeys (fun row hrow => ?_)
        rw [show row.owner = owner from hrow]
      refine ⟨_, _, rfl, rfl, hm.ownerQuotas ?_ ?_⟩
      · exact (hput hm.right.ownerQuotas).trans
          ((Table.perm_upsert hm.same.ownerQuotas _).trans (hput hm.left.ownerQuotas).symm)
      · exact ((hput hm.left.ownerQuotas).map QuotaRow.owner).nodup_iff.2
          (Table.nodup_upsert hm.left.ownerQuotas _)

/-- **Writes succeed on both sides**, and leave tables that mirror each other. -/
theorem Mirror.write (hm : Mirror d d') {w : MetaWrite} (hw : (MetaOp.write w).InRange)
    (clock clock' : Nat → Int) :
    ∃ e e', b.write clock d w = .ok e ∧ b'.write clock' d' w = .ok e' ∧ Mirror e e' := by
  cases w with
  | registerXorb xorb chunks =>
      exact ⟨_, _, registerXorb_ok b clock d xorb chunks, registerXorb_ok b' clock' d' xorb chunks,
        hm.registerXorb xorb chunks _ _⟩
  | registerFile h repo terms => exact hm.writeFileInTx b b' h hw.1 hw.2 _ _
  | registerFiles repo files =>
      simp only [Backend.write, Backend.registerFiles]
      by_cases hempty : files.isEmpty
      · rw [if_pos hempty, if_pos hempty]
        exact ⟨d, d', rfl, rfl, hm⟩
      · rw [if_neg hempty, if_neg hempty]
        refine Results.foldlM_rel (fun f hf e e' hrel => ?_) hm
        exact hrel.writeFileInTx b b' f.1.1 hw.1 (hw.2 f.1 (List.fst_mem_of_mem_zipIdx hf)) _ _
  | registerXorbLayout x frames =>
      exact ⟨_, _, registerXorbLayout_ok b d x frames, registerXorbLayout_ok b' d' x frames,
        hm.registerXorbLayout x frames⟩
  | setOwnerQuota owner limitBytes => exact hm.setOwnerQuota b b' hw limitBytes

end Writes

/-! ## Queries -/

section Queries

variable (b b' : Backend) {d d' : Db}

theorem Mirror.files (hm : Mirror d d') :
    (d.files.map FileRow.timeless).Perm (d'.files.map FileRow.timeless) :=
  (perm_columns_iff.1 hm.same.files).symm

theorem Mirror.xorbs (hm : Mirror d d') :
    (d.xorbs.map XorbRow.timeless).Perm (d'.xorbs.map XorbRow.timeless) :=
  (perm_info_iff.1 hm.same.xorbs).symm

theorem Mirror.fileTermList (hm : Mirror d d') (h : FileHash) :
    d.fileTermList h = d'.fileTermList h := by
  unfold Db.fileTermList termsOf
  rw [Table.orderBy_eq_of_perm (hm.same.fileTerms.symm.filter _) (fun r hr s hs heq => ?_)]
  obtain ⟨hrin, hrh⟩ := List.mem_filter.1 hr
  obtain ⟨hsin, hsh⟩ := List.mem_filter.1 hs
  refine List.inj_on_of_nodup_map hm.left.fileTerms hrin hsin ?_
  unfold TermRow.key
  rw [of_decide_eq_true hrh, of_decide_eq_true hsh, heq]

theorem Mirror.xorbFrameLayout (hm : Mirror d d') (x : XorbHash) :
    d.xorbFrameLayout x = d'.xorbFrameLayout x := by
  unfold Db.xorbFrameLayout framesOf
  rw [Table.orderBy_eq_of_perm (hm.same.xorbFrames.symm.filter _) (fun r hr s hs heq => ?_)]
  obtain ⟨hrin, hrx⟩ := List.mem_filter.1 hr
  obtain ⟨hsin, hsx⟩ := List.mem_filter.1 hs
  refine List.inj_on_of_nodup_map hm.left.xorbFrames hrin hsin ?_
  unfold FrameTableRow.key
  rw [of_decide_eq_true hrx, of_decide_eq_true hsx, UInt32.toNat_inj.1 heq]

/-- The row that one engine picks, the other can pick. -/
theorem exists_file_choice (c : Choices) {t u : List FileRow}
    (h : (t.map FileRow.timeless).Perm (u.map FileRow.timeless)) :
    ∃ c' : Choices, (c'.file u).map FileRow.totalBytes = (c.file t).map FileRow.totalBytes := by
  cases hpick : c.file t with
  | none =>
      have ht : t = [] := by
        by_contra hne
        exact c.file_limitOne.nonempty t hne hpick
      subst ht
      have hu : u = [] := List.map_eq_nil_iff.1 h.nil_eq.symm
      exact ⟨c, by rw [hu, hpick]⟩
  | some r =>
      have hr := c.file_limitOne.mem t r hpick
      obtain ⟨s, hs, hsr⟩ := List.mem_map.1 (h.mem_iff.1 (List.mem_map_of_mem hr))
      refine ⟨{ c with file := preferRow s, file_limitOne := limitOne_preferRow s }, ?_⟩
      have hsame : s.totalBytes = r.totalBytes :=
        (congrArg FileRow.totalBytes hsr : s.timeless.totalBytes = r.timeless.totalBytes)
      unfold preferRow
      simp only [if_pos hs, Option.map_some, hsame]

theorem Mirror.lookupFile (hm : Mirror d d') (c : Choices) (h : FileHash) :
    ∃ c' : Choices, d.lookupFile c.file h = d'.lookupFile c'.file h := by
  have hrows : ((d.files.filter (fun r => decide (r.fileHash = h))).map FileRow.timeless).Perm
      ((d'.files.filter (fun r => decide (r.fileHash = h))).map FileRow.timeless) :=
    Table.perm_select hm.files (fun _ => rfl) (fun _ => rfl)
  obtain ⟨c', hc'⟩ := exists_file_choice c hrows
  refine ⟨c', ?_⟩
  unfold Db.lookupFile
  rw [hm.fileTermList h]
  simp only
  split_ifs with hempty
  · rfl
  · cases hpick : c.file (d.files.filter (fun r => decide (r.fileHash = h))) with
    | none =>
        rw [hpick, Option.map_none, Option.map_eq_none_iff] at hc'
        rw [hc']
    | some r =>
        rw [hpick, Option.map_some, Option.map_eq_some_iff] at hc'
        obtain ⟨s, hs, htotal⟩ := hc'
        rw [hs]
        simp only [htotal]

theorem Mirror.xorbsNearChunk (hm : Mirror d d') (c : Choices) (h : ChunkHash) (limit : Nat) :
    ∃ c' : Choices, d.xorbsNearChunk c.chunk h limit = d'.xorbsNearChunk c'.chunk h limit := by
  have hrows : (d.chunks.filter (fun r => decide (r.chunk.chunkHash = h))).Perm
      (d'.chunks.filter (fun r => decide (r.chunk.chunkHash = h))) := hm.same.chunks.symm.filter _
  unfold Db.xorbsNearChunk
  cases hpick : c.chunk (d.chunks.filter (fun r => decide (r.chunk.chunkHash = h))) with
  | none =>
      have hnil : d.chunks.filter (fun r => decide (r.chunk.chunkHash = h)) = [] := by
        by_contra hne
        exact c.chunk_limitOne.nonempty _ hne hpick
      rw [hnil] at hrows hpick
      refine ⟨c, ?_⟩
      rw [hrows.nil_eq.symm, hpick]
  | some r =>
      have hr := hrows.mem_iff.1 (c.chunk_limitOne.mem _ r hpick)
      refine ⟨{ c with chunk := preferChunk r, chunk_limitOne := limitOneChunk_preferChunk r }, ?_⟩
      have hfind := Table.find_select XorbRow.key (fun row => row.info) hm.xorbs
        hm.right.xorbs (fun _ => rfl) (fun _ => rfl) r.xorbHash
      unfold XorbRow.key at hfind
      unfold preferChunk
      simp only [if_pos hr]
      cases hleft : d.xorbs.find? (fun row => decide (row.info.xorb = r.xorbHash)) with
      | none =>
          rw [hleft, Option.map_none, eq_comm, Option.map_eq_none_iff] at hfind
          rw [hfind]
      | some row =>
          rw [hleft, Option.map_some, eq_comm, Option.map_eq_some_iff] at hfind
          obtain ⟨row', hright, hinfo⟩ := hfind
          rw [hright]
          simp only [hinfo]

/-- The order that one engine returns, the other can return. -/
theorem Mirror.xorbChunkOffsets (hm : Mirror d d') (c : Choices) (x : XorbHash) :
    ∃ c' : Choices, d.xorbChunkOffsets c.order x = d'.xorbChunkOffsets c'.order x := by
  have hrows : (chunksOfXorb x d.chunks).Perm (chunksOfXorb x d'.chunks) :=
    hm.same.chunks.symm.filter _
  refine ⟨{ c with
    order := fun rows => if rows = chunksOfXorb x d'.chunks then c.order (chunksOfXorb x d.chunks)
      else c.order rows
    order_byIndex := ⟨fun rows => ?_, fun rows => ?_⟩ }, ?_⟩
  · split_ifs with heq
    · rw [heq]
      exact (c.order_byIndex.perm _).trans hrows
    · exact c.order_byIndex.perm rows
  · split_ifs
    · exact c.order_byIndex.sorted _
    · exact c.order_byIndex.sorted rows
  · unfold Db.xorbChunkOffsets
    simp only [if_true]

/-- The xorbs that files of one kind refer to are the same. -/
theorem Mirror.xorbsWhere (hm : Mirror d d') {p : FileRow → Bool} (hp : ∀ f, p f.timeless = p f)
    (x : XorbHash) : x ∈ d.xorbsWhere p ↔ x ∈ d'.xorbsWhere p := by
  have hany : ∀ t : TermRow, d.files.any (fun f => decide (f.fileHash = t.fileHash) && p f) =
      d'.files.any (fun f => decide (f.fileHash = t.fileHash) && p f) := by
    intro t
    refine Table.any_select hm.files (fun f => ?_)
    rw [hp f]
    rfl
  unfold Db.xorbsWhere
  simp only [hany]
  exact ((hm.same.fileTerms.symm.filter _).map _).mem_iff

theorem Mirror.rawBytes (hm : Mirror d d') (label : String) {p : FileRow → Bool}
    (hp : ∀ f, p f.timeless = p f) :
    SameResult (b.rawBytes d label p) (b'.rawBytes d' label p) := by
  refine aggregate_same b b' (fun n hn => ?_) (Table.perm_select hm.files hp (fun _ => rfl))
  obtain ⟨f, hf, rfl⟩ := List.mem_map.1 hn
  exact hm.left.totals f (List.mem_of_mem_filter hf)

theorem Mirror.storedBytes (hm : Mirror d d') (label what : String) {p p' : XorbHash → Bool}
    (hp : ∀ x, p x = p' x) :
    SameResult (b.storedBytes d label what p) (b'.storedBytes d' label what p') := by
  rw [show p' = p from (funext hp).symm]
  refine aggregate_same b b' (fun n hn => ?_)
    (Table.perm_select hm.xorbs (fun _ => rfl) (fun _ => rfl))
  obtain ⟨r, -, rfl⟩ := List.mem_map.1 hn
  exact Int.natCast_nonneg _

theorem Mirror.getOwnerQuota (hm : Mirror d d') (owner : String) :
    d.getOwnerQuota owner = d'.getOwnerQuota owner := by
  have hperm : (d.ownerQuotas.map id).Perm (d'.ownerQuotas.map id) := by
    rw [List.map_id, List.map_id]
    exact hm.same.ownerQuotas.symm
  have hfind := Table.find_select QuotaRow.owner QuotaRow.limitBytes hperm
    hm.right.ownerQuotas (fun _ => rfl) (fun _ => rfl) owner
  unfold Db.getOwnerQuota
  cases hleft : d.ownerQuotas.find? (fun r => decide (r.owner = owner)) with
  | none =>
      rw [hleft, Option.map_none, eq_comm, Option.map_eq_none_iff] at hfind
      rw [hfind]
  | some r =>
      rw [hleft, Option.map_some, eq_comm, Option.map_eq_some_iff] at hfind
      obtain ⟨r', hright, hlimit⟩ := hfind
      rw [hright]
      simp only [hlimit]

theorem Mirror.mem_xorbsOfOwner (hm : Mirror d d') (owner : String) (x : XorbHash) :
    x ∈ d.xorbsOfOwner owner ↔ x ∈ d'.xorbsOfOwner owner :=
  hm.xorbsWhere (p := fun f => decide (f.owner = owner)) (fun _ => rfl) x

theorem Mirror.mem_xorbsOfRepo (hm : Mirror d d') (repoId : String) (x : XorbHash) :
    x ∈ d.xorbsOfRepo repoId ↔ x ∈ d'.xorbsOfRepo repoId :=
  hm.xorbsWhere (fun _ => rfl) x

theorem Mirror.mem_xorbsOfSiblings (hm : Mirror d d') (repoId : String) (x : XorbHash) :
    x ∈ d.xorbsOfSiblings repoId ↔ x ∈ d'.xorbsOfSiblings repoId :=
  hm.xorbsWhere (fun _ => rfl) x

/-- **What one store may return, the other may return.** -/
theorem Mirror.query (hm : Mirror d d') {q : MetaQuery} (hq : (MetaOp.query q).InRange)
    (c : Choices) : ∃ c', SameResult (b.query c d q) (b'.query c' d' q) := by
  cases q with
  | xorbExists x =>
      refine ⟨c, ?_⟩
      simp only [Backend.query, Backend.xorbExists]
      rw [Table.any_select hm.xorbs (fun _ => rfl)]
      rfl
  | fileInRepo h repoId =>
      refine ⟨c, SameResult.map ?_ _⟩
      unfold Backend.fileInRepo Db.fileInRepo
      rw [bindText_ok b hq, bindText_ok b' hq, Table.any_select hm.files (fun _ => rfl)]
      rfl
  | lookupFile h =>
      obtain ⟨c', heq⟩ := hm.lookupFile c h
      refine ⟨c', SameResult.map ?_ _⟩
      rw [heq]
      rfl
  | xorbFrameLayout x =>
      refine ⟨c, ?_⟩
      simp only [Backend.query, hm.xorbFrameLayout x]
      rfl
  | xorbFrameLayouts xorbs =>
      refine ⟨c, SameResult.map ?_ _⟩
      have hlayouts : d.xorbFrameLayouts (Backend.dedupSortedXorbs xorbs) =
          d'.xorbFrameLayouts (Backend.dedupSortedXorbs xorbs) := by
        funext x
        unfold Db.xorbFrameLayouts
        rw [hm.xorbFrameLayout x]
      unfold Backend.xorbFrameLayouts
      simp only [bindParams_ok b (hq b), bindParams_ok b' (hq b'), hlayouts]
      rfl
  | xorbsNearChunk h limit =>
      obtain ⟨c', heq⟩ := hm.xorbsNearChunk c h limit
      refine ⟨c', SameResult.map ?_ _⟩
      rw [heq]
      rfl
  | xorbChunkOffsets x =>
      obtain ⟨c', heq⟩ := hm.xorbChunkOffsets c x
      refine ⟨c', ?_⟩
      simp only [Backend.query, heq]
      rfl
  | rawBytesForOwner owner =>
      refine ⟨c, SameResult.map ?_ _⟩
      unfold Backend.rawBytesForOwner
      rw [bindText_ok b hq, bindText_ok b' hq]
      exact hm.rawBytes b b' _ (fun _ => rfl)
  | storedBytesForOwner owner =>
      refine ⟨c, SameResult.map ?_ _⟩
      unfold Backend.storedBytesForOwner
      simp only [bindText_ok b hq, bindText_ok b' hq, bind, Except.bind]
      refine hm.storedBytes b b' _ _ (fun x => ?_)
      simp only [hm.mem_xorbsOfOwner]
  | getOwnerQuota owner =>
      refine ⟨c, SameResult.map ?_ _⟩
      unfold Backend.getOwnerQuota
      rw [bindText_ok b hq, bindText_ok b' hq, hm.getOwnerQuota owner]
      rfl
  | unaccountedXorbBytesForOwner owner candidates =>
      refine ⟨c, SameResult.map ?_ _⟩
      unfold Backend.unaccountedXorbBytesForOwner
      simp only [bindParams_ok b (hq.2 b), bindParams_ok b' (hq.2 b'), bindText_ok b hq.1,
        bindText_ok b' hq.1, bind, Except.bind]
      split_ifs
      · rfl
      · refine hm.storedBytes b b' _ _ (fun x => ?_)
        simp only [hm.mem_xorbsOfOwner]
  | rawBytesForRepo repoId =>
      refine ⟨c, SameResult.map ?_ _⟩
      unfold Backend.rawBytesForRepo
      rw [bindText_ok b hq, bindText_ok b' hq]
      exact hm.rawBytes b b' _ (fun _ => rfl)
  | storedBytesForRepo repoId =>
      refine ⟨c, SameResult.map ?_ _⟩
      unfold Backend.storedBytesForRepo
      simp only [bindText_ok b hq, bindText_ok b' hq, bind, Except.bind]
      refine hm.storedBytes b b' _ _ (fun x => ?_)
      simp only [hm.mem_xorbsOfRepo]
  | exclusiveStoredBytesForRepo repoId =>
      refine ⟨c, SameResult.map ?_ _⟩
      have htexts : ∀ t ∈ [repoId, ownerOfRepoId repoId, repoId], noNul t = true := by
        intro t ht
        simp only [List.mem_cons, List.not_mem_nil, or_false] at ht
        obtain rfl | rfl | rfl := ht
        · exact hq
        · exact noNul_takeWhile hq _
        · exact hq
      unfold Backend.exclusiveStoredBytesForRepo
      simp only [bindTexts_ok b htexts, bindTexts_ok b' htexts, bind, Except.bind]
      refine hm.storedBytes b b' _ _ (fun x => ?_)
      simp only [hm.mem_xorbsOfRepo, hm.mem_xorbsOfSiblings]

end Queries

/-! ## The single store -/

section Single

variable (b : Backend) {db : Db}

/-- SQLite registers a file as the single store does. -/
theorem sqlite_writeFileInTx (h : FileHash) {repo : RepoRef} (hrepo : repo.NoNul)
    (terms : List FileTerm) (now : Int) : Backend.sqlite.writeFileInTx db h repo terms now =
      .ok (db.writeFileInTx h repo terms now) := by
  have hfiles : Backend.sqlite.putFile db.files (fileRow h repo terms now) =
      (db.writeFileInTx h repo terms now).files := (writeFileInTx_files ..).symm
  rw [writeFileInTx_ok .sqlite db h hrepo terms now, hfiles]

/-- **Either store registers a file as the single store does**, up to the order of rows. -/
theorem mirror_writeFileInTx (hk : WellKept db) (h : FileHash) {repo : RepoRef} (hrepo : repo.NoNul)
    {terms : List FileTerm} (hterms : TermsInRange terms) (now : Int) :
    ∃ e, b.writeFileInTx db h repo terms now = .ok e ∧
      Mirror (db.writeFileInTx h repo terms now) e := by
  obtain ⟨e, e', he, he', hm⟩ :=
    (Mirror.mk (.refl db) hk hk).writeFileInTx .sqlite b h hrepo hterms now now
  rw [sqlite_writeFileInTx h hrepo, Except.ok.injEq] at he
  exact ⟨e', he', he ▸ hm⟩

/-- Either store answers with the stored bytes of the single store. -/
theorem storedBytes_single (label what : String) (p : XorbHash → Bool) :
    SameResult (b.storedBytes db label what p)
      (sumI64 label ((db.xorbs.filter (fun r => p r.info.xorb)).map
        (fun r => r.info.numBytesOnDisk.toNat))) := by
  have hcast : ∀ rows : List XorbRow,
      (rows.map (fun r => (r.info.numBytesOnDisk.toNat : Int))).sum =
        ((rows.map (fun r => r.info.numBytesOnDisk.toNat)).sum : Nat) := by
    intro rows
    induction rows with
    | nil => rfl
    | cons r rows ih => simp [ih]
  have hnonneg : ∀ n ∈ (db.xorbs.filter (fun r => p r.info.xorb)).map
      (fun r => (r.info.numBytesOnDisk.toNat : Int)), 0 ≤ n := by
    intro n hn
    obtain ⟨r, -, rfl⟩ := List.mem_map.1 hn
    exact Int.natCast_nonneg _
  unfold SameResult Backend.storedBytes
  rw [aggregate_toOption b hnonneg, hcast]
  unfold sumI64
  by_cases hlt : ((db.xorbs.filter (fun r => p r.info.xorb)).map
      (fun r => r.info.numBytesOnDisk.toNat)).sum < 9223372036854775808
  · rw [if_pos hlt, if_pos (by omega), Int.toNat_natCast]
    rfl
  · rw [if_neg hlt, if_neg (by omega)]
    rfl

/-- Either store answers with the raw bytes of the single store. -/
theorem rawBytes_single (hk : WellKept db) (label : String) (p : FileRow → Bool) :
    SameResult (b.rawBytes db label p)
      (sumSigned label ((db.files.filter p).map (fun f => f.totalBytes))) := by
  have hnonneg : ∀ n ∈ (db.files.filter p).map (fun f => f.totalBytes), 0 ≤ n := by
    intro n hn
    obtain ⟨f, hf, rfl⟩ := List.mem_map.1 hn
    exact hk.totals f (List.mem_of_mem_filter hf)
  have hsum : 0 ≤ ((db.files.filter p).map (fun f => f.totalBytes)).sum := List.sum_nonneg hnonneg
  unfold SameResult Backend.rawBytes
  rw [aggregate_toOption b hnonneg]
  unfold sumSigned nonnegI64ToU64
  by_cases hlt : ((db.files.filter p).map (fun f => f.totalBytes)).sum < 9223372036854775808
  · rw [if_pos hlt, if_pos ⟨by omega, hlt⟩, if_neg (by omega)]
    rfl
  · rw [if_neg hlt, if_neg (fun hand => hlt hand.2)]
    rfl

end Single

/-! ## Runs -/

section Runs

variable (b b' : Backend) {d d' : Db}

/-- The results of two stores are the same, result by result. -/
def SameResults (s p : CoreResult MetaValue → Prop) : Prop :=
  (∀ r, s r → ∃ r', p r' ∧ SameResult r r') ∧ ∀ r', p r' → ∃ r, s r ∧ SameResult r r'

theorem Mirror.next (hm : Mirror d d') {op : MetaOp} (hop : op.InRange) (clock clock' : Nat → Int) :
    Mirror (b.next clock d op) (b'.next clock' d' op) := by
  cases op with
  | query q => exact hm
  | write w =>
      obtain ⟨e, e', he, he', hnext⟩ := hm.write b b' hop clock clock'
      simp only [Backend.next, he, he']
      exact hnext

theorem Mirror.mayReturn (hm : Mirror d d') {op : MetaOp} (hop : op.InRange)
    {r : CoreResult MetaValue} (hr : b.MayReturn d op r) :
    ∃ r', b'.MayReturn d' op r' ∧ SameResult r r' := by
  obtain ⟨clock, c, rfl⟩ := hr
  cases op with
  | query q =>
      obtain ⟨c', hsame⟩ := hm.query b b' hop c
      exact ⟨_, ⟨clock, c', rfl⟩, hsame⟩
  | write w =>
      obtain ⟨e, e', he, he', -⟩ := hm.write b b' hop clock clock
      refine ⟨_, ⟨clock, c, rfl⟩, ?_⟩
      simp only [Backend.reply, he, he']
      rfl

/-- **The run.** What one operation keeps, a sequence of operations keeps. -/
theorem mirror_after {acts : List MetaAct} (h : ∀ a ∈ acts, a.op.InRange) :
    Mirror (b.after acts) (b'.after acts) := by
  have hrun : ∀ (acts : List MetaAct) (d d' : Db), (∀ a ∈ acts, a.op.InRange) → Mirror d d' →
      Mirror (acts.foldl (fun db a => b.next (a.clock b) db a.op) d)
        (acts.foldl (fun db a => b'.next (a.clock b') db a.op) d') := by
    intro acts
    induction acts with
    | nil => exact fun _ _ _ hm => hm
    | cons a acts ih =>
        intro d d' hacts hm
        exact ih _ _ (fun a' ha' => hacts a' (List.mem_cons_of_mem a ha'))
          (hm.next b b' (hacts a List.mem_cons_self) _ _)
  exact hrun acts _ _ h Mirror.empty

end Runs

namespace Sample

/-- A file is registered, and again by the same repository with other terms. -/
def registrations : List MetaAct :=
  [⟨.write (.registerFile (hash32 1) repo [term 2 5]), fun _ _ => 10⟩,
    ⟨.write (.registerFiles repo [(hash32 1, [term 3 3, term 4 4])]),
      fun b _ => if b = .sqlite then 20 else 21⟩]

def rawAlice : MetaAct := ⟨.query (.rawBytesForOwner "alice"), fun _ _ => 30⟩

end Sample

end BaleForGit.Server
