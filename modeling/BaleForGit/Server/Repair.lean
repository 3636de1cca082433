import BaleForGit.Server.Content
import BaleForGit.Server.Usage

set_option autoImplicit false

/-! # Registering an inconsistent file again

`lookup_file` refuses a hash whose terms do not sum to the size that `files` records, and its error
asks to register the file again. Registering is write-once per hash: the rows that are there stay,
and only the size recorded for the repository of the request changes. So it repairs the hash when
the rows were right and that size was wrong, and never when the rows are wrong. -/

namespace BaleForGit.Server

/-- `lookup_file` returns `terms`, whichever row `LIMIT 1` returns. -/
def LooksUp (db : Db) (h : FileHash) (terms : List FileTerm) : Prop :=
  ∀ pick, LimitOne pick → db.lookupFile pick h = .ok (some terms)

/-- The states from which registering `terms` makes `lookup_file` return them: no rows or the same
    rows, and the size recorded for every other repository. -/
structure Repairable (db : Db) (h : FileHash) (repo : RepoRef) (terms : List FileTerm) :
    Prop where
  nonempty : terms ≠ []
  rows : db.fileTermList h = [] ∨ db.fileTermList h = terms
  fitsI64 : termSum terms < 9223372036854775808
  others : ∀ r ∈ db.files, r.fileHash = h → r.repo.repoId ≠ repo.repoId →
    r.totalBytes = termSum terms

theorem looksUp_iff {db : Db} {h : FileHash} {terms : List FileTerm} :
    LooksUp db h terms ↔
      db.fileTermList h = terms ∧ terms ≠ [] ∧ TotalsMatch db h (termSum terms) := by
  constructor
  · intro hread
    obtain ⟨rfl, hne, -⟩ := lookupFile_eq_some.1 (hread List.head? limitOne_head)
    exact ⟨rfl, hne, (forall_lookupFile_iff.1 hread).2⟩
  · rintro ⟨rfl, hne, htotals⟩
    exact forall_lookupFile_iff.2 ⟨hne, htotals⟩

/-- The size is recorded as an `i64`, and read back only if it fits. -/
theorem asI64_termSum_iff {terms : List FileTerm} :
    asI64 (termSum terms) = termSum terms ↔ termSum terms < 9223372036854775808 := by
  refine ⟨fun heq => ?_, asI64_of_lt⟩
  unfold asI64 at heq
  have hlt := Int.bmod_lt (x := (termSum terms : Int)) (m := 18446744073709551616) (by omega)
  omega

section Register

variable (b : Backend) {clock : Nat → Int} {db db' : Db} {h : FileHash} {repo : RepoRef}
  {terms : List FileTerm}

/-- A registration that succeeds, as it is. -/
theorem registerFile_eq_ok (hok : b.registerFile clock db h repo terms = .ok db') :
    db' = { db.writeFileInTx h repo terms (clock 0) with
      files := b.putFile db.files (fileRow h repo terms (clock 0)) } := by
  unfold Backend.registerFile at hok
  exact writeFileInTx_eq_ok b hok

/-- **Rows that are there stay.** -/
theorem fileTermList_registerFile (hok : b.registerFile clock db h repo terms = .ok db') :
    db'.fileTermList h = if db.fileTermList h = [] then terms else db.fileTermList h := by
  have hafter := fileTermList_registerFiles db repo (clock 0) h [(h, terms)]
  have hone : db.registerFiles repo [(h, terms)] (clock 0) =
    db.writeFileInTx h repo terms (clock 0) := rfl
  have hfirst : (firstList h [(h, terms)]).getD [] = terms := by
    unfold firstList
    by_cases hnil : terms = []
    · simp [hnil]
    · simp [hnil]
  have hsame : db'.fileTermList h = (db.writeFileInTx h repo terms (clock 0)).fileTermList h := by
    rw [registerFile_eq_ok b hok]
    rfl
  rw [hsame, ← hone, hafter]
  unfold termsAfter
  rw [hfirst]

/-- The recorded sizes: the one of the repository is that of the list it sent. -/
theorem totalsMatch_registerFile (hok : b.registerFile clock db h repo terms = .ok db') {n : Nat} :
    TotalsMatch db' h n ↔ asI64 (termSum terms) = n ∧
      ∀ r ∈ db.files, r.fileHash = h → r.repo.repoId ≠ repo.repoId → r.totalBytes = n := by
  have hmem : ∀ r : FileRow, r ∈ db'.files ↔
      (r ∈ db.files ∧ r.key ≠ (h, repo.repoId)) ∨ r = fileRow h repo terms (clock 0) := by
    intro r
    rw [registerFile_eq_ok b hok]
    exact mem_putFile b
  constructor
  · intro hmatch
    have hown := hmatch (fileRow h repo terms (clock 0)) ((hmem _).2 (Or.inr rfl)) rfl
    simp only [fileRow] at hown
    refine ⟨hown, fun r hr hhash hother => ?_⟩
    refine hmatch r ((hmem r).2 (Or.inl ⟨hr, fun hkey => ?_⟩)) hhash
    exact hother (Prod.mk.inj hkey).2
  · rintro ⟨hown, hothers⟩ r hr hhash
    obtain ⟨hin, hkey⟩ | rfl := (hmem r).1 hr
    · refine hothers r hin hhash (fun hsame => hkey ?_)
      unfold FileRow.key
      rw [hhash, hsame]
    · simp only [fileRow, hown]

end Register

/-- **When registering a list makes the hash readable.** -/
theorem reregister_repairs_iff (b : Backend) (clock : Nat → Int) (db db' : Db) (h : FileHash)
    (repo : RepoRef) (terms : List FileTerm)
    (hok : b.registerFile clock db h repo terms = .ok db') :
    LooksUp db' h terms ↔ Repairable db h repo terms := by
  rw [looksUp_iff, fileTermList_registerFile b hok, totalsMatch_registerFile b hok,
    asI64_termSum_iff]
  constructor
  · rintro ⟨hrows, hne, hfits, hothers⟩
    refine ⟨hne, ?_, hfits, hothers⟩
    split_ifs at hrows with hnil
    · exact Or.inl hnil
    · exact Or.inr hrows
  · rintro ⟨hne, hrows, hfits, hothers⟩
    refine ⟨?_, hne, hfits, hothers⟩
    split_ifs with hnil
    · rfl
    · exact hrows.resolve_left hnil

namespace Sample

/-- The xorb `0x61` of the chunks `a` and `b`, and the xorb `0x62` of the chunk `b`. -/
def twoSegmentations : ServerState := after [.xorb (pairUpload 0x62), .xorb (byteUpload 0x62)]

/-- The bytes `ab` as one term, and as two. -/
def oneTerm : List FileTerm := [⟨hash32 0x61, 0, 2, 2, none⟩]
def twoTerms : List FileTerm := [⟨hash32 0x61, 0, 1, 1, none⟩, ⟨hash32 0x62, 0, 1, 1, none⟩]

/-- Both registered when each row was inserted unless its index was taken. -/
def mergedRows : Db :=
  { twoSegmentations.db with
    files := [fileRow (hash32 1) repo oneTerm 0, fileRow (hash32 1) bob twoTerms 0]
    fileTerms := Table.insertAll TermRow.key (termRows (hash32 1) oneTerm)
      (termRows (hash32 1) twoTerms) }

/-- The rows are right, and another size was recorded for the repository. -/
def wrongSize : Db :=
  { twoSegmentations.db with
    files := [fileRow (hash32 1) repo [term 2 5] 0, fileRow (hash32 1) bob twoTerms 0]
    fileTerms := termRows (hash32 1) twoTerms }

end Sample

/-- A wrong size is repaired by the repository that recorded it. -/
theorem reregister_repairs_wrongSize : ∃ db',
    Backend.sqlite.registerFile (fun _ => 1) Sample.wrongSize (Sample.hash32 1) Sample.repo
      Sample.twoTerms = .ok db' ∧
    ¬ LooksUp Sample.wrongSize (Sample.hash32 1) Sample.twoTerms ∧
    LooksUp db' (Sample.hash32 1) Sample.twoTerms := by
  refine ⟨_, rfl, fun hread => ?_, (reregister_repairs_iff .sqlite (fun _ => 1) Sample.wrongSize _
    (Sample.hash32 1) Sample.repo Sample.twoTerms rfl).2
      ⟨by decide, Or.inr (by decide +kernel), by decide +kernel, by decide +kernel⟩⟩
  exact absurd (hread List.head? limitOne_head) (by decide +kernel)

/-- After a registration that leaves the lookup as it was, the file is not looked up. -/
theorem not_looksUp_of_refused {b : Backend} {terms : List FileTerm}
    (h : (b.registerFile (fun _ => 1) Sample.mergedRows (Sample.hash32 1) Sample.repo terms).map
        (fun db => db.lookupFile List.head? (Sample.hash32 1)) =
      .ok (Sample.mergedRows.lookupFile List.head? (Sample.hash32 1))) :
    ∃ db', b.registerFile (fun _ => 1) Sample.mergedRows (Sample.hash32 1) Sample.repo terms =
        .ok db' ∧
      db'.lookupFile List.head? (Sample.hash32 1) =
        Sample.mergedRows.lookupFile List.head? (Sample.hash32 1) ∧
      ¬ LooksUp db' (Sample.hash32 1) terms := by
  have hrefused : ∀ found, Sample.mergedRows.lookupFile List.head? (Sample.hash32 1) ≠ .ok found := by
    have herror : (Sample.mergedRows.lookupFile List.head? (Sample.hash32 1)).isOk = false := by
      decide +kernel
    intro found hfound
    rw [hfound] at herror
    cases herror
  obtain ⟨db', hok, hlookup⟩ := Results.map_eq_ok.1 h
  refine ⟨db', hok, hlookup, fun hread => ?_⟩
  have hfound := hread List.head? limitOne_head
  rw [hlookup] at hfound
  exact hrefused _ hfound

/-- **Merged rows are not repaired**: both lists denote the bytes `ab`, `lookup_file` asks to register
    the file again, and says the same once either list has been registered again. -/
theorem merged_rows_stay :
    content Sample.codec Sample.twoSegmentations Sample.oneTerm = [0x61, 0x62] ∧
    content Sample.codec Sample.twoSegmentations Sample.twoTerms = [0x61, 0x62] ∧
    Sample.mergedRows.lookupFile List.head? (Sample.hash32 1) =
      .error (.internal ("file term list sums to 3 but recorded size is 2; " ++
        "refusing to serve an inconsistent reconstruction (re-register this file)")) ∧
    (∃ db', Backend.sqlite.registerFile (fun _ => 1) Sample.mergedRows (Sample.hash32 1)
        Sample.repo Sample.oneTerm = .ok db' ∧
      db'.lookupFile List.head? (Sample.hash32 1) =
        Sample.mergedRows.lookupFile List.head? (Sample.hash32 1) ∧
      ¬ LooksUp db' (Sample.hash32 1) Sample.oneTerm) ∧
    ∃ db', Backend.postgres.registerFile (fun _ => 1) Sample.mergedRows (Sample.hash32 1)
        Sample.repo Sample.twoTerms = .ok db' ∧
      db'.lookupFile List.head? (Sample.hash32 1) =
        Sample.mergedRows.lookupFile List.head? (Sample.hash32 1) ∧
      ¬ LooksUp db' (Sample.hash32 1) Sample.twoTerms := by
  refine ⟨by decide +kernel, by decide +kernel, by decide +kernel, ?_, ?_⟩
  · exact not_looksUp_of_refused (by decide +kernel)
  · exact not_looksUp_of_refused (by decide +kernel)

end BaleForGit.Server
