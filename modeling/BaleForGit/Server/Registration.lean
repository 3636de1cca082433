import BaleForGit.Server.Metadata

set_option autoImplicit false

/-! # What registering files leaves behind

Terms are written once: of the lists for a hash, the first that has terms is stored, unless terms are
stored already (`firstList`, `termsAfter`). A `files` row is overwritten: the row of a repository is
that of the last list (`lastList`). -/

namespace BaleForGit.Server

/-! ## The first and the last list -/

/-- The first non-empty list for `h`. -/
def firstList (h : FileHash) (log : List (FileHash × List FileTerm)) : Option (List FileTerm) :=
  (log.find? (fun f => decide (f.1 = h) && !f.2.isEmpty)).map Prod.snd

/-- The rows of the first non-empty list for `h`; none when there is no such list. -/
def firstRows (h : FileHash) (log : List (FileHash × List FileTerm)) : List TermRow :=
  match firstList h log with
  | none => []
  | some terms => termRows h terms

@[simp] theorem firstRows_nil (h : FileHash) : firstRows h [] = [] := rfl

theorem firstList_eq_none_iff {h : FileHash} {log : List (FileHash × List FileTerm)} :
    firstList h log = none ↔ firstRows h log = [] := by
  unfold firstRows
  cases hf : firstList h log with
  | none => simp
  | some terms =>
      have hne : terms ≠ [] := by
        unfold firstList at hf
        obtain ⟨f, hfind, rfl⟩ := Option.map_eq_some_iff.1 hf
        have hpred := List.find?_some hfind
        simp only [Bool.and_eq_true, Bool.not_eq_true', List.isEmpty_eq_false_iff] at hpred
        exact hpred.2
      simp [hne]

theorem firstList_append (h : FileHash) (log more : List (FileHash × List FileTerm)) :
    firstList h (log ++ more) = (firstList h log).or (firstList h more) := by
  unfold firstList
  rw [List.find?_append, Option.map_or]

theorem firstRows_append (h : FileHash) (log more : List (FileHash × List FileTerm)) :
    firstRows h (log ++ more) = if firstRows h log = [] then firstRows h more
      else firstRows h log := by
  split_ifs with hnone
  · rw [← firstList_eq_none_iff] at hnone
    unfold firstRows
    rw [firstList_append, hnone, Option.none_or]
  · rw [← firstList_eq_none_iff] at hnone
    obtain ⟨terms, hterms⟩ := Option.ne_none_iff_exists'.1 hnone
    unfold firstRows
    rw [firstList_append, hterms, Option.some_or]

theorem firstRows_singleton (h : FileHash) (terms : List FileTerm) :
    firstRows h [(h, terms)] = termRows h terms := by
  unfold firstRows firstList
  cases terms with
  | nil => simp [termRows]
  | cons t ts => simp

theorem firstRows_singleton_of_ne {h h' : FileHash} (hne : h' ≠ h) (terms : List FileTerm) :
    firstRows h' [(h, terms)] = [] := by
  unfold firstRows firstList
  simp [Ne.symm hne]

theorem firstList_mem {h : FileHash} {files : List (FileHash × List FileTerm)}
    {terms : List FileTerm} (hfirst : firstList h files = some terms) :
    (h, terms) ∈ files ∧ terms ≠ [] := by
  unfold firstList at hfirst
  obtain ⟨f, hfind, rfl⟩ := Option.map_eq_some_iff.1 hfirst
  have hpred := List.find?_some hfind
  simp only [Bool.and_eq_true, decide_eq_true_eq, Bool.not_eq_true', List.isEmpty_eq_false_iff]
    at hpred
  refine ⟨?_, hpred.2⟩
  rw [← hpred.1]
  exact List.mem_of_find?_eq_some hfind

theorem firstList_ne_none {h : FileHash} {files : List (FileHash × List FileTerm)}
    {terms : List FileTerm} (hmem : (h, terms) ∈ files) (hne : terms ≠ []) :
    firstList h files ≠ none := by
  intro hnone
  unfold firstList at hnone
  rw [Option.map_eq_none_iff, List.find?_eq_none] at hnone
  simpa [hne] using hnone _ hmem

theorem mem_termsOf {h : FileHash} {t : List TermRow} {r : TermRow} :
    r ∈ termsOf h t ↔ r ∈ t ∧ r.fileHash = h := by
  simp [termsOf]

theorem mem_termRows {h : FileHash} {terms : List FileTerm} {r : TermRow}
    (hr : r ∈ termRows h terms) : r.fileHash = h ∧ r.term ∈ terms := by
  simp only [termRows, List.mem_map] at hr
  obtain ⟨ti, hti, rfl⟩ := hr
  exact ⟨rfl, (List.mem_zipIdx' hti).2 ▸ List.getElem_mem _⟩

theorem exists_mem_termRows (h : FileHash) {terms : List FileTerm} {t : FileTerm} (ht : t ∈ terms) :
    ∃ r ∈ termRows h terms, r.term = t := by
  obtain ⟨i, hi, rfl⟩ := List.getElem_of_mem ht
  exact ⟨⟨h, i, terms[i]⟩,
    List.mem_map.2 ⟨(terms[i], i), List.mk_mem_zipIdx_iff_getElem?.2 (by simp [hi]), rfl⟩, rfl⟩

theorem mem_firstRows {h : FileHash} {files : List (FileHash × List FileTerm)} {r : TermRow}
    (hr : r ∈ firstRows h files) : r.fileHash = h ∧ ∃ terms, (h, terms) ∈ files ∧ r.term ∈ terms := by
  unfold firstRows at hr
  cases hfirst : firstList h files with
  | none => simp [hfirst] at hr
  | some terms =>
      rw [hfirst] at hr
      obtain ⟨hhash, hterm⟩ := mem_termRows hr
      exact ⟨hhash, terms, (firstList_mem hfirst).1, hterm⟩

/-- The list declared last for `h`. -/
def lastList (h : FileHash) (files : List (FileHash × List FileTerm)) : Option (List FileTerm) :=
  (files.reverse.find? (fun f => decide (f.1 = h))).map Prod.snd

/-- The terms of `h` once `files` are registered. -/
def termsAfter (db : Db) (h : FileHash) (files : List (FileHash × List FileTerm)) :
    List FileTerm :=
  if db.fileTermList h = [] then (firstList h files).getD [] else db.fileTermList h

theorem lastList_cons (h : FileHash) (f : FileHash × List FileTerm)
    (files : List (FileHash × List FileTerm)) :
    lastList h (f :: files) =
      (lastList h files).or (if f.1 = h then some f.2 else none) := by
  unfold lastList
  rw [List.reverse_cons, List.find?_append, Option.map_or]
  by_cases hf : f.1 = h
  · simp [hf]
  · simp [hf]

theorem lastList_mem {h : FileHash} {files : List (FileHash × List FileTerm)}
    {terms : List FileTerm} (hlast : lastList h files = some terms) : (h, terms) ∈ files := by
  unfold lastList at hlast
  obtain ⟨f, hfind, rfl⟩ := Option.map_eq_some_iff.1 hlast
  have hhash : f.1 = h := by simpa using List.find?_some hfind
  have hmem := List.mem_reverse.1 (List.mem_of_find?_eq_some hfind)
  rw [← hhash]
  exact hmem

theorem not_mem_of_lastList_none {h : FileHash} {files : List (FileHash × List FileTerm)}
    (hlast : lastList h files = none) {terms : List FileTerm} : (h, terms) ∉ files := by
  intro hmem
  unfold lastList at hlast
  rw [Option.map_eq_none_iff, List.find?_eq_none] at hlast
  simpa using hlast _ (List.mem_reverse.2 hmem)

/-- Without a last list there is no first one. -/
theorem firstList_of_lastList_none {h : FileHash} {files : List (FileHash × List FileTerm)}
    (hlast : lastList h files = none) : firstList h files = none := by
  cases hfirst : firstList h files with
  | none => rfl
  | some terms => exact absurd (firstList_mem hfirst).1 (not_mem_of_lastList_none hlast)

theorem fileTermList_eq_nil {db : Db} {h : FileHash} :
    db.fileTermList h = [] ↔ termsOf h db.fileTerms = [] := by
  unfold Db.fileTermList
  rw [List.map_eq_nil_iff, Table.orderBy_eq_nil]

/-! ## Registrations -/

section Register

variable (db : Db) (repo : RepoRef) (now : Int)

theorem writeFileInTx_files (h : FileHash) (terms : List FileTerm) :
    (db.writeFileInTx h repo terms now).files =
      Table.upsert FileRow.key db.files (fileRow h repo terms now) := by
  unfold Db.writeFileInTx
  simp only
  split_ifs <;> rfl

/-- One file: rows that are there stay, and else the list goes in. -/
theorem termsOf_writeFileInTx (h h' : FileHash) (terms : List FileTerm) :
    termsOf h' (db.writeFileInTx h repo terms now).fileTerms =
      if termsOf h' db.fileTerms = [] then firstRows h' [(h, terms)]
      else termsOf h' db.fileTerms := by
  have hgroup : ∀ a b : TermRow, a.key = b.key →
      decide (a.fileHash = h') = decide (b.fileHash = h') := by
    intro a b hkey
    rw [(Prod.mk.inj hkey).1]
  unfold Db.writeFileInTx
  simp only [insertAll_batches]
  by_cases hh : h' = h
  · subst hh
    rw [firstRows_singleton]
    by_cases hnone : termsOf h' db.fileTerms = []
    · rw [if_neg (not_not.2 hnone), if_pos hnone]
      unfold termsOf at hnone ⊢
      simp only
      rw [Table.filter_insertAll hgroup (fun r hr => decide_eq_true (termRows_fileHash hr)), hnone,
        Table.insertAll_of_fresh (termRows_nodup h' terms) (fun _ _ => by simp), List.nil_append]
    · rw [if_pos hnone, if_neg hnone]
  · rw [firstRows_singleton_of_ne hh]
    have hsame : termsOf h' (Table.insertAll TermRow.key db.fileTerms (termRows h terms)) =
        termsOf h' db.fileTerms := by
      unfold termsOf
      refine Table.filter_insertAll_of_not (fun r hr => ?_)
      rw [termRows_fileHash hr]
      exact decide_eq_false (Ne.symm hh)
    split_ifs with hfound hnone hnone
    · exact hnone
    · rfl
    · exact hsame.trans hnone
    · exact hsame

/-- **Rows that are there stay; else the first list that has terms goes in.** -/
theorem termsOf_registerFiles (h : FileHash) (files : List (FileHash × List FileTerm)) :
    termsOf h (db.registerFiles repo files now).fileTerms =
      if termsOf h db.fileTerms = [] then firstRows h files else termsOf h db.fileTerms := by
  induction files generalizing db with
  | nil =>
      simp only [Db.registerFiles, List.foldl_nil, firstRows_nil]
      split_ifs with hnone
      · exact hnone
      · rfl
  | cons f files ih =>
      have hstep := termsOf_writeFileInTx db repo now f.1 h f.2
      have hfold : db.registerFiles repo (f :: files) now =
          (db.writeFileInTx f.1 repo f.2 now).registerFiles repo files now := rfl
      rw [hfold, ih, ← List.singleton_append, firstRows_append, hstep]
      by_cases hnone : termsOf h db.fileTerms = []
      · simp only [if_pos hnone]
      · simp only [if_neg hnone]

/-- A term row afterwards was there before, or is of a declared list. -/
theorem mem_fileTerms_registerFiles {files : List (FileHash × List FileTerm)} {r : TermRow}
    (hr : r ∈ (db.registerFiles repo files now).fileTerms) :
    r ∈ db.fileTerms ∨ ∃ terms, (r.fileHash, terms) ∈ files ∧ r.term ∈ terms := by
  have hmem : r ∈ termsOf r.fileHash (db.registerFiles repo files now).fileTerms :=
    mem_termsOf.2 ⟨hr, rfl⟩
  rw [termsOf_registerFiles] at hmem
  split_ifs at hmem
  · exact Or.inr (mem_firstRows hmem).2
  · exact Or.inl (mem_termsOf.1 hmem).1

/-- Term rows stay. -/
theorem mem_registerFiles_of_mem {files : List (FileHash × List FileTerm)} {r : TermRow}
    (hr : r ∈ db.fileTerms) : r ∈ (db.registerFiles repo files now).fileTerms := by
  have hmem : r ∈ termsOf r.fileHash db.fileTerms := mem_termsOf.2 ⟨hr, rfl⟩
  have hsame := termsOf_registerFiles db repo now r.fileHash files
  rw [if_neg (List.ne_nil_of_mem hmem)] at hsame
  rw [← hsame] at hmem
  exact (mem_termsOf.1 hmem).1

theorem fileTermList_registerFiles (h : FileHash) (files : List (FileHash × List FileTerm)) :
    (db.registerFiles repo files now).fileTermList h = termsAfter db h files := by
  unfold termsAfter
  by_cases hnone : termsOf h db.fileTerms = []
  · rw [if_pos (fileTermList_eq_nil.2 hnone)]
    unfold Db.fileTermList
    rw [termsOf_registerFiles, if_pos hnone]
    unfold firstRows
    cases firstList h files with
    | none => rfl
    | some terms => exact orderBy_termRows h terms
  · rw [if_neg (fun hnil => hnone (fileTermList_eq_nil.1 hnil))]
    unfold Db.fileTermList
    rw [termsOf_registerFiles, if_neg hnone]

/-- **The rows of a hash after a registration**: that of the repository is the last list's, and the
    others are as they were. -/
theorem mem_files_registerFiles {h : FileHash} {r : FileRow} (hr : r.fileHash = h)
    (files : List (FileHash × List FileTerm)) :
    r ∈ (db.registerFiles repo files now).files ↔ match lastList h files with
      | none => r ∈ db.files
      | some terms => r = fileRow h repo terms now ∨
          (r ∈ db.files ∧ r.repo.repoId ≠ repo.repoId) := by
  induction files generalizing db with
  | nil => rfl
  | cons f files ih =>
      have hfold : db.registerFiles repo (f :: files) now =
          (db.writeFileInTx f.1 repo f.2 now).registerFiles repo files now := rfl
      have hmem : r ∈ (db.writeFileInTx f.1 repo f.2 now).files ↔
          (r ∈ db.files ∧ (f.1 = h → r.repo.repoId ≠ repo.repoId)) ∨
            r = fileRow f.1 repo f.2 now := by
        rw [writeFileInTx_files, Table.mem_upsert]
        simp only [FileRow.key, fileRow, ne_eq, Prod.mk.injEq, hr, not_and, eq_comm]
      -- later lists of the shard overwrite the row of this one
      rw [hfold, ih, lastList_cons]
      cases hlast : lastList h files with
      | some terms =>
          simp only [Option.some_or, hmem]
          constructor
          · intro hcase
            rcases hcase with hrow | ⟨⟨hin, -⟩ | hrow, hne⟩
            · exact Or.inl hrow
            · exact Or.inr ⟨hin, hne⟩
            · exact absurd (by rw [hrow]; rfl) hne
          · intro hcase
            rcases hcase with hrow | ⟨hin, hne⟩
            · exact Or.inl hrow
            · exact Or.inr ⟨Or.inl ⟨hin, fun _ => hne⟩, hne⟩
      | none =>
          simp only [Option.none_or, hmem]
          by_cases hf : f.1 = h
          · simp only [hf, if_true, forall_const]
            exact or_comm
          · have hother : r ≠ fileRow f.1 repo f.2 now := by
              intro hrow
              rw [hrow] at hr
              exact hf hr
            simp [hf, hother]

end Register

end BaleForGit.Server
