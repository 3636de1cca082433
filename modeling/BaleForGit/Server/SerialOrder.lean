import Mathlib.Data.List.Induction
import BaleForGit.Server.WriteOnce

set_option autoImplicit false

/-! # Registrations have a serial order

What concurrent registrations leave in the tables is what the same registrations leave that are run
one after the other in the order of their commits, so `Db.writeFileInTx`, one file at a time, is all
that the rest of the server has to know of them. A lookup is two statements of its own, and
registrations commit in between; its answer is that of a lookup at one of the two moments.

`Watched` is the store with a spectator, who writes down what each transaction does and, when it
commits, that it did. -/

namespace BaleForGit.Server

/-! ## Serial registrations -/

/-- A registration, with the time at which each of its files was written. -/
structure Commit where
  repo : RepoRef
  files : List (FileHash × List FileTerm)
  times : List Int
deriving DecidableEq

/-- The `files` rows of a registration. -/
def Commit.rows (c : Commit) : List FileRow :=
  (c.files.zip c.times).map (fun f => fileRow f.1.1 c.repo f.1.2 f.2)

/-- All files of a registration, nothing coming between. -/
def Db.commit (db : Db) (c : Commit) : Db :=
  (c.files.zip c.times).foldl (fun d f => d.writeFileInTx f.1.1 c.repo f.1.2 f.2) db

/-- The registrations one after the other. -/
def serially (cs : List Commit) : Db := cs.foldl Db.commit Db.empty

theorem serially_concat (cs : List Commit) (c : Commit) :
    serially (cs ++ [c]) = (serially cs).commit c := by
  unfold serially
  rw [List.foldl_append, List.foldl_cons, List.foldl_nil]

/-- At one time for all its files, a registration is `registerFiles`. -/
theorem commit_replicate (db : Db) (repo : RepoRef) (files : List (FileHash × List FileTerm))
    (now : Int) :
    db.commit ⟨repo, files, List.replicate files.length now⟩ = db.registerFiles repo files now := by
  unfold Db.commit Db.registerFiles
  induction files generalizing db with
  | nil => rfl
  | cons f files ih =>
      simp only [List.length_cons, List.replicate_succ, List.zip_cons_cons, List.foldl_cons]
      exact ih _

theorem commit_files (db : Db) (c : Commit) :
    (db.commit c).files = c.rows.foldl (Table.upsert FileRow.key) db.files := by
  unfold Db.commit Commit.rows
  induction c.files.zip c.times generalizing db with
  | nil => rfl
  | cons f fs ih =>
      rw [List.foldl_cons, ih, writeFileInTx_files, List.map_cons, List.foldl_cons]

theorem termsOf_commit (db : Db) {c : Commit} (htimes : c.times.length = c.files.length)
    (h : FileHash) : termsOf h (db.commit c).fileTerms =
      if termsOf h db.fileTerms = [] then firstRows h c.files else termsOf h db.fileTerms := by
  have hfiles : c.files = (c.files.zip c.times).map Prod.fst :=
    (List.map_fst_zip (Nat.le_of_eq htimes.symm)).symm
  unfold Db.commit
  conv_rhs => rw [hfiles]
  clear hfiles
  induction c.files.zip c.times generalizing db with
  | nil =>
      simp only [List.foldl_nil, List.map_nil, firstRows_nil]
      split_ifs with hnone
      · exact hnone
      · rfl
  | cons f fs ih =>
      have hstep := termsOf_writeFileInTx db c.repo f.2 f.1.1 h f.1.2
      rw [List.foldl_cons, ih, List.map_cons, ← List.singleton_append, firstRows_append, hstep]
      by_cases hnone : termsOf h db.fileTerms = []
      · simp only [if_pos hnone]
      · simp only [if_neg hnone]

/-- Of all registrations, the first list of a hash stays. -/
theorem termsOf_serially {cs : List Commit} (htimes : ∀ c ∈ cs, c.times.length = c.files.length)
    (h : FileHash) : termsOf h (serially cs).fileTerms = firstRows h (cs.flatMap Commit.files) := by
  induction cs using List.reverseRecOn with
  | nil => rfl
  | append_singleton cs c ih =>
      have hpast := ih (fun d hd => htimes d (List.mem_append_left [c] hd))
      rw [serially_concat, termsOf_commit _ (htimes c (by simp)), hpast, List.flatMap_append,
        List.flatMap_singleton, firstRows_append]

/-! ## The spectator -/

structure Watched where
  store : TxState
  /-- What the running transactions have done. -/
  writing : Nat → Commit
  history : List Commit

def Watched.fresh : Watched := ⟨TxState.fresh, fun _ => ⟨⟨.model, "", ""⟩, [], []⟩, []⟩

/-- What the spectator notes of a statement: the time of a `files` row. -/
def noted (s : TxState) (i : Nat) (now : Int) (c : Commit) : Commit :=
  match (s.txs i).todo, (s.txs i).pc with
  | _ :: _, .upsert => { c with times := c.times ++ [now] }
  | _, _ => c

section Watch

variable (b : Backend)

def watchStep (w : Watched) (a : TxAct) : Option Watched :=
  (txStep b w.store a).map (fun s => match a with
    | .begin i repo files => ⟨s, Function.update w.writing i ⟨repo, files, []⟩, w.history⟩
    | .exec i now =>
      ⟨s, Function.update w.writing i (noted w.store i now (w.writing i)), w.history⟩
    | .commit i => ⟨s, w.writing, w.history ++ [w.writing i]⟩
    | .rollback _ => ⟨s, w.writing, w.history⟩)

/-- The registrations that have been committed, in the order of their commits. -/
def history (acts : List TxAct) : List Commit :=
  ((Machine.run (watchStep b) Watched.fresh acts).map (fun w => w.history)).getD []

variable {b}

theorem watchStep_store {w : Watched} {a : TxAct} :
    (watchStep b w a).map Watched.store = txStep b w.store a := by
  unfold watchStep
  rw [Option.map_map]
  cases txStep b w.store a with
  | none => rfl
  | some s => cases a <;> rfl

/-- Watching changes nothing. -/
theorem exists_watched {acts : List TxAct} {w : Watched} {s : TxState}
    (hrun : Machine.run (txStep b) w.store acts = some s) :
    ∃ w', Machine.run (watchStep b) w acts = some w' ∧ w'.store = s := by
  induction acts generalizing w with
  | nil => exact ⟨w, rfl, Option.some.inj hrun⟩
  | cons a acts ih =>
      obtain ⟨s₁, hs₁, hrest⟩ := Machine.run_cons_eq_some hrun
      rw [← watchStep_store] at hs₁
      obtain ⟨w₁, hw₁, rfl⟩ := Option.map_eq_some_iff.1 hs₁
      obtain ⟨w', hw', hstore⟩ := ih hrest
      exact ⟨w', by rw [Machine.run, hw₁, Option.bind_some, hw'], hstore⟩

end Watch

/-! ## What a statement does -/

/-- The files whose row a transaction has written. -/
def Tx.begun (tx : Tx) : List (FileHash × List FileTerm) :=
  tx.done ++ if tx.pc = .upsert then [] else tx.todo.take 1

/-- **A statement of a transaction** changes only this one. The first statement for a file writes its
    row; all others write no rows of files, and get on with the file or to the next one. -/
theorem txExec_cases {b : Backend} {s s' : TxState} {i : Nat} {now : Int}
    (hstep : txExec b s i now = some s') :
    s'.committed = s.committed ∧ s'.log = s.log ∧ s'.active = s.active ∧
      ∃ tx', s'.txs = Function.update s.txs i tx' ∧ tx'.repo = (s.txs i).repo ∧
        tx'.done ++ tx'.todo = (s.txs i).done ++ (s.txs i).todo ∧
        ((∃ h terms rest, (s.txs i).todo = (h, terms) :: rest ∧ (s.txs i).pc = .upsert ∧
            tx'.files = (s.txs i).files ++ [fileRow h (s.txs i).repo terms now] ∧
            tx'.begun = (s.txs i).begun ++ [(h, terms)]) ∨
          ((s.txs i).pc ≠ .upsert ∧ tx'.files = (s.txs i).files ∧
            tx'.begun = (s.txs i).begun)) := by
  unfold txExec at hstep
  cases htodo : (s.txs i).todo with
  | nil => simp [htodo] at hstep
  | cons f rest =>
      obtain ⟨h, terms⟩ := f
      cases hpc : (s.txs i).pc with
      | upsert =>
          simp only [htodo, hpc] at hstep
          split_ifs at hstep with hmay
          obtain rfl := Option.some.inj hstep
          refine ⟨by simp, by simp, by simp, _, TxState.write_txs .., by simp, by simp [htodo],
            Or.inl ⟨h, terms, rest, rfl, rfl, rfl, ?_⟩⟩
          cases b <;> simp [Tx.begun, hpc, htodo, Backend.afterUpsert]
      | lock =>
          simp only [htodo, hpc] at hstep
          split_ifs at hstep with hfree
          obtain rfl := Option.some.inj hstep
          exact ⟨rfl, rfl, rfl, _, rfl, rfl, by simp,
            Or.inr ⟨by simp, rfl, by simp [Tx.begun, hpc, htodo]⟩⟩
      | probe =>
          simp only [htodo, hpc] at hstep
          split_ifs at hstep with hfound <;> obtain rfl := Option.some.inj hstep
          · exact ⟨rfl, rfl, rfl, _, rfl, by simp [Tx.next], by simp [Tx.next, htodo],
              Or.inr ⟨by simp, by simp [Tx.next], by simp [Tx.begun, Tx.next, hpc]⟩⟩
          · exact ⟨rfl, rfl, rfl, _, rfl, by simp, by simp [htodo],
              Or.inr ⟨by simp, by simp, by simp [Tx.begun, hpc]⟩⟩
      | insert more =>
          cases more with
          | nil =>
              simp only [htodo, hpc] at hstep
              obtain rfl := Option.some.inj hstep
              exact ⟨rfl, rfl, rfl, _, rfl, rfl, by simp [Tx.next, htodo],
                Or.inr ⟨by simp, rfl, by simp [Tx.begun, Tx.next, hpc]⟩⟩
          | cons batch more =>
              simp only [htodo, hpc] at hstep
              split_ifs at hstep with hmay
              obtain rfl := Option.some.inj hstep
              exact ⟨by simp, by simp, by simp, _, TxState.write_txs .., by simp, by simp [htodo],
                Or.inr ⟨by simp, by simp, by simp [Tx.begun, hpc]⟩⟩

/-! ## The invariant -/

/-- What the spectator has noted of a transaction is what it has done. -/
structure Follows (tx : Tx) (c : Commit) : Prop where
  repo : c.repo = tx.repo
  files : c.files = tx.done ++ tx.todo
  times : c.times.length = tx.begun.length
  rows : c.rows = tx.files

structure WatchInv (b : Backend) (w : Watched) : Prop where
  tx : TxInv b w.store
  files : w.store.committed.files = (serially w.history).files
  log : w.store.log = w.history.flatMap Commit.files
  times : ∀ c ∈ w.history, c.times.length = c.files.length
  active : ∀ i ∈ w.store.active, Follows (w.store.txs i) (w.writing i)

theorem watchInv_fresh (b : Backend) : WatchInv b Watched.fresh where
  tx := ⟨fun _ => rfl, fun i hi => by simp [Watched.fresh, TxState.fresh] at hi⟩
  files := rfl
  log := rfl
  times := fun c hc => by simp [Watched.fresh] at hc
  active := fun i hi => by simp [Watched.fresh, TxState.fresh] at hi

/-- A statement and what is noted of it. -/
theorem Follows.exec {s : TxState} {i : Nat} {now : Int} {c : Commit} {tx' : Tx}
    (h : Follows (s.txs i) c) (hrepo : tx'.repo = (s.txs i).repo)
    (hfiles : tx'.done ++ tx'.todo = (s.txs i).done ++ (s.txs i).todo)
    (hcase : (∃ g terms rest, (s.txs i).todo = (g, terms) :: rest ∧ (s.txs i).pc = .upsert ∧
        tx'.files = (s.txs i).files ++ [fileRow g (s.txs i).repo terms now] ∧
        tx'.begun = (s.txs i).begun ++ [(g, terms)]) ∨
      ((s.txs i).pc ≠ .upsert ∧ tx'.files = (s.txs i).files ∧ tx'.begun = (s.txs i).begun)) :
    Follows tx' (noted s i now c) := by
  rcases hcase with ⟨g, terms, rest, htodo, hpc, hrows, hbegun⟩ | ⟨hpc, hrows, hbegun⟩
  · have hnoted : noted s i now c = { c with times := c.times ++ [now] } := by
      unfold noted
      rw [htodo, hpc]
    have hdone : (s.txs i).begun = (s.txs i).done := by simp [Tx.begun, hpc]
    have htimes : (s.txs i).done.length = c.times.length := by rw [h.times, hdone]
    refine ⟨?_, ?_, ?_, ?_⟩
    · rw [hnoted, hrepo]
      exact h.repo
    · rw [hnoted, hfiles]
      exact h.files
    · rw [hnoted, hbegun, List.length_append, List.length_append, h.times]
      rfl
    · -- the row of the file comes after those of the files that are done
      have hold := h.rows
      have hzip : ((s.txs i).done ++ (g, terms) :: rest).zip c.times =
          (s.txs i).done.zip c.times := by
        have happend : ((s.txs i).done ++ (g, terms) :: rest).zip (c.times ++ []) = _ :=
          List.zip_append htimes
        rwa [List.append_nil, List.zip_nil_right, List.append_nil] at happend
      unfold Commit.rows at hold ⊢
      rw [hnoted, hrows, ← hold]
      simp only [h.files, h.repo, htodo]
      rw [List.zip_append htimes, List.map_append, hzip, List.zip_cons_cons, List.zip_nil_right]
      rfl
  · have hnoted : noted s i now c = c := by
      unfold noted
      split
      · next hup => exact absurd hup hpc
      · rfl
    rw [hnoted]
    exact ⟨h.repo.trans hrepo.symm, h.files.trans hfiles.symm, by rw [h.times, hbegun],
      h.rows.trans hrows.symm⟩

/-- **Every step keeps the invariant.** -/
theorem watchStep_inv {b : Backend} {w w' : Watched} {a : TxAct} (hinv : WatchInv b w)
    (hstep : watchStep b w a = some w') : WatchInv b w' := by
  unfold watchStep at hstep
  obtain ⟨s, hs, rfl⟩ := Option.map_eq_some_iff.1 hstep
  have htx := txStep_inv w.store a s hinv.tx hs
  cases a with
  | begin i repo files =>
      simp only [txStep] at hs
      split_ifs at hs with hno
      obtain rfl := Option.some.inj hs
      refine ⟨htx, hinv.files, hinv.log, hinv.times, fun k hk => ?_⟩
      simp only [TxState.set]
      by_cases hki : k = i
      · subst hki
        rw [Function.update_self, Function.update_self]
        exact ⟨rfl, rfl, rfl, by simp [Commit.rows]⟩
      · rw [Function.update_of_ne hki, Function.update_of_ne hki]
        refine hinv.active k ?_
        simpa [TxState.set, hki] using hk
  | exec i now =>
      simp only [txStep] at hs
      split_ifs at hs with hi
      obtain ⟨hcommitted, hlog, hactive, tx', htxs, hrepo, hfiles, hcase⟩ := txExec_cases hs
      refine ⟨htx, hcommitted ▸ hinv.files, hlog.trans hinv.log, hinv.times, fun k hk => ?_⟩
      simp only [htxs]
      by_cases hki : k = i
      · subst hki
        rw [Function.update_self, Function.update_self]
        exact (hinv.active k hi).exec hrepo hfiles hcase
      · rw [Function.update_of_ne hki, Function.update_of_ne hki]
        exact hinv.active k (hactive ▸ hk)
  | commit i =>
      simp only [txStep] at hs
      split_ifs at hs with hi
      obtain rfl := Option.some.inj hs
      have hfollows := hinv.active i hi.1
      have hfiles : (w.writing i).files = (w.store.txs i).done := by
        rw [hfollows.files, hi.2, List.append_nil]
      refine ⟨htx, ?_, ?_, fun c hc => ?_, fun k hk => ?_⟩
      · -- what is committed is what the transaction sees: the latest state and its own rows
        simp only [Tx.view, (hinv.tx.txs i hi.1).base, serially_concat, commit_files,
          hfollows.rows, hinv.files]
      · simp only [List.flatMap_append, List.flatMap_singleton, hinv.log, hfiles]
      · rcases List.mem_append.1 hc with hc | hc
        · exact hinv.times c hc
        · rw [List.mem_singleton.1 hc, hfollows.times, hfiles]
          simp [Tx.begun, hi.2]
      · exact hinv.active k (mem_active_finish hk).1
  | rollback i =>
      simp only [txStep] at hs
      split_ifs at hs with hi
      obtain rfl := Option.some.inj hs
      exact ⟨htx, hinv.files, hinv.log, hinv.times,
        fun k hk => hinv.active k (mem_active_finish hk).1⟩

/-! ## Any interleaving -/

section Runs

variable {b : Backend} {acts : List TxAct} {s : TxState}

theorem run_watched (hrun : Machine.run (txStep b) TxState.fresh acts = some s) :
    ∃ w, Machine.run (watchStep b) Watched.fresh acts = some w ∧ w.store = s ∧
      history b acts = w.history ∧ WatchInv b w := by
  obtain ⟨w, hw, hstore⟩ := exists_watched (w := Watched.fresh) hrun
  refine ⟨w, hw, hstore, ?_, ?_⟩
  · unfold history
    rw [hw, Option.map_some, Option.getD_some]
  · exact Machine.run_invariant_of_step (fun _ _ _ hinv hstep => watchStep_inv hinv hstep)
      (watchInv_fresh b) hw

/-- What is written down stays. -/
theorem history_grows {w w' : Watched} (hrun : Machine.run (watchStep b) w acts = some w') :
    w.history <+: w'.history := by
  have hgrows : ∀ u a u', w.history <+: u.history → watchStep b u a = some u' →
      w.history <+: u'.history := by
    intro u a u' hu hstep
    unfold watchStep at hstep
    obtain ⟨t, -, rfl⟩ := Option.map_eq_some_iff.1 hstep
    cases a with
    | begin i repo files => exact hu
    | exec i now => exact hu
    | commit i => exact hu.trans (List.prefix_append _ _)
    | rollback i => exact hu
  exact Machine.run_invariant_of_step hgrows List.prefix_rfl hrun

/-- The rows of both tables: those of `files` as they are, those of `file_terms` hash by hash. -/
structure SameRows (t : Tables) (db : Db) : Prop where
  files : t.files = db.files
  terms : ∀ h, termsOf h t.fileTerms = termsOf h db.fileTerms

theorem WatchInv.sameRows {w : Watched} (hinv : WatchInv b w) :
    SameRows w.store.committed (serially w.history) where
  files := hinv.files
  terms := by
    intro h
    rw [termsOf_serially hinv.times, ← hinv.log]
    exact hinv.tx.committed h

end Runs

/-! ## Lookups -/

/-- `lookup_file`, its first statement on `t` and its second on `t'`. -/
def lookupAcross (pick : List FileRow → Option FileRow) (h : FileHash) (t t' : Tables) :
    CoreResult (Option (List FileTerm)) :=
  ({ Db.empty with files := t'.files, fileTerms := t.fileTerms } : Db).lookupFile pick h

/-- A lookup reads the rows of its hash. -/
theorem lookupFile_congr {db db' : Db} {pick : List FileRow → Option FileRow} {h : FileHash}
    (hterms : termsOf h db.fileTerms = termsOf h db'.fileTerms)
    (hfiles : termsOf h db.fileTerms ≠ [] → db.files = db'.files) :
    db.lookupFile pick h = db'.lookupFile pick h := by
  have hlist : db.fileTermList h = db'.fileTermList h := by
    unfold Db.fileTermList
    rw [hterms]
  unfold Db.lookupFile
  by_cases hnil : db.fileTermList h = []
  · simp only [← hlist, hnil, List.isEmpty_nil, if_true]
  · rw [← hlist, hfiles (fun hrows => hnil (fileTermList_eq_nil.2 hrows))]

/-- **Registrations and lookups are linearizable**, on both backends. After any interleaving of the
    statements of any registrations, any of them rolled back, the tables hold what the committed ones
    leave that are run one after the other, in the order of their commits; this order only grows. A
    lookup whose statements are apart, however many registrations go on between them, answers like
    one that is run on the serial store of one of its two moments. -/
theorem registrations_linearizable (b : Backend) (acts : List TxAct) (k k' : Nat) (hk : k ≤ k')
    (s s' : TxState) (hs : Machine.run (txStep b) TxState.fresh (acts.take k) = some s)
    (hs' : Machine.run (txStep b) TxState.fresh (acts.take k') = some s') :
    SameRows s.committed (serially (history b (acts.take k))) ∧
      history b (acts.take k) <+: history b (acts.take k') ∧
      ∀ pick h, ∃ j, (j = k ∨ j = k') ∧ lookupAcross pick h s.committed s'.committed =
        (serially (history b (acts.take j))).lookupFile pick h := by
  obtain ⟨w, hw, rfl, hhist, hinv⟩ := run_watched hs
  obtain ⟨w', hw', rfl, hhist', hinv'⟩ := run_watched hs'
  have hgrow : w.history <+: w'.history := by
    have hsplit : acts.take k' = acts.take k ++ (acts.take k').drop k := by
      conv_lhs => rw [← List.take_append_drop k (acts.take k'), List.take_take, Nat.min_eq_left hk]
    rw [hsplit, Machine.run_append, hw, Option.bind_some] at hw'
    exact history_grows hw'
  rw [hhist, hhist']
  refine ⟨hinv.sameRows, hgrow, fun pick h => ?_⟩
  by_cases hnone : termsOf h w.store.committed.fileTerms = []
  · -- no terms: the second statement is not reached
    refine ⟨k, Or.inl rfl, ?_⟩
    rw [hhist]
    exact lookupFile_congr (hinv.sameRows.terms h) (fun hne => absurd hnone hne)
  · -- the terms are there for good, so they are those of the second moment too
    refine ⟨k', Or.inr rfl, ?_⟩
    rw [hhist']
    refine lookupFile_congr ?_ (fun _ => hinv'.sameRows.files)
    rw [← hinv'.sameRows.terms h, hinv.tx.committed, hinv'.tx.committed]
    have hfirst : firstRows h w.store.log ≠ [] := by
      rw [← hinv.tx.committed]
      exact hnone
    obtain ⟨more, hmore⟩ := hgrow
    rw [hinv.log] at hfirst ⊢
    rw [hinv'.log, ← hmore, List.flatMap_append, firstRows_append, if_neg hfirst]

/-- A lookup between the two commits of a race. -/
theorem registrations_linearizable_race : ∃ s s',
    Machine.run (txStep .postgres) TxState.fresh (Sample.raceActs.take 15) = some s ∧
      Machine.run (txStep .postgres) TxState.fresh (Sample.raceActs.take 18) = some s' ∧
      (history .postgres (Sample.raceActs.take 15)).length = 1 ∧
      SameRows s.committed (serially (history .postgres (Sample.raceActs.take 15))) ∧
      ∃ j, (j = 15 ∨ j = 18) ∧
        lookupAcross List.head? (Sample.hash32 1) s.committed s'.committed =
          (serially (history .postgres (Sample.raceActs.take j))).lookupFile List.head?
            (Sample.hash32 1) := by
  have hs : (Machine.run (txStep .postgres) TxState.fresh (Sample.raceActs.take 15)).isSome =
      true := by
    decide +kernel
  have hs' : (Machine.run (txStep .postgres) TxState.fresh (Sample.raceActs.take 18)).isSome =
      true := by
    decide +kernel
  obtain ⟨s, hs⟩ := Option.isSome_iff_exists.1 hs
  obtain ⟨s', hs'⟩ := Option.isSome_iff_exists.1 hs'
  obtain ⟨hsame, -, hlookup⟩ := registrations_linearizable .postgres Sample.raceActs 15 18
    (by decide) s s' hs hs'
  exact ⟨s, s', hs, hs', by decide +kernel, hsame, hlookup List.head? (Sample.hash32 1)⟩

end BaleForGit.Server
