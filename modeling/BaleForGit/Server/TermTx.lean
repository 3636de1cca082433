import Mathlib.Logic.Function.Basic
import BaleForGit.Library.Machine
import BaleForGit.Server.Metadata

set_option autoImplicit false

/-! # Registration transactions (`write_file_in_tx`, `register_file`, `register_files`)

A registration writes all files of a shard in one transaction, file by file: the `files` row, in
Postgres an advisory lock on the hash, a probe for rows of the hash, and, if there are none, the
rows in batches. Many registrations run at once; here each of their statements is a step.

What a statement sees and when it has to wait is the engine's doing. SQLite (WAL) fixes a
transaction's snapshot at its first statement, and lets one transaction write from its first write
to its end, and only on the latest snapshot. Postgres (READ COMMITTED) lets each statement see what
is committed when it starts, besides the transaction's own writes; a write waits for transactions
that have written the same key, and `pg_advisory_xact_lock` holds its key to the end of the
transaction. A transaction may roll back at any point.

`log` records the lists of the committed transactions in commit order; nothing reads it. -/

namespace BaleForGit.Server

inductive Backend where
  | sqlite
  | postgres
deriving DecidableEq, Repr

/-- The two tables that registrations write. -/
structure Tables where
  files : List FileRow
  fileTerms : List TermRow
deriving DecidableEq

/-- The next statement for the file at the head of `todo`. -/
inductive TxPc where
  | upsert
  | lock
  | probe
  | insert (rest : List (List TermRow))
deriving DecidableEq

/-- A running transaction: the files it has written and those it has to write, and, on the side of
    the engine, its snapshot and its uncommitted writes. -/
structure Tx where
  repo : RepoRef
  done : List (FileHash × List FileTerm)
  todo : List (FileHash × List FileTerm)
  pc : TxPc
  snapshot : Option Tables
  files : List FileRow
  fileTerms : List TermRow

structure TxState where
  committed : Tables
  active : List Nat
  txs : Nat → Tx
  /-- SQLite's write lock. -/
  writer : Option Nat
  /-- Postgres' advisory locks. -/
  advisory : Int → Option Nat
  log : List (FileHash × List FileTerm)

inductive TxAct where
  | begin (i : Nat) (repo : RepoRef) (files : List (FileHash × List FileTerm))
  | exec (i : Nat) (now : Int)
  | commit (i : Nat)
  | rollback (i : Nat)

/-! ## What a transaction sees -/

/-- The state a statement starts from, without the transaction's own writes. -/
def Tx.base (b : Backend) (s : TxState) (tx : Tx) : Tables :=
  match b with
  | .sqlite => tx.snapshot.getD s.committed
  | .postgres => s.committed

def Tx.view (b : Backend) (s : TxState) (tx : Tx) : Tables :=
  ⟨tx.files.foldl (Table.upsert FileRow.key) (tx.base b s).files,
    (tx.base b s).fileTerms ++ tx.fileTerms⟩

/-- A statement fixes the snapshot of a SQLite transaction that has none yet. -/
def Tx.read (b : Backend) (s : TxState) (tx : Tx) : Tx :=
  match b with
  | .sqlite => { tx with snapshot := some (tx.base b s) }
  | .postgres => tx

/-- `lock_key`: the first eight bytes of the hash. -/
def lockKey (h : FileHash) : Int :=
  asI64 ((h.bytes.take 8).foldr (fun b acc => b.toNat + 256 * acc) 0)

/-! ## Steps -/

section Step

variable (b : Backend)

/-- Whether transaction `i` may write the rows with the given keys of `files` and `file_terms`. -/
def mayWrite (s : TxState) (i : Nat) (files : List (FileHash × String))
    (terms : List (FileHash × Nat)) : Prop :=
  match b with
  | .sqlite => (s.writer = none ∨ s.writer = some i) ∧
      ((s.txs i).snapshot = none ∨ (s.txs i).snapshot = some s.committed)
  | .postgres => ∀ k ∈ s.active, k ≠ i →
      (∀ key ∈ files, key ∉ (s.txs k).files.map FileRow.key) ∧
        ∀ key ∈ terms, key ∉ (s.txs k).fileTerms.map TermRow.key

instance (s : TxState) (i : Nat) (files : List (FileHash × String))
    (terms : List (FileHash × Nat)) : Decidable (mayWrite b s i files terms) :=
  match b with
  | .sqlite => inferInstanceAs (Decidable (_ ∧ _))
  | .postgres => inferInstanceAs (Decidable (∀ k ∈ s.active, k ≠ i → _ ∧ _))

/-- The transaction after a write statement; in SQLite it is now the writer. -/
def TxState.write (s : TxState) (i : Nat) (tx : Tx) : TxState :=
  match b with
  | .sqlite => { s with writer := some i, txs := Function.update s.txs i tx }
  | .postgres => { s with txs := Function.update s.txs i tx }

def TxState.set (s : TxState) (i : Nat) (tx : Tx) : TxState :=
  { s with txs := Function.update s.txs i tx }

/-- The file at hand is written; on to the next one. -/
def Tx.next (tx : Tx) : Tx :=
  { tx with done := tx.done ++ tx.todo.take 1, todo := tx.todo.drop 1, pc := .upsert }

/-- After the upsert, Postgres takes the advisory lock. -/
def Backend.afterUpsert : Backend → TxPc
  | .sqlite => .probe
  | .postgres => .lock

/-- The next statement of transaction `i`. -/
def txExec (s : TxState) (i : Nat) (now : Int) : Option TxState :=
  let tx := s.txs i
  match tx.todo, tx.pc with
  | [], _ => none
  | (h, terms) :: _, .upsert =>
    let row := fileRow h tx.repo terms now
    if mayWrite b s i [row.key] [] then
      some (s.write b i { tx.read b s with files := tx.files ++ [row], pc := b.afterUpsert })
    else none
  | (h, _) :: _, .lock =>
    if s.advisory (lockKey h) = none ∨ s.advisory (lockKey h) = some i then
      some ({ s with advisory := Function.update s.advisory (lockKey h) (some i) }.set i
        { tx with pc := .probe })
    else none
  | (h, terms) :: _, .probe =>
    if termsOf h (tx.view b s).fileTerms ≠ [] then some (s.set i (tx.read b s).next)
    else some (s.set i { tx.read b s with pc := .insert (batches (termRows h terms)) })
  | _ :: _, .insert [] => some (s.set i tx.next)
  | _ :: _, .insert (batch :: rest) =>
    if mayWrite b s i [] (batch.map TermRow.key) then
      -- rows whose key is taken are skipped
      let rows := (Table.insertAll TermRow.key (tx.view b s).fileTerms batch).drop
        (tx.base b s).fileTerms.length
      some (s.write b i { tx.read b s with fileTerms := rows, pc := .insert rest })
    else none

/-- The end of transaction `i`: its locks are released. -/
def TxState.finish (s : TxState) (i : Nat) : TxState :=
  { s with
    active := s.active.filter (fun k => decide (k ≠ i))
    writer := if s.writer = some i then none else s.writer
    advisory := fun key => if s.advisory key = some i then none else s.advisory key }

def txStep (s : TxState) (a : TxAct) : Option TxState :=
  match a with
  | .begin i repo files =>
    -- `register_files` returns before `begin` on an empty list
    if i ∈ s.active ∨ files = [] then none
    else some ({ s with active := i :: s.active }.set i ⟨repo, [], files, .upsert, none, [], []⟩)
  | .exec i now => if i ∈ s.active then txExec b s i now else none
  | .commit i =>
    if i ∈ s.active ∧ (s.txs i).todo = [] then
      some { (s.finish i) with
        committed := (s.txs i).view b s
        log := s.log ++ (s.txs i).done }
    else none
  | .rollback i => if i ∈ s.active then some (s.finish i) else none

end Step

/-- A store nobody has written to. -/
def TxState.fresh : TxState where
  committed := ⟨[], []⟩
  active := []
  txs := fun _ => ⟨⟨.model, "", ""⟩, [], [], .upsert, none, [], []⟩
  writer := none
  advisory := fun _ => none
  log := []

/-! ## What statements leave alone -/

section Frame

variable (b : Backend) (s : TxState) (tx : Tx) (i : Nat)

@[simp] theorem Tx.read_repo : (tx.read b s).repo = tx.repo := by cases b <;> rfl

@[simp] theorem Tx.read_todo : (tx.read b s).todo = tx.todo := by cases b <;> rfl

@[simp] theorem Tx.read_done : (tx.read b s).done = tx.done := by cases b <;> rfl

@[simp] theorem Tx.read_files : (tx.read b s).files = tx.files := by cases b <;> rfl

@[simp] theorem Tx.read_fileTerms : (tx.read b s).fileTerms = tx.fileTerms := by cases b <;> rfl

@[simp] theorem TxState.write_committed : (s.write b i tx).committed = s.committed := by
  cases b <;> rfl

@[simp] theorem TxState.write_active : (s.write b i tx).active = s.active := by cases b <;> rfl

@[simp] theorem TxState.write_log : (s.write b i tx).log = s.log := by cases b <;> rfl

@[simp] theorem TxState.write_advisory : (s.write b i tx).advisory = s.advisory := by
  cases b <;> rfl

@[simp] theorem TxState.write_txs : (s.write b i tx).txs = Function.update s.txs i tx := by
  cases b <;> rfl

end Frame

/-! ## Uninterrupted registrations -/

def Db.tables (db : Db) : Tables := ⟨db.files, db.fileTerms⟩

/-- On the latest snapshot, a transaction sees what is committed and its own writes. -/
theorem Tx.base_of_latest {b : Backend} {s : TxState} {tx : Tx}
    (h : tx.snapshot = none ∨ tx.snapshot = some s.committed) : tx.base b s = s.committed := by
  cases b with
  | postgres => rfl
  | sqlite => rcases h with hnone | hsome <;> simp [Tx.base, *]

/-- Transaction `i` is the only one, at statement `pc` with the files `todo` left, and sees `v`. -/
structure At (b : Backend) (i : Nat) (repo : RepoRef) (s : TxState) (v : Tables)
    (todo : List (FileHash × List FileTerm)) (pc : TxPc) : Prop where
  active : s.active = [i]
  writer : s.writer = none ∨ s.writer = some i
  advisory : ∀ key, s.advisory key = none ∨ s.advisory key = some i
  snapshot : (s.txs i).snapshot = none ∨ (s.txs i).snapshot = some s.committed
  view : (s.txs i).view b s = v
  repo_eq : (s.txs i).repo = repo
  todo_eq : (s.txs i).todo = todo
  pc_eq : (s.txs i).pc = pc

namespace At

variable {b : Backend} {i : Nat} {repo : RepoRef} {s : TxState} {v : Tables} {h : FileHash}
  {terms : List FileTerm} {todo rest : List (FileHash × List FileTerm)} {pc : TxPc}

theorem mayWrite (hat : At b i repo s v todo pc) (files : List (FileHash × String))
    (keys : List (FileHash × Nat)) : mayWrite b s i files keys := by
  cases b with
  | sqlite => exact ⟨hat.writer, hat.snapshot⟩
  | postgres =>
      intro k hk hne
      rw [hat.active, List.mem_singleton] at hk
      exact absurd hk hne

/-- A statement that is let through, in terms of the transaction it leaves. -/
theorem step (hat : At b i repo s v todo pc) {s' : TxState} (tx' : Tx) {v' : Tables}
    {todo' : List (FileHash × List FileTerm)} {pc' : TxPc}
    (hactive : s'.active = s.active) (hcommitted : s'.committed = s.committed)
    (hwriter : s'.writer = s.writer ∨ s'.writer = some i)
    (hadvisory : ∀ key, s'.advisory key = s.advisory key ∨ s'.advisory key = some i)
    (htx : s'.txs i = tx')
    (hsnap : tx'.snapshot = (s.txs i).snapshot ∨ tx'.snapshot = some ((s.txs i).base b s))
    (hfiles : tx'.files.foldl (Table.upsert FileRow.key) s.committed.files = v'.files)
    (hterms : s.committed.fileTerms ++ tx'.fileTerms = v'.fileTerms)
    (hrepo : tx'.repo = (s.txs i).repo) (htodo : tx'.todo = todo') (hpc : tx'.pc = pc') :
    At b i repo s' v' todo' pc' := by
  have hlatest : tx'.snapshot = none ∨ tx'.snapshot = some s'.committed := by
    rw [hcommitted]
    rcases hsnap with hsame | hbase
    · rw [hsame]
      exact hat.snapshot
    · rw [hbase, Tx.base_of_latest hat.snapshot]
      exact Or.inr rfl
  refine ⟨hactive.trans hat.active, ?_, fun key => ?_, ?_, ?_, ?_, ?_, ?_⟩
  · rcases hwriter with hsame | hself
    · rw [hsame]
      exact hat.writer
    · exact Or.inr hself
  · rcases hadvisory key with hsame | hself
    · rw [hsame]
      exact hat.advisory key
    · exact Or.inr hself
  · rw [htx]
    exact hlatest
  · rw [htx]
    unfold Tx.view
    rw [Tx.base_of_latest hlatest, hcommitted, hfiles, hterms]
  · rw [htx, hrepo]
    exact hat.repo_eq
  · rw [htx]
    exact htodo
  · rw [htx]
    exact hpc

theorem view_files (hat : At b i repo s v todo pc) :
    (s.txs i).files.foldl (Table.upsert FileRow.key) s.committed.files = v.files := by
  rw [← hat.view, Tx.view, Tx.base_of_latest hat.snapshot]

theorem view_fileTerms (hat : At b i repo s v todo pc) :
    s.committed.fileTerms ++ (s.txs i).fileTerms = v.fileTerms := by
  rw [← hat.view, Tx.view, Tx.base_of_latest hat.snapshot]

theorem read_snapshot (tx : Tx) : (tx.read b s).snapshot = tx.snapshot ∨
    (tx.read b s).snapshot = some (tx.base b s) := by
  cases b with
  | sqlite => exact Or.inr rfl
  | postgres => exact Or.inl rfl

theorem write_writer (s : TxState) (tx : Tx) :
    (s.write b i tx).writer = s.writer ∨ (s.write b i tx).writer = some i := by
  cases b with
  | sqlite => exact Or.inr rfl
  | postgres => exact Or.inl rfl

/-- A write statement, in terms of the transaction it leaves. -/
theorem step_write (hat : At b i repo s v todo pc) {tx' : Tx} {v' : Tables}
    {todo' : List (FileHash × List FileTerm)} {pc' : TxPc}
    (hsnap : tx'.snapshot = ((s.txs i).read b s).snapshot)
    (hfiles : tx'.files.foldl (Table.upsert FileRow.key) s.committed.files = v'.files)
    (hterms : s.committed.fileTerms ++ tx'.fileTerms = v'.fileTerms)
    (hrepo : tx'.repo = (s.txs i).repo) (htodo : tx'.todo = todo') (hpc : tx'.pc = pc') :
    At b i repo (s.write b i tx') v' todo' pc' := by
  refine hat.step tx' (by simp) (by simp) (write_writer s tx') (fun key => Or.inl (by simp))
    (by simp) ?_ hfiles hterms hrepo htodo hpc
  rw [hsnap]
  exact read_snapshot (s.txs i)

/-- A statement that only reads. -/
theorem step_read (hat : At b i repo s v todo pc) {tx' : Tx}
    {todo' : List (FileHash × List FileTerm)} {pc' : TxPc}
    (hsnap : tx'.snapshot = ((s.txs i).read b s).snapshot) (hfiles : tx'.files = (s.txs i).files)
    (hterms : tx'.fileTerms = (s.txs i).fileTerms) (hrepo : tx'.repo = (s.txs i).repo)
    (htodo : tx'.todo = todo') (hpc : tx'.pc = pc') : At b i repo (s.set i tx') v todo' pc' := by
  refine hat.step tx' rfl rfl (Or.inl rfl) (fun _ => Or.inl rfl) (Function.update_self ..) ?_ ?_ ?_
    hrepo htodo hpc
  · rw [hsnap]
    exact read_snapshot (s.txs i)
  · rw [hfiles]
    exact hat.view_files
  · rw [hterms]
    exact hat.view_fileTerms

theorem upsert (hat : At b i repo s v ((h, terms) :: rest) .upsert) (now : Int) :
    ∃ s', txStep b s (.exec i now) = some s' ∧
      At b i repo s' ⟨Table.upsert FileRow.key v.files (fileRow h repo terms now), v.fileTerms⟩
        ((h, terms) :: rest) b.afterUpsert := by
  have hstep : txStep b s (.exec i now) = some (s.write b i { (s.txs i).read b s with
      files := (s.txs i).files ++ [fileRow h (s.txs i).repo terms now], pc := b.afterUpsert }) := by
    simp only [txStep, txExec, hat.active, hat.todo_eq, hat.pc_eq, hat.mayWrite,
      List.mem_singleton, if_true]
  refine ⟨_, hstep, hat.step_write rfl ?_ ?_ (by simp) ?_ rfl⟩
  · simp only [List.foldl_append, List.foldl_cons, List.foldl_nil, hat.view_files, hat.repo_eq]
  · rw [← hat.view_fileTerms]
    simp
  · rw [← hat.todo_eq]
    simp

theorem lock (hat : At b i repo s v ((h, terms) :: rest) .lock) (now : Int) :
    ∃ s', txStep b s (.exec i now) = some s' ∧ At b i repo s' v ((h, terms) :: rest) .probe := by
  have hstep : txStep b s (.exec i now) = some ({ s with
      advisory := Function.update s.advisory (lockKey h) (some i) }.set i
        { s.txs i with pc := .probe }) := by
    simp only [txStep, txExec, hat.active, hat.todo_eq, hat.pc_eq, hat.advisory,
      List.mem_singleton, if_true]
  refine ⟨_, hstep, hat.step _ rfl rfl (Or.inl rfl) (fun key => ?_) (Function.update_self ..)
    (Or.inl rfl) hat.view_files hat.view_fileTerms rfl hat.todo_eq rfl⟩
  simp only [TxState.set]
  by_cases hkey : key = lockKey h
  · rw [hkey, Function.update_self]
    exact Or.inr rfl
  · rw [Function.update_of_ne hkey]
    exact Or.inl rfl

theorem probe_some (hat : At b i repo s v ((h, terms) :: rest) .probe) (now : Int)
    (hfound : termsOf h v.fileTerms ≠ []) :
    ∃ s', txStep b s (.exec i now) = some s' ∧ At b i repo s' v rest .upsert := by
  have hstep : txStep b s (.exec i now) = some (s.set i ((s.txs i).read b s).next) := by
    simp only [txStep, txExec, hat.active, hat.todo_eq, hat.pc_eq, hat.view,
      List.mem_singleton, if_true]
    rw [if_pos hfound]
  refine ⟨_, hstep, hat.step_read rfl (by simp [Tx.next]) (by simp [Tx.next]) (by simp [Tx.next]) ?_
    rfl⟩
  simp [Tx.next, hat.todo_eq]

theorem probe_none (hat : At b i repo s v ((h, terms) :: rest) .probe) (now : Int)
    (hfound : termsOf h v.fileTerms = []) :
    ∃ s', txStep b s (.exec i now) = some s' ∧
      At b i repo s' v ((h, terms) :: rest) (.insert (batches (termRows h terms))) := by
  have hstep : txStep b s (.exec i now) = some (s.set i { (s.txs i).read b s with
      pc := .insert (batches (termRows h terms)) }) := by
    simp only [txStep, txExec, hat.active, hat.todo_eq, hat.pc_eq, hat.view,
      List.mem_singleton, if_true]
    rw [if_neg (not_not.2 hfound)]
  refine ⟨_, hstep, hat.step_read rfl (by simp) (by simp) (by simp) ?_ rfl⟩
  rw [← hat.todo_eq]
  simp

theorem insert_nil (hat : At b i repo s v ((h, terms) :: rest) (.insert [])) (now : Int) :
    ∃ s', txStep b s (.exec i now) = some s' ∧ At b i repo s' v rest .upsert := by
  have hstep : txStep b s (.exec i now) = some (s.set i (s.txs i).next) := by
    simp only [txStep, txExec, hat.active, hat.todo_eq, hat.pc_eq, List.mem_singleton, if_true]
  refine ⟨_, hstep, hat.step _ rfl rfl (Or.inl rfl) (fun _ => Or.inl rfl) (Function.update_self ..)
    (Or.inl rfl) hat.view_files hat.view_fileTerms rfl ?_ rfl⟩
  simp [Tx.next, hat.todo_eq]

theorem insert_cons {batch : List TermRow} {more : List (List TermRow)}
    (hat : At b i repo s v ((h, terms) :: rest) (.insert (batch :: more))) (now : Int) :
    ∃ s', txStep b s (.exec i now) = some s' ∧
      At b i repo s' ⟨v.files, Table.insertAll TermRow.key v.fileTerms batch⟩
        ((h, terms) :: rest) (.insert more) := by
  have hstep : txStep b s (.exec i now) = some (s.write b i { (s.txs i).read b s with
      fileTerms := (Table.insertAll TermRow.key v.fileTerms batch).drop
        s.committed.fileTerms.length
      pc := .insert more }) := by
    simp only [txStep, txExec, hat.active, hat.todo_eq, hat.pc_eq, hat.view, hat.mayWrite,
      Tx.base_of_latest hat.snapshot, List.mem_singleton, if_true]
  refine ⟨_, hstep, hat.step_write rfl ?_ ?_ (by simp) ?_ rfl⟩
  · rw [← hat.view_files]
    simp
  · have hpre : v.fileTerms <+: Table.insertAll TermRow.key v.fileTerms batch :=
      Table.prefix_insertAll v.fileTerms batch
    obtain ⟨more', hmore⟩ := hpre
    rw [← hmore, ← hat.view_fileTerms, List.append_assoc, List.drop_left]
  · rw [← hat.todo_eq]
    simp

/-! ### From statements to a registration -/

/-- Some number of statements of transaction `i` lead from `s` to `s'`. -/
def Leads (b : Backend) (i : Nat) (now : Int) (s s' : TxState) : Prop :=
  ∃ n, Machine.run (txStep b) s (List.replicate n (.exec i now)) = some s'

theorem Leads.refl (b : Backend) (i : Nat) (now : Int) (s : TxState) : Leads b i now s s :=
  ⟨0, rfl⟩

theorem Leads.head {now : Int} {s₁ s₂ : TxState} (hstep : txStep b s (.exec i now) = some s₁)
    (hrest : Leads b i now s₁ s₂) : Leads b i now s s₂ := by
  obtain ⟨n, hn⟩ := hrest
  exact ⟨n + 1, by simp only [List.replicate_succ, Machine.run, hstep, Option.bind_some, hn]⟩

theorem Leads.trans {now : Int} {s₁ s₂ : TxState} (h₁ : Leads b i now s s₁)
    (h₂ : Leads b i now s₁ s₂) : Leads b i now s s₂ := by
  obtain ⟨n, hn⟩ := h₁
  obtain ⟨m, hm⟩ := h₂
  refine ⟨n + m, ?_⟩
  rw [List.replicate_add, Machine.run_append, hn, Option.bind_some, hm]

/-- All batches go in, one after the other. -/
theorem inserts {bs : List (List TermRow)}
    (hat : At b i repo s v ((h, terms) :: rest) (.insert bs)) (now : Int) :
    ∃ s', Leads b i now s s' ∧
      At b i repo s' ⟨v.files, bs.foldl (Table.insertAll TermRow.key) v.fileTerms⟩ rest .upsert := by
  induction bs generalizing s v with
  | nil =>
      obtain ⟨s', hstep, hat'⟩ := hat.insert_nil now
      exact ⟨s', (Leads.refl b i now s').head hstep, hat'⟩
  | cons batch more ih =>
      obtain ⟨s₁, hstep, hat₁⟩ := hat.insert_cons now
      obtain ⟨s', hleads, hat'⟩ := ih hat₁
      exact ⟨s', hleads.head hstep, hat'⟩

/-- One file is written as `writeFileInTx` writes it. -/
theorem file {db : Db} (hat : At b i repo s db.tables ((h, terms) :: rest) .upsert) (now : Int) :
    ∃ s', Leads b i now s s' ∧
      At b i repo s' (db.writeFileInTx h repo terms now).tables rest .upsert := by
  obtain ⟨s₁, hstep₁, hat₁⟩ := hat.upsert now
  have hprobe : ∃ s₂, Leads b i now s₁ s₂ ∧ At b i repo s₂
      ⟨Table.upsert FileRow.key db.files (fileRow h repo terms now), db.fileTerms⟩
        ((h, terms) :: rest) .probe := by
    cases b with
    | sqlite => exact ⟨s₁, Leads.refl .sqlite i now s₁, hat₁⟩
    | postgres =>
        obtain ⟨s₂, hstep₂, hat₂⟩ := hat₁.lock now
        exact ⟨s₂, (Leads.refl .postgres i now s₂).head hstep₂, hat₂⟩
  obtain ⟨s₂, hleads₂, hat₂⟩ := hprobe
  by_cases hfound : termsOf h db.fileTerms = []
  · obtain ⟨s₃, hstep₃, hat₃⟩ := hat₂.probe_none now hfound
    obtain ⟨s', hleads, hat'⟩ := hat₃.inserts now
    refine ⟨s', (hleads₂.trans (hleads.head hstep₃)).head hstep₁, ?_⟩
    unfold Db.writeFileInTx
    rw [if_neg (not_not.2 hfound)]
    exact hat'
  · obtain ⟨s', hstep, hat'⟩ := hat₂.probe_some now hfound
    refine ⟨s', (hleads₂.trans ((Leads.refl b i now s').head hstep)).head hstep₁, ?_⟩
    unfold Db.writeFileInTx
    rw [if_pos hfound]
    exact hat'

/-- All files are written as `registerFiles` writes them. -/
theorem files {db : Db} {fs : List (FileHash × List FileTerm)}
    (hat : At b i repo s db.tables fs .upsert) (now : Int) :
    ∃ s', Leads b i now s s' ∧
      At b i repo s' (db.registerFiles repo fs now).tables [] .upsert := by
  induction fs generalizing s db with
  | nil => exact ⟨s, Leads.refl b i now s, hat⟩
  | cons f fs ih =>
      obtain ⟨h, terms⟩ := f
      obtain ⟨s₁, hleads₁, hat₁⟩ := hat.file now
      obtain ⟨s', hleads, hat'⟩ := ih hat₁
      exact ⟨s', hleads₁.trans hleads, hat'⟩

end At

/-- **A registration that nothing interrupts is `registerFiles`**, on either backend. -/
theorem run_registerFiles (b : Backend) (i : Nat) (repo : RepoRef) (now : Int) {s : TxState}
    {db : Db} {files : List (FileHash × List FileTerm)} (hfiles : files ≠ [])
    (hactive : s.active = []) (hwriter : s.writer = none) (hadvisory : ∀ key, s.advisory key = none)
    (hdb : s.committed = db.tables) :
    ∃ n, (Machine.run (txStep b) s ((.begin i repo files :: List.replicate n (.exec i now)) ++
        [.commit i])).map (fun s' => s'.committed) =
      some (db.registerFiles repo files now).tables := by
  have hbegin : txStep b s (.begin i repo files) = some ({ s with active := [i] }.set i
      ⟨repo, [], files, .upsert, none, [], []⟩) := by
    simp only [txStep, hactive, List.not_mem_nil, hfiles, or_self, if_false]
  have hat : At b i repo ({ s with active := [i] }.set i ⟨repo, [], files, .upsert, none, [], []⟩)
      db.tables files .upsert := by
    refine ⟨rfl, Or.inl hwriter, fun key => Or.inl (hadvisory key), Or.inl ?_, ?_, ?_, ?_, ?_⟩ <;>
      simp only [TxState.set, Function.update_self]
    rw [← hdb]
    unfold Tx.view
    rw [Tx.base_of_latest (Or.inl rfl)]
    simp
  obtain ⟨s', ⟨n, hn⟩, hat'⟩ := hat.files now
  have hrun : Machine.run (txStep b) s (.begin i repo files :: List.replicate n (.exec i now)) =
      some s' := by
    rw [Machine.run, hbegin, Option.bind_some]
    exact hn
  refine ⟨n, ?_⟩
  rw [Machine.run_append, hrun]
  simp [Machine.run, txStep, hat'.active, hat'.todo_eq, hat'.view]

end BaleForGit.Server
