import BaleForGit.Library.Locks
import BaleForGit.Server.Registration
import BaleForGit.Server.TermTx

set_option autoImplicit false

/-! # Registrations that wait for each other (`bale-server-meta-postgres`)

In Postgres a registration takes, for each file in the order its shard lists them, the row lock of
the file in its repository and then the advisory lock of the hash, and keeps all of them to its end.
Registrations that list their files in orders that cross can end up waiting for each other, and so
can registrations of different hashes whose advisory keys are equal. -/

namespace BaleForGit.Server

/-! ## Locks -/

inductive RegLock where
  | row (key : FileHash × String)
  | advisory (key : Int)
deriving DecidableEq

/-- The locks that `write_file_in_tx` takes, in order. -/
def fileLocks (repo : RepoRef) (h : FileHash) : List RegLock :=
  [.row (h, repo.repoId), .advisory (lockKey h)]

def filesLocks (repo : RepoRef) (files : List (FileHash × List FileTerm)) : List RegLock :=
  files.flatMap (fun f => fileLocks repo f.1)

/-- The registrations that may run: the repository and the files of each. -/
abbrev Registrations := Nat → Option (RepoRef × List (FileHash × List FileTerm))

def lockScript (regs : Registrations) (i : Nat) : List RegLock :=
  match regs i with
  | none => []
  | some (repo, files) => filesLocks repo files

/-- The locks that a running registration has. -/
def Tx.held (tx : Tx) : List RegLock :=
  filesLocks tx.repo tx.done ++
    match tx.todo, tx.pc with
    | (h, _) :: _, .lock => [.row (h, tx.repo.repoId)]
    | (h, _) :: _, .probe => fileLocks tx.repo h
    | (h, _) :: _, .insert _ => fileLocks tx.repo h
    | _, _ => []

def TxState.locks (s : TxState) : Locks.State Nat :=
  fun i => if i ∈ s.active then some (s.txs i).held.length else none

/-- What registration `i` would write or lock next, `k` has. -/
def WaitsAt (s : TxState) (i k : Nat) : List (FileHash × List FileTerm) → TxPc → Prop
  | (h, _) :: _, .upsert => (h, (s.txs i).repo.repoId) ∈ (s.txs k).files.map FileRow.key
  | (h, _) :: _, .lock => s.advisory (lockKey h) = some k
  | _ :: _, .insert (batch :: _) =>
    ∃ key ∈ batch.map TermRow.key, key ∈ (s.txs k).fileTerms.map TermRow.key
  | _, _ => False

instance (s : TxState) (i k : Nat) :
    (todo : List (FileHash × List FileTerm)) → (pc : TxPc) → Decidable (WaitsAt s i k todo pc)
  | (_, _) :: _, .upsert => inferInstanceAs (Decidable (_ ∈ _))
  | (_, _) :: _, .lock => inferInstanceAs (Decidable (_ = _))
  | _ :: _, .insert (_ :: _) => inferInstanceAs (Decidable (∃ key ∈ _, key ∈ _))
  | [], _ => .isFalse id
  | _ :: _, .probe => .isFalse id
  | _ :: _, .insert [] => .isFalse id

/-- The next statement of registration `i` waits for `k`. -/
def TxWaitsFor (s : TxState) (i k : Nat) : Prop :=
  i ∈ s.active ∧ k ∈ s.active ∧ i ≠ k ∧ WaitsAt s i k (s.txs i).todo (s.txs i).pc

instance (s : TxState) (i k : Nat) : Decidable (TxWaitsFor s i k) :=
  inferInstanceAs (Decidable (_ ∧ _))

/-- Registrations that wait for each other in a circle. -/
def TxDeadlocked (s : TxState) : Prop := ∃ i, Relation.TransGen (TxWaitsFor s) i i

/-- The store before any of the registrations, with the tables that others have left. -/
def TxState.start (t : Tables) : TxState := { TxState.fresh with committed := t }

/-- Only these registrations begin. -/
def OnlyBegins (regs : Registrations) (acts : List TxAct) : Prop :=
  ∀ i repo files, .begin i repo files ∈ acts → regs i = some (repo, files)

/-! ## What a registration has -/

section Held

variable {tx : Tx} {h : FileHash} {terms : List FileTerm} {rest : List (FileHash × List FileTerm)}

theorem held_upsert (hpc : tx.pc = .upsert) : tx.held = filesLocks tx.repo tx.done := by
  unfold Tx.held
  rw [hpc]
  cases tx.todo <;> simp

theorem held_lock (htodo : tx.todo = (h, terms) :: rest) (hpc : tx.pc = .lock) :
    tx.held = filesLocks tx.repo tx.done ++ [.row (h, tx.repo.repoId)] := by
  unfold Tx.held
  rw [htodo, hpc]

theorem held_probe (htodo : tx.todo = (h, terms) :: rest) (hpc : tx.pc = .probe) :
    tx.held = filesLocks tx.repo tx.done ++ fileLocks tx.repo h := by
  unfold Tx.held
  rw [htodo, hpc]

theorem held_insert {rows : List (List TermRow)} (htodo : tx.todo = (h, terms) :: rest)
    (hpc : tx.pc = .insert rows) : tx.held = filesLocks tx.repo tx.done ++ fileLocks tx.repo h := by
  unfold Tx.held
  rw [htodo, hpc]

/-- The locks do not depend on what is inserted. -/
theorem held_inserting (htodo : tx.todo = (h, terms) :: rest) (own : List TermRow)
    (rows : List (List TermRow)) : Tx.held { tx with fileTerms := own, pc := .insert rows } =
      filesLocks tx.repo tx.done ++ fileLocks tx.repo h := by
  unfold Tx.held
  simp only [htodo]

/-- The file at hand is written: its locks stay. -/
theorem held_next (htodo : tx.todo = (h, terms) :: rest) :
    tx.next.held = filesLocks tx.repo tx.done ++ fileLocks tx.repo h := by
  rw [held_upsert rfl]
  simp [Tx.next, htodo, filesLocks]

end Held

/-- Where a registration is, and what its writes tell about its locks. -/
structure TxLocks (reg : Option (RepoRef × List (FileHash × List FileTerm))) (tx : Tx) :
    Prop where
  reg : reg = some (tx.repo, tx.done ++ tx.todo)
  ended : tx.todo = [] → tx.pc = .upsert
  batches : ∀ h terms rest rows, tx.todo = (h, terms) :: rest → tx.pc = .insert rows →
    ∀ batch ∈ rows, ∀ r ∈ batch, r.fileHash = h
  rows : ∀ key, key ∈ tx.files.map FileRow.key ↔ .row key ∈ tx.held
  terms : ∀ r ∈ tx.fileTerms, .advisory (lockKey r.fileHash) ∈ tx.held

structure LockInv (regs : Registrations) (s : TxState) : Prop where
  txs : ∀ i ∈ s.active, TxLocks (regs i) (s.txs i)
  advisory : ∀ key k, s.advisory key = some k ↔ k ∈ s.active ∧ .advisory key ∈ (s.txs k).held

section Script

variable {regs : Registrations} {s : TxState} {i : Nat}

/-- What a registration has is the beginning of its script. -/
theorem TxLocks.script {tx : Tx} (hok : TxLocks (regs i) tx) :
    ∃ more, lockScript regs i = tx.held ++ more ∧
      ∀ h terms rest, tx.todo = (h, terms) :: rest →
        (tx.pc = .upsert → more.head? = some (.row (h, tx.repo.repoId))) ∧
        (tx.pc = .lock → more.head? = some (.advisory (lockKey h))) := by
  have hscript : lockScript regs i = filesLocks tx.repo tx.done ++ filesLocks tx.repo tx.todo := by
    unfold lockScript filesLocks
    rw [hok.reg]
    simp
  rw [hscript]
  cases htodo : tx.todo with
  | nil =>
      refine ⟨[], ?_, fun _ _ _ hcons => by simp at hcons⟩
      rw [held_upsert (hok.ended htodo)]
      rfl
  | cons f rest =>
      obtain ⟨h, terms⟩ := f
      have hfile : filesLocks tx.repo ((h, terms) :: rest) =
        fileLocks tx.repo h ++ filesLocks tx.repo rest := by simp [filesLocks]
      rw [hfile]
      cases hpc : tx.pc with
      | upsert =>
          refine ⟨fileLocks tx.repo h ++ filesLocks tx.repo rest, ?_, fun h' _ _ hcons => ?_⟩
          · rw [held_upsert hpc]
          · simp only [List.cons.injEq, Prod.mk.injEq] at hcons
            obtain ⟨⟨rfl, -⟩, -⟩ := hcons
            exact ⟨fun _ => rfl, fun hlock => by simp at hlock⟩
      | lock =>
          refine ⟨.advisory (lockKey h) :: filesLocks tx.repo rest, ?_, fun h' _ _ hcons => ?_⟩
          · rw [held_lock htodo hpc]
            simp [fileLocks]
          · simp only [List.cons.injEq, Prod.mk.injEq] at hcons
            obtain ⟨⟨rfl, -⟩, -⟩ := hcons
            exact ⟨fun hupsert => by simp at hupsert, fun _ => rfl⟩
      | probe =>
          refine ⟨filesLocks tx.repo rest, ?_, fun _ _ _ _ => ⟨by simp, by simp⟩⟩
          rw [held_probe htodo hpc, List.append_assoc]
      | insert rows =>
          refine ⟨filesLocks tx.repo rest, ?_, fun _ _ _ _ => ⟨by simp, by simp⟩⟩
          rw [held_insert htodo hpc, List.append_assoc]

theorem LockInv.holds (hinv : LockInv regs s) (hi : i ∈ s.active) :
    Locks.holds (lockScript regs) s.locks i = (s.txs i).held := by
  obtain ⟨more, hscript, -⟩ := (hinv.txs i hi).script
  unfold Locks.holds TxState.locks
  rw [if_pos hi, Option.getD_some, hscript, List.take_left]

/-- Only running registrations have locks. -/
theorem LockInv.mem_holds (hinv : LockInv regs s) {l : RegLock} :
    l ∈ Locks.holds (lockScript regs) s.locks i ↔ i ∈ s.active ∧ l ∈ (s.txs i).held := by
  by_cases hi : i ∈ s.active
  · rw [hinv.holds hi]
    exact (and_iff_right hi).symm
  · simp [Locks.holds, TxState.locks, hi]

/-- The next lock of a registration comes after those that it holds. -/
theorem next_of_active (hi : i ∈ s.active) : Locks.next (lockScript regs) s.locks i =
    (lockScript regs i)[(s.txs i).held.length]? := by
  unfold Locks.next TxState.locks
  rw [if_pos hi, Option.bind_some]

/-- The lock that a registration takes next, at the statement that takes it. -/
theorem LockInv.next (hinv : LockInv regs s) (hi : i ∈ s.active) {h : FileHash}
    {terms : List FileTerm} {rest : List (FileHash × List FileTerm)}
    (htodo : (s.txs i).todo = (h, terms) :: rest) :
    ((s.txs i).pc = .upsert →
      Locks.next (lockScript regs) s.locks i = some (.row (h, (s.txs i).repo.repoId))) ∧
    ((s.txs i).pc = .lock →
      Locks.next (lockScript regs) s.locks i = some (.advisory (lockKey h))) := by
  obtain ⟨more, hscript, hmore⟩ := (hinv.txs i hi).script
  have hnext : Locks.next (lockScript regs) s.locks i = more.head? := by
    rw [next_of_active hi, hscript, List.getElem?_append_right (Nat.le_refl _), Nat.sub_self,
      ← List.head?_eq_getElem?]
  rw [hnext]
  exact hmore h terms rest htodo

/-- A registration that has taken all its locks takes none. -/
theorem LockInv.next_nil (hinv : LockInv regs s) (hi : i ∈ s.active)
    (htodo : (s.txs i).todo = []) : Locks.next (lockScript regs) s.locks i = none := by
  have hok := hinv.txs i hi
  have hheld := held_upsert (hok.ended htodo)
  rw [next_of_active hi]
  unfold lockScript
  rw [hok.reg, htodo, List.append_nil, hheld]
  exact List.getElem?_eq_none (Nat.le_refl _)

end Script

/-! ## Statements -/

section Statements

variable {reg : Option (RepoRef × List (FileHash × List FileTerm))} {tx : Tx} {h : FileHash}
  {terms : List FileTerm} {rest : List (FileHash × List FileTerm)}

/-- The row lock comes with the row. -/
theorem TxLocks.upsert (hok : TxLocks reg tx) (htodo : tx.todo = (h, terms) :: rest)
    (hpc : tx.pc = .upsert) (now : Int) {tx' : Tx}
    (htx' : tx' = { tx with files := tx.files ++ [fileRow h tx.repo terms now], pc := .lock }) :
    tx'.held = tx.held ++ [.row (h, tx.repo.repoId)] ∧ TxLocks reg tx' := by
  have hheld : tx'.held = tx.held ++ [.row (h, tx.repo.repoId)] := by
    have htodo' : tx'.todo = (h, terms) :: rest := by rw [htx', htodo]
    rw [held_lock htodo' (by rw [htx']), held_upsert hpc, htx']
  refine ⟨hheld, ?_⟩
  refine ⟨by rw [htx']; exact hok.reg, fun hnil => ?_, fun _ _ _ rows _ hpc' => ?_, fun key => ?_,
    fun r hr => ?_⟩
  · rw [htx', htodo] at hnil
    simp at hnil
  · rw [htx'] at hpc'
    simp at hpc'
  · have hkey : (fileRow h tx.repo terms now).key = (h, tx.repo.repoId) := rfl
    rw [hheld, htx']
    simp only [List.map_append, List.mem_append, hok.rows, List.map_cons, List.map_nil,
      List.mem_singleton, hkey, RegLock.row.injEq]
  · rw [hheld]
    refine List.mem_append_left _ (hok.terms r ?_)
    rw [htx'] at hr
    exact hr

/-- A statement after which the registration has at least the locks it had, and the same writes but
    for term rows of hashes it has the lock of. -/
theorem TxLocks.keeps (hok : TxLocks reg tx) {tx' : Tx} (hrepo : tx'.repo = tx.repo)
    (hlists : tx'.done ++ tx'.todo = tx.done ++ tx.todo) (hover : tx'.todo = [] → tx'.pc = .upsert)
    (hbatches : ∀ h terms rest rows, tx'.todo = (h, terms) :: rest → tx'.pc = .insert rows →
      ∀ batch ∈ rows, ∀ r ∈ batch, r.fileHash = h)
    (hfiles : tx'.files = tx.files) {own : List RegLock} (hown : ∀ key, .row key ∉ own)
    (hheld : tx'.held = tx.held ++ own)
    (hterms : ∀ r ∈ tx'.fileTerms, r ∈ tx.fileTerms ∨ .advisory (lockKey r.fileHash) ∈ tx.held) :
    TxLocks reg tx' := by
  refine ⟨by rw [hrepo, hlists]; exact hok.reg, hover, hbatches, fun k => ?_, fun r hr => ?_⟩
  · rw [hfiles, hheld, List.mem_append, hok.rows]
    exact (or_iff_left (hown k)).symm
  · rw [hheld]
    rcases hterms r hr with hin | hin
    · exact List.mem_append_left _ (hok.terms r hin)
    · exact List.mem_append_left _ hin

theorem TxLocks.lock (hok : TxLocks reg tx) (htodo : tx.todo = (h, terms) :: rest)
    (hpc : tx.pc = .lock) {tx' : Tx} (htx' : tx' = { tx with pc := .probe }) :
    tx'.held = tx.held ++ [.advisory (lockKey h)] ∧ TxLocks reg tx' := by
  have hheld : tx'.held = tx.held ++ [.advisory (lockKey h)] := by
    have htodo' : tx'.todo = (h, terms) :: rest := by rw [htx', htodo]
    rw [held_probe htodo' (by rw [htx']), held_lock htodo hpc, htx']
    simp [fileLocks]
  refine ⟨hheld, hok.keeps (by rw [htx']) (by rw [htx']) (fun hnil => ?_) (fun _ _ _ rows _ hrows => ?_)
    (by rw [htx']) (fun key => by simp) hheld (fun r hr => Or.inl (by rw [htx'] at hr; exact hr))⟩
  · rw [htx', htodo] at hnil
    simp at hnil
  · rw [htx'] at hrows
    simp at hrows

/-- On to the next file, after a probe that found rows or the last batch. -/
theorem TxLocks.next (hok : TxLocks reg tx) (htodo : tx.todo = (h, terms) :: rest)
    (hheld : tx.held = filesLocks tx.repo tx.done ++ fileLocks tx.repo h) :
    tx.next.held = tx.held ∧ TxLocks reg tx.next := by
  have hsame : tx.next.held = tx.held := by rw [held_next htodo, hheld]
  refine ⟨hsame, hok.keeps rfl ?_ (fun _ => rfl) (fun _ _ _ _ _ hpc => by simp [Tx.next] at hpc) rfl
    (fun key => List.not_mem_nil) ?_ (fun r hr => Or.inl hr)⟩
  · simp [Tx.next, htodo]
  · rw [hsame, List.append_nil]

/-- The next statement for the same file is to insert rows of its hash. -/
theorem TxLocks.insert (hok : TxLocks reg tx) (htodo : tx.todo = (h, terms) :: rest)
    (hheld : tx.held = filesLocks tx.repo tx.done ++ fileLocks tx.repo h) {tx' : Tx}
    (own : List TermRow) (rows : List (List TermRow))
    (htx' : tx' = { tx with fileTerms := own, pc := .insert rows })
    (hrows : ∀ batch ∈ rows, ∀ r ∈ batch, r.fileHash = h)
    (hown : ∀ r ∈ own, r ∈ tx.fileTerms ∨ r.fileHash = h) :
    tx'.held = tx.held ∧ TxLocks reg tx' := by
  have hsame : tx'.held = tx.held := by rw [htx', held_inserting htodo, hheld]
  refine ⟨hsame, hok.keeps (by rw [htx']) (by rw [htx']) (fun hnil => ?_) (fun h' _ _ rows' hcons hpc => ?_)
    (by rw [htx']) (fun key => List.not_mem_nil) (by rw [hsame, List.append_nil]) (fun r hr => ?_)⟩
  · rw [htx', htodo] at hnil
    simp at hnil
  · rw [htx'] at hcons hpc
    simp only [htodo, List.cons.injEq, Prod.mk.injEq, TxPc.insert.injEq] at hcons hpc
    obtain ⟨⟨rfl, -⟩, -⟩ := hcons
    rw [← hpc]
    exact hrows
  · rw [htx'] at hr
    refine (hown r hr).imp_right (fun heq => ?_)
    rw [hheld, heq]
    simp [fileLocks]

/-- **What a statement does to the locks**: it takes the row lock, the advisory lock, or none. -/
theorem txExec_locks {s s' : TxState} {i : Nat} {now : Int} (hok : TxLocks reg (s.txs i))
    (hstep : txExec .postgres s i now = some s') :
    ∃ h terms rest tx', (s.txs i).todo = (h, terms) :: rest ∧ TxLocks reg tx' ∧
      (((s.txs i).pc = .upsert ∧ s' = s.set i tx' ∧
          tx'.held = (s.txs i).held ++ [.row (h, (s.txs i).repo.repoId)] ∧
          ∀ k ∈ s.active, k ≠ i →
            (h, (s.txs i).repo.repoId) ∉ (s.txs k).files.map FileRow.key) ∨
        ((s.txs i).pc = .lock ∧
          s' = { s with advisory := Function.update s.advisory (lockKey h) (some i) }.set i tx' ∧
          tx'.held = (s.txs i).held ++ [.advisory (lockKey h)] ∧
          ∀ k, s.advisory (lockKey h) = some k → k = i) ∨
        (s' = s.set i tx' ∧ tx'.held = (s.txs i).held)) := by
  unfold txExec at hstep
  cases htodo : (s.txs i).todo with
  | nil => simp [htodo] at hstep
  | cons f rest =>
      obtain ⟨h, terms⟩ := f
      cases hpc : (s.txs i).pc with
      | upsert =>
          simp only [htodo, hpc] at hstep
          split_ifs at hstep with hmay
          obtain ⟨hheld, hok'⟩ := hok.upsert htodo hpc now rfl
          refine ⟨h, terms, rest, _, rfl, hok', Or.inl ⟨rfl, ?_, hheld, fun k hk hne => ?_⟩⟩
          · rw [← Option.some.inj hstep]
            rfl
          · exact (hmay k hk hne).1 _ (List.mem_singleton_self _)
      | lock =>
          simp only [htodo, hpc] at hstep
          split_ifs at hstep with hfree
          obtain ⟨hheld, hok'⟩ := hok.lock htodo hpc rfl
          refine ⟨h, terms, rest, _, rfl, hok', Or.inr (Or.inl ⟨rfl, ?_, hheld, fun k hk => ?_⟩)⟩
          · rw [← Option.some.inj hstep, ← htodo]
          · rcases hfree with hnone | hself
            · rw [hnone] at hk
              simp at hk
            · exact (Option.some.inj (hself.symm.trans hk)).symm
      | probe =>
          have hheld := held_probe htodo hpc
          simp only [htodo, hpc] at hstep
          split_ifs at hstep with hfound
          · obtain ⟨hsame, hok'⟩ := hok.next htodo hheld
            exact ⟨h, terms, rest, _, rfl, hok', Or.inr (Or.inr ⟨(Option.some.inj hstep).symm, hsame⟩)⟩
          · have hrows : ∀ batch ∈ batches (termRows h terms), ∀ r ∈ batch, r.fileHash = h := by
              intro batch hb r hr
              have hmem : r ∈ termRows h terms := by
                rw [← flatten_batches (termRows h terms)]
                exact List.mem_flatten.2 ⟨batch, hb, hr⟩
              exact termRows_fileHash hmem
            obtain ⟨hsame, hok'⟩ := hok.insert htodo hheld (s.txs i).fileTerms
              (batches (termRows h terms)) rfl hrows (fun r hr => Or.inl hr)
            refine ⟨h, terms, rest, _, rfl, hok', Or.inr (Or.inr ⟨?_, hsame⟩)⟩
            rw [← Option.some.inj hstep]
            rfl
      | insert rows =>
          have hheld := held_insert htodo hpc
          have hrows := hok.batches h terms rest rows htodo hpc
          cases rows with
          | nil =>
              simp only [htodo, hpc] at hstep
              obtain ⟨hsame, hok'⟩ := hok.next htodo hheld
              exact ⟨h, terms, rest, _, rfl, hok',
                Or.inr (Or.inr ⟨(Option.some.inj hstep).symm, hsame⟩)⟩
          | cons batch more =>
              simp only [htodo, hpc] at hstep
              split_ifs at hstep with hmay
              have hown : ∀ r ∈ (Table.insertAll TermRow.key
                  ((s.txs i).view .postgres s).fileTerms batch).drop
                    ((s.txs i).base .postgres s).fileTerms.length,
                  r ∈ (s.txs i).fileTerms ∨ r.fileHash = h := by
                -- the rows of the view stay in front
                intro r hr
                unfold Tx.view at hr
                rw [Table.insertAll_eq_append_fresh, List.append_assoc, List.drop_left,
                  List.mem_append] at hr
                exact hr.imp_right (fun hin =>
                  hrows batch List.mem_cons_self r (Table.mem_fresh hin).1)
              obtain ⟨hsame, hok'⟩ := hok.insert htodo hheld _ more rfl
                (fun b hb => hrows b (List.mem_cons_of_mem batch hb)) hown
              refine ⟨h, terms, rest, _, rfl, hok', Or.inr (Or.inr ⟨?_, hsame⟩)⟩
              rw [← Option.some.inj hstep]
              rfl

end Statements

/-! ## Registrations are a lock machine -/

section Simulation

variable {regs : Registrations} {s s' : TxState} {i : Nat}

theorem locks_update (hi : i ∈ s.active) {tx' : Tx} (hactive : s'.active = s.active)
    (htxs : s'.txs = Function.update s.txs i tx') :
    s'.locks = Function.update s.locks i (some tx'.held.length) := by
  funext k
  unfold TxState.locks
  rw [hactive, htxs]
  by_cases hk : k = i
  · subst hk
    rw [Function.update_self, Function.update_self, if_pos hi]
  · rw [Function.update_of_ne hk, Function.update_of_ne hk]

/-- A statement of registration `i` that leaves the advisory locks as the registrations have them. -/
theorem LockInv.exec (hinv : LockInv regs s) {tx' : Tx} (hok : TxLocks (regs i) tx')
    (hactive : s'.active = s.active) (htxs : s'.txs = Function.update s.txs i tx')
    (hadvisory : ∀ key k, s'.advisory key = some k ↔
      k ∈ s.active ∧ .advisory key ∈ (s'.txs k).held) : LockInv regs s' := by
  refine ⟨fun k hk => ?_, fun key k => by rw [hadvisory, hactive]⟩
  rw [hactive] at hk
  rw [htxs]
  by_cases hki : k = i
  · subst hki
    rw [Function.update_self]
    exact hok
  · rw [Function.update_of_ne hki]
    exact hinv.txs k hk

/-- A lock that another registration has, as the engine sees it. -/
theorem LockInv.row_holds (hinv : LockInv regs s) {k : Nat} {key : FileHash × String} :
    .row key ∈ Locks.holds (lockScript regs) s.locks k ↔
      k ∈ s.active ∧ key ∈ (s.txs k).files.map FileRow.key := by
  rw [hinv.mem_holds]
  exact and_congr_right (fun hk => ((hinv.txs k hk).rows key).symm)

theorem LockInv.advisory_holds (hinv : LockInv regs s) {k : Nat} {key : Int} :
    .advisory key ∈ Locks.holds (lockScript regs) s.locks k ↔ s.advisory key = some k := by
  rw [hinv.mem_holds, hinv.advisory]

/-- **A statement takes one lock or none.** -/
theorem LockInv.exec_step (hinv : LockInv regs s) (hi : i ∈ s.active) {now : Int}
    (hstep : txExec .postgres s i now = some s') :
    LockInv regs s' ∧ (s'.locks = s.locks ∨ Locks.Step (lockScript regs) s.locks s'.locks) := by
  obtain ⟨h, terms, rest, tx', htodo, hok, hcase⟩ := txExec_locks (hinv.txs i hi) hstep
  have hself : s.locks i = some (s.txs i).held.length := if_pos hi
  obtain ⟨hnextRow, hnextLock⟩ := hinv.next hi htodo
  rcases hcase with ⟨hpc, rfl, hheld, hfree⟩ | ⟨hpc, rfl, hheld, hfree⟩ | ⟨rfl, hheld⟩
  · refine ⟨hinv.exec hok rfl rfl (fun key k => ?_), Or.inr ?_⟩
    · have hadv : ∀ k, .advisory key ∈ ((s.set i tx').txs k).held ↔
          .advisory key ∈ (s.txs k).held := by
        intro k
        by_cases hk : k = i
        · subst hk
          simp [TxState.set, hheld]
        · simp [TxState.set, Function.update_of_ne hk]
      rw [hadv]
      exact hinv.advisory key k
    · have hlocks : (s.set i tx').locks = Function.update s.locks i (some tx'.held.length) :=
        locks_update hi rfl rfl
      rw [hlocks, hheld, List.length_append, List.length_singleton]
      refine .acquire hself ?_ (fun k hk hin => ?_) (l := .row (h, (s.txs i).repo.repoId))
      · exact (next_of_active hi).symm.trans (hnextRow hpc)
      · obtain ⟨hactive, hrow⟩ := hinv.row_holds.1 hin
        exact hfree k hactive hk hrow
  · refine ⟨hinv.exec hok rfl rfl (fun key k => ?_), Or.inr ?_⟩
    · by_cases hkey : key = lockKey h
      · rw [hkey]
        simp only [TxState.set, Function.update_self, Option.some.injEq]
        constructor
        · rintro rfl
          refine ⟨hi, ?_⟩
          rw [Function.update_self, hheld]
          exact List.mem_append_right _ (List.mem_singleton_self _)
        · rintro ⟨hk, hin⟩
          by_contra hne
          rw [Function.update_of_ne (Ne.symm hne)] at hin
          exact hne (hfree k ((hinv.advisory _ k).2 ⟨hk, hin⟩)).symm
      · have hadv : ∀ k, .advisory key ∈ (Function.update s.txs i tx' k).held ↔
            .advisory key ∈ (s.txs k).held := by
          intro k
          by_cases hk : k = i
          · subst hk
            simp [hheld, hkey]
          · rw [Function.update_of_ne hk]
        simp only [TxState.set, Function.update_of_ne hkey, hadv]
        exact hinv.advisory key k
    · have hlocks : TxState.locks ({ s with
          advisory := Function.update s.advisory (lockKey h) (some i) }.set i tx') =
            Function.update s.locks i (some tx'.held.length) := locks_update hi rfl rfl
      rw [hlocks, hheld, List.length_append, List.length_singleton]
      refine .acquire hself ?_ (fun k hk hin => ?_) (l := .advisory (lockKey h))
      · exact (next_of_active hi).symm.trans (hnextLock hpc)
      · exact hk (hfree k (hinv.advisory_holds.1 hin))
  · refine ⟨hinv.exec hok rfl rfl (fun key k => ?_), Or.inl ?_⟩
    · have hadv : ∀ k, ((s.set i tx').txs k).held = (s.txs k).held := by
        intro k
        by_cases hk : k = i
        · subst hk
          simp only [TxState.set, Function.update_self, hheld]
        · simp only [TxState.set, Function.update_of_ne hk]
      rw [hadv]
      exact hinv.advisory key k
    · have hlocks : (s.set i tx').locks = Function.update s.locks i (some tx'.held.length) :=
        locks_update hi rfl rfl
      rw [hlocks, hheld, ← hself, Function.update_eq_self]

/-- At its end a registration gives all its locks back. -/
theorem LockInv.finish (hinv : LockInv regs s) {t : Tables}
    {log : List (FileHash × List FileTerm)} :
    LockInv regs { (s.finish i) with committed := t, log := log } ∧
      Locks.Step (lockScript regs) s.locks
        (TxState.locks { (s.finish i) with committed := t, log := log }) := by
  have hactive : ∀ k, k ∈ (s.finish i).active ↔ k ∈ s.active ∧ k ≠ i := by
    intro k
    simp [TxState.finish]
  refine ⟨⟨fun k hk => hinv.txs k ((hactive k).1 hk).1, fun key k => ?_⟩, ?_⟩
  · have hadv : (s.finish i).advisory key = some k ↔ s.advisory key = some k ∧ k ≠ i := by
      simp only [TxState.finish]
      split_ifs with hself
      · simp only [hself, Option.some.injEq, false_iff, not_and, not_not]
        exact fun heq => heq.symm
      · constructor
        · rintro hk
          exact ⟨hk, fun heq => hself (heq ▸ hk)⟩
        · exact fun hk => hk.1
    simp only [hadv, hactive, hinv.advisory]
    exact ⟨fun ⟨⟨hk, hin⟩, hne⟩ => ⟨⟨hk, hne⟩, hin⟩, fun ⟨⟨hk, hne⟩, hin⟩ => ⟨⟨hk, hin⟩, hne⟩⟩
  · have hlocks : TxState.locks { (s.finish i) with committed := t, log := log } =
        Function.update s.locks i none := by
      funext k
      unfold TxState.locks
      simp only [hactive]
      by_cases hk : k = i
      · subst hk
        simp
      · simp [hk, TxState.finish]
    rw [hlocks]
    exact .finish

/-- **The registrations simulate the lock machine**: a step is one of its steps, or none. -/
theorem LockInv.step (hinv : LockInv regs s) {a : TxAct}
    (hbegin : ∀ i repo files, a = .begin i repo files → regs i = some (repo, files))
    (hstep : txStep .postgres s a = some s') :
    LockInv regs s' ∧ (s'.locks = s.locks ∨ Locks.Step (lockScript regs) s.locks s'.locks) := by
  cases a with
  | begin i repo files =>
      simp only [txStep] at hstep
      split_ifs at hstep with hno
      rw [not_or] at hno
      rw [← Option.some.inj hstep]
      have hreg := hbegin i repo files rfl
      have hheld : (Tx.held ⟨repo, [], files, .upsert, none, [], []⟩) = [] := held_upsert rfl
      have hok : TxLocks (regs i) ⟨repo, [], files, .upsert, none, [], []⟩ := by
        refine ⟨hreg, fun _ => rfl, fun _ _ _ _ _ hpc => by simp at hpc, fun key => ?_,
          fun r hr => absurd hr List.not_mem_nil⟩
        rw [hheld]
        simp
      refine ⟨⟨fun k hk => ?_, fun key k => ?_⟩, Or.inr ?_⟩
      · by_cases hki : k = i
        · subst hki
          simp only [TxState.set, Function.update_self]
          exact hok
        · simp only [TxState.set, Function.update_of_ne hki]
          exact hinv.txs k ((List.mem_cons.1 hk).resolve_left hki)
      · simp only [TxState.set, hinv.advisory]
        by_cases hki : k = i
        · subst hki
          rw [Function.update_self, hheld]
          simp [hno.1]
        · rw [Function.update_of_ne hki, List.mem_cons, or_iff_right hki]
      · have hlocks : TxState.locks ({ s with active := i :: s.active }.set i
            ⟨repo, [], files, .upsert, none, [], []⟩) = Function.update s.locks i (some 0) := by
          funext k
          unfold TxState.locks
          by_cases hki : k = i
          · subst hki
            simp [TxState.set, hheld]
          · simp [TxState.set, hki]
        rw [hlocks]
        refine .begin (if_neg hno.1) ?_
        unfold lockScript
        simp only [hreg, filesLocks, fileLocks, ne_eq, List.flatMap_eq_nil_iff, reduceCtorEq,
          imp_false, not_forall, not_not]
        obtain ⟨f, hf⟩ := List.exists_mem_of_ne_nil files hno.2
        exact ⟨f, hf⟩
  | exec i now =>
      simp only [txStep] at hstep
      split_ifs at hstep with hi
      exact hinv.exec_step hi hstep
  | commit i =>
      simp only [txStep] at hstep
      split_ifs at hstep with hi
      rw [← Option.some.inj hstep]
      obtain ⟨hinv', hlocks⟩ := hinv.finish (i := i) (t := (s.txs i).view .postgres s)
      exact ⟨hinv', Or.inr hlocks⟩
  | rollback i =>
      simp only [txStep] at hstep
      split_ifs at hstep with hi
      rw [← Option.some.inj hstep]
      obtain ⟨hinv', hlocks⟩ := hinv.finish (i := i) (t := s.committed)
      exact ⟨hinv', Or.inr hlocks⟩

theorem lockInv_start (t : Tables) : LockInv regs (TxState.start t) := by
  refine ⟨fun i hi => by simp [TxState.start, TxState.fresh] at hi, fun key k => ?_⟩
  simp [TxState.start, TxState.fresh]

theorem locks_start (t : Tables) : (TxState.start t).locks = fun _ => none := by
  funext i
  simp [TxState.locks, TxState.start, TxState.fresh]

/-- **Every run of registrations is one of the lock machine.** -/
theorem lockInv_run {t : Tables} {acts : List TxAct} (hbegins : OnlyBegins regs acts)
    (hrun : Machine.run (txStep .postgres) (TxState.start t) acts = some s) :
    LockInv regs s ∧ Locks.Reachable (lockScript regs) s.locks := by
  have hall : ∀ (acts : List TxAct) (s₀ : TxState), OnlyBegins regs acts → LockInv regs s₀ →
      Locks.Reachable (lockScript regs) s₀.locks →
        Machine.run (txStep .postgres) s₀ acts = some s →
          LockInv regs s ∧ Locks.Reachable (lockScript regs) s.locks := by
    intro acts
    induction acts with
    | nil =>
        intro s₀ _ hinv hreach hrun
        rw [← Option.some.inj hrun]
        exact ⟨hinv, hreach⟩
    | cons a acts ih =>
        intro s₀ hbegins hinv hreach hrun
        obtain ⟨s₁, hstep, hrest⟩ := Machine.run_cons_eq_some hrun
        obtain ⟨hinv₁, hlocks⟩ := hinv.step
          (fun i repo files heq => hbegins i repo files (heq ▸ List.mem_cons_self)) hstep
        refine ih s₁ (fun i repo files hin => hbegins i repo files (List.mem_cons_of_mem a hin))
          hinv₁ ?_ hrest
        rcases hlocks with hsame | hlocks
        · rw [hsame]
          exact hreach
        · exact hreach.tail hlocks
  refine hall acts _ hbegins (lockInv_start t) ?_ hrun
  rw [locks_start]
  exact .refl

end Simulation

/-! ## Waiting -/

section Waiting

variable {regs : Registrations} {s s' : TxState} {i k : Nat}

/-- No registration waits to insert terms: it has the lock of their hash. -/
theorem LockInv.not_waits_insert (hinv : LockInv regs s)
    (hapart : Locks.Apart (lockScript regs) s.locks) {rows : List (List TermRow)}
    (hpc : (s.txs i).pc = .insert rows) : ¬ TxWaitsFor s i k := by
  rintro ⟨hi, hk, hne, hwait⟩
  cases htodo : (s.txs i).todo with
  | nil => simp [htodo, WaitsAt] at hwait
  | cons f rest =>
      obtain ⟨h, terms⟩ := f
      cases rows with
      | nil => simp [htodo, hpc, WaitsAt] at hwait
      | cons batch more =>
          simp only [htodo, hpc, WaitsAt] at hwait
          obtain ⟨key, hkey, hin⟩ := hwait
          obtain ⟨r, hr, rfl⟩ := List.mem_map.1 hkey
          obtain ⟨x, hx, hxkey⟩ := List.mem_map.1 hin
          have hhash : r.fileHash = h := (hinv.txs i hi).batches h terms rest _ htodo hpc batch
            List.mem_cons_self r hr
          have hxhash : x.fileHash = h := (Prod.mk.inj hxkey).1.trans hhash
          have hother := (hinv.txs k hk).terms x hx
          rw [hxhash] at hother
          have hown : .advisory (lockKey h) ∈ (s.txs i).held := by
            rw [held_insert htodo hpc]
            simp [fileLocks]
          exact hapart i k hne _ (hinv.mem_holds.2 ⟨hi, hown⟩) (hinv.mem_holds.2 ⟨hk, hother⟩)

theorem LockInv.waitsFor (hinv : LockInv regs s)
    (hapart : Locks.Apart (lockScript regs) s.locks) (hwait : TxWaitsFor s i k) :
    Locks.WaitsFor (lockScript regs) s.locks i k := by
  have hfull := hwait
  obtain ⟨hi, hk, hne, hwait⟩ := hwait
  refine ⟨hne, ?_⟩
  cases htodo : (s.txs i).todo with
  | nil => simp [htodo, WaitsAt] at hwait
  | cons f rest =>
      obtain ⟨h, terms⟩ := f
      obtain ⟨hnextRow, hnextLock⟩ := hinv.next hi htodo
      cases hpc : (s.txs i).pc with
      | upsert =>
          simp only [htodo, hpc, WaitsAt] at hwait
          exact ⟨_, hnextRow hpc, hinv.row_holds.2 ⟨hk, hwait⟩⟩
      | lock =>
          simp only [htodo, hpc, WaitsAt] at hwait
          exact ⟨_, hnextLock hpc, hinv.advisory_holds.2 hwait⟩
      | probe => simp [htodo, hpc, WaitsAt] at hwait
      | insert rows => exact absurd hfull (hinv.not_waits_insert hapart hpc)

/-- **A statement that is not let through waits for a registration.** -/
theorem LockInv.blocked_iff (hinv : LockInv regs s) (hi : i ∈ s.active) (now : Int)
    (htodo : (s.txs i).todo ≠ []) :
    txStep .postgres s (.exec i now) = none ↔ ∃ k, TxWaitsFor s i k := by
  simp only [txStep, if_pos hi]
  unfold txExec TxWaitsFor
  cases htodo' : (s.txs i).todo with
  | nil => exact absurd htodo' htodo
  | cons f rest =>
      obtain ⟨h, terms⟩ := f
      cases hpc : (s.txs i).pc with
      | upsert =>
          have hkey : (fileRow h (s.txs i).repo terms now).key = (h, (s.txs i).repo.repoId) := rfl
          simp only [htodo', hpc, WaitsAt, ite_eq_right_iff, reduceCtorEq, imp_false, mayWrite, hkey,
            List.mem_singleton, forall_eq, List.not_mem_nil, false_implies, implies_true, and_true,
            not_forall, not_not]
          constructor
          · rintro ⟨k, hk, hne, hin⟩
            exact ⟨k, hi, hk, Ne.symm hne, hin⟩
          · rintro ⟨k, -, hk, hne, hin⟩
            exact ⟨k, hk, Ne.symm hne, hin⟩
      | lock =>
          simp only [htodo', hpc, WaitsAt, ite_eq_right_iff, reduceCtorEq, imp_false, not_or]
          constructor
          · rintro ⟨hsome, hother⟩
            obtain ⟨k, hk⟩ := Option.ne_none_iff_exists'.1 hsome
            exact ⟨k, hi, ((hinv.advisory _ k).1 hk).1, fun heq => hother (heq ▸ hk), hk⟩
          · rintro ⟨k, -, -, hne, hk⟩
            rw [hk]
            simpa using Ne.symm hne
      | probe =>
          simp only [htodo', hpc, WaitsAt, and_false, exists_false, iff_false]
          split_ifs <;> simp
      | insert rows =>
          cases rows with
          | nil => simp [htodo', hpc, WaitsAt]
          | cons batch more =>
              simp only [htodo', hpc, WaitsAt, ite_eq_right_iff, reduceCtorEq, imp_false, mayWrite,
                List.not_mem_nil, false_implies, implies_true, true_and, not_forall, not_not]
              constructor
              · rintro ⟨k, hk, hne, key, hkey, hin⟩
                exact ⟨k, hi, hk, Ne.symm hne, key, hkey, hin⟩
              · rintro ⟨k, -, hk, hne, key, hkey, hin⟩
                exact ⟨k, hk, Ne.symm hne, key, hkey, hin⟩

/-- Every registration is about to take a lock, or has taken all. -/
def AtLocks (s : TxState) : Prop := ∀ i ∈ s.active, (s.txs i).pc = .upsert ∨ (s.txs i).pc = .lock

theorem LockInv.txWaitsFor (hinv : LockInv regs s) (hat : AtLocks s)
    (hwait : Locks.WaitsFor (lockScript regs) s.locks i k) : TxWaitsFor s i k := by
  obtain ⟨hne, l, hnext, hl⟩ := hwait
  have hi : i ∈ s.active := by
    by_contra hi
    simp [Locks.next, TxState.locks, hi] at hnext
  refine ⟨hi, (hinv.mem_holds.1 hl).1, hne, ?_⟩
  cases htodo : (s.txs i).todo with
  | nil =>
      rw [hinv.next_nil hi htodo] at hnext
      simp at hnext
  | cons f rest =>
      obtain ⟨h, terms⟩ := f
      obtain ⟨hnextRow, hnextLock⟩ := hinv.next hi htodo
      rcases hat i hi with hpc | hpc
      · rw [hnextRow hpc] at hnext
        obtain rfl := Option.some.inj hnext
        simp only [hpc, WaitsAt]
        exact (hinv.row_holds.1 hl).2
      · rw [hnextLock hpc] at hnext
        obtain rfl := Option.some.inj hnext
        simp only [hpc, WaitsAt]
        exact hinv.advisory_holds.1 hl

end Waiting

/-! ## The lock machine is realised -/

section Realise

variable {regs : Registrations} {s s' : TxState} {i : Nat}

/-- Registration `i` goes on to its next lock; the locks are as before, and the other registrations
    where they were. -/
structure Onward (regs : Registrations) (i : Nat) (s s' : TxState) : Prop where
  leads : At.Leads .postgres i 0 s s'
  inv : LockInv regs s'
  locks : s'.locks = s.locks
  active : s'.active = s.active
  others : ∀ k, k ≠ i → s'.txs k = s.txs k
  pc : (s'.txs i).pc = .upsert

theorem Onward.head {s₁ : TxState} (hstep : txStep .postgres s (.exec i 0) = some s₁)
    (hlocks : s₁.locks = s.locks) (hactive : s₁.active = s.active)
    (hothers : ∀ k, k ≠ i → s₁.txs k = s.txs k) (hon : Onward regs i s₁ s') :
    Onward regs i s s' :=
  ⟨hon.leads.head hstep, hon.inv, hon.locks.trans hlocks, hon.active.trans hactive,
    fun k hk => (hon.others k hk).trans (hothers k hk), hon.pc⟩

/-- A statement that leaves the transaction's locks as they are. -/
theorem LockInv.exec_same (hinv : LockInv regs s) (hi : i ∈ s.active) {tx' : Tx}
    (hheld : tx'.held = (s.txs i).held)
    (hstep : txStep .postgres s (.exec i 0) = some (s.set i tx')) :
    LockInv regs (s.set i tx') ∧ (s.set i tx').locks = s.locks := by
  refine ⟨(hinv.step (fun _ _ _ heq => by simp at heq) hstep).1, ?_⟩
  have hlocks : (s.set i tx').locks = Function.update s.locks i (some tx'.held.length) :=
    locks_update hi rfl rfl
  have hself : s.locks i = some (s.txs i).held.length := if_pos hi
  rw [hlocks, hheld, ← hself, Function.update_eq_self]

/-- The batches go in without waiting, since the registration has the lock of the hash. -/
theorem LockInv.onward_insert (hinv : LockInv regs s)
    (hapart : Locks.Apart (lockScript regs) s.locks) (hi : i ∈ s.active) {h : FileHash}
    {terms : List FileTerm} {rest : List (FileHash × List FileTerm)} {rows : List (List TermRow)}
    (htodo : (s.txs i).todo = (h, terms) :: rest) (hpc : (s.txs i).pc = .insert rows) :
    ∃ s', Onward regs i s s' := by
  induction rows generalizing s with
  | nil =>
      have hstep : txStep .postgres s (.exec i 0) = some (s.set i (s.txs i).next) := by
        simp only [txStep, txExec, if_pos hi, htodo, hpc]
      have hheld : (s.txs i).next.held = (s.txs i).held := by
        rw [held_next htodo, held_insert htodo hpc]
      obtain ⟨hinv', hlocks⟩ := hinv.exec_same hi hheld hstep
      refine ⟨_, (At.Leads.refl .postgres i 0 _).head hstep, hinv', hlocks, rfl, fun k hk => ?_, ?_⟩
      · simp only [TxState.set, Function.update_of_ne hk]
      · simp only [TxState.set, Function.update_self]
        rfl
  | cons batch more ih =>
      have hunblocked : txStep .postgres s (.exec i 0) ≠ none := by
        rw [ne_eq, hinv.blocked_iff hi 0 (by simp [htodo])]
        rintro ⟨k, hwait⟩
        exact hinv.not_waits_insert hapart hpc hwait
      have hstep : ∃ own, txStep .postgres s (.exec i 0) =
          some (s.set i { s.txs i with fileTerms := own, pc := .insert more }) := by
        simp only [txStep, txExec, if_pos hi, htodo, hpc] at hunblocked ⊢
        split_ifs at hunblocked ⊢ with hmay
        · exact ⟨_, by rw [← htodo]; rfl⟩
        · exact absurd rfl hunblocked
      obtain ⟨own, hstep⟩ := hstep
      have hheld : Tx.held { s.txs i with fileTerms := own, pc := .insert more } =
          (s.txs i).held := by
        rw [held_inserting htodo, held_insert htodo hpc]
      obtain ⟨hinv', hlocks⟩ := hinv.exec_same hi hheld hstep
      obtain ⟨s', hon⟩ := ih hinv' (by rw [hlocks]; exact hapart) hi
        (by simp only [TxState.set, Function.update_self, htodo])
        (by simp only [TxState.set, Function.update_self])
      refine ⟨s', hon.head hstep hlocks rfl (fun k hk => ?_)⟩
      simp only [TxState.set, Function.update_of_ne hk]

/-- From the probe to the next lock. -/
theorem LockInv.onward_probe (hinv : LockInv regs s)
    (hapart : Locks.Apart (lockScript regs) s.locks) (hi : i ∈ s.active) {h : FileHash}
    {terms : List FileTerm} {rest : List (FileHash × List FileTerm)}
    (htodo : (s.txs i).todo = (h, terms) :: rest) (hpc : (s.txs i).pc = .probe) :
    ∃ s', Onward regs i s s' := by
  have hheld := held_probe htodo hpc
  by_cases hfound : termsOf h ((s.txs i).view .postgres s).fileTerms = []
  · have hstep : txStep .postgres s (.exec i 0) = some (s.set i { s.txs i with
        pc := .insert (batches (termRows h terms)) }) := by
      simp only [txStep, txExec, if_pos hi, htodo, hpc]
      rw [if_neg (not_not.2 hfound), ← htodo]
      rfl
    obtain ⟨hinv', hlocks⟩ := hinv.exec_same hi ((held_inserting htodo _ _).trans hheld.symm) hstep
    obtain ⟨s', hon⟩ := hinv'.onward_insert (by rw [hlocks]; exact hapart) hi
      (by simp only [TxState.set, Function.update_self, htodo]; rfl)
      (by simp only [TxState.set, Function.update_self]; rfl)
    refine ⟨s', hon.head hstep hlocks rfl (fun k hk => ?_)⟩
    simp only [TxState.set, Function.update_of_ne hk]
  · have hstep : txStep .postgres s (.exec i 0) = some (s.set i (s.txs i).next) := by
      simp only [txStep, txExec, if_pos hi, htodo, hpc]
      rw [if_pos hfound]
      rfl
    obtain ⟨hinv', hlocks⟩ := hinv.exec_same hi ((held_next htodo).trans hheld.symm) hstep
    refine ⟨_, (At.Leads.refl .postgres i 0 _).head hstep, hinv', hlocks, rfl, fun k hk => ?_, ?_⟩
    · simp only [TxState.set, Function.update_of_ne hk]
    · simp only [TxState.set, Function.update_self]
      rfl

/-- A free row lock can be taken, and the advisory lock is next. -/
theorem LockInv.acquire_row (hinv : LockInv regs s) (hat : AtLocks s) (hi : i ∈ s.active)
    {h : FileHash} {terms : List FileTerm} {rest : List (FileHash × List FileTerm)}
    (htodo : (s.txs i).todo = (h, terms) :: rest) (hpc : (s.txs i).pc = .upsert)
    (hfree : ∀ k, k ≠ i →
      .row (h, (s.txs i).repo.repoId) ∉ Locks.holds (lockScript regs) s.locks k) :
    ∃ s', At.Leads .postgres i 0 s s' ∧
      s'.locks = Function.update s.locks i (some ((s.txs i).held.length + 1)) ∧ AtLocks s' := by
  have hmay : mayWrite .postgres s i [(fileRow h (s.txs i).repo terms 0).key] [] := by
    refine fun k hk hne => ⟨fun key hkey hin => ?_, fun key hkey => absurd hkey List.not_mem_nil⟩
    rw [List.mem_singleton.1 hkey] at hin
    exact hfree k hne (hinv.row_holds.2 ⟨hk, hin⟩)
  have hstep : txStep .postgres s (.exec i 0) = some (s.set i { s.txs i with
      files := (s.txs i).files ++ [fileRow h (s.txs i).repo terms 0], pc := .lock }) := by
    simp only [txStep, txExec, if_pos hi, htodo, hpc]
    rw [if_pos hmay, ← htodo]
    rfl
  obtain ⟨hheld, -⟩ := (hinv.txs i hi).upsert htodo hpc 0 rfl
  refine ⟨_, (At.Leads.refl .postgres i 0 _).head hstep, ?_, fun k hk => ?_⟩
  · refine Eq.trans (locks_update hi rfl rfl) ?_
    rw [hheld, List.length_append, List.length_singleton]
  · by_cases hki : k = i
    · subst hki
      simp only [TxState.set, Function.update_self, or_true]
    · simp only [TxState.set, Function.update_of_ne hki]
      exact hat k hk

/-- A free advisory lock can be taken, and then nothing waits before the next file. -/
theorem LockInv.acquire_advisory (hinv : LockInv regs s)
    (hapart : Locks.Apart (lockScript regs) s.locks) (hat : AtLocks s) (hi : i ∈ s.active)
    {h : FileHash} {terms : List FileTerm} {rest : List (FileHash × List FileTerm)}
    (htodo : (s.txs i).todo = (h, terms) :: rest) (hpc : (s.txs i).pc = .lock)
    (hrunning : s.locks i = some (s.txs i).held.length)
    (hnext : (lockScript regs i)[(s.txs i).held.length]? = some (.advisory (lockKey h)))
    (hfree : ∀ k, k ≠ i → .advisory (lockKey h) ∉ Locks.holds (lockScript regs) s.locks k) :
    ∃ s', At.Leads .postgres i 0 s s' ∧
      s'.locks = Function.update s.locks i (some ((s.txs i).held.length + 1)) ∧ AtLocks s' := by
  have hopen : s.advisory (lockKey h) = none ∨ s.advisory (lockKey h) = some i := by
    cases hadv : s.advisory (lockKey h) with
    | none => exact Or.inl rfl
    | some k =>
        by_cases hki : k = i
        · exact Or.inr (by rw [hki])
        · exact absurd (hinv.advisory_holds.2 hadv) (hfree k hki)
  have hstep : txStep .postgres s (.exec i 0) = some ({ s with
      advisory := Function.update s.advisory (lockKey h) (some i) }.set i
        { s.txs i with pc := .probe }) := by
    simp only [txStep, txExec, if_pos hi, htodo, hpc]
    rw [if_pos hopen, ← htodo]
  obtain ⟨hheld, -⟩ := (hinv.txs i hi).lock htodo hpc rfl
  obtain ⟨hinv₁, hcase⟩ := hinv.step (fun _ _ _ heq => by simp at heq) hstep
  have hlocks₁ : TxState.locks ({ s with
      advisory := Function.update s.advisory (lockKey h) (some i) }.set i
        { s.txs i with pc := .probe }) =
          Function.update s.locks i (some ((s.txs i).held.length + 1)) := by
    refine Eq.trans (locks_update hi rfl rfl) ?_
    rw [hheld, List.length_append, List.length_singleton]
  have hapart₁ := (Locks.Step.acquire hrunning hnext hfree).apart hapart
  rw [← hlocks₁] at hapart₁
  obtain ⟨s', hon⟩ := hinv₁.onward_probe hapart₁ hi
    (by simp only [TxState.set, Function.update_self, htodo]; rfl)
    (by simp only [TxState.set, Function.update_self])
  refine ⟨s', hon.leads.head hstep, hon.locks.trans hlocks₁, fun k hk => ?_⟩
  rw [hon.active] at hk
  by_cases hki : k = i
  · rw [hki]
    exact Or.inl hon.pc
  · rw [hon.others k hki]
    simp only [TxState.set, Function.update_of_ne hki]
    exact hat k hk

/-- A free lock can be taken, and the registration goes on to its next one. -/
theorem LockInv.acquire (hinv : LockInv regs s) (hapart : Locks.Apart (lockScript regs) s.locks)
    (hat : AtLocks s) {n : Nat} {l : RegLock} (hrunning : s.locks i = some n)
    (hnext : (lockScript regs i)[n]? = some l)
    (hfree : ∀ k, k ≠ i → l ∉ Locks.holds (lockScript regs) s.locks k) :
    ∃ s', At.Leads .postgres i 0 s s' ∧ s'.locks = Function.update s.locks i (some (n + 1)) ∧
      AtLocks s' := by
  have hi : i ∈ s.active := by
    by_contra hi
    simp [TxState.locks, hi] at hrunning
  obtain rfl : n = (s.txs i).held.length := by
    have hheld := hrunning
    unfold TxState.locks at hheld
    rw [if_pos hi] at hheld
    exact (Option.some.inj hheld).symm
  have hlock : Locks.next (lockScript regs) s.locks i = some l :=
    (next_of_active hi).trans hnext
  cases htodo : (s.txs i).todo with
  | nil =>
      rw [hinv.next_nil hi htodo] at hlock
      simp at hlock
  | cons f rest =>
      obtain ⟨h, terms⟩ := f
      obtain ⟨hnextRow, hnextLock⟩ := hinv.next hi htodo
      rcases hat i hi with hpc | hpc
      · obtain rfl := Option.some.inj ((hnextRow hpc).symm.trans hlock)
        exact hinv.acquire_row hat hi htodo hpc hfree
      · obtain rfl := Option.some.inj ((hnextLock hpc).symm.trans hlock)
        exact hinv.acquire_advisory hapart hat hi htodo hpc hrunning hnext hfree

end Realise

/-- **Every run of the lock machine is one of the registrations.** -/
theorem exists_run_of_reachable (t : Tables) {regs : Registrations} {g : Locks.State Nat}
    (hreach : Locks.Reachable (lockScript regs) g) :
    ∃ acts s, OnlyBegins regs acts ∧
      Machine.run (txStep .postgres) (TxState.start t) acts = some s ∧ s.locks = g ∧ AtLocks s := by
  induction hreach with
  | refl =>
      exact ⟨[], TxState.start t, fun _ _ _ hin => absurd hin List.not_mem_nil, rfl, locks_start t,
        fun i hi => by simp [TxState.start, TxState.fresh] at hi⟩
  | tail hreach hstep ih =>
      obtain ⟨acts, s, hbegins, hrun, rfl, hat⟩ := ih
      obtain ⟨hinv, -⟩ := lockInv_run hbegins hrun
      cases hstep with
      | @begin i hidle hscript =>
          have hi : i ∉ s.active := by
            intro hi
            simp [TxState.locks, hi] at hidle
          cases hreg : regs i with
          | none => simp [lockScript, hreg] at hscript
          | some reg =>
              obtain ⟨repo, files⟩ := reg
              have hfiles : files ≠ [] := by
                rintro rfl
                simp [lockScript, hreg, filesLocks] at hscript
              refine ⟨acts ++ [.begin i repo files], { s with active := i :: s.active }.set i
                ⟨repo, [], files, .upsert, none, [], []⟩, fun k repo' files' hin => ?_, ?_, ?_,
                  fun k hk => ?_⟩
              · rcases List.mem_append.1 hin with hin | hin
                · exact hbegins k repo' files' hin
                · simp only [List.mem_singleton, TxAct.begin.injEq] at hin
                  obtain ⟨rfl, rfl, rfl⟩ := hin
                  exact hreg
              · rw [Machine.run_append, hrun]
                simp [Machine.run, txStep, hi, hfiles]
              · funext k
                unfold TxState.locks
                by_cases hki : k = i
                · subst hki
                  simp [TxState.set, held_upsert, filesLocks]
                · simp [TxState.set, hki]
              · by_cases hki : k = i
                · subst hki
                  simp [TxState.set]
                · simp only [TxState.set, Function.update_of_ne hki]
                  exact hat k ((List.mem_cons.1 hk).resolve_left hki)
      | @acquire i n l hrunning hnext hfree =>
          obtain ⟨s', ⟨m, hm⟩, hlocks, hat'⟩ :=
            hinv.acquire (Locks.Reachable.apart hreach) hat hrunning hnext hfree
          refine ⟨acts ++ List.replicate m (.exec i 0), s', fun k repo files hin => ?_, ?_, hlocks,
            hat'⟩
          · rcases List.mem_append.1 hin with hin | hin
            · exact hbegins k repo files hin
            · exact absurd (List.mem_replicate.1 hin).2 (by simp)
          · rw [Machine.run_append, hrun]
            exact hm
      | @finish i =>
          by_cases hi : i ∈ s.active
          · refine ⟨acts ++ [.rollback i], s.finish i, fun k repo files hin => ?_, ?_, ?_,
              fun k hk => hat k ?_⟩
            · rcases List.mem_append.1 hin with hin | hin
              · exact hbegins k repo files hin
              · simp at hin
            · rw [Machine.run_append, hrun]
              simp [Machine.run, txStep, hi]
            · funext k
              unfold TxState.locks
              by_cases hki : k = i
              · subst hki
                simp [TxState.finish]
              · simp [TxState.finish, hki]
            · simp only [TxState.finish, List.mem_filter] at hk
              exact hk.1
          · refine ⟨acts, s, hbegins, hrun, ?_, hat⟩
            have hidle : s.locks i = none := if_neg hi
            rw [← hidle, Function.update_eq_self]

/-- **Which registrations can deadlock**: those whose lock sequences cross. -/
theorem registrations_deadlock_free_iff (t : Tables) (regs : Registrations) :
    (∀ acts s, OnlyBegins regs acts →
      Machine.run (txStep .postgres) (TxState.start t) acts = some s → ¬ TxDeadlocked s) ↔
        ¬ Locks.Crossing (lockScript regs) := by
  rw [← Locks.exists_deadlock_iff]
  constructor
  · rintro hfree ⟨g, hreach, i, hcycle⟩
    obtain ⟨acts, s, hbegins, hrun, rfl, hat⟩ := exists_run_of_reachable t hreach
    obtain ⟨hinv, -⟩ := lockInv_run hbegins hrun
    exact hfree acts s hbegins hrun
      ⟨i, .mono (fun j k hwait => hinv.txWaitsFor hat hwait) i i hcycle⟩
  · rintro hnone acts s hbegins hrun ⟨i, hcycle⟩
    obtain ⟨hinv, hreach⟩ := lockInv_run hbegins hrun
    exact hnone ⟨s.locks, hreach, i,
      .mono (fun j k hwait => hinv.waitsFor hreach.apart hwait) i i hcycle⟩

/-- The order of the advisory keys, with the row lock first. -/
def RegLock.rank : RegLock → Int
  | .row (h, _) => 2 * lockKey h
  | .advisory key => 2 * key + 1

/-- **Shards that list their files in the order of the advisory keys do not cross.** -/
theorem ordered_registrations_not_crossing {regs : Registrations}
    (hordered : ∀ i repo files, regs i = some (repo, files) →
      files.Pairwise (fun f g => lockKey f.1 < lockKey g.1)) :
    ¬ Locks.Crossing (lockScript regs) := by
  refine Locks.not_crossing_of_ordered RegLock.rank (fun i => ?_)
  unfold lockScript
  cases hreg : regs i with
  | none => exact List.Pairwise.nil
  | some reg =>
      obtain ⟨repo, files⟩ := reg
      refine List.pairwise_flatMap.2 ⟨fun f _ => ?_, (hordered i repo files hreg).imp ?_⟩
      · simp only [fileLocks, List.pairwise_pair, RegLock.rank]
        omega
      · intro f g hlt a ha b hb
        simp only [fileLocks, List.mem_cons, List.not_mem_nil, or_false] at ha hb
        obtain rfl | rfl := ha <;> obtain rfl | rfl := hb <;> simp only [RegLock.rank] <;> omega

/-! ## Deadlocks -/

namespace Sample

/-- A hash that begins like `hash32 1`. -/
def likeOne : FileHash := ⟨List.replicate 31 1 ++ [2], rfl⟩

/-- Two repositories register the same two files, in opposite orders. -/
def oppositeOrders : Registrations := fun i =>
  [(repo, [(hash32 1, [term 2 5]), (hash32 3, [term 2 5])]),
    (⟨.model, "bob/data", "main"⟩, [(hash32 3, [term 2 5]), (hash32 1, [term 2 5])])][i]?

/-- One repository registers two files whose keys are equal, and the second of them again. -/
def equalKeys : Registrations := fun i =>
  [(repo, [(hash32 1, [term 2 5]), (likeOne, [term 2 5])]), (repo, [(likeOne, [term 2 5])])][i]?

/-- The two registrations of a family begin, the first executes `n` statements and the second `m`. -/
def bothBegin (regs : Registrations) (n m : Nat) : List TxAct :=
  ([0, 1].filterMap (fun i => (regs i).map (fun reg => .begin i reg.1 reg.2))) ++
    List.replicate n (.exec 0 0) ++ List.replicate m (.exec 1 0)

theorem onlyBegins_bothBegin (regs : Registrations) (n m : Nat) :
    OnlyBegins regs (bothBegin regs n m) := by
  intro i repo files hin
  unfold bothBegin at hin
  simp only [List.append_assoc, List.mem_append, List.mem_filterMap, List.mem_replicate,
    reduceCtorEq, and_false, or_false, Option.map_eq_some_iff, TxAct.begin.injEq] at hin
  obtain ⟨j, -, reg, hreg, rfl, rfl, rfl⟩ := hin
  exact hreg

end Sample

theorem deadlock_of_run {regs : Registrations} {acts : List TxAct} (hbegins : OnlyBegins regs acts)
    (hrun : (Machine.run (txStep .postgres) (TxState.start ⟨[], []⟩) acts).any
      (fun s => decide (TxWaitsFor s 0 1 ∧ TxWaitsFor s 1 0)) = true) :
    ¬ ∀ acts s, OnlyBegins regs acts →
      Machine.run (txStep .postgres) (TxState.start ⟨[], []⟩) acts = some s → ¬ TxDeadlocked s := by
  intro hall
  obtain ⟨s, hs, hwait⟩ := (Option.any_eq_true _ _).1 hrun
  obtain ⟨h01, h10⟩ := of_decide_eq_true hwait
  exact hall acts s hbegins hs ⟨0, .tail (.single h01) h10⟩

/-- **Registrations deadlock**: of the same two files in opposite orders, and of different files whose
    advisory keys are equal. -/
theorem registrations_deadlock :
    (¬ ∀ acts s, OnlyBegins Sample.oppositeOrders acts →
      Machine.run (txStep .postgres) (TxState.start ⟨[], []⟩) acts = some s →
        ¬ TxDeadlocked s) ∧
    ¬ ∀ acts s, OnlyBegins Sample.equalKeys acts →
      Machine.run (txStep .postgres) (TxState.start ⟨[], []⟩) acts = some s →
        ¬ TxDeadlocked s := by
  constructor
  · exact deadlock_of_run (Sample.onlyBegins_bothBegin Sample.oppositeOrders 6 6) (by decide +kernel)
  · exact deadlock_of_run (Sample.onlyBegins_bothBegin Sample.equalKeys 5 1) (by decide +kernel)

end BaleForGit.Server
