import BaleForGit.Server.Registration
import BaleForGit.Server.TermTx

set_option autoImplicit false

/-! # Term lists are written once

The probe of a registration is never stale: before it, the transaction has taken a lock that every
other registration of the hash needs, and keeps it to its end (`HoldsLock`: SQLite's write lock, or
the advisory lock of the hash). So the rows a transaction inserts for a hash are the only ones, and
what is committed for a hash is the first list of the log that has terms. -/

namespace BaleForGit.Server

/-! ## The invariant -/

/-- Transaction `i` has the lock that registrations of `h` need. -/
def HoldsLock (b : Backend) (s : TxState) (i : Nat) (h : FileHash) : Prop :=
  match b with
  | .sqlite => s.writer = some i
  | .postgres => s.advisory (lockKey h) = some i

theorem HoldsLock.unique {b : Backend} {s : TxState} {i k : Nat} {h : FileHash}
    (hi : HoldsLock b s i h) (hk : HoldsLock b s k h) : k = i := by
  cases b with
  | sqlite => exact Option.some.inj ((hk : s.writer = some k).symm.trans hi)
  | postgres => exact Option.some.inj ((hk : s.advisory (lockKey h) = some k).symm.trans hi)

/-- What a transaction has written for `h`: the first list among the files it is done with, unless
    rows of `h` are committed. -/
def Settled (s : TxState) (tx : Tx) (h : FileHash) : Prop :=
  (termsOf h s.committed.fileTerms = [] ∧ termsOf h tx.fileTerms = firstRows h tx.done) ∨
    (termsOf h s.committed.fileTerms ≠ [] ∧ termsOf h tx.fileTerms = [])

/-- The same while the file at hand is being inserted. -/
def Progress (b : Backend) (s : TxState) (i : Nat) (tx : Tx) : Prop :=
  match tx.todo with
  | [] => ∀ h, Settled s tx h
  | (h, terms) :: _ =>
    match tx.pc with
    | .upsert => ∀ h', Settled s tx h'
    | .lock => ∀ h', Settled s tx h'
    | .probe => HoldsLock b s i h ∧ ∀ h', Settled s tx h'
    | .insert rest => HoldsLock b s i h ∧ termsOf h s.committed.fileTerms = [] ∧
        firstRows h tx.done = [] ∧ termsOf h tx.fileTerms ++ rest.flatten = termRows h terms ∧
          ∀ h', h' ≠ h → Settled s tx h'

structure TxOk (b : Backend) (s : TxState) (i : Nat) (tx : Tx) : Prop where
  /-- A SQLite transaction that has a snapshot is the writer, on the latest state. -/
  snapshot : b = .sqlite → match tx.snapshot with
    | none => tx.files = [] ∧ tx.fileTerms = []
    | some t => s.writer = some i ∧ t = s.committed
  noLock : b = .sqlite → tx.pc ≠ .lock
  own : ∀ h, termsOf h tx.fileTerms ≠ [] → HoldsLock b s i h
  progress : Progress b s i tx

structure TxInv (b : Backend) (s : TxState) : Prop where
  committed : ∀ h, termsOf h s.committed.fileTerms = firstRows h s.log
  txs : ∀ i ∈ s.active, TxOk b s i (s.txs i)

variable {b : Backend} {s s' : TxState} {i k : Nat} {tx : Tx}

/-- A transaction's view starts from what is committed now. -/
theorem TxOk.base (hok : TxOk b s i tx) : tx.base b s = s.committed := by
  cases b with
  | postgres => rfl
  | sqlite =>
      have hsnap := hok.snapshot rfl
      unfold Tx.base
      cases ht : tx.snapshot with
      | none => rfl
      | some t =>
          simp only [ht] at hsnap
          exact hsnap.2

theorem TxOk.view_fileTerms (hok : TxOk b s i tx) :
    (tx.view b s).fileTerms = s.committed.fileTerms ++ tx.fileTerms := by
  unfold Tx.view
  rw [hok.base]

theorem termsOf_append (h : FileHash) (t u : List TermRow) :
    termsOf h (t ++ u) = termsOf h t ++ termsOf h u :=
  List.filter_append ..

/-- Once a transaction has nothing under way, all it wrote is settled. -/
theorem TxOk.settled (hok : TxOk b s i tx) (htodo : tx.todo = []) (h : FileHash) :
    Settled s tx h := by
  have hprog := hok.progress
  unfold Progress at hprog
  rw [htodo] at hprog
  exact hprog h

/-! ## Frames -/

/-- What commits beside a transaction either leaves the rows of a hash alone, or is about a hash
    the transaction has no lock for. -/
def Beside (b : Backend) (s s' : TxState) (k : Nat) : Prop :=
  ∀ h, termsOf h s'.committed.fileTerms = termsOf h s.committed.fileTerms ∨
    (termsOf h s'.committed.fileTerms ≠ [] ∧ ¬ HoldsLock b s k h)

theorem Settled.frame (hown : ∀ h, termsOf h tx.fileTerms ≠ [] → HoldsLock b s k h)
    (hbeside : Beside b s s' k) {h : FileHash} (hset : Settled s tx h) : Settled s' tx h := by
  rcases hbeside h with heq | ⟨hne, hno⟩
  · unfold Settled at hset ⊢
    rw [heq]
    exact hset
  · refine Or.inr ⟨hne, ?_⟩
    by_contra hrows
    exact hno (hown h hrows)

/-- **Frame rule**: a transaction is not disturbed by steps that leave it its locks and, in SQLite,
    the state it writes on. -/
theorem TxOk.frame (hok : TxOk b s k tx)
    (hlock : ∀ h, HoldsLock b s k h → HoldsLock b s' k h) (hbeside : Beside b s s' k)
    (hwriter : b = .sqlite → s.writer = some k → s'.writer = some k ∧ s'.committed = s.committed) :
    TxOk b s' k tx := by
  refine ⟨fun hb => ?_, hok.noLock, fun h hh => hlock h (hok.own h hh), ?_⟩
  · have hsnap := hok.snapshot hb
    cases ht : tx.snapshot with
    | none => simpa only [ht] using hsnap
    | some t =>
        simp only [ht] at hsnap ⊢
        obtain ⟨hw, hc⟩ := hwriter hb hsnap.1
        exact ⟨hw, hsnap.2.trans hc.symm⟩
  · have hprog := hok.progress
    unfold Progress at hprog ⊢
    cases htodo : tx.todo with
    | nil =>
        simp only [htodo] at hprog
        exact fun h => (hprog h).frame hok.own hbeside
    | cons f rest =>
        obtain ⟨h, terms⟩ := f
        simp only [htodo] at hprog ⊢
        cases hpc : tx.pc with
        | upsert =>
            simp only [hpc] at hprog
            exact fun h' => (hprog h').frame hok.own hbeside
        | lock =>
            simp only [hpc] at hprog
            exact fun h' => (hprog h').frame hok.own hbeside
        | probe =>
            simp only [hpc] at hprog
            exact ⟨hlock h hprog.1, fun h' => (hprog.2 h').frame hok.own hbeside⟩
        | insert batches =>
            simp only [hpc] at hprog
            obtain ⟨hheld, hnone, hfirst, hrows, hset⟩ := hprog
            refine ⟨hlock h hheld, ?_, hfirst, hrows,
              fun h' hne => (hset h' hne).frame hok.own hbeside⟩
            rcases hbeside h with heq | ⟨-, hno⟩
            · rw [heq]
              exact hnone
            · exact absurd hheld hno

/-- Steps of other transactions that commit nothing. -/
theorem Beside.of_eq (h : s'.committed = s.committed) : Beside b s s' k :=
  fun _ => Or.inl (by rw [h])

/-! ## Moving to the next file -/

theorem Settled.of_eq {tx tx' : Tx} {h : FileHash} (hset : Settled s tx h)
    (hcommitted : s'.committed = s.committed) (hdone : tx'.done = tx.done)
    (hrows : tx'.fileTerms = tx.fileTerms) : Settled s' tx' h := by
  unfold Settled at hset ⊢
  rw [hcommitted, hdone, hrows]
  exact hset

/-- The file at hand is written as the log would have it. -/
theorem Settled.next {h : FileHash} {terms : List FileTerm} {rest : List (FileHash × List FileTerm)}
    (htodo : tx.todo = (h, terms) :: rest)
    (hself : Settled s { tx with done := tx.done ++ [(h, terms)] } h)
    (hother : ∀ h', h' ≠ h → Settled s tx h') (h' : FileHash) : Settled s tx.next h' := by
  have hdone : tx.next.done = tx.done ++ [(h, terms)] := by
    unfold Tx.next
    rw [htodo]
    rfl
  have hrows : tx.next.fileTerms = tx.fileTerms := rfl
  by_cases heq : h' = h
  · subst heq
    unfold Settled at hself ⊢
    rw [hdone, hrows]
    exact hself
  · have hset := hother h' heq
    unfold Settled at hset ⊢
    rw [hdone, hrows, firstRows_append, firstRows_singleton_of_ne heq]
    rcases hset with ⟨hnone, hown⟩ | hsome
    · refine Or.inl ⟨hnone, ?_⟩
      rw [hown]
      split_ifs with hempty
      · exact hempty
      · rfl
    · exact Or.inr hsome

/-- A transaction that moves on to the next file. -/
theorem TxOk.next (hok : TxOk b s i tx) (hset : ∀ h, Settled s tx.next h) : TxOk b s i tx.next := by
  refine ⟨hok.snapshot, fun _ => by simp [Tx.next], hok.own, ?_⟩
  unfold Progress
  cases htodo : tx.next.todo with
  | nil => exact hset
  | cons f rest => exact hset

theorem TxOk.set {tx' : Tx} (hok : TxOk b s i tx) : TxOk b (s.set i tx') i tx :=
  hok.frame (fun _ hh => hh) (Beside.of_eq rfl) (fun _ hw => ⟨hw, rfl⟩)

/-! ## Statements -/

/-- A statement of transaction `i` keeps the invariant when it commits nothing, takes no lock that
    another transaction has, and leaves its own transaction in order. -/
theorem TxInv.exec (hinv : TxInv b s) {tx' : Tx} (hcommitted : s'.committed = s.committed)
    (hlog : s'.log = s.log) (hactive : s'.active = s.active)
    (htxs : s'.txs = Function.update s.txs i tx') (hself : TxOk b s' i tx')
    (hlock : ∀ k, k ≠ i → ∀ h, HoldsLock b s k h → HoldsLock b s' k h)
    (hwriter : ∀ k, k ≠ i → b = .sqlite → s.writer = some k → s'.writer = some k) :
    TxInv b s' := by
  refine ⟨fun h => ?_, fun k hk => ?_⟩
  · rw [hcommitted, hlog]
    exact hinv.committed h
  · rw [hactive] at hk
    rw [htxs]
    by_cases hki : k = i
    · subst hki
      rw [Function.update_self]
      exact hself
    · rw [Function.update_of_ne hki]
      exact (hinv.txs k hk).frame (hlock k hki) (Beside.of_eq hcommitted)
        (fun hb hw => ⟨hwriter k hki hb hw, hcommitted⟩)

/-- The locks after a write statement that was let through. -/
theorem holdsLock_write {tx' : Tx} {files : List (FileHash × String)}
    {terms : List (FileHash × Nat)} (hmay : mayWrite b s i files terms) (k : Nat) (hk : k ≠ i)
    (h : FileHash) (hheld : HoldsLock b s k h) : HoldsLock b (s.write b i tx') k h := by
  cases b with
  | postgres => exact hheld
  | sqlite =>
      have hw : s.writer = some k := hheld
      rcases hmay.1 with hnone | hself
      · rw [hw] at hnone
        simp at hnone
      · rw [hw, Option.some.injEq] at hself
        exact absurd hself hk

theorem writer_write {tx' : Tx} {files : List (FileHash × String)}
    {terms : List (FileHash × Nat)} (hmay : mayWrite b s i files terms) (k : Nat) (hk : k ≠ i)
    (hb : b = .sqlite) (hw : s.writer = some k) : (s.write b i tx').writer = some k := by
  subst hb
  rcases hmay.1 with hnone | hself
  · rw [hw] at hnone
    simp at hnone
  · rw [hw, Option.some.injEq] at hself
    exact absurd hself hk

/-- The upsert of the `files` row: SQLite's writer is found here. -/
theorem TxOk.upsert (hok : TxOk b s i tx) {h : FileHash} {terms : List FileTerm}
    {rest : List (FileHash × List FileTerm)} (htodo : tx.todo = (h, terms) :: rest)
    (hpc : tx.pc = .upsert) {row : FileRow} {tx' : Tx}
    (htx' : tx' = { tx.read b s with files := tx.files ++ [row], pc := b.afterUpsert }) :
    TxOk b (s.write b i tx') i tx' := by
  have hprog := hok.progress
  simp only [Progress, htodo, hpc] at hprog
  cases b with
  | sqlite =>
      have hbase := hok.base
      subst htx'
      refine ⟨fun _ => ⟨rfl, hbase⟩, fun _ => by simp [Backend.afterUpsert], fun _ _ => rfl, ?_⟩
      simp only [Progress, Tx.read_todo, htodo]
      exact ⟨rfl, fun h' => (hprog h').of_eq rfl rfl rfl⟩
  | postgres =>
      subst htx'
      refine ⟨fun hb => by simp at hb, fun hb => by simp at hb, hok.own, ?_⟩
      simp only [Progress, Tx.read_todo, htodo]
      exact fun h' => (hprog h').of_eq rfl rfl rfl

/-- The advisory lock. -/
theorem TxOk.lock (hok : TxOk b s i tx) {h : FileHash} {terms : List FileTerm}
    {rest : List (FileHash × List FileTerm)} (htodo : tx.todo = (h, terms) :: rest)
    (hpc : tx.pc = .lock) {tx' : Tx} (htx' : tx' = { tx with pc := .probe }) :
    TxOk b ({ s with advisory := Function.update s.advisory (lockKey h) (some i) }.set i tx') i
      tx' := by
  have hprog := hok.progress
  simp only [Progress, htodo, hpc] at hprog
  cases b with
  | sqlite => exact absurd hpc (hok.noLock rfl)
  | postgres =>
      subst htx'
      refine ⟨fun hb => by simp at hb, fun hb => by simp at hb, fun h' hrows => ?_, ?_⟩
      · have hheld : s.advisory (lockKey h') = some i := hok.own h' hrows
        simp only [HoldsLock, TxState.set]
        by_cases hkey : lockKey h' = lockKey h
        · rw [hkey, Function.update_self]
        · rw [Function.update_of_ne hkey, hheld]
      · simp only [Progress, htodo]
        refine ⟨?_, fun h' => (hprog h').of_eq rfl rfl rfl⟩
        simp only [HoldsLock, TxState.set, Function.update_self]

/-- A statement that only reads fixes the snapshot of the writer. -/
theorem TxOk.read (hok : TxOk b s i tx) {h : FileHash} (hheld : HoldsLock b s i h) :
    TxOk b s i (tx.read b s) := by
  cases b with
  | postgres => exact hok
  | sqlite =>
      refine ⟨fun _ => ⟨hheld, hok.base⟩, hok.noLock, hok.own, ?_⟩
      have hprog := hok.progress
      unfold Progress at hprog ⊢
      exact hprog

/-- **A probe that finds rows**: they are committed, or the transaction wrote them itself. -/
theorem TxOk.probe_some (hok : TxOk b s i tx) {h : FileHash} {terms : List FileTerm}
    {rest : List (FileHash × List FileTerm)} (htodo : tx.todo = (h, terms) :: rest)
    (hpc : tx.pc = .probe) (hfound : termsOf h (tx.view b s).fileTerms ≠ []) :
    TxOk b s i (tx.read b s).next := by
  have hprog := hok.progress
  simp only [Progress, htodo, hpc] at hprog
  obtain ⟨hheld, hset⟩ := hprog
  rw [hok.view_fileTerms, termsOf_append] at hfound
  have htodo' : (tx.read b s).todo = (h, terms) :: rest := by rw [Tx.read_todo, htodo]
  refine (hok.read hheld).next (Settled.next htodo' ?_
    (fun h' _ => (hset h').of_eq rfl (by simp) (by simp)))
  unfold Settled
  simp only [Tx.read_done, Tx.read_fileTerms]
  rcases hset h with ⟨hnone, hown⟩ | hsome
  · refine Or.inl ⟨hnone, ?_⟩
    rw [hnone, List.nil_append, hown] at hfound
    rw [firstRows_append, if_neg hfound, hown]
  · exact Or.inr hsome

/-- **A probe that finds none**: no other transaction has rows of the hash, since it would have the
    lock. -/
theorem TxOk.probe_none (hok : TxOk b s i tx) {h : FileHash} {terms : List FileTerm}
    {rest : List (FileHash × List FileTerm)} (htodo : tx.todo = (h, terms) :: rest)
    (hpc : tx.pc = .probe) (hfound : termsOf h (tx.view b s).fileTerms = []) :
    TxOk b s i { tx.read b s with pc := .insert (batches (termRows h terms)) } := by
  have hprog := hok.progress
  simp only [Progress, htodo, hpc] at hprog
  obtain ⟨hheld, hset⟩ := hprog
  rw [hok.view_fileTerms, termsOf_append, List.append_eq_nil_iff] at hfound
  have hread := hok.read hheld
  refine ⟨hread.snapshot, fun _ => by simp, hread.own, ?_⟩
  simp only [Progress, Tx.read_todo, htodo, Tx.read_done, Tx.read_fileTerms, flatten_batches,
    hfound.2, List.nil_append]
  refine ⟨hheld, hfound.1, ?_, trivial, fun h' _ => (hset h').of_eq rfl (by simp) (by simp)⟩
  rcases hset h with ⟨-, hown⟩ | ⟨hsome, -⟩
  · exact hown.symm.trans hfound.2
  · exact absurd hfound.1 hsome

/-- The last batch is in. -/
theorem TxOk.insert_nil (hok : TxOk b s i tx) {h : FileHash} {terms : List FileTerm}
    {rest : List (FileHash × List FileTerm)} (htodo : tx.todo = (h, terms) :: rest)
    (hpc : tx.pc = .insert []) : TxOk b s i tx.next := by
  have hprog := hok.progress
  simp only [Progress, htodo, hpc, List.flatten_nil, List.append_nil] at hprog
  obtain ⟨-, hnone, hfirst, hrows, hset⟩ := hprog
  refine hok.next (Settled.next htodo (Or.inl ⟨hnone, ?_⟩) hset)
  simp only [firstRows_append, hfirst, if_true, firstRows_singleton]
  exact hrows

/-- **A batch goes in as a whole**: none of its keys is taken. -/
theorem TxOk.insert_cons (hok : TxOk b s i tx) {h : FileHash} {terms : List FileTerm}
    {rest : List (FileHash × List FileTerm)} {batch : List TermRow} {more : List (List TermRow)}
    (htodo : tx.todo = (h, terms) :: rest) (hpc : tx.pc = .insert (batch :: more)) {tx' : Tx}
    (htx' : tx' = { tx.read b s with
      fileTerms := (Table.insertAll TermRow.key (tx.view b s).fileTerms batch).drop
        (tx.base b s).fileTerms.length
      pc := .insert more }) : TxOk b (s.write b i tx') i tx' := by
  have hprog := hok.progress
  simp only [Progress, htodo, hpc, List.flatten_cons] at hprog
  obtain ⟨hheld, hnone, hfirst, hrows, hset⟩ := hprog
  have hbatch : ∀ r ∈ batch, r.fileHash = h := by
    intro r hr
    have hmem : r ∈ termRows h terms := by
      rw [← hrows]
      exact List.mem_append_right _ (List.mem_append_left _ hr)
    exact termRows_fileHash hmem
  have hnodup := termRows_nodup h terms
  rw [← hrows, List.map_append, List.map_append] at hnodup
  obtain ⟨-, htail, hdisj⟩ := List.nodup_append.1 hnodup
  -- no row of the hash is committed, and the batches before this one have other indexes
  have hfresh : ∀ r ∈ batch, TermRow.key r ∉ (s.committed.fileTerms ++ tx.fileTerms).map
      TermRow.key := by
    intro r hr hmem
    obtain ⟨x, hx, hkey⟩ := List.mem_map.1 hmem
    have hxh : x.fileHash = h := (Prod.mk.inj hkey).1.trans (hbatch r hr)
    have hxrows : x ∈ termsOf h (s.committed.fileTerms ++ tx.fileTerms) :=
      List.mem_filter.2 ⟨hx, decide_eq_true hxh⟩
    rw [termsOf_append, hnone, List.nil_append] at hxrows
    exact hdisj _ (List.mem_map_of_mem hxrows) _
      (List.mem_append_left _ (List.mem_map_of_mem hr)) hkey
  have hnew : tx'.fileTerms = tx.fileTerms ++ batch := by
    rw [htx']
    simp only [hok.view_fileTerms, hok.base]
    rw [Table.insertAll_of_fresh (List.nodup_append.1 htail).1 hfresh, List.append_assoc,
      List.drop_left]
  have hself : termsOf h batch = batch :=
    List.filter_eq_self.2 (fun r hr => decide_eq_true (hbatch r hr))
  have hother : ∀ h', h' ≠ h → termsOf h' tx'.fileTerms = termsOf h' tx.fileTerms := by
    intro h' hne
    rw [hnew, termsOf_append]
    have hempty : termsOf h' batch = [] :=
      List.filter_eq_nil_iff.2 (fun r hr => by simp [hbatch r hr, Ne.symm hne])
    rw [hempty, List.append_nil]
  have hlock : HoldsLock b (s.write b i tx') i h := by
    cases b with
    | sqlite => rfl
    | postgres => exact hheld
  -- SQLite has one writer; on Postgres the advisory locks are not touched by a write
  have hmono : ∀ h', HoldsLock b s i h' → HoldsLock b (s.write b i tx') i h' := by
    intro h' hh'
    cases b with
    | sqlite => rfl
    | postgres => exact hh'
  have hdone : tx'.done = tx.done := by rw [htx']; simp
  refine ⟨fun hb => ?_, fun _ => by rw [htx']; simp, fun h' hh' => ?_, ?_⟩
  · have hsnap := (hok.read hheld).snapshot hb
    subst hb
    rw [htx']
    simp only [Tx.read] at hsnap ⊢
    exact ⟨rfl, hsnap.2⟩
  · by_cases heq : h' = h
    · rw [heq]
      exact hlock
    · rw [hother h' heq] at hh'
      exact hmono h' (hok.own h' hh')
  · have htodo' : tx'.todo = (h, terms) :: rest := by rw [htx']; simp [htodo]
    have hpc' : tx'.pc = .insert more := by rw [htx']
    simp only [Progress, htodo', hpc', TxState.write_committed, hdone]
    refine ⟨hlock, hnone, hfirst, ?_, fun h' hne => ?_⟩
    · rw [hnew, termsOf_append, hself, List.append_assoc]
      exact hrows
    · have hset' := hset h' hne
      unfold Settled at hset' ⊢
      rw [TxState.write_committed, hdone, hother h' hne]
      exact hset'

/-- **Every statement keeps the invariant.** -/
theorem txExec_inv (hinv : TxInv b s) (hi : i ∈ s.active) {now : Int}
    (hstep : txExec b s i now = some s') : TxInv b s' := by
  have hok := hinv.txs i hi
  unfold txExec at hstep
  cases htodo : (s.txs i).todo with
  | nil => simp [htodo] at hstep
  | cons f rest =>
      obtain ⟨h, terms⟩ := f
      cases hpc : (s.txs i).pc with
      | upsert =>
          simp only [htodo, hpc] at hstep
          split_ifs at hstep with hmay
          simp only [Option.some.injEq] at hstep
          subst hstep
          exact hinv.exec (by simp) (by simp) (by simp) (by simp) (hok.upsert htodo hpc rfl)
            (holdsLock_write hmay) (writer_write hmay)
      | lock =>
          simp only [htodo, hpc] at hstep
          split_ifs at hstep with hfree
          simp only [Option.some.injEq] at hstep
          subst hstep
          refine hinv.exec rfl rfl rfl rfl (hok.lock htodo hpc (by rw [← htodo])) ?_ (fun _ _ _ hw => hw)
          intro k hk h' hheld
          cases b with
          | sqlite => exact hheld
          | postgres =>
              have hkey : lockKey h' ≠ lockKey h := by
                intro heq
                have hother : s.advisory (lockKey h') = some k := hheld
                rw [heq] at hother
                rcases hfree with hnone | hown
                · rw [hother] at hnone
                  simp at hnone
                · rw [hother, Option.some.injEq] at hown
                  exact hk hown
              simp only [HoldsLock, TxState.set, Function.update_of_ne hkey]
              exact hheld
      | probe =>
          simp only [htodo, hpc] at hstep
          split_ifs at hstep with hfound
          · simp only [Option.some.injEq] at hstep
            subst hstep
            exact hinv.exec rfl rfl rfl rfl ((hok.probe_some htodo hpc hfound).set)
              (fun _ _ _ hh => hh) (fun _ _ _ hw => hw)
          · simp only [Option.some.injEq] at hstep
            subst hstep
            exact hinv.exec rfl rfl rfl rfl ((hok.probe_none htodo hpc (not_not.1 hfound)).set)
              (fun _ _ _ hh => hh) (fun _ _ _ hw => hw)
      | insert batches =>
          cases batches with
          | nil =>
              simp only [htodo, hpc, Option.some.injEq] at hstep
              subst hstep
              exact hinv.exec rfl rfl rfl rfl ((hok.insert_nil htodo hpc).set)
                (fun _ _ _ hh => hh) (fun _ _ _ hw => hw)
          | cons batch more =>
              simp only [htodo, hpc] at hstep
              split_ifs at hstep with hmay
              simp only [Option.some.injEq] at hstep
              subst hstep
              exact hinv.exec (by simp) (by simp) (by simp) (by simp)
                (hok.insert_cons htodo hpc rfl) (holdsLock_write hmay) (writer_write hmay)

/-! ## Ends of transactions -/

/-- The end of a transaction leaves the others their locks. -/
theorem holdsLock_finish (hk : k ≠ i) (h : FileHash) (hheld : HoldsLock b s k h) :
    HoldsLock b (s.finish i) k h := by
  cases b with
  | sqlite =>
      have hw : s.writer = some k := hheld
      simp [HoldsLock, TxState.finish, hw, hk]
  | postgres =>
      have hl : s.advisory (lockKey h) = some k := hheld
      simp only [HoldsLock, TxState.finish, hl, Option.some.injEq, hk, if_false]

theorem mem_active_finish {k : Nat} (hk : k ∈ (s.finish i).active) : k ∈ s.active ∧ k ≠ i := by
  simpa [TxState.finish] using hk

theorem TxInv.rollback (hinv : TxInv b s) : TxInv b (s.finish i) := by
  refine ⟨hinv.committed, fun k hk => ?_⟩
  obtain ⟨hmem, hne⟩ := mem_active_finish hk
  refine (hinv.txs k hmem).frame (holdsLock_finish hne) (Beside.of_eq rfl) (fun hb hw => ⟨?_, rfl⟩)
  simp [TxState.finish, hw, hne]

/-- **A commit makes the transaction's lists part of the log.** -/
theorem TxInv.commit (hinv : TxInv b s) (hi : i ∈ s.active) (htodo : (s.txs i).todo = []) :
    TxInv b { (s.finish i) with
      committed := (s.txs i).view b s
      log := s.log ++ (s.txs i).done } := by
  have hok := hinv.txs i hi
  have hview : ∀ h, termsOf h ((s.txs i).view b s).fileTerms =
      termsOf h s.committed.fileTerms ++ termsOf h (s.txs i).fileTerms := by
    intro h
    rw [hok.view_fileTerms, termsOf_append]
  refine ⟨fun h => ?_, fun k hk => ?_⟩
  · simp only [hview h, firstRows_append, ← hinv.committed h]
    rcases hok.settled htodo h with ⟨hnone, hown⟩ | ⟨hsome, hown⟩
    · rw [hnone, hown, List.nil_append, if_pos rfl]
    · rw [hown, List.append_nil, if_neg hsome]
  · obtain ⟨hmem, hne⟩ := mem_active_finish hk
    refine (hinv.txs k hmem).frame (holdsLock_finish hne) (fun h => ?_) (fun hb hw => ?_)
    · simp only [hview h]
      by_cases hrows : termsOf h (s.txs i).fileTerms = []
      · exact Or.inl (by rw [hrows, List.append_nil])
      · refine Or.inr ⟨fun hnil => hrows (List.append_eq_nil_iff.1 hnil).2, fun hheld => ?_⟩
        exact hne ((hok.own h hrows).unique hheld)
    · -- another writer: this transaction has written nothing
      refine ⟨by simp [TxState.finish, hw, hne], ?_⟩
      have hsnap := hok.snapshot hb
      cases ht : (s.txs i).snapshot with
      | none =>
          simp only [ht] at hsnap
          have hbase := hok.base
          unfold Tx.view
          rw [hbase, hsnap.1, hsnap.2]
          simp
      | some t =>
          simp only [ht] at hsnap
          rw [hw, Option.some.injEq] at hsnap
          exact absurd hsnap.1 hne

theorem txStep_inv (s : TxState) (a : TxAct) (s' : TxState) (hinv : TxInv b s)
    (hstep : txStep b s a = some s') : TxInv b s' := by
  cases a with
  | begin i repo files =>
      simp only [txStep] at hstep
      split_ifs at hstep with hno
      simp only [Option.some.injEq] at hstep
      subst hstep
      rw [not_or] at hno
      refine ⟨hinv.committed, fun k hk => ?_⟩
      by_cases hki : k = i
      · subst hki
        simp only [TxState.set, Function.update_self]
        have hset : ∀ h, Settled s ⟨repo, [], files, .upsert, none, [], []⟩ h := by
          intro h
          by_cases hnone : termsOf h s.committed.fileTerms = []
          · exact Or.inl ⟨hnone, rfl⟩
          · exact Or.inr ⟨hnone, rfl⟩
        refine ⟨fun _ => ⟨rfl, rfl⟩, fun _ => by simp, fun h hh => absurd rfl hh, ?_⟩
        cases files with
        | nil => exact hset
        | cons f rest => exact hset
      · have hmem : k ∈ s.active := by
          rcases List.mem_cons.1 hk with hk' | hk'
          · exact absurd hk' hki
          · exact hk'
        simp only [TxState.set, Function.update_of_ne hki]
        exact (hinv.txs k hmem).frame (fun _ hh => hh) (Beside.of_eq rfl) (fun _ hw => ⟨hw, rfl⟩)
  | exec i now =>
      simp only [txStep] at hstep
      split_ifs at hstep with hi
      exact txExec_inv hinv hi hstep
  | commit i =>
      simp only [txStep] at hstep
      split_ifs at hstep with hi
      simp only [Option.some.injEq] at hstep
      subst hstep
      exact hinv.commit hi.1 hi.2
  | rollback i =>
      simp only [txStep] at hstep
      split_ifs at hstep with hi
      simp only [Option.some.injEq] at hstep
      subst hstep
      exact hinv.rollback

/-- **Term lists are written once and never merged.** On either backend, after any interleaving of
    the statements of any registrations, any of them rolled back, the committed rows of a hash are
    those of the first non-empty list for it in commit order, or none when no such list is
    committed. -/
theorem terms_written_once (b : Backend) (acts : List TxAct) (s : TxState)
    (hrun : Machine.run (txStep b) TxState.fresh acts = some s) (h : FileHash) :
    termsOf h s.committed.fileTerms = match firstList h s.log with
      | none => []
      | some terms => termRows h terms := by
  have hinit : TxInv b TxState.fresh := ⟨fun _ => rfl, fun i hi => by simp [TxState.fresh] at hi⟩
  exact (Machine.run_invariant_of_step txStep_inv hinit hrun).committed h

namespace Sample

/-- Two registrations of one hash with different lists, both under way before either has the lock;
    a third one is rolled back while it inserts. -/
def raceActs : List TxAct :=
  [.begin 0 repo [(hash32 1, [term 2 5, term 3 7])],
    .begin 1 ⟨.model, "bob/data", "main"⟩ [(hash32 1, [term 4 12])], .exec 0 0, .exec 1 0,
    .begin 2 repo [(hash32 9, [term 2 5])], .exec 2 0, .exec 2 0, .exec 2 0, .exec 2 0,
    .exec 1 0, .exec 1 0, .rollback 2, .exec 1 0, .exec 1 0, .commit 1, .exec 0 0, .exec 0 0,
    .commit 0]

end Sample

/-- The registration that got the lock first is the one that is stored. -/
theorem terms_written_once_race : ∃ s,
    Machine.run (txStep .postgres) TxState.fresh Sample.raceActs = some s ∧
      s.log = [(Sample.hash32 1, [Sample.term 4 12]),
        (Sample.hash32 1, [Sample.term 2 5, Sample.term 3 7])] ∧
      ∀ h, termsOf h s.committed.fileTerms = match firstList h s.log with
        | none => []
        | some terms => termRows h terms := by
  have hlog : (Machine.run (txStep .postgres) TxState.fresh Sample.raceActs).map
      (fun s => s.log) = some [(Sample.hash32 1, [Sample.term 4 12]),
        (Sample.hash32 1, [Sample.term 2 5, Sample.term 3 7])] := by
    decide +kernel
  obtain ⟨s, hrun, hs⟩ := Option.map_eq_some_iff.1 hlog
  exact ⟨s, hrun, hs, terms_written_once .postgres Sample.raceActs s hrun⟩

end BaleForGit.Server
