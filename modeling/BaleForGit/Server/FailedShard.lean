import BaleForGit.Server.Quota
import BaleForGit.Server.ShardOps

set_option autoImplicit false

/-! # What a failed shard upload leaves behind

Wherever a shard upload fails, files and terms are as before: they are written by its last operation.
But every CAS block is registered by a transaction of its own, before the quota check, and the
accounting queries read those rows. `AddsNoBytes` is the condition that no row among them has bytes
and is for a xorb that files refer to already. -/

namespace BaleForGit.Server

/-- The queries that clients and forges see. -/
structure SameObservables (db db' : Db) : Prop where
  fileInRepo : ∀ h repoId, db'.fileInRepo h repoId = db.fileInRepo h repoId
  lookupFile : ∀ pick h, db'.lookupFile pick h = db.lookupFile pick h
  rawOwner : ∀ owner, db'.rawBytesForOwner owner = db.rawBytesForOwner owner
  rawRepo : ∀ repoId, db'.rawBytesForRepo repoId = db.rawBytesForRepo repoId
  storedOwner : ∀ owner, db'.storedBytesForOwner owner = db.storedBytesForOwner owner
  storedRepo : ∀ repoId, db'.storedBytesForRepo repoId = db.storedBytesForRepo repoId
  exclusive : ∀ repoId,
    db'.exclusiveStoredBytesForRepo repoId = db.exclusiveStoredBytesForRepo repoId

/-- The rows that the CAS blocks add leave a sum alone: they have no bytes in it, or it has
    overflown. -/
def Quiet (db : Db) (blocks : List ParsedCasBlock) (now : Int) (p : XorbHash → Bool) : Prop :=
  9223372036854775808 ≤ db.diskBytes p ∨ newBytes db blocks now p = 0

/-- If the shard passes its checks, the rows of its CAS blocks leave all sums over xorbs that files
    refer to alone. -/
def AddsNoBytes (st : ServerState) (r : ShardRequest) : Prop :=
  ∀ parsed, checkShard st r.body = .ok parsed →
    (∀ owner, Quiet st.db parsed.casBlocks r.now
      (fun x => decide (x ∈ st.db.xorbsOfOwner owner))) ∧
    (∀ repoId, Quiet st.db parsed.casBlocks r.now
      (fun x => decide (x ∈ st.db.xorbsOfRepo repoId))) ∧
    ∀ repoId, Quiet st.db parsed.casBlocks r.now (fun x =>
      decide (x ∈ st.db.xorbsOfRepo repoId) && decide (x ∉ st.db.xorbsOfSiblings repoId))

/-! ## Some of the CAS blocks -/

/-- The first blocks of a shard registered. -/
def registerSome (db : Db) (all done : List ParsedCasBlock) (now : Int) : Db :=
  done.foldl (fun d cb => d.registerXorb
    (casBlockInfo (db.xorbFrameLayouts (all.map (fun cb => cb.xorb))) cb) (casBlockRows cb) now) db

theorem registerSome_frame (db : Db) (all done : List ParsedCasBlock) (now : Int) :
    (registerSome db all done now).files = db.files ∧
      (registerSome db all done now).fileTerms = db.fileTerms ∧
      (registerSome db all done now).xorbs = Table.insertAll XorbRow.key db.xorbs
        (done.map (fun cb =>
          ⟨casBlockInfo (db.xorbFrameLayouts (all.map (fun cb => cb.xorb))) cb, now⟩)) := by
  unfold registerSome
  generalize db.xorbFrameLayouts (all.map (fun cb => cb.xorb)) = layouts
  induction done generalizing db with
  | nil => exact ⟨rfl, rfl, rfl⟩
  | cons cb done ih =>
      rw [List.foldl_cons, List.map_cons, Table.insertAll_cons]
      exact ih (db.registerXorb (casBlockInfo layouts cb) (casBlockRows cb) now)

/-- The first blocks add no more than all of them. -/
theorem diskBytes_registerSome (db : Db) (done rest : List ParsedCasBlock) (now : Int)
    (p : XorbHash → Bool) :
    ∃ n ≤ newBytes db (done ++ rest) now p,
      (registerSome db (done ++ rest) done now).diskBytes p = db.diskBytes p + n := by
  obtain ⟨-, -, hxorbs⟩ := registerSome_frame db (done ++ rest) done now
  refine ⟨Table.sumOn XorbRow.diskSize (fun r => p r.info.xorb)
    (Table.fresh XorbRow.key db.xorbs (done.map (fun cb =>
      ⟨casBlockInfo (db.xorbFrameLayouts ((done ++ rest).map (fun cb => cb.xorb))) cb, now⟩))),
    ?_, ?_⟩
  · have hsplit : casRows db (done ++ rest) now =
        done.map (fun cb =>
          ⟨casBlockInfo (db.xorbFrameLayouts ((done ++ rest).map (fun cb => cb.xorb))) cb, now⟩) ++
        rest.map (fun cb =>
          ⟨casBlockInfo (db.xorbFrameLayouts ((done ++ rest).map (fun cb => cb.xorb))) cb, now⟩) :=
      List.map_append
    unfold newBytes
    rw [hsplit, Table.fresh_append, Table.sumOn_append]
    exact Nat.le_add_right _ _
  · unfold Db.diskBytes
    rw [hxorbs, Table.insertAll_eq_append_fresh, Table.sumOn_append]

/-! ## Sums that stay -/

theorem sumI64_add_eq_iff {label : String} {db db' : Db} {p : XorbHash → Bool} {n : Nat}
    (h : db'.diskBytes p = db.diskBytes p + n) :
    sumI64 label ((db'.xorbs.filter (fun r => p r.info.xorb)).map
        (fun r => r.info.numBytesOnDisk.toNat)) =
      sumI64 label ((db.xorbs.filter (fun r => p r.info.xorb)).map
        (fun r => r.info.numBytesOnDisk.toNat)) ↔
      9223372036854775808 ≤ db.diskBytes p ∨ n = 0 := by
  have hdef : ∀ d : Db, ((d.xorbs.filter (fun r => p r.info.xorb)).map
      (fun r => r.info.numBytesOnDisk.toNat)).sum = d.diskBytes p := fun _ => rfl
  rw [sumI64_eq_iff, hdef, hdef, h]
  omega

/-- **What rows added to `xorbs` change**: the sums they have bytes in, and nothing else. -/
theorem sameObservables_iff {db db' : Db} (hfiles : db'.files = db.files)
    (hterms : db'.fileTerms = db.fileTerms) (add : (XorbHash → Bool) → Nat)
    (hadd : ∀ p, db'.diskBytes p = db.diskBytes p + add p) :
    SameObservables db db' ↔
      (∀ owner, 9223372036854775808 ≤ db.diskBytes (fun x => decide (x ∈ db.xorbsOfOwner owner)) ∨
        add (fun x => decide (x ∈ db.xorbsOfOwner owner)) = 0) ∧
      (∀ repoId, 9223372036854775808 ≤
          db.diskBytes (fun x => decide (x ∈ db.xorbsOfRepo repoId)) ∨
        add (fun x => decide (x ∈ db.xorbsOfRepo repoId)) = 0) ∧
      ∀ repoId, 9223372036854775808 ≤ db.diskBytes (fun x =>
          decide (x ∈ db.xorbsOfRepo repoId) && decide (x ∉ db.xorbsOfSiblings repoId)) ∨
        add (fun x =>
          decide (x ∈ db.xorbsOfRepo repoId) && decide (x ∉ db.xorbsOfSiblings repoId)) = 0 := by
  have howner : ∀ owner, db'.storedBytesForOwner owner = db.storedBytesForOwner owner ↔
      9223372036854775808 ≤ db.diskBytes (fun x => decide (x ∈ db.xorbsOfOwner owner)) ∨
        add (fun x => decide (x ∈ db.xorbsOfOwner owner)) = 0 := by
    intro owner
    unfold Db.storedBytesForOwner
    rw [xorbsOfOwner_congr hfiles hterms]
    exact sumI64_add_eq_iff (hadd (fun x => decide (x ∈ db.xorbsOfOwner owner)))
  have hrepo : ∀ repoId, db'.storedBytesForRepo repoId = db.storedBytesForRepo repoId ↔
      9223372036854775808 ≤ db.diskBytes (fun x => decide (x ∈ db.xorbsOfRepo repoId)) ∨
        add (fun x => decide (x ∈ db.xorbsOfRepo repoId)) = 0 := by
    intro repoId
    have hsame : db'.xorbsOfRepo repoId = db.xorbsOfRepo repoId := xorbsWhere_congr hfiles hterms _
    unfold Db.storedBytesForRepo
    rw [hsame]
    exact sumI64_add_eq_iff (hadd (fun x => decide (x ∈ db.xorbsOfRepo repoId)))
  have hexcl : ∀ repoId,
      db'.exclusiveStoredBytesForRepo repoId = db.exclusiveStoredBytesForRepo repoId ↔
      9223372036854775808 ≤ db.diskBytes (fun x =>
          decide (x ∈ db.xorbsOfRepo repoId) && decide (x ∉ db.xorbsOfSiblings repoId)) ∨
        add (fun x =>
          decide (x ∈ db.xorbsOfRepo repoId) && decide (x ∉ db.xorbsOfSiblings repoId)) = 0 := by
    intro repoId
    have hsame : db'.xorbsOfRepo repoId = db.xorbsOfRepo repoId := xorbsWhere_congr hfiles hterms _
    have hother : db'.xorbsOfSiblings repoId = db.xorbsOfSiblings repoId :=
      xorbsWhere_congr hfiles hterms _
    unfold Db.exclusiveStoredBytesForRepo
    rw [hsame, hother]
    exact sumI64_add_eq_iff (hadd (fun x =>
      decide (x ∈ db.xorbsOfRepo repoId) && decide (x ∉ db.xorbsOfSiblings repoId)))
  constructor
  · intro hsame
    exact ⟨fun o => (howner o).1 (hsame.storedOwner o), fun i => (hrepo i).1 (hsame.storedRepo i),
      fun i => (hexcl i).1 (hsame.exclusive i)⟩
  · intro hquiet
    refine ⟨fun h i => ?_, fun pick h => ?_, fun o => ?_, fun i => ?_,
      fun o => (howner o).2 (hquiet.1 o), fun i => (hrepo i).2 (hquiet.2.1 i),
      fun i => (hexcl i).2 (hquiet.2.2 i)⟩
    · unfold Db.fileInRepo
      rw [hfiles]
    · unfold Db.lookupFile Db.fileTermList
      rw [hfiles, hterms]
    · unfold Db.rawBytesForOwner
      rw [hfiles]
    · unfold Db.rawBytesForRepo
      rw [hfiles]

/-! ## Where an upload can fail -/

/-- What an upload that is not answered with success has done to the database: it has registered the
    first of its CAS blocks, or none. -/
def Begun (st : ServerState) (r : ShardRequest) (db : Db) : Prop :=
  db = st.db ∨ ∃ parsed done rest, checkShard st r.body = .ok parsed ∧
    parsed.casBlocks = done ++ rest ∧ db = registerSome st.db parsed.casBlocks done r.now

/-- All CAS blocks are registered. -/
def BlocksDone (st : ServerState) (r : ShardRequest) (parsed : ParsedShard) (db : Db) : Prop :=
  checkShard st r.body = .ok parsed ∧
    db = registerSome st.db parsed.casBlocks parsed.casBlocks r.now

/-- Where the operations of one upload can be. -/
def SoloInv (st : ServerState) (r : ShardRequest) (s : ServerState × ShardPc) : Prop :=
  match s.2 with
  | .idle => False
  | .received r' => s.1 = st ∧ r' = r
  | .checking r' parsed todo => s.1 = st ∧ r' = r ∧ ¬ r.body.length > maxBodyBytes ∧
      parse r.body = .ok parsed ∧
      ∃ done, shardChecks parsed = done ++ todo ∧ ∀ c ∈ done, runCheck st c = .ok ()
  | .registering r' parsed layouts todo => r' = r ∧ checkShard st r.body = .ok parsed ∧
      layouts = st.db.xorbFrameLayouts (parsed.casBlocks.map (fun cb => cb.xorb)) ∧
      ∃ done, parsed.casBlocks = done ++ todo ∧
        s.1.db = registerSome st.db parsed.casBlocks done r.now
  | .quota r' parsed => r' = r ∧ BlocksDone st r parsed s.1.db
  | .used r' parsed _ => r' = r ∧ BlocksDone st r parsed s.1.db
  | .delta r' parsed _ _ => r' = r ∧ BlocksDone st r parsed s.1.db
  | .terms r' parsed => r' = r ∧ BlocksDone st r parsed s.1.db
  | .put r' _ => r' = r ∧ ∃ parsed, BlocksDone st r parsed s.1.db
  | .register r' _ => r' = r ∧ ∃ parsed, BlocksDone st r parsed s.1.db
  | .answered (.error _) => Begun st r s.1.db
  | .answered (.ok _) => True

theorem BlocksDone.begun {st : ServerState} {r : ShardRequest} {parsed : ParsedShard} {db : Db}
    (h : BlocksDone st r parsed db) : Begun st r db :=
  Or.inr ⟨parsed, parsed.casBlocks, [], h.1, (List.append_nil _).symm, h.2⟩

/-- An upload that is under way has done no more than register CAS blocks. -/
theorem SoloInv.begun {st : ServerState} {r : ShardRequest} {s : ServerState × ShardPc}
    (h : SoloInv st r s) (hok : ∀ u, s.2 ≠ .answered (.ok u)) : Begun st r s.1.db := by
  unfold SoloInv at h
  cases hpc : s.2 with
  | idle => simp [hpc] at h
  | received r' =>
      simp only [hpc] at h
      exact Or.inl (by rw [h.1])
  | checking r' parsed todo =>
      simp only [hpc] at h
      exact Or.inl (by rw [h.1])
  | registering r' parsed layouts todo =>
      simp only [hpc] at h
      obtain ⟨-, hcheck, -, done, hsplit, hdb⟩ := h
      exact Or.inr ⟨parsed, done, todo, hcheck, hsplit, hdb⟩
  | quota r' parsed =>
      simp only [hpc] at h
      exact h.2.begun
  | used r' parsed q =>
      simp only [hpc] at h
      exact h.2.begun
  | delta r' parsed q u =>
      simp only [hpc] at h
      exact h.2.begun
  | terms r' parsed =>
      simp only [hpc] at h
      exact h.2.begun
  | put r' files =>
      simp only [hpc] at h
      exact h.2.choose_spec.begun
  | register r' files =>
      simp only [hpc] at h
      exact h.2.choose_spec.begun
  | answered res =>
      cases res with
      | ok u => exact absurd hpc (hok u)
      | error e =>
          simp only [hpc] at h
          exact h

theorem soloStep_inv {svc : Service} {st : ServerState} {r : ShardRequest}
    (s : ServerState × ShardPc) (a : OpAct) (s' : ServerState × ShardPc) (h : SoloInv st r s)
    (hstep : soloStep svc s a = some s') : SoloInv st r s' := by
  obtain ⟨cur, pc⟩ := s
  cases a with
  | fail e =>
      have hbegun : (∀ u, pc ≠ .answered (.ok u)) → Begun st r cur.db := h.begun
      simp only [soloStep] at hstep
      split at hstep
      · simp at hstep
      · simp at hstep
      · next hidle hans =>
          obtain rfl := Option.some.inj hstep
          exact hbegun (fun u hu => hans _ hu)
  | step =>
      simp only [soloStep] at hstep
      cases pc with
      | idle => simp [shardOp] at hstep
      | received r' =>
          obtain ⟨rfl, rfl⟩ := h
          simp only [shardOp] at hstep
          split_ifs at hstep with hsize
          · obtain rfl := Option.some.inj hstep
            exact Or.inl rfl
          · split at hstep
            · obtain rfl := Option.some.inj hstep
              exact Or.inl rfl
            · next parsed hparse =>
                obtain rfl := Option.some.inj hstep
                exact ⟨rfl, rfl, hsize, hparse, [], rfl, by simp⟩
      | checking r' parsed todo =>
          -- the checks made so far are a prefix of all checks, so the last one completes `checkShard`
          obtain ⟨rfl, rfl, hsize, hparse, done, hsplit, hdone⟩ := h
          cases todo with
          | nil =>
              simp only [shardOp, Option.some.injEq] at hstep
              subst hstep
              have hcheck : checkShard cur r'.body = .ok parsed := by
                rw [checkShard_eq, if_neg hsize]
                simp only [hparse]
                rw [hsplit, List.append_nil, Results.forM_eq_ok.2 hdone]
              exact ⟨rfl, hcheck, rfl, [], rfl, rfl⟩
          | cons c todo =>
              simp only [shardOp] at hstep
              split at hstep
              · obtain rfl := Option.some.inj hstep
                exact Or.inl rfl
              · next hc =>
                  obtain rfl := Option.some.inj hstep
                  refine ⟨rfl, rfl, hsize, hparse, done ++ [c], by simp [hsplit], fun d hd => ?_⟩
                  rcases List.mem_append.1 hd with hd | hd
                  · exact hdone d hd
                  · rw [List.mem_singleton.1 hd]
                    exact hc
      | registering r' parsed layouts todo =>
          -- one transaction for each block: a failure here leaves the blocks in `done`
          obtain ⟨rfl, hcheck, rfl, done, hsplit, hdb⟩ := h
          cases todo with
          | nil =>
              simp only [shardOp, Option.some.injEq] at hstep
              subst hstep
              rw [List.append_nil] at hsplit
              exact ⟨rfl, hcheck, by rw [hdb, ← hsplit]⟩
          | cons cb todo =>
              simp only [shardOp, Option.some.injEq] at hstep
              subst hstep
              refine ⟨rfl, hcheck, rfl, done ++ [cb], by simp [hsplit], ?_⟩
              unfold registerSome at hdb ⊢
              rw [List.foldl_append, ← hdb]
              rfl
      | quota r' parsed =>
          simp only [shardOp] at hstep
          split at hstep <;> obtain rfl := Option.some.inj hstep
          · exact h.2.begun
          · exact h
          · exact h
      | used r' parsed q =>
          simp only [shardOp] at hstep
          split at hstep <;> obtain rfl := Option.some.inj hstep
          · exact h.2.begun
          · exact h
      | delta r' parsed q u =>
          simp only [shardOp] at hstep
          split at hstep
          · obtain rfl := Option.some.inj hstep
            exact h.2.begun
          · split_ifs at hstep <;> obtain rfl := Option.some.inj hstep
            · exact h.2.begun
            · exact h
      | terms r' parsed =>
          simp only [shardOp] at hstep
          split at hstep <;> obtain rfl := Option.some.inj hstep
          · exact h.2.begun
          · exact ⟨h.1, parsed, h.2⟩
      | put r' files =>
          simp only [shardOp, Option.some.injEq] at hstep
          subst hstep
          exact h
      | register r' files =>
          -- the last operation cannot fail any more
          simp only [shardOp, Option.some.injEq] at hstep
          subst hstep
          trivial
      | answered res => simp [shardOp] at hstep

/-- **A failed shard upload changes nothing observable exactly when its CAS blocks add no bytes.**
    In every state, whatever the body, and wherever the upload ends in an error. -/
theorem failed_shard_unchanged_iff (svc : Service) (st : ServerState) (r : ShardRequest) :
    (∀ acts s e, Machine.run (soloStep svc) (st, .received r) acts = some (s, .answered (.error e)) →
        SameObservables st.db s.db) ↔ AddsNoBytes st r := by
  constructor
  · intro hall parsed hcheck
    -- the query of the quota fails, with all CAS blocks registered
    have hblocks : LeadsTo svc (st, .received r)
        ({ st with db := registerCasBlocks st.db parsed.casBlocks r.now }, .registering r parsed
          (st.db.xorbFrameLayouts (parsed.casBlocks.map (fun cb => cb.xorb))) []) :=
      (leadsTo_registering hcheck).trans (leadsTo_blocks st r parsed _ parsed.casBlocks)
    obtain ⟨n, hn⟩ := hblocks
    have hsame := hall (List.replicate n .step ++ [.fail (.internal "")]) _ _ (by
      rw [Machine.run_append, hn]
      rfl)
    have hframe := registerCasBlocks_frame st.db parsed.casBlocks r.now
    exact (sameObservables_iff hframe.1 hframe.2.1 _
      (diskBytes_registerCasBlocks st.db parsed.casBlocks r.now)).1 hsame
  · intro hquiet acts s e hrun
    have hinit : SoloInv st r (st, .received r) := ⟨rfl, rfl⟩
    have hinv : SoloInv st r (s, .answered (.error e)) :=
      Machine.run_invariant_of_step soloStep_inv hinit hrun
    rcases hinv with hdb | ⟨parsed, done, rest, hcheck, hsplit, hdb⟩
    · rw [hdb]
      exact ⟨fun _ _ => rfl, fun _ _ => rfl, fun _ => rfl, fun _ => rfl, fun _ => rfl,
        fun _ => rfl, fun _ => rfl⟩
    · obtain ⟨hfiles, hterms, -⟩ := registerSome_frame st.db parsed.casBlocks done r.now
      have hsome : ∀ p, ∃ n ≤ newBytes st.db parsed.casBlocks r.now p,
          (registerSome st.db parsed.casBlocks done r.now).diskBytes p =
            st.db.diskBytes p + n := by
        rw [hsplit]
        exact diskBytes_registerSome st.db done rest r.now
      choose add hle hadd using hsome
      obtain ⟨howner, hrepo, hexcl⟩ := hquiet parsed hcheck
      have hsub : ∀ p, Quiet st.db parsed.casBlocks r.now p →
          9223372036854775808 ≤ st.db.diskBytes p ∨ add p = 0 := by
        intro p hp
        rcases hp with hover | hzero
        · exact Or.inl hover
        · exact Or.inr (Nat.le_zero.1 (hzero ▸ hle p))
      rw [hdb]
      exact (sameObservables_iff hfiles hterms add hadd).2
        ⟨fun o => hsub _ (howner o), fun i => hsub _ (hrepo i), fun i => hsub _ (hexcl i)⟩

/-- **A shard that is over quota adds bytes to its owner**: the file is there, its xorbs count
    nothing, and the CAS blocks of the rejected shard make them count. -/
theorem rejected_shard_adds_bytes :
    ¬ ∀ (st : ServerState) (r : ShardRequest) (acts : List OpAct) (s : ServerState) (e : ApiError),
      Reachable (Sample.quotaService 12) st →
      Machine.run (soloStep (Sample.quotaService 12)) (st, .received r) acts =
        some (s, .answered (.error e)) →
      SameObservables st.db s.db := by
  intro hall
  have hbefore : ((Sample.twoXorbs []).foldl (handle (Sample.quotaService 12))
      ServerState.empty).db.ownerBytes "alice" = 0 := by decide +kernel
  have hafter : (uploadShard (Sample.quotaService 12) ((Sample.twoXorbs []).foldl
      (handle (Sample.quotaService 12)) ServerState.empty)
        ⟨Sample.repo, Sample.shard [] Sample.twoBlocks, 0⟩).1.db.ownerBytes "alice" = 18 := by
    decide +kernel
  have hrejected : (uploadShard (Sample.quotaService 12) ((Sample.twoXorbs []).foldl
      (handle (Sample.quotaService 12)) ServerState.empty)
        ⟨Sample.repo, Sample.shard [] Sample.twoBlocks, 0⟩).2.isOk = false := by
    decide +kernel
  have hreach : Reachable (Sample.quotaService 12) ((Sample.twoXorbs []).foldl
      (handle (Sample.quotaService 12)) ServerState.empty) :=
    ⟨Sample.twoXorbs [], run_requestStep _ _ _⟩
  generalize (Sample.twoXorbs []).foldl (handle (Sample.quotaService 12)) ServerState.empty = st
    at hbefore hafter hrejected hreach
  generalize (⟨Sample.repo, Sample.shard [] Sample.twoBlocks, 0⟩ : ShardRequest) = r
    at hafter hrejected
  obtain ⟨n, hn⟩ := run_shard (Sample.quotaService 12) st r
  cases hres : (uploadShard (Sample.quotaService 12) st r).2 with
  | ok u => simp [hres, Except.isOk, Except.toBool] at hrejected
  | error e =>
      rw [hres] at hn
      have hsame := (hall st r _ _ e hreach hn).storedOwner "alice"
      rw [Db.storedBytesForOwner_eq, Db.storedBytesForOwner_eq, hbefore, hafter] at hsame
      simp at hsame

end BaleForGit.Server
