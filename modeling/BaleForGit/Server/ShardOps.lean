import BaleForGit.Server.Requests

set_option autoImplicit false

/-! # A shard upload, operation by operation

`upload_shard` goes through many operations on the two stores: an `xorb_exists` for every CAS block
and every term, one query for the layouts, a transaction for every CAS block, the queries of the
quota check, the put of the shard, and the transaction that registers the files. `shardOp` does the
next one; any of them can fail, and then the request is answered with its error. `run_shard` says
that the operations, when none fails and nothing comes between them, are `uploadShard`. -/

namespace BaleForGit.Server

/-- A check before anything is written: the xorb of a CAS block, or a term. -/
inductive ShardCheck where
  | block (cb : ParsedCasBlock)
  | entry (e : FileTermEntry)

/-- Where a shard upload has got to. -/
inductive ShardPc where
  | idle
  | received (r : ShardRequest)
  | checking (r : ShardRequest) (parsed : ParsedShard) (todo : List ShardCheck)
  | registering (r : ShardRequest) (parsed : ParsedShard)
      (layouts : XorbHash → Option (List XorbFrameRow)) (todo : List ParsedCasBlock)
  | quota (r : ShardRequest) (parsed : ParsedShard)
  | used (r : ShardRequest) (parsed : ParsedShard) (quota : Nat)
  | delta (r : ShardRequest) (parsed : ParsedShard) (quota used : Nat)
  | terms (r : ShardRequest) (parsed : ParsedShard)
  | put (r : ShardRequest) (files : List (FileHash × List FileTerm))
  | register (r : ShardRequest) (files : List (FileHash × List FileTerm))
  | answered (res : Except ApiError Unit)

def shardChecks (parsed : ParsedShard) : List ShardCheck :=
  parsed.casBlocks.map .block ++ parsed.files.flatMap (fun f => f.entries.map .entry)

def runCheck (st : ServerState) : ShardCheck → Except ApiError Unit
  | .block cb => if (st.blobs cb.xorb).isNone then .error (missingXorb cb.xorb) else .ok ()
  | .entry e => checkEntry st e

section Ops

variable (svc : Service)

/-- The next operation of a shard upload. -/
def shardOp (st : ServerState) (pc : ShardPc) : Option (ServerState × ShardPc) :=
  match pc with
  | .idle => none
  | .received r =>
    if r.body.length > maxBodyBytes then
      some (st, .answered (.error (badReq "shard exceeds 64 MiB limit")))
    else match parse r.body with
      | .error e => some (st, .answered (.error (badReq ("malformed shard: " ++ e.display))))
      | .ok parsed => some (st, .checking r parsed (shardChecks parsed))
  | .checking r parsed [] =>
    some (st, .registering r parsed
      (st.db.xorbFrameLayouts (parsed.casBlocks.map (fun cb => cb.xorb))) parsed.casBlocks)
  | .checking r parsed (c :: todo) =>
    match runCheck st c with
    | .error e => some (st, .answered (.error e))
    | .ok _ => some (st, .checking r parsed todo)
  | .registering r parsed _ [] => some (st, .quota r parsed)
  -- `register_xorb` is a transaction of its own, and comes before the quota is looked at
  | .registering r parsed layouts (cb :: todo) =>
    some ({ st with db := st.db.registerXorb (casBlockInfo layouts cb) (casBlockRows cb) r.now },
      .registering r parsed layouts todo)
  | .quota r parsed =>
    match effectiveQuota st.db svc.defaultQuotaBytes r.repo.owner with
    | .error e => some (st, .answered (.error e))
    | .ok none => some (st, .terms r parsed)
    | .ok (some quota) => some (st, .used r parsed quota)
  | .used r parsed quota =>
    match (st.db.storedBytesForOwner r.repo.owner).mapError ApiError.ofCore with
    | .error e => some (st, .answered (.error e))
    | .ok used => some (st, .delta r parsed quota used)
  | .delta r parsed quota used =>
    match (st.db.unaccountedXorbBytesForOwner r.repo.owner
        (parsed.files.flatMap (fun f => f.entries.map (fun e => e.xorb)))).mapError
          ApiError.ofCore with
    | .error e => some (st, .answered (.error e))
    | .ok delta =>
      if saturatingAdd used delta > quota then
        some (st, .answered (.error (quotaExceeded r.repo.owner used quota delta)))
      else some (st, .terms r parsed)
  | .terms r parsed =>
    match filesToRegister parsed with
    | .error e => some (st, .answered (.error e))
    | .ok files => some (st, .put r files)
  | .put r files => some (st.putShard (svc.codec.blake3 r.body) r.body, .register r files)
  -- one transaction for all files of the shard
  | .register r files =>
    some ({ st with db := st.db.registerFiles r.repo files r.now }, .answered (.ok ()))
  | .answered _ => none

/-- The next operation is done, or fails with an error of a store. -/
inductive OpAct where
  | step
  | fail (e : CoreError)

/-- One shard upload on its own. A request that is under way can fail. -/
def soloStep (s : ServerState × ShardPc) (a : OpAct) : Option (ServerState × ShardPc) :=
  match a with
  | .step => shardOp svc s.1 s.2
  | .fail e =>
    match s.2 with
    | .idle => none
    | .answered _ => none
    | _ => some (s.1, .answered (.error (ApiError.ofCore e)))

/-! ## Operations in a row -/

/-- Operations without a failure lead from `s` to `t`. -/
def LeadsTo (s t : ServerState × ShardPc) : Prop :=
  ∃ n, Machine.run (soloStep svc) s (List.replicate n .step) = some t

variable {svc}

theorem LeadsTo.refl (s : ServerState × ShardPc) : LeadsTo svc s s := ⟨0, rfl⟩

theorem LeadsTo.trans {s t u : ServerState × ShardPc} (h : LeadsTo svc s t) (h' : LeadsTo svc t u) :
    LeadsTo svc s u := by
  obtain ⟨m, hm⟩ := h
  obtain ⟨n, hn⟩ := h'
  refine ⟨m + n, ?_⟩
  rw [List.replicate_add, Machine.run_append, hm]
  exact hn

theorem LeadsTo.step {s t u : ServerState × ShardPc} (h : shardOp svc s.1 s.2 = some t)
    (h' : LeadsTo svc t u) : LeadsTo svc s u := by
  refine LeadsTo.trans ⟨1, ?_⟩ h'
  simp only [List.replicate, Machine.run, soloStep, h, Option.bind_some]

theorem LeadsTo.one {s t : ServerState × ShardPc} (h : shardOp svc s.1 s.2 = some t) :
    LeadsTo svc s t :=
  LeadsTo.step h (LeadsTo.refl t)

theorem leadsTo_checks {st : ServerState} {r : ShardRequest} {parsed : ParsedShard}
    {todo : List ShardCheck} (h : ∀ c ∈ todo, runCheck st c = .ok ()) :
    LeadsTo svc (st, .checking r parsed todo) (st, .checking r parsed []) := by
  induction todo with
  | nil => exact LeadsTo.refl _
  | cons c todo ih =>
      refine LeadsTo.step ?_ (ih (fun d hd => h d (List.mem_cons_of_mem c hd)))
      simp only [shardOp, h c List.mem_cons_self]

/-- The first check that fails answers the request. -/
theorem leadsTo_check_error {st : ServerState} {r : ShardRequest} {parsed : ParsedShard}
    {todo : List ShardCheck} {e : ApiError} (h : todo.forM (runCheck st) = .error e) :
    LeadsTo svc (st, .checking r parsed todo) (st, .answered (.error e)) := by
  induction todo with
  | nil => simp [List.forM, pure, Except.pure] at h
  | cons c todo ih =>
      simp only [List.forM, bind, Except.bind] at h
      cases hc : runCheck st c with
      | error e' =>
          simp only [hc, Except.error.injEq] at h
          refine LeadsTo.one ?_
          simp only [shardOp, hc, h]
      | ok _ =>
          simp only [hc] at h
          refine LeadsTo.step ?_ (ih h)
          simp only [shardOp, hc]

theorem leadsTo_blocks (st : ServerState) (r : ShardRequest) (parsed : ParsedShard)
    (layouts : XorbHash → Option (List XorbFrameRow)) (todo : List ParsedCasBlock) :
    LeadsTo svc (st, .registering r parsed layouts todo)
      ({ st with db := todo.foldl (fun d cb =>
        d.registerXorb (casBlockInfo layouts cb) (casBlockRows cb) r.now) st.db },
        .registering r parsed layouts []) := by
  induction todo generalizing st with
  | nil => exact LeadsTo.refl _
  | cons cb todo ih =>
      refine LeadsTo.step rfl ?_
      exact ih { st with db := st.db.registerXorb (casBlockInfo layouts cb) (casBlockRows cb) r.now }

/-! ## The checks together -/

/-- The checks one by one are those of `checkShard`. -/
theorem forM_shardChecks (st : ServerState) (parsed : ParsedShard) :
    (shardChecks parsed).forM (runCheck st) = (do
      parsed.casBlocks.forM (fun cb =>
        if (st.blobs cb.xorb).isNone then .error (missingXorb cb.xorb) else .ok ())
      parsed.files.forM (fun f => f.entries.forM (checkEntry st))) := by
  unfold shardChecks
  rw [Results.forM_append, Results.forM_map, Results.forM_flatMap]
  simp only [Results.forM_map]
  rfl

/-- What the checks decide. -/
theorem checkShard_eq (st : ServerState) (body : List UInt8) :
    checkShard st body = if body.length > maxBodyBytes
      then .error (badReq "shard exceeds 64 MiB limit")
      else match parse body with
        | .error e => .error (badReq ("malformed shard: " ++ e.display))
        | .ok parsed => match (shardChecks parsed).forM (runCheck st) with
          | .error e => .error e
          | .ok _ => .ok parsed := by
  unfold checkShard
  split_ifs with hsize
  · rfl
  · cases parse body with
    | error e => rfl
    | ok parsed =>
        simp only [Except.mapError, bind, Except.bind, forM_shardChecks]
        generalize (parsed.casBlocks.forM (fun cb => if (st.blobs cb.xorb).isNone = true
          then Except.error (missingXorb cb.xorb) else Except.ok ()) : Except ApiError Unit) = blocks
        generalize parsed.files.forM (fun f => f.entries.forM (checkEntry st)) = entries
        cases blocks with
        | error e => rfl
        | ok _ =>
            cases entries with
            | error e => rfl
            | ok _ => rfl

/-- A shard that passes its checks gets to its CAS blocks. -/
theorem leadsTo_registering {st : ServerState} {r : ShardRequest} {parsed : ParsedShard}
    (h : checkShard st r.body = .ok parsed) :
    LeadsTo svc (st, .received r) (st, .registering r parsed
      (st.db.xorbFrameLayouts (parsed.casBlocks.map (fun cb => cb.xorb))) parsed.casBlocks) := by
  rw [checkShard_eq] at h
  split_ifs at h with hsize
  cases hparse : parse r.body with
  | error e => simp [hparse] at h
  | ok got =>
      simp only [hparse] at h
      cases hchecks : (shardChecks got).forM (runCheck st) with
      | error e => simp [hchecks] at h
      | ok _ =>
          simp only [hchecks, Except.ok.injEq] at h
          subst h
          refine LeadsTo.step (t := (st, .checking r got (shardChecks got))) ?_ ?_
          · simp only [shardOp, hsize, if_false, hparse]
          · exact (leadsTo_checks (Results.forM_eq_ok.1 hchecks)).trans (LeadsTo.one rfl)

/-- A shard that fails its checks is answered with their error. -/
theorem leadsTo_rejected {st : ServerState} {r : ShardRequest} {e : ApiError}
    (h : checkShard st r.body = .error e) :
    LeadsTo svc (st, .received r) (st, .answered (.error e)) := by
  rw [checkShard_eq] at h
  by_cases hsize : r.body.length > maxBodyBytes
  · rw [if_pos hsize, Except.error.injEq] at h
    refine LeadsTo.one ?_
    simp only [shardOp, hsize, if_true, h]
  · rw [if_neg hsize] at h
    cases hparse : parse r.body with
    | error e' =>
        simp only [hparse, Except.error.injEq] at h
        refine LeadsTo.one ?_
        simp only [shardOp, hsize, if_false, hparse, h]
    | ok got =>
        simp only [hparse] at h
        cases hchecks : (shardChecks got).forM (runCheck st) with
        | ok _ => simp [hchecks] at h
        | error e' =>
            simp only [hchecks, Except.error.injEq] at h
            refine LeadsTo.step (t := (st, .checking r got (shardChecks got))) ?_ ?_
            · simp only [shardOp, hsize, if_false, hparse]
            · rw [← h]
              exact leadsTo_check_error hchecks

/-! ## The quota check -/

theorem leadsTo_quota (st : ServerState) (r : ShardRequest) (parsed : ParsedShard) :
    LeadsTo svc (st, .quota r parsed)
      (match checkShardQuota svc st.db r.repo.owner parsed.files with
        | .error e => (st, .answered (.error e))
        | .ok _ => (st, .terms r parsed)) := by
  unfold checkShardQuota
  cases hq : effectiveQuota st.db svc.defaultQuotaBytes r.repo.owner with
  | error e =>
      refine LeadsTo.one ?_
      simp only [shardOp, hq, bind, Except.bind]
  | ok quota =>
      cases quota with
      | none =>
          refine LeadsTo.one ?_
          simp only [shardOp, hq, bind, Except.bind]
      | some q =>
          refine LeadsTo.step (t := (st, .used r parsed q)) (by simp only [shardOp, hq]) ?_
          simp only [bind, Except.bind]
          cases hu : (st.db.storedBytesForOwner r.repo.owner).mapError ApiError.ofCore with
          | error e =>
              refine LeadsTo.one ?_
              simp only [shardOp, hu]
          | ok used =>
              refine LeadsTo.step (t := (st, .delta r parsed q used)) (by simp only [shardOp, hu]) ?_
              simp only
              cases hd : (st.db.unaccountedXorbBytesForOwner r.repo.owner (parsed.files.flatMap
                  (fun f => f.entries.map (fun e => e.xorb)))).mapError ApiError.ofCore with
              | error e =>
                  refine LeadsTo.one ?_
                  simp only [shardOp, hd]
              | ok delta =>
                  refine LeadsTo.one ?_
                  simp only [shardOp, hd]
                  split_ifs <;> rfl

/-- **Operations that nothing disturbs are `uploadShard`.** -/
theorem run_shard (svc : Service) (st : ServerState) (r : ShardRequest) :
    LeadsTo svc (st, .received r)
      ((uploadShard svc st r).1, .answered (uploadShard svc st r).2) := by
  rcases uploadShard_cases svc st r with ⟨e, hcheck, hres⟩ | ⟨parsed, hcheck, hres⟩
  · rw [hres]
    exact leadsTo_rejected hcheck
  · refine (leadsTo_registering hcheck).trans ((leadsTo_blocks st r parsed _ _).trans ?_)
    refine LeadsTo.step rfl ((leadsTo_quota _ r parsed).trans ?_)
    have hdb : parsed.casBlocks.foldl (fun d cb => d.registerXorb (casBlockInfo
        (st.db.xorbFrameLayouts (parsed.casBlocks.map (fun cb => cb.xorb))) cb) (casBlockRows cb)
          r.now) st.db = registerCasBlocks st.db parsed.casBlocks r.now := rfl
    simp only [hdb]
    rcases hres with ⟨e, hres, hquota | ⟨hquota, hfiles⟩⟩ | ⟨files, hquota, hfiles, hres⟩
    · rw [hres, hquota]
      exact LeadsTo.refl _
    · rw [hres, hquota]
      refine LeadsTo.one ?_
      simp only [shardOp, hfiles]
    · rw [hres, hquota]
      refine LeadsTo.step (t := ({ st with db := registerCasBlocks st.db parsed.casBlocks r.now },
        .put r files)) (by simp only [shardOp, hfiles]) ?_
      exact LeadsTo.step rfl (LeadsTo.one rfl)

end Ops

end BaleForGit.Server
