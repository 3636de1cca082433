import BaleForGit.Server.Layout
import BaleForGit.Server.UploadShard

set_option autoImplicit false

/-! # Requests one at a time

A server handles xorb uploads, shard uploads and quota changes; `handle` is the state it leaves,
whatever the answer, and `Accepted` says that the answer was 200. A rejected shard upload can leave
rows behind: its CAS blocks are registered before the quota check. `uploadXorb_cases` and
`uploadShard_cases` say once what the two uploads can do. -/

namespace BaleForGit.Server

/-- `set_owner_quota`. -/
def Db.setOwnerQuota (db : Db) (owner : String) (limitBytes : Option UInt64) : Db :=
  match limitBytes with
  | some n => { db with
      ownerQuotas := Table.upsert QuotaRow.owner db.ownerQuotas ⟨owner, asI64 n.toNat⟩ }
  | none => { db with ownerQuotas := db.ownerQuotas.filter (fun q => decide (q.owner ≠ owner)) }

theorem setOwnerQuota_frame (db : Db) (owner : String) (limitBytes : Option UInt64) :
    (db.setOwnerQuota owner limitBytes).xorbs = db.xorbs ∧
      (db.setOwnerQuota owner limitBytes).chunks = db.chunks ∧
      (db.setOwnerQuota owner limitBytes).xorbFrames = db.xorbFrames ∧
      (db.setOwnerQuota owner limitBytes).files = db.files ∧
      (db.setOwnerQuota owner limitBytes).fileTerms = db.fileTerms := by
  cases limitBytes <;> exact ⟨rfl, rfl, rfl, rfl, rfl⟩

inductive Request where
  | xorb (r : XorbRequest)
  | shard (r : ShardRequest)
  | quota (owner : String) (limitBytes : Option UInt64)
deriving DecidableEq

/-- The state after a request. -/
def handle (svc : Service) (st : ServerState) (a : Request) : ServerState :=
  match a with
  | .xorb r =>
    match uploadXorb svc st r with
    | .ok (st', _) => st'
    | .error _ => st
  | .shard r => (uploadShard svc st r).1
  | .quota owner limitBytes => { st with db := st.db.setOwnerQuota owner limitBytes }

/-- The request is answered with success. -/
def Accepted (svc : Service) (st : ServerState) (a : Request) : Prop :=
  match a with
  | .xorb r => ∃ res, uploadXorb svc st r = .ok res
  | .shard r => (uploadShard svc st r).2 = .ok ()
  | .quota _ _ => True

/-- The machine that handles any request. -/
def requestStep (svc : Service) (st : ServerState) (a : Request) : Option ServerState :=
  some (handle svc st a)

/-- A state that requests lead to from the empty server. -/
def Reachable (svc : Service) (st : ServerState) : Prop :=
  ∃ reqs, Machine.run (requestStep svc) ServerState.empty reqs = some st

/-- The owner whose token a request carries. -/
def Request.owner : Request → Option String
  | .xorb r => some r.repo.owner
  | .shard r => some r.repo.owner
  | .quota _ _ => none

/-- **Invariants of reachable states.** -/
theorem Reachable.invariant {svc : Service} (inv : ServerState → Prop)
    (hinit : inv ServerState.empty) (hstep : ∀ st a, inv st → inv (handle svc st a))
    {st : ServerState} (h : Reachable svc st) : inv st := by
  obtain ⟨reqs, hrun⟩ := h
  refine Machine.run_invariant_of_step (fun s a s' hs hs' => ?_) hinit hrun
  simp only [requestStep, Option.some.injEq] at hs'
  rw [← hs']
  exact hstep s a hs

/-- A run of requests always has an end. -/
theorem run_requestStep (svc : Service) (reqs : List Request) (st : ServerState) :
    Machine.run (requestStep svc) st reqs = some (reqs.foldl (handle svc) st) := by
  induction reqs generalizing st with
  | nil => rfl
  | cons a reqs ih =>
      simp only [Machine.run, requestStep, Option.bind_some, List.foldl_cons]
      exact ih (handle svc st a)

theorem admissible_requestStep_cons {svc : Service} {ok : ServerState → Request → Prop}
    {st : ServerState} {a : Request} {reqs : List Request} :
    Machine.Admissible (requestStep svc) ok st (a :: reqs) ↔
      ok st a ∧ Machine.Admissible (requestStep svc) ok (handle svc st a) reqs := by
  simp [Machine.Admissible, requestStep]

/-! ## What an upload can do -/

section Cases

variable {svc : Service} {st : ServerState}

/-- A shard upload is rejected before it writes, rejected with its CAS blocks registered, or
    accepted. -/
theorem uploadShard_cases (svc : Service) (st : ServerState) (r : ShardRequest) :
    (∃ e, checkShard st r.body = .error e ∧ uploadShard svc st r = (st, .error e)) ∨
    ∃ parsed, checkShard st r.body = .ok parsed ∧
      let db₁ := registerCasBlocks st.db parsed.casBlocks r.now
      ((∃ e, uploadShard svc st r = ({ st with db := db₁ }, .error e) ∧
          (checkShardQuota svc db₁ r.repo.owner parsed.files = .error e ∨
            (checkShardQuota svc db₁ r.repo.owner parsed.files = .ok () ∧
              filesToRegister parsed = .error e))) ∨
        ∃ files, checkShardQuota svc db₁ r.repo.owner parsed.files = .ok () ∧
          filesToRegister parsed = .ok files ∧
          uploadShard svc st r = ({ ({ st with db := db₁ } : ServerState).putShard
            (svc.codec.blake3 r.body) r.body with
              db := db₁.registerFiles r.repo files r.now }, .ok ())) := by
  unfold uploadShard
  cases hcheck : checkShard st r.body with
  | error e => exact Or.inl ⟨e, rfl, rfl⟩
  | ok parsed =>
      refine Or.inr ⟨parsed, rfl, ?_⟩
      simp only
      cases hquota : checkShardQuota svc (registerCasBlocks st.db parsed.casBlocks r.now)
          r.repo.owner parsed.files with
      | error e => exact Or.inl ⟨e, rfl, Or.inl rfl⟩
      | ok _ =>
          cases hfiles : filesToRegister parsed with
          | error e => exact Or.inl ⟨e, rfl, Or.inr ⟨rfl, rfl⟩⟩
          | ok files => exact Or.inr ⟨files, rfl, rfl, rfl⟩

/-- **What an accepted shard upload does.** -/
theorem accepted_shard {r : ShardRequest} (h : Accepted svc st (.shard r)) :
    ∃ parsed, checkShard st r.body = .ok parsed ∧ filesToRegister parsed = .ok r.files ∧
      checkShardQuota svc (registerCasBlocks st.db parsed.casBlocks r.now) r.repo.owner
        parsed.files = .ok () ∧
      handle svc st (.shard r) = { ({ st with
          db := registerCasBlocks st.db parsed.casBlocks r.now } : ServerState).putShard
            (svc.codec.blake3 r.body) r.body with
        db := (registerCasBlocks st.db parsed.casBlocks r.now).registerFiles r.repo r.files
          r.now } := by
  simp only [Accepted] at h
  simp only [handle]
  rcases uploadShard_cases svc st r with ⟨e, -, hres⟩ | ⟨parsed, hcheck, hres⟩
  · rw [hres] at h
    simp at h
  · rcases hres with ⟨e, hres, -⟩ | ⟨files, hquota, hfiles, hres⟩
    · rw [hres] at h
      simp at h
    · have hsame : r.files = files := by
        unfold ShardRequest.files
        simp only [(checkShard_ok hcheck).1, hfiles]
      rw [hsame]
      exact ⟨parsed, hcheck, hfiles, hquota, by rw [hres]⟩

/-- The checks of `upload_shard` pass, on the state before it. -/
def PassesChecks (svc : Service) (st : ServerState) (r : ShardRequest) : Prop :=
  ∃ parsed files, checkShard st r.body = .ok parsed ∧
    checkShardQuota svc (registerCasBlocks st.db parsed.casBlocks r.now) r.repo.owner
      parsed.files = .ok () ∧ filesToRegister parsed = .ok files

theorem accepted_iff_passesChecks {r : ShardRequest} :
    Accepted svc st (.shard r) ↔ PassesChecks svc st r := by
  constructor
  · intro hacc
    obtain ⟨parsed, hcheck, hfiles, hquota, -⟩ := accepted_shard hacc
    exact ⟨parsed, r.files, hcheck, hquota, hfiles⟩
  · rintro ⟨parsed, files, hcheck, hquota, hfiles⟩
    simp only [Accepted, uploadShard, hcheck, hquota, hfiles]

/-- A rejected shard upload leaves files and terms as they are. -/
theorem rejected_shard_tables {r : ShardRequest} (h : ¬ Accepted svc st (.shard r)) :
    (handle svc st (.shard r)).db.files = st.db.files ∧
      (handle svc st (.shard r)).db.fileTerms = st.db.fileTerms := by
  simp only [Accepted] at h
  simp only [handle]
  rcases uploadShard_cases svc st r with ⟨e, -, hres⟩ | ⟨parsed, -, hres⟩
  · rw [hres]
    exact ⟨rfl, rfl⟩
  · rcases hres with ⟨e, hres, -⟩ | ⟨files, -, -, hres⟩
    · rw [hres]
      obtain ⟨hfiles, hterms, -, -⟩ := registerCasBlocks_frame st.db parsed.casBlocks r.now
      exact ⟨hfiles, hterms⟩
    · rw [hres] at h
      exact absurd rfl h

/-- **What a request does to files and terms**: nothing, unless it is an accepted shard, which
    registers its files. -/
theorem handle_tables (svc : Service) (st : ServerState) (a : Request) :
    ((handle svc st a).db.files = st.db.files ∧
      (handle svc st a).db.fileTerms = st.db.fileTerms) ∨
    ∃ r db, a = .shard r ∧ Accepted svc st (.shard r) ∧ db.files = st.db.files ∧
      db.fileTerms = st.db.fileTerms ∧
      (handle svc st a).db = Db.registerFiles db r.repo r.files r.now := by
  cases a with
  | xorb r =>
      simp only [handle]
      cases hup : uploadXorb svc st r with
      | error e => exact Or.inl ⟨rfl, rfl⟩
      | ok res => exact Or.inl (uploadXorb_tables hup)
  | shard r =>
      by_cases hacc : Accepted svc st (.shard r)
      · obtain ⟨parsed, -, -, -, hres⟩ := accepted_shard hacc
        obtain ⟨hfiles, hterms, -, -⟩ := registerCasBlocks_frame st.db parsed.casBlocks r.now
        exact Or.inr ⟨r, registerCasBlocks st.db parsed.casBlocks r.now, rfl, hacc, hfiles, hterms,
          by rw [hres]⟩
      · exact Or.inl (rejected_shard_tables hacc)
  | quota owner limit =>
      obtain ⟨-, -, -, hfiles, hterms⟩ := setOwnerQuota_frame st.db owner limit
      exact Or.inl ⟨hfiles, hterms⟩

end Cases

/-! ## Sample shards -/

namespace Sample

/-- An entry of a shard: a repeated byte for the hash, and four numbers. -/
def entry (h a b c d : UInt8) : List UInt8 :=
  List.replicate 32 h ++ [a, 0, 0, 0, b, 0, 0, 0, c, 0, 0, 0, d, 0, 0, 0]

/-- A file with terms `(xorb, unpacked bytes, start, end)`. -/
def file (h : UInt8) (terms : List (UInt8 × UInt8 × UInt8 × UInt8)) : List UInt8 :=
  entry h 0 (UInt8.ofNat terms.length) 0 0 ++
    terms.flatMap (fun t => entry t.1 0 t.2.1 t.2.2.1 t.2.2.2)

/-- A CAS block with chunks `(chunk, start, unpacked bytes)`. -/
def casBlock (x : UInt8) (chunks : List (UInt8 × UInt8 × UInt8)) : List UInt8 :=
  entry x 0 (UInt8.ofNat chunks.length) 0 0 ++ chunks.flatMap (fun c => entry c.1 c.2.1 c.2.2 0 0)

def shard (files blocks : List (List UInt8)) : List UInt8 :=
  List.replicate 32 0 ++ [2, 0, 0, 0, 0, 0, 0, 0] ++ List.replicate 8 0 ++ files.flatten ++
    entry 0xff 0 0 0 0 ++ blocks.flatten ++ entry 0xff 0 0 0 0

/-- One chunk of one byte, stored as it is. -/
def byteUpload (b : UInt8) : XorbRequest := ⟨repo, hash32 b, [0, 1, 0, 0, 0, 1, 0, 0, b]⟩

def bob : RepoRef := ⟨.model, "bob/data", "main"⟩

/-- The state after some requests. -/
def after (reqs : List Request) : ServerState := reqs.foldl (handle service) ServerState.empty

theorem run_after (reqs : List Request) :
    Machine.run (requestStep service) ServerState.empty reqs = some (after reqs) :=
  run_requestStep service reqs ServerState.empty

end Sample

end BaleForGit.Server
