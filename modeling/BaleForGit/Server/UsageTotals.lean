import Mathlib.Algebra.BigOperators.Ring.Finset
import BaleForGit.Library.Groups
import BaleForGit.Server.HttpAuthority
import BaleForGit.Server.Independence
import BaleForGit.Server.Usage

set_option autoImplicit false

/-! # Usage figures (`get_owner_usage`, `get_repo_usage`)

The figures of an owner against those of its repositories, as the two usage routes answer them in one
state. Raw bytes are counted per file row, and every row is in one repository. Stored bytes are
counted per xorb, and repositories of one owner share xorbs: the owner stores no more than its
repositories together, and no less than what each of them has for itself. -/

namespace BaleForGit.Server

/-! ## Repositories of an owner -/

theorem ownerOfRepoId_of_name {owner : String} (h : '/' ∉ owner.toList) (name : String) :
    ownerOfRepoId (owner ++ "/" ++ name) = owner := by
  unfold ownerOfRepoId
  rw [String.toList_append, String.toList_append, List.append_assoc, List.takeWhile_append_of_pos]
  · have hslash : ("/".toList ++ name.toList).takeWhile (fun c => decide (c ≠ '/')) = [] := rfl
    rw [hslash, List.append_nil, String.ofList_toList]
  · intro c hc
    exact decide_eq_true (fun heq => h (heq ▸ hc))

theorem repoId_injective {owner name name' : String}
    (h : owner ++ "/" ++ name = owner ++ "/" ++ name') : name = name' := by
  have hlist := congrArg String.toList h
  simp only [String.toList_append] at hlist
  exact String.toList_inj.1 (List.append_cancel_left hlist)

/-- The rows of the owner are in the named repositories. -/
def Covers (db : Db) (owner : String) (names : List String) : Prop :=
  ∀ f ∈ db.files, f.owner = owner → ∃ name ∈ names, f.repo.repoId = owner ++ "/" ++ name

section Sums

variable {db : Db} {owner : String} {names : List String}

theorem owner_of_repoId (hrows : OwnerRows db) (hslash : '/' ∉ owner.toList) {f : FileRow}
    (hf : f ∈ db.files) {name : String} (h : f.repo.repoId = owner ++ "/" ++ name) :
    f.owner = owner := by
  rw [hrows f hf]
  have hsame := ownerOfRepoId_of_name hslash name
  rw [← h] at hsame
  exact hsame

theorem sumSigned_ok {label : String} {ns : List Int} {n : Nat} (h : sumSigned label ns = .ok n) :
    (n : Int) = ns.sum := by
  unfold sumSigned at h
  split_ifs at h
  unfold nonnegI64ToU64 at h
  split_ifs at h with hneg
  rw [← Except.ok.inj h]
  exact Int.toNat_of_nonneg (Int.not_lt.1 hneg)

/-- Every row is in one repository. -/
theorem raw_sum (hrows : OwnerRows db) (hslash : '/' ∉ owner.toList) (hnodup : names.Nodup)
    (hcover : Covers db owner names) :
    (names.map (fun name => Groups.total FileRow.totalBytes
      (fun f => decide (f.repo.repoId = owner ++ "/" ++ name)) db.files)).sum =
        Groups.total FileRow.totalBytes (fun f => decide (f.owner = owner)) db.files := by
  refine Groups.sum_groups_of_partition (fun f hf => ?_)
  have hle : names.countP (fun name => decide (f.repo.repoId = owner ++ "/" ++ name)) ≤ 1 := by
    refine Groups.countP_le_one hnodup (fun i _ j _ hi hj => ?_)
    exact repoId_injective ((of_decide_eq_true hi).symm.trans (of_decide_eq_true hj))
  by_cases howner : f.owner = owner
  · obtain ⟨name, hname, hrepo⟩ := hcover f hf howner
    have hpos : 0 < names.countP (fun name => decide (f.repo.repoId = owner ++ "/" ++ name)) :=
      List.countP_pos_iff.2 ⟨name, hname, decide_eq_true hrepo⟩
    rw [if_pos (decide_eq_true howner)]
    omega
  · rw [if_neg (by simpa using howner), List.countP_eq_zero]
    intro name _ hrepo
    exact howner (owner_of_repoId hrows hslash hf (of_decide_eq_true hrepo))

/-- The owner refers to what its repositories refer to. -/
theorem exists_repo_of_owner (hcover : Covers db owner names) {x : XorbHash}
    (hx : x ∈ db.xorbsOfOwner owner) : ∃ name ∈ names, x ∈ db.xorbsOfRepo (owner ++ "/" ++ name) := by
  obtain ⟨t, ht, hterm, f, hf, hhash, howner⟩ := mem_xorbsOfOwner.1 hx
  obtain ⟨name, hname, hrepo⟩ := hcover f hf howner
  exact ⟨name, hname, mem_xorbsWhere.2 ⟨t, ht, hterm, f, hf, hhash, decide_eq_true hrepo⟩⟩

theorem mem_owner_of_repo (hrows : OwnerRows db) (hslash : '/' ∉ owner.toList) {name : String}
    {x : XorbHash} (hx : x ∈ db.xorbsOfRepo (owner ++ "/" ++ name)) : x ∈ db.xorbsOfOwner owner := by
  obtain ⟨t, ht, hterm, f, hf, hhash, hrepo⟩ := mem_xorbsWhere.1 hx
  exact mem_xorbsOfOwner.2 ⟨t, ht, hterm, f, hf, hhash,
    owner_of_repoId hrows hslash hf (of_decide_eq_true hrepo)⟩

/-- What another repository of the owner refers to is not exclusive. -/
theorem mem_siblings_of_repo (hrows : OwnerRows db) (hslash : '/' ∉ owner.toList)
    {name name' : String} (hne : name' ≠ name) {x : XorbHash}
    (hx : x ∈ db.xorbsOfRepo (owner ++ "/" ++ name')) :
    x ∈ db.xorbsOfSiblings (owner ++ "/" ++ name) := by
  obtain ⟨t, ht, hterm, f, hf, hhash, hrepo⟩ := mem_xorbsWhere.1 hx
  have hrepo := of_decide_eq_true hrepo
  refine mem_xorbsWhere.2 ⟨t, ht, hterm, f, hf, hhash, ?_⟩
  rw [Bool.and_eq_true, decide_eq_true_eq, decide_eq_true_eq, ownerOfRepoId_of_name hslash, hrepo]
  exact ⟨owner_of_repoId hrows hslash hf hrepo, fun h => hne (repoId_injective h)⟩

/-- **Stored bytes**: no more than all repositories together. -/
theorem ownerBytes_le_sum (hcover : Covers db owner names) :
    db.ownerBytes owner ≤ (names.map (fun name => db.repoBytes (owner ++ "/" ++ name))).sum := by
  refine Groups.total_le_sum_groups (w := XorbRow.diskSize)
    (p := fun name r => decide (r.info.xorb ∈ db.xorbsOfRepo (owner ++ "/" ++ name)))
    (q := fun r => decide (r.info.xorb ∈ db.xorbsOfOwner owner)) (fun r _ hr => ?_)
  obtain ⟨name, hname, hx⟩ := exists_repo_of_owner hcover (of_decide_eq_true hr)
  exact ⟨name, hname, decide_eq_true hx⟩

/-- **Exclusive bytes**: no xorb is exclusive to two repositories. -/
theorem sum_exclusive_le (hrows : OwnerRows db) (hslash : '/' ∉ owner.toList)
    (hnodup : names.Nodup) :
    (names.map (fun name => db.exclusiveBytes (owner ++ "/" ++ name))).sum ≤ db.ownerBytes owner := by
  refine Groups.sum_groups_le_total (w := XorbRow.diskSize)
    (p := fun name r => decide (r.info.xorb ∈ db.xorbsOfRepo (owner ++ "/" ++ name)) &&
      decide (r.info.xorb ∉ db.xorbsOfSiblings (owner ++ "/" ++ name)))
    (q := fun r => decide (r.info.xorb ∈ db.xorbsOfOwner owner)) (fun r _ => ?_)
  split_ifs with hown
  · refine Groups.countP_le_one hnodup (fun i _ j _ hi hj => ?_)
    simp only [Bool.and_eq_true, decide_eq_true_eq] at hi hj
    by_contra hne
    exact hi.2 (mem_siblings_of_repo hrows hslash (Ne.symm hne) hj.1)
  · rw [Nat.le_zero, List.countP_eq_zero]
    intro name _ hboth
    simp only [Bool.and_eq_true, decide_eq_true_eq] at hboth hown
    exact hown (mem_owner_of_repo hrows hslash hboth.1)

end Sums

/-! ## Answers -/

section Answers

variable {ε : Type} {svc : HttpService ε}

/-- The server answers the request with `reply`, whoever makes it and whenever. -/
def Answers (svc : HttpService ε) (s : Site) (call : Call) (reply : Reply) : Prop :=
  ∃ env authorization, (serve svc env s.server ⟨call, authorization⟩).answer = .ok reply

theorem ownerUsage_answer {s : Site} {owner : String} {o : OwnerUsageResponse}
    (h : Answers svc s (.getOwnerUsage owner) (.ownerUsage o)) :
    s.server.db.rawBytesForOwner owner = .ok o.rawBytes ∧ o.storedBytes = s.server.db.ownerBytes owner ∧
      o.dedupSavingsBytes = o.rawBytes - o.storedBytes := by
  obtain ⟨env, authorization, h⟩ := h
  obtain ⟨_, -, h⟩ := Results.bind_eq_ok.1 h
  obtain ⟨raw, hraw, h⟩ := Results.bind_eq_ok.1 h
  obtain ⟨stored, hstored, h⟩ := Results.bind_eq_ok.1 h
  obtain ⟨quota, -, h⟩ := Results.bind_eq_ok.1 h
  obtain rfl := Reply.ownerUsage.inj (Except.ok.inj h)
  rw [Results.mapError_eq_ok] at hraw hstored
  exact ⟨hraw, (sumI64_ok.1 hstored).2.symm, rfl⟩

theorem repoUsage_answer {s : Site} {owner repo : String} {r : RepoUsageResponse}
    (h : Answers svc s (.getRepoUsage owner repo) (.repoUsage r)) :
    s.server.db.rawBytesForRepo (owner ++ "/" ++ repo) = .ok r.rawBytes ∧
      r.storedBytes = s.server.db.repoBytes (owner ++ "/" ++ repo) ∧
      r.exclusiveBytes = s.server.db.exclusiveBytes (owner ++ "/" ++ repo) ∧
      r.dedupSavingsBytes = r.rawBytes - r.storedBytes := by
  obtain ⟨env, authorization, h⟩ := h
  obtain ⟨_, -, h⟩ := Results.bind_eq_ok.1 h
  obtain ⟨raw, hraw, h⟩ := Results.bind_eq_ok.1 h
  obtain ⟨stored, hstored, h⟩ := Results.bind_eq_ok.1 h
  obtain ⟨exclusive, hexclusive, h⟩ := Results.bind_eq_ok.1 h
  obtain rfl := Reply.repoUsage.inj (Except.ok.inj h)
  rw [Results.mapError_eq_ok] at hraw hstored hexclusive
  exact ⟨hraw, (sumI64_ok.1 hstored).2.symm, (sumI64_ok.1 hexclusive).2.symm, rfl⟩

theorem ownerRows_run {acts : List (HttpAct ε)} {s : Site}
    (hrun : Machine.run (siteStep svc) Site.empty acts = some s) : OwnerRows s.server.db := by
  have hkeep (s : Site) (a : HttpAct ε) (s' : Site) (hrows : OwnerRows s.server.db)
      (hstep : siteStep svc s a = some s') : OwnerRows s'.server.db := by
    rw [(siteStep_eq hstep).1]
    rcases serve_server svc a s.server with hsame | ⟨r, -, hres⟩
    · rw [hsame]
      exact hrows
    · rw [hres]
      exact ownerRows_handle hrows r
  have hstart : OwnerRows Site.empty.server.db := fun f hf => absurd hf List.not_mem_nil
  exact Machine.run_invariant_of_step hkeep hstart hrun

/-- **The figures of an owner are those of its repositories.** In every reachable state, when the
    usage of an owner and of all its repositories is answered: the raw bytes add up exactly; the
    owner stores no more than its repositories together and no less than their exclusive bytes
    together; and a repository has no more exclusive bytes than stored ones. -/
theorem usage_adds_up (svc : HttpService ε) (acts : List (HttpAct ε)) (s : Site)
    (hrun : Machine.run (siteStep svc) Site.empty acts = some s) (owner : String)
    (hslash : '/' ∉ owner.toList) (names : List String) (hnodup : names.Nodup)
    (hcover : Covers s.server.db owner names) (o : OwnerUsageResponse)
    (ho : Answers svc s (.getOwnerUsage owner) (.ownerUsage o)) (usage : String → RepoUsageResponse)
    (husage : ∀ name ∈ names, Answers svc s (.getRepoUsage owner name) (.repoUsage (usage name))) :
    o.rawBytes = (names.map (fun name => (usage name).rawBytes)).sum ∧
    o.storedBytes ≤ (names.map (fun name => (usage name).storedBytes)).sum ∧
    (names.map (fun name => (usage name).exclusiveBytes)).sum ≤ o.storedBytes ∧
    ∀ name ∈ names, (usage name).exclusiveBytes ≤ (usage name).storedBytes := by
  have hrows := ownerRows_run hrun
  obtain ⟨hraw, hstored, -⟩ := ownerUsage_answer ho
  have hrepo := fun name hname => repoUsage_answer (husage name hname)
  refine ⟨?_, ?_, ?_, fun name hname => ?_⟩
  · have hsum : ((names.map (fun name => (usage name).rawBytes)).map Nat.cast : List Int) =
        names.map (fun name => Groups.total FileRow.totalBytes
          (fun f => decide (f.repo.repoId = owner ++ "/" ++ name)) s.server.db.files) := by
      rw [List.map_map]
      exact List.map_congr_left (fun name hname => sumSigned_ok (hrepo name hname).1)
    have hparts := raw_sum hrows hslash hnodup hcover
    rw [← hsum] at hparts
    have howner : (o.rawBytes : Int) = Groups.total FileRow.totalBytes
        (fun f => decide (f.owner = owner)) s.server.db.files := sumSigned_ok hraw
    rw [← howner, ← Nat.cast_list_sum] at hparts
    exact_mod_cast hparts.symm
  · rw [hstored, List.map_congr_left (fun name hname => (hrepo name hname).2.1)]
    exact ownerBytes_le_sum hcover
  · rw [hstored, List.map_congr_left (fun name hname => (hrepo name hname).2.2.1)]
    exact sum_exclusive_le hrows hslash hnodup
  · rw [(hrepo name hname).2.1, (hrepo name hname).2.2.1]
    exact exclusiveBytes_le s.server.db (owner ++ "/" ++ name)

end Answers

namespace Sample

/-- The claims of a token that is minted for another repository of alice. -/
def moreClaims : XetClaims := ⟨"alice", "model", "alice/more", "main", "write", 1700000300⟩

/-- Its JWT, under the same secret. -/
def moreToken : String :=
  "eyJ0eXAiOiJKV1QiLCJhbGciOiJIUzI1NiJ9.eyJzdWIiOiJhbGljZSIsInJlcG9fdHlwZSI6Im1vZGVsIiwicmVwb19pZCI6" ++
    "ImFsaWNlL21vcmUiLCJyZXZpc2lvbiI6Im1haW4iLCJzY29wZSI6IndyaXRlIiwiZXhwIjoxNzAwMDAwMzAwfQ." ++
    "KgpWWLMU1g661NVraaQ8V4qohe1Ywj8HflvChXtURco"

def twoTokens : Jwt where
  encode c := if c = moreClaims then .ok moreToken else jwt.encode c
  decode token := if token = moreToken then some moreClaims else jwt.decode token

def twoRepos : HttpService (String → RepoRef → Scope → UpstreamReply) :=
  { httpService with authz := { httpService.authz with jwt := twoTokens } }

def issueMore : HttpAct (String → RepoRef → Scope → UpstreamReply) :=
  ⟨httpEnv (.answered 200 (some 19) (some aliceBody)),
    withBearer "hub" (.issueXetToken "models" "alice" "more" "bale-write-token" "main")⟩

def laterMore (call : Call) : HttpAct (String → RepoRef → Scope → UpstreamReply) :=
  ⟨httpEnv (.answered 403 none none), withBearer moreToken call⟩

/-- A file of one byte in `alice/data`, and one of two bytes in `alice/more` that begins with it. -/
def shared : List (HttpAct (String → RepoRef → Scope → UpstreamReply)) :=
  [issue, issueMore, httpUpload,
    laterMore (.uploadXorb (encodeHash (hash32 0x62)) [0, 1, 0, 0, 0, 1, 0, 0, 0x62]),
    later (.uploadShard (blockFile repo 1 block).body),
    laterMore (.uploadShard (shard [file 2 [(0x61, 1, 0, 1), (0x62, 1, 0, 1)]]
      [casBlock 0x62 [(0x62, 0, 1)]]))]

/-- The site after these. -/
def filled : Site := siteAfter twoRepos Site.empty shared

/-- Alice asks for a usage. -/
def asks (call : Call) : Option Reply :=
  (serve twoRepos (later call).env filled.server (later call).request).answer.toOption

theorem answers_of_asks {call : Call} {reply : Reply} (h : asks call = some reply) :
    Answers twoRepos filled call reply := by
  refine ⟨(later call).env, (later call).request.authorization, ?_⟩
  unfold asks at h
  cases hanswer : (serve twoRepos (later call).env filled.server (later call).request).answer with
  | error e => simp [hanswer, Except.toOption] at h
  | ok r =>
      rw [hanswer] at h
      rw [← Option.some.inj h]
      exact hanswer

/-- What the usage of the two repositories is answered with. -/
def figures (name : String) : RepoUsageResponse :=
  if name = "data" then ⟨"alice/data", 1, 9, 0, 0⟩ else ⟨"alice/more", 2, 18, 0, 9⟩

theorem filled_facts :
    filled.server.db.files.all (fun f => ["data", "more"].any (fun name =>
      decide (f.repo.repoId = "alice" ++ "/" ++ name))) = true ∧
    asks (.getOwnerUsage "alice") = some (.ownerUsage ⟨"alice", 3, 18, 0, none⟩) ∧
    ∀ name ∈ ["data", "more"],
      asks (.getRepoUsage "alice" name) = some (.repoUsage (figures name)) := by
  decide +kernel

theorem covers_filled : Covers filled.server.db "alice" ["data", "more"] := by
  intro f hf _
  obtain ⟨name, hname, hrepo⟩ := List.any_eq_true.1 (List.all_eq_true.1 filled_facts.1 f hf)
  exact ⟨name, hname, of_decide_eq_true hrepo⟩

end Sample

/-- Two repositories of alice that share a xorb: it is stored once, and exclusive to neither. -/
theorem usage_adds_up_shared :
    Answers Sample.twoRepos Sample.filled (.getOwnerUsage "alice")
      (.ownerUsage ⟨"alice", 3, 18, 0, none⟩) ∧
    3 = [1, 2].sum ∧ 18 ≤ [9, 18].sum ∧ [0, 9].sum ≤ 18 := by
  obtain ⟨-, howner, hrepo⟩ := Sample.filled_facts
  obtain ⟨hraw, hstored, hexclusive, -⟩ := usage_adds_up Sample.twoRepos Sample.shared Sample.filled
    (run_siteAfter _ _ _) "alice" (by decide) ["data", "more"] (by decide) Sample.covers_filled
    ⟨"alice", 3, 18, 0, none⟩ (Sample.answers_of_asks howner) Sample.figures
    (fun name hname => Sample.answers_of_asks (hrepo name hname))
  exact ⟨Sample.answers_of_asks howner, hraw, hstored, hexclusive⟩

end BaleForGit.Server
