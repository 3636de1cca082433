import BaleForGit.Server.Accounting
import BaleForGit.Server.Registration

set_option autoImplicit false

/-! # Quota in sequential use

The quota check of a shard projects what the owner's files will refer to: the bytes accounted now,
and those of the candidates that have a row and are not referred to yet. Registering the files stays
within that. But the rows themselves come first: the CAS blocks are registered before the check,
whatever its outcome, and a row for a xorb that a file of the owner refers to already counts at once.
Such xorbs exist, since a file is accepted without a row for its xorbs. `RowsWithin` is the condition
that the rows alone keep within the quota. -/

namespace BaleForGit.Server

/-- The bytes that `stored_bytes_for_owner` adds up are within the quota. -/
def WithinQuota (db : Db) (owner : String) (q : Nat) : Prop := db.ownerBytes owner ≤ q

/-- The rows that the CAS blocks of a shard add for xorbs that files of the owner refer to already
    leave the sum within the quota. -/
def RowsWithin (owner : String) (q : Nat) (st : ServerState) (a : Request) : Prop :=
  match a with
  | .shard r => ∀ parsed, checkShard st r.body = .ok parsed →
      st.db.ownerBytes owner +
        newBytes st.db parsed.casBlocks r.now (fun x => decide (x ∈ st.db.xorbsOfOwner owner)) ≤ q
  | _ => True

/-- The quota of the owner can be read, and what it stores and what the xorbs would add are within
    it. -/
def QuotaAllows (svc : Service) (db : Db) (owner : String) (xorbs : List XorbHash) : Prop :=
  ∃ own, db.getOwnerQuota owner = .ok own ∧ ∀ q, own.or svc.defaultQuotaBytes = some q →
    db.ownerBytes owner < 9223372036854775808 ∧
      db.unaccountedBytes owner xorbs < 9223372036854775808 ∧
      db.ownerBytes owner + db.unaccountedBytes owner xorbs ≤ q

/-- A server that only requests with a token of `owner` reach. -/
def ownerStep (svc : Service) (owner : String) (st : ServerState) (a : Request) :
    Option ServerState :=
  if a.owner = some owner then some (handle svc st a) else none

/-- What stays true on a server with one owner: the quota, and that all terms are of its files. -/
structure OneOwner (svc : Service) (owner : String) (q : Nat) (db : Db) : Prop where
  quota : effectiveQuota db svc.defaultQuotaBytes owner = .ok (some q)
  owned : ∀ t ∈ db.fileTerms, ∃ f ∈ db.files, f.fileHash = t.fileHash ∧ f.owner = owner

/-! ## The projection -/

theorem effectiveQuota_congr {db db' : Db} (h : db'.ownerQuotas = db.ownerQuotas)
    (default : Option Nat) (owner : String) :
    effectiveQuota db' default owner = effectiveQuota db default owner := by
  unfold effectiveQuota Db.getOwnerQuota
  rw [h]

theorem effectiveQuota_ok {db : Db} {default : Option Nat} {owner : String} {q : Option Nat} :
    effectiveQuota db default owner = .ok q ↔
      ∃ own, db.getOwnerQuota owner = .ok own ∧ own.or default = q := by
  unfold effectiveQuota
  cases hown : db.getOwnerQuota owner with
  | error e => simp [Except.mapError, bind, Except.bind]
  | ok own => simp [Except.mapError, bind, Except.bind, pure, Except.pure]

/-- **The quota check, on the numbers.** -/
theorem checkShardQuota_iff {svc : Service} {db : Db} {owner : String} {files : List ParsedFile} :
    checkShardQuota svc db owner files = .ok () ↔
      QuotaAllows svc db owner (files.flatMap (fun f => f.entries.map (fun e => e.xorb))) := by
  unfold checkShardQuota QuotaAllows
  generalize files.flatMap (fun f => f.entries.map (fun e => e.xorb)) = xorbs
  cases hquota : effectiveQuota db svc.defaultQuotaBytes owner with
  | error e =>
      simp only [bind, Except.bind, reduceCtorEq, false_iff]
      rintro ⟨own, hown, -⟩
      rw [effectiveQuota_ok.2 ⟨own, hown, rfl⟩] at hquota
      simp at hquota
  | ok quota =>
      obtain ⟨own, hown, horr⟩ := effectiveQuota_ok.1 hquota
      cases quota with
      | none =>
          simp only [bind, Except.bind, hown, Except.ok.injEq, exists_eq_left', horr, reduceCtorEq,
            false_implies, implies_true]
      | some q =>
          simp only [bind, Except.bind, hown, Except.ok.injEq, exists_eq_left', horr,
            Option.some.injEq, forall_eq', Db.storedBytesForOwner_eq]
          by_cases hused : db.ownerBytes owner < 9223372036854775808
          · cases hdelta : db.unaccountedXorbBytesForOwner owner xorbs with
            | error e =>
                have hbig : ¬ db.unaccountedBytes owner xorbs < 9223372036854775808 := by
                  intro hlt
                  rw [unaccountedXorbBytesForOwner_iff.2 ⟨hlt, rfl⟩] at hdelta
                  simp at hdelta
                simp [hused, hbig, Except.mapError]
            | ok delta =>
                obtain ⟨hlt, rfl⟩ := unaccountedXorbBytesForOwner_iff.1 hdelta
                simp only [hused, if_true, Except.mapError, true_and, hlt]
                -- neither sum reaches 2^63, so the addition does not saturate
                unfold saturatingAdd
                split_ifs with hover
                · simp only [false_iff]
                  omega
                · simp only [true_iff]
                  omega
          · simp [hused, Except.mapError]

/-- **Registering files stays within the projection**: with one owner, files refer to xorbs they
    referred to before or to candidates. -/
theorem ownerBytes_registerFiles_le {svc : Service} {owner : String} {q : Nat} {db : Db}
    (hone : OneOwner svc owner q db) (repo : RepoRef) {parsed : ParsedShard}
    {files : List (FileHash × List FileTerm)} (now : Int)
    (hfiles : filesToRegister parsed = .ok files) :
    (db.registerFiles repo files now).ownerBytes owner ≤ db.ownerBytes owner +
      db.unaccountedBytes owner
        (parsed.files.flatMap (fun f => f.entries.map (fun e => e.xorb))) := by
  obtain ⟨hxorbs, -, -, -⟩ := registerFiles_frame db repo files now
  unfold Db.unaccountedBytes Db.ownerBytes Db.diskBytes
  rw [hxorbs]
  refine Table.sumOn_or_le (fun r _ hr => ?_)
  simp only [decide_eq_true_eq, Bool.and_eq_true] at hr ⊢
  by_cases hold : r.info.xorb ∈ db.xorbsOfOwner owner
  · exact Or.inl hold
  · refine Or.inr ⟨?_, hold⟩
    obtain ⟨t, ht, hx, -⟩ := mem_xorbsOfOwner.1 hr
    rcases mem_fileTerms_registerFiles db repo now ht with hin | ⟨terms, hterms, hterm⟩
    · obtain ⟨f, hf, hhash, howner⟩ := hone.owned t hin
      exact absurd (mem_xorbsOfOwner.2 ⟨t, hin, hx, f, hf, hhash, howner⟩) hold
    · obtain ⟨p, hp, e, he, hxe, -⟩ := filesToRegister_xorb hfiles hterms hterm
      rw [List.mem_flatMap]
      exact ⟨p, hp, List.mem_map.2 ⟨e, he, by rw [← hxe, hx]⟩⟩

theorem OneOwner.registerFiles {svc : Service} {owner : String} {q : Nat} {db : Db}
    (hone : OneOwner svc owner q db) {repo : RepoRef} (hrepo : repo.owner = owner)
    (files : List (FileHash × List FileTerm)) (now : Int) :
    OneOwner svc owner q (db.registerFiles repo files now) := by
  obtain ⟨-, -, -, hquotas⟩ := registerFiles_frame db repo files now
  refine ⟨by rw [effectiveQuota_congr hquotas]; exact hone.quota, fun t ht => ?_⟩
  cases hlast : lastList t.fileHash files with
  | some terms =>
      refine ⟨fileRow t.fileHash repo terms now, ?_, rfl, hrepo⟩
      rw [mem_files_registerFiles db repo now rfl]
      simp only [fileRow, hlast, true_or]
  | none =>
      rcases mem_fileTerms_registerFiles db repo now ht with hin | ⟨terms, hterms, -⟩
      · obtain ⟨f, hf, hhash, howner⟩ := hone.owned t hin
        refine ⟨f, ?_, hhash, howner⟩
        rw [mem_files_registerFiles db repo now hhash]
        simp only [hlast]
        exact hf
      · exact absurd hterms (not_mem_of_lastList_none hlast)

/-! ## One request -/

theorem OneOwner.of_tables {svc : Service} {owner : String} {q : Nat} {db db' : Db}
    (hone : OneOwner svc owner q db) (hfiles : db'.files = db.files)
    (hterms : db'.fileTerms = db.fileTerms) (hquotas : db'.ownerQuotas = db.ownerQuotas) :
    OneOwner svc owner q db' := by
  refine ⟨by rw [effectiveQuota_congr hquotas]; exact hone.quota, ?_⟩
  rw [hfiles, hterms]
  exact hone.owned

theorem ownerBytes_congr {db db' : Db} (hxorbs : db'.xorbs = db.xorbs)
    (hfiles : db'.files = db.files) (hterms : db'.fileTerms = db.fileTerms) (owner : String) :
    db'.ownerBytes owner = db.ownerBytes owner := by
  unfold Db.ownerBytes Db.diskBytes
  rw [xorbsOfOwner_congr hfiles hterms, hxorbs]

/-- A request of the owner leaves the quota and the owner of all terms as they are. -/
theorem ownerStep_oneOwner {svc : Service} {owner : String} {q : Nat} (st : ServerState)
    (a : Request) (st' : ServerState) (hone : OneOwner svc owner q st.db)
    (hstep : ownerStep svc owner st a = some st') : OneOwner svc owner q st'.db := by
  unfold ownerStep at hstep
  split_ifs at hstep with howner
  obtain rfl := Option.some.inj hstep
  cases a with
  | quota o limit => simp [Request.owner] at howner
  | xorb r =>
      simp only [handle]
      cases hup : uploadXorb svc st r with
      | error e => exact hone
      | ok res =>
          obtain ⟨-, -, layout, -, hdb, -⟩ := uploadXorb_cases hup
          obtain ⟨hfiles, hterms, -, -, hquotas⟩ := registerXorbLayout_frame st.db r.hash layout
          simp only [hdb]
          exact hone.of_tables hfiles hterms hquotas
  | shard r =>
      simp only [Request.owner, Option.some.injEq] at howner
      simp only [handle]
      rcases uploadShard_cases svc st r with ⟨e, -, hres⟩ | ⟨parsed, -, hres⟩
      · rw [hres]
        exact hone
      · obtain ⟨hfiles, hterms, -, hquotas⟩ :=
          registerCasBlocks_frame st.db parsed.casBlocks r.now
        have hone₁ := hone.of_tables hfiles hterms hquotas
        rcases hres with ⟨e, hres, -⟩ | ⟨files, -, -, hres⟩
        · rw [hres]
          exact hone₁
        · rw [hres]
          exact hone₁.registerFiles howner files r.now

/-- **A request keeps within the quota exactly when the rows of its CAS blocks do.** -/
theorem ownerStep_within_iff (svc : Service) (owner : String) (q : Nat) (st : ServerState)
    (a : Request) (st' : ServerState) (hone : OneOwner svc owner q st.db)
    (hwithin : WithinQuota st.db owner q) (hstep : ownerStep svc owner st a = some st') :
    WithinQuota st'.db owner q ↔ RowsWithin owner q st a := by
  unfold ownerStep at hstep
  split_ifs at hstep with howner
  obtain rfl := Option.some.inj hstep
  cases a with
  | quota o limit => simp [Request.owner] at howner
  | xorb r =>
      refine ⟨fun _ => trivial, fun _ => ?_⟩
      simp only [handle]
      cases hup : uploadXorb svc st r with
      | error e => exact hwithin
      | ok res =>
          obtain ⟨-, -, layout, -, hdb, -⟩ := uploadXorb_cases hup
          obtain ⟨hfiles, hterms, hxorbs, -, -⟩ := registerXorbLayout_frame st.db r.hash layout
          unfold WithinQuota
          rw [hdb, ownerBytes_congr hxorbs hfiles hterms]
          exact hwithin
  | shard r =>
      simp only [Request.owner, Option.some.injEq] at howner
      simp only [handle, RowsWithin]
      rcases uploadShard_cases svc st r with ⟨e, hcheck, hres⟩ | ⟨parsed, hcheck, hres⟩
      · rw [hres, hcheck]
        exact ⟨fun _ parsed hp => by simp at hp, fun _ => hwithin⟩
      · obtain ⟨hfiles, hterms, -, hquotas⟩ :=
          registerCasBlocks_frame st.db parsed.casBlocks r.now
        have hone₁ := hone.of_tables hfiles hterms hquotas
        have hcond : (∀ p, checkShard st r.body = .ok p → st.db.ownerBytes owner +
              newBytes st.db p.casBlocks r.now
                (fun x => decide (x ∈ st.db.xorbsOfOwner owner)) ≤ q) ↔
            WithinQuota (registerCasBlocks st.db parsed.casBlocks r.now) owner q := by
          unfold WithinQuota
          rw [ownerBytes_registerCasBlocks, hcheck]
          refine ⟨fun h => h parsed rfl, fun h p hp => ?_⟩
          rw [← Except.ok.inj hp]
          exact h
        rw [hcond]
        rcases hres with ⟨e, hres, -⟩ | ⟨files, hquota, hlist, hres⟩
        · rw [hres]
        · rw [hres]
          rw [howner] at hquota
          obtain ⟨own, hown, hallows⟩ := checkShardQuota_iff.1 hquota
          obtain ⟨own', hown', hquotaEq⟩ := effectiveQuota_ok.1 hone₁.quota
          obtain rfl : own = own' := Except.ok.inj (hown.symm.trans hown')
          obtain ⟨-, -, hle⟩ := hallows q hquotaEq
          have hafter := ownerBytes_registerFiles_le hone₁ r.repo r.now hlist
          refine ⟨fun _ => ?_, fun _ => Nat.le_trans hafter ?_⟩
          · unfold WithinQuota
            omega
          · omega

/-! ## Runs -/

/-- **The quota of a lone owner is kept exactly as long as rows do not come after the files that
    refer to them.** -/
theorem quota_kept_iff (svc : Service) (owner : String) (q : Nat) (st t : ServerState)
    (hquota : effectiveQuota st.db svc.defaultQuotaBytes owner = .ok (some q))
    (hempty : st.db.fileTerms = []) (reqs : List Request)
    (hrun : Machine.run (ownerStep svc owner) st reqs = some t) :
    (∀ before rest s, reqs = before ++ rest →
        Machine.run (ownerStep svc owner) st before = some s → WithinQuota s.db owner q) ↔
      Machine.Admissible (ownerStep svc owner) (RowsWithin owner q) st reqs := by
  have hone : OneOwner svc owner q st.db := by
    refine ⟨hquota, fun t ht => ?_⟩
    rw [hempty] at ht
    simp at ht
  have hwithin : WithinQuota st.db owner q := by
    have hnone : st.db.xorbsOfOwner owner = [] := by
      unfold Db.xorbsOfOwner
      rw [hempty]
      rfl
    unfold WithinQuota Db.ownerBytes Db.diskBytes
    rw [hnone, (Table.sumOn_eq_zero).2 (by simp)]
    exact Nat.zero_le q
  exact (Machine.admissible_iff_of_step (fun s a _ => ownerStep_oneOwner s a)
    (fun s a _ => ownerStep_within_iff svc owner q s a) hone hwithin hrun).symm

namespace Sample

def quotaService (q : Nat) : Service := ⟨codec, some q⟩

/-- Two xorbs of nine bytes each, and a file that refers to both. -/
def twoXorbs (blocks : List (List UInt8)) : List Request :=
  [.xorb (byteUpload 0x61), .xorb (byteUpload 0x62),
    .shard ⟨repo, shard [file 1 [(0x61, 1, 0, 1), (0x62, 1, 0, 1)]] blocks, 0⟩]

def twoBlocks : List (List UInt8) := [casBlock 0x61 [(0x61, 0, 1)], casBlock 0x62 [(0x62, 0, 1)]]

end Sample

/-- **Rows that come after the file exceed the quota**: the file is accepted while its xorbs count
    nothing, and a shard that only has their CAS blocks makes them count. -/
theorem late_rows_exceed_quota :
    ¬ ∀ (reqs : List Request) (t : ServerState),
      Machine.run (ownerStep (Sample.quotaService 12) "alice") ServerState.empty reqs = some t →
        WithinQuota t.db "alice" 12 := by
  have hrun : (Machine.run (ownerStep (Sample.quotaService 12) "alice") ServerState.empty
      (Sample.twoXorbs [] ++ [.shard ⟨Sample.repo, Sample.shard [] Sample.twoBlocks, 0⟩])).map
        (fun s => s.db.ownerBytes "alice") = some 18 := by
    decide +kernel
  obtain ⟨t, ht, hbytes⟩ := Option.map_eq_some_iff.1 hrun
  intro hall
  have hwithin := hall _ t ht
  unfold WithinQuota at hwithin
  omega

/-- Rows that come with the file are checked with it. -/
theorem quota_kept_iff_together : ∃ t,
    Machine.run (ownerStep (Sample.quotaService 18) "alice") ServerState.empty
      (Sample.twoXorbs Sample.twoBlocks) = some t ∧ t.db.ownerBytes "alice" = 18 ∧
    Machine.Admissible (ownerStep (Sample.quotaService 18) "alice") (RowsWithin "alice" 18)
      ServerState.empty (Sample.twoXorbs Sample.twoBlocks) := by
  have hrun : (Machine.run (ownerStep (Sample.quotaService 18) "alice") ServerState.empty
      (Sample.twoXorbs Sample.twoBlocks)).map (fun s => s.db.ownerBytes "alice") = some 18 := by
    decide +kernel
  obtain ⟨t, ht, hbytes⟩ := Option.map_eq_some_iff.1 hrun
  refine ⟨t, ht, hbytes, (quota_kept_iff (Sample.quotaService 18) "alice" 18 _ t (by decide +kernel)
    rfl _ ht).1 (Machine.forall_prefix_of_take ?_)⟩
  have hall : ∀ k ≤ (Sample.twoXorbs Sample.twoBlocks).length,
      (Machine.run (ownerStep (Sample.quotaService 18) "alice") ServerState.empty
        ((Sample.twoXorbs Sample.twoBlocks).take k)).all
          (fun s => decide (s.db.ownerBytes "alice" ≤ 18)) = true := by
    decide +kernel
  intro k hk s hs
  have hle := hall k hk
  rw [hs, Option.all_some] at hle
  show s.db.ownerBytes "alice" ≤ 18
  exact of_decide_eq_true hle

end BaleForGit.Server
