import BaleForGit.Server.Headers
import BaleForGit.Server.Quota

set_option autoImplicit false

/-! # Setting quotas (`put_owner_quota`, `set_owner_quota`, `get_owner_quota`)

`PUT /v1/quotas/{owner}` takes any `u64` and stores it as an `i64`. Reading it back, a negative value
counts as corruption: from `2 ^ 63` on, a limit that was accepted with 204 makes `get_owner_quota`
fail, and with it every upload for that owner. -/

namespace BaleForGit.Server

/-- A `PUT /v1/quotas/{owner}`. -/
structure QuotaRequest where
  owner : String
  authorization : Option (List UInt8)
  limitBytes : Option UInt64

/-- `put_owner_quota`: the table it leaves. -/
def putOwnerQuota (adminToken : Option (List UInt8)) (db : Db) (r : QuotaRequest) :
    Except ApiError Db :=
  match adminToken with
  | none => .error ⟨404, "admin endpoint disabled"⟩
  | some admin =>
    match bearer r.authorization with
    | none => .error ⟨401, "missing admin bearer"⟩
    | some raw =>
      match hexDecode (trim raw) with
      | none => .error ⟨401, "admin token not hex"⟩
      | some presented =>
        if !ctEq presented admin then .error ⟨401, "bad admin token"⟩
        else .ok (db.setOwnerQuota r.owner r.limitBytes)

/-- The limits as they were set last. -/
structure QuotaLog where
  db : Db
  limits : String → Option Nat

/-- One request; a rejected one changes nothing. -/
def quotaStep (adminToken : Option (List UInt8)) (s : QuotaLog) (r : QuotaRequest) :
    Option QuotaLog :=
  match putOwnerQuota adminToken s.db r with
  | .error _ => some s
  | .ok db => some ⟨db, Function.update s.limits r.owner (r.limitBytes.map UInt64.toNat)⟩

/-- An upload is answered with the error of the quota lookup. -/
def FailsOnQuota (svc : Service) (st : ServerState) (a : Request) : Prop :=
  match a with
  | .xorb r => ∃ e, effectiveQuota st.db svc.defaultQuotaBytes r.repo.owner = .error e ∧
      uploadXorb svc st r = .error e
  | .shard r => ∃ e, effectiveQuota st.db svc.defaultQuotaBytes r.repo.owner = .error e ∧
      (uploadShard svc st r).2 = .error e
  | .quota _ _ => False

/-- Every quota reads back as it was set, and no upload fails on one. -/
structure QuotaLog.Kept (s : QuotaLog) : Prop where
  get_eq : ∀ owner, s.db.getOwnerQuota owner = .ok (s.limits owner)
  uploads : ∀ svc st a, st.db = s.db → ¬ FailsOnQuota svc st a

/-- An accepted request sets a limit that fits an `i64`, or clears it. -/
def FitsI64 (adminToken : Option (List UInt8)) (s : QuotaLog) (r : QuotaRequest) : Prop :=
  ∀ db, putOwnerQuota adminToken s.db r = .ok db →
    ∀ n, r.limitBytes = some n → n.toNat < 9223372036854775808

/-! ## The stored value -/

theorem asI64_of_ge {n : Nat} (h : 9223372036854775808 ≤ n) (hn : n < 18446744073709551616) :
    asI64 n < 0 := by
  unfold asI64
  rw [Int.bmod_def]
  split_ifs <;> omega

theorem putOwnerQuota_ok {adminToken : Option (List UInt8)} {db db' : Db} {r : QuotaRequest}
    (h : putOwnerQuota adminToken db r = .ok db') : db' = db.setOwnerQuota r.owner r.limitBytes := by
  unfold putOwnerQuota at h
  split at h
  · simp at h
  · split at h
    · simp at h
    · split at h
      · simp at h
      · split_ifs at h
        exact (Except.ok.inj h).symm

/-- The quotas of the others stay. -/
theorem getOwnerQuota_setOwnerQuota_of_ne (db : Db) {owner o : String} (hne : o ≠ owner)
    (limitBytes : Option UInt64) :
    (db.setOwnerQuota owner limitBytes).getOwnerQuota o = db.getOwnerQuota o := by
  have hfind : (db.setOwnerQuota owner limitBytes).ownerQuotas.find?
      (fun q => decide (q.owner = o)) = db.ownerQuotas.find? (fun q => decide (q.owner = o)) := by
    have hkept : (db.ownerQuotas.filter (fun q => decide (q.owner ≠ owner))).find?
        (fun q => decide (q.owner = o)) = db.ownerQuotas.find? (fun q => decide (q.owner = o)) := by
      rw [List.find?_filter]
      congr 1
      funext q
      by_cases hq : q.owner = o
      · simp [hq, hne]
      · simp [hq]
    cases limitBytes with
    | none => exact hkept
    | some n =>
        simp only [Db.setOwnerQuota, Table.upsert, List.find?_append, hkept]
        simp [Ne.symm hne]
  unfold Db.getOwnerQuota
  rw [hfind]

/-- **What is read back** is the cast of the limit, through the sign guard. -/
theorem getOwnerQuota_setOwnerQuota (db : Db) (owner : String) (limitBytes : Option UInt64) :
    (db.setOwnerQuota owner limitBytes).getOwnerQuota owner = match limitBytes with
      | none => .ok none
      | some n => (nonnegI64ToU64 (asI64 n.toNat) "get_owner_quota").map some := by
  have hnone : (db.ownerQuotas.filter (fun q => decide (q.owner ≠ owner))).find?
      (fun q => decide (q.owner = owner)) = none := by
    rw [List.find?_eq_none]
    intro q hq
    simpa using (List.mem_filter.1 hq).2
  unfold Db.getOwnerQuota
  cases limitBytes with
  | none =>
      simp only [Db.setOwnerQuota, hnone]
  | some n =>
      have hsome : (db.setOwnerQuota owner (some n)).ownerQuotas.find?
          (fun q => decide (q.owner = owner)) = some ⟨owner, asI64 n.toNat⟩ := by
        simp only [Db.setOwnerQuota, Table.upsert, List.find?_append, hnone, Option.none_or]
        simp
      rw [hsome]

/-- A limit reads back exactly when it fits. -/
theorem getOwnerQuota_setOwnerQuota_iff (db : Db) (owner : String) (limitBytes : Option UInt64) :
    (db.setOwnerQuota owner limitBytes).getOwnerQuota owner = .ok (limitBytes.map UInt64.toNat) ↔
      ∀ n, limitBytes = some n → n.toNat < 9223372036854775808 := by
  rw [getOwnerQuota_setOwnerQuota]
  cases limitBytes with
  | none => simp
  | some n =>
      simp only [Option.some.injEq, forall_eq', nonnegI64ToU64]
      by_cases hfits : n.toNat < 9223372036854775808
      · rw [asI64_of_lt hfits, if_neg (by omega)]
        simp [Except.map, hfits]
      · rw [if_pos (asI64_of_ge (Nat.le_of_not_lt hfits) n.toNat_lt)]
        simp [Except.map, hfits]

/-! ## Requests in sequence -/

/-- Quotas that can be read let every upload through the lookup. -/
theorem QuotaLog.kept_iff {s : QuotaLog} :
    s.Kept ↔ ∀ owner, s.db.getOwnerQuota owner = .ok (s.limits owner) := by
  refine ⟨fun h => h.get_eq, fun hget => ⟨hget, fun svc st a hdb hfails => ?_⟩⟩
  have hquota : ∀ owner, effectiveQuota st.db svc.defaultQuotaBytes owner =
      .ok ((s.limits owner).or svc.defaultQuotaBytes) := by
    intro owner
    exact effectiveQuota_ok.2 ⟨s.limits owner, by rw [hdb]; exact hget owner, rfl⟩
  cases a with
  | xorb r =>
      obtain ⟨e, he, -⟩ := hfails
      rw [hquota] at he
      simp at he
  | shard r =>
      obtain ⟨e, he, -⟩ := hfails
      rw [hquota] at he
      simp at he
  | quota owner limit => exact hfails

/-- **One request** keeps all quotas readable exactly when the limit it sets fits. -/
theorem quotaStep_kept_iff {adminToken : Option (List UInt8)} {s s' : QuotaLog} {r : QuotaRequest}
    (hkept : s.Kept) (hstep : quotaStep adminToken s r = some s') :
    s'.Kept ↔ FitsI64 adminToken s r := by
  unfold quotaStep at hstep
  unfold FitsI64
  cases hput : putOwnerQuota adminToken s.db r with
  | error e =>
      simp only [hput, Option.some.injEq] at hstep
      rw [← hstep]
      exact iff_of_true hkept (fun db hdb => by simp at hdb)
  | ok db =>
      simp only [hput, Option.some.injEq] at hstep
      have hset := putOwnerQuota_ok hput
      simp only [Except.ok.injEq, forall_eq']
      rw [← getOwnerQuota_setOwnerQuota_iff s.db r.owner, ← hset, ← hstep, QuotaLog.kept_iff]
      constructor
      · intro hget
        have hown := hget r.owner
        simp only [Function.update_self] at hown
        exact hown
      · intro hown owner
        by_cases heq : owner = r.owner
        · subst heq
          simp only [Function.update_self]
          exact hown
        · simp only [Function.update_of_ne heq]
          rw [hset, getOwnerQuota_setOwnerQuota_of_ne s.db heq]
          exact hkept.get_eq owner

/-- **Quotas read back as they were set, all along a sequence of requests**, exactly when every
    accepted request of the sequence sets a limit below `2 ^ 63`, or clears it. -/
theorem quota_round_trip_iff (adminToken : Option (List UInt8)) (db : Db)
    (limits : String → Option Nat) (reqs : List QuotaRequest) (s : QuotaLog)
    (hstart : ∀ owner, db.getOwnerQuota owner = .ok (limits owner))
    (hrun : Machine.run (quotaStep adminToken) ⟨db, limits⟩ reqs = some s) :
    Machine.Admissible (quotaStep adminToken) (FitsI64 adminToken) ⟨db, limits⟩ reqs ↔
      ∀ before rest s', reqs = before ++ rest →
        Machine.run (quotaStep adminToken) ⟨db, limits⟩ before = some s' → s'.Kept :=
  Machine.admissible_iff_of_step (fun _ _ _ _ (_ : True) _ => trivial)
    (fun _ _ _ _ _ hkept hstep => quotaStep_kept_iff hkept hstep) trivial
    (QuotaLog.kept_iff.2 hstart) hrun

namespace Sample

/-- A request with the bearer of the one-byte admin token `01`. -/
def quotaRequest (limitBytes : Option UInt64) : QuotaRequest :=
  ⟨"alice", some [66, 101, 97, 114, 101, 114, 32, 48, 49], limitBytes⟩

end Sample

theorem quota_round_trip_largest : ∃ s, Machine.run (quotaStep (some [1])) ⟨Db.empty, fun _ => none⟩
      [Sample.quotaRequest (some 9223372036854775807), Sample.quotaRequest none] = some s ∧
    s.Kept := by
  have hrun := Eq.refl (Machine.run (quotaStep (some [1])) ⟨Db.empty, fun _ => none⟩
    [Sample.quotaRequest (some 9223372036854775807), Sample.quotaRequest none])
  refine ⟨_, hrun, (quota_round_trip_iff (some [1]) Db.empty (fun _ => none) _ _ (fun _ => rfl)
    hrun).1 ?_ _ [] _ (List.append_nil _).symm hrun⟩
  refine Machine.admissible_cons rfl (fun _ _ n hn => ?_)
    (Machine.admissible_cons rfl (fun _ _ n hn => ?_) trivial)
  · rw [← Option.some.inj hn]
    decide
  · simp [Sample.quotaRequest] at hn

/-- A limit of `2 ^ 63` is accepted, cannot be read back, and stops the uploads of its owner. -/
theorem large_quota_wedges : ∃ s, Machine.run (quotaStep (some [1])) ⟨Db.empty, fun _ => none⟩
      [Sample.quotaRequest (some 9223372036854775808)] = some s ∧
    putOwnerQuota (some [1]) Db.empty (Sample.quotaRequest (some 9223372036854775808)) = .ok s.db ∧
    s.db.getOwnerQuota "alice" ≠ .ok (some 9223372036854775808) ∧
    FailsOnQuota Sample.service { ServerState.empty with db := s.db } (.xorb (Sample.byteUpload 7)) ∧
    ¬ s.Kept := by
  refine ⟨_, rfl, rfl, by decide, ⟨_, rfl, rfl⟩, fun h => ?_⟩
  exact absurd (h.get_eq "alice") (by decide)

end BaleForGit.Server
