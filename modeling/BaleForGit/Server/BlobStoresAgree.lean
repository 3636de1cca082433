import BaleForGit.Server.BlobStores

set_option autoImplicit false

/-! # The blob stores answer alike

Each of the three stores simulates `Blobs.step`, so requests are answered the same whichever of them
is behind the server. The store on S3 is the one that differs, on ranges that are empty or begin at
the end of the blob (`S3Differs`), and the one in memory writes a shard over, which nobody sees as
long as a name has one body. With a cap it refuses what does not fit, and holds no more than the cap
(`heldBytes_le`). -/

namespace BaleForGit.Server

open FsStore (BlobKind BlobName FileSystem Put Choice rangeOf fanout)

/-! ## Blobs -/

section Blobs

variable {m : Blobs} {name : BlobName} {body : List UInt8}

theorem Blobs.put_self (m : Blobs) (name : BlobName) (body : List UInt8) :
    m.put name body name = some ((m name).getD body) := if_pos rfl

theorem Blobs.put_of_ne {name' : BlobName} (hne : name' ≠ name) :
    m.put name body name' = m name' := if_neg hne

/-- What is there stays. -/
theorem Blobs.put_of_some {stored : List UInt8} (h : m name = some stored) :
    m.put name body = m := by
  funext n
  by_cases hn : n = name
  · rw [hn, Blobs.put_self, h, Option.getD_some]
  · exact Blobs.put_of_ne hn

theorem Blobs.put_of_none (h : m name = none) :
    m.put name body = fun n => if n = name then some body else m n := by
  funext n
  unfold Blobs.put
  rw [h, Option.getD_none]

/-- The server reads its blobs as a blob store answers. -/
theorem getXorbRange_blobs (st : ServerState) (hash : XorbHash) (start stop : Nat) :
    st.getXorbRange hash start stop = rangeAnswer (st.blobs hash) start stop := rfl

/-- The puts of a list of requests give every name one body. -/
def OneBody (ops : List BlobOp) : Prop :=
  ∀ p ∈ ops.filterMap BlobOp.put?, ∀ q ∈ ops.filterMap BlobOp.put?, p.name = q.name → p.body = q.body

end Blobs

/-! ## In memory -/

section Mem

/-- The maps hold the blobs, and nothing is counted. -/
structure MemHolds (st : MemBlobStore) (m : Blobs) : Prop where
  uncapped : st.maxBytes = none
  xorbs : ∀ hash, Maps.get st.xorbs hash = m ⟨.xorbs, hash⟩
  shards : ∀ hash, Maps.get st.shards hash = m ⟨.shards, hash⟩

/-- No shard is put with another body than the one that is there. -/
def SameShard (m : Blobs) : BlobOp → Prop
  | .putShard hash body => ∀ stored, m ⟨.shards, hash⟩ = some stored → body = stored
  | _ => True

variable {st : MemBlobStore} {m : Blobs}

theorem getXorbRange_mem (h : MemHolds st m) (hash : XorbHash) (start stop : Nat) :
    st.getXorbRange hash start stop = rangeAnswer (m ⟨.xorbs, hash⟩) start stop := by
  unfold MemBlobStore.getXorbRange rangeAnswer
  rw [h.xorbs]
  cases m ⟨.xorbs, hash⟩ with
  | none => rfl
  | some body =>
      simp only [rangeOf, ← List.take_eq_take_min]

theorem holds_insert_xorb (h : MemHolds st m) {hash : XorbHash} {body : List UInt8}
    (hnone : m ⟨.xorbs, hash⟩ = none) :
    MemHolds { st with xorbs := Maps.insert st.xorbs hash body } (m.put ⟨.xorbs, hash⟩ body) := by
  refine ⟨h.uncapped, fun hash' => ?_, fun hash' => ?_⟩
  · by_cases heq : hash' = hash
    · rw [heq, Blobs.put_self, hnone, Option.getD_none]
      exact Maps.get_insert_self _ _ _
    · rw [Blobs.put_of_ne (by simp [heq])]
      exact (Maps.get_insert_of_ne _ heq _).trans (h.xorbs hash')
  · rw [Blobs.put_of_ne (by simp)]
    exact h.shards hash'

theorem holds_insert_shard (h : MemHolds st m) {hash : ShardHash} {body : List UInt8}
    (hsame : ∀ stored, m ⟨.shards, hash⟩ = some stored → body = stored) :
    MemHolds { st with shards := Maps.insert st.shards hash body } (m.put ⟨.shards, hash⟩ body) := by
  refine ⟨h.uncapped, fun hash' => ?_, fun hash' => ?_⟩
  · rw [Blobs.put_of_ne (by simp)]
    exact h.xorbs hash'
  · by_cases heq : hash' = hash
    · rw [heq, Blobs.put_self]
      have hbody : (m ⟨.shards, hash⟩).getD body = body := by
        cases hm : m ⟨.shards, hash⟩ with
        | none => rfl
        | some stored => exact (hsame stored hm).symm
      rw [hbody]
      exact Maps.get_insert_self _ _ _
    · rw [Blobs.put_of_ne (by simp [heq])]
      exact (Maps.get_insert_of_ne _ heq _).trans (h.shards hash')

theorem mem_step (h : MemHolds st m) {op : BlobOp} (hsame : SameShard m op) :
    MemHolds (st.step op).1 (m.step op).1 ∧ (st.step op).2 = (m.step op).2 := by
  have hreserve (n : Nat) : st.reserve n = .ok st := by
    unfold MemBlobStore.reserve
    rw [h.uncapped]
  cases op with
  | putXorb hash body =>
      simp only [MemBlobStore.step, MemBlobStore.putXorb, Blobs.step, h.xorbs, hreserve]
      cases hm : m ⟨.xorbs, hash⟩ with
      | none => exact ⟨holds_insert_xorb h hm, rfl⟩
      | some stored =>
          rw [Blobs.put_of_some hm]
          exact ⟨h, rfl⟩
  | xorbExists hash =>
      simp only [MemBlobStore.step, Blobs.step, h.xorbs]
      exact ⟨h, trivial⟩
  | getXorbRange hash start stop =>
      simp only [MemBlobStore.step, Blobs.step, getXorbRange_mem h]
      exact ⟨h, trivial⟩
  | putShard hash body =>
      have hinsert := holds_insert_shard h hsame
      simp only [MemBlobStore.step, MemBlobStore.putShard, Blobs.step, hreserve]
      split_ifs
      · exact ⟨hinsert, rfl⟩
      · exact ⟨hinsert, rfl⟩
  | getShard hash =>
      refine ⟨h, ?_⟩
      simp only [MemBlobStore.step, MemBlobStore.getShard, Blobs.step, h.shards, wholeAnswer]

/-- What a name is put with is what is there. -/
theorem sameShard_of_oneBody {ops : List BlobOp} (hone : OneBody ops) :
    Replies.Admissible Blobs.step SameShard (fun _ => none) ops := by
  refine Replies.admissible_of_invariant
    (fun m ops => OneBody ops ∧ ∀ name stored, m name = some stored →
      ∀ p ∈ ops.filterMap BlobOp.put?, p.name = name → p.body = stored)
    (fun m op ops hinv => ?_) ⟨hone, fun name stored h => by cases h⟩
  obtain ⟨hone, hstored⟩ := hinv
  have hsub : ∀ p ∈ ops.filterMap BlobOp.put?, p ∈ (op :: ops).filterMap BlobOp.put? := by
    intro p hp
    rw [List.mem_filterMap] at hp ⊢
    obtain ⟨a, ha, hput⟩ := hp
    exact ⟨a, List.mem_cons_of_mem op ha, hput⟩
  have hput {p : Put} (hp : op.put? = some p) : p ∈ (op :: ops).filterMap BlobOp.put? :=
    List.mem_filterMap.2 ⟨op, List.mem_cons_self, hp⟩
  have htail : OneBody ops := fun p hp q hq => hone p (hsub p hp) q (hsub q hq)
  -- what is put now is what is there, and what is put later is what is put now
  have hafter {p : Put} (hp : op.put? = some p) : ∀ name stored,
      m.put p.name p.body name = some stored →
      ∀ q ∈ ops.filterMap BlobOp.put?, q.name = name → q.body = stored := by
    intro name stored h q hq hname
    by_cases heq : name = p.name
    · subst heq
      rw [Blobs.put_self] at h
      cases hm : m p.name with
      | none =>
          rw [hm, Option.getD_none] at h
          rw [← Option.some.inj h]
          exact hone q (hsub q hq) p (hput hp) hname
      | some old =>
          rw [hm, Option.getD_some] at h
          rw [← Option.some.inj h]
          exact hstored _ old hm q (hsub q hq) hname
    · rw [Blobs.put_of_ne heq] at h
      exact hstored name stored h q (hsub q hq) hname
  cases op with
  | putXorb hash body => exact ⟨trivial, htail, hafter rfl⟩
  | xorbExists hash =>
      exact ⟨trivial, htail, fun name stored h q hq => hstored name stored h q (hsub q hq)⟩
  | getXorbRange hash start stop =>
      exact ⟨trivial, htail, fun name stored h q hq => hstored name stored h q (hsub q hq)⟩
  | putShard hash body =>
      exact ⟨fun stored h => hstored _ stored h _ (hput rfl) rfl, htail, hafter rfl⟩
  | getShard hash =>
      exact ⟨trivial, htail, fun name stored h q hq => hstored name stored h q (hsub q hq)⟩

/-- The bytes that the store holds. -/
def MemBlobStore.heldBytes (st : MemBlobStore) : Nat :=
  Maps.total List.length st.xorbs + Maps.total List.length st.shards

/-- A cap is kept to. -/
structure MemCapped (maxBytes : Nat) (st : MemBlobStore) : Prop where
  cap : st.maxBytes = some maxBytes
  xorbs : Maps.Valid st.xorbs
  shards : Maps.Valid st.shards
  counted : st.heldBytes ≤ st.storedBytes
  within : st.storedBytes ≤ maxBytes

/-- No shard is put over a shorter one: what is written over is not counted again. -/
def NoLonger (st : MemBlobStore) : BlobOp → Prop
  | .putShard hash body => ∀ stored, Maps.get st.shards hash = some stored →
      body.length ≤ stored.length
  | _ => True

theorem reserve_capped {maxBytes : Nat} {st' : MemBlobStore} {n : Nat} (h : MemCapped maxBytes st)
    (hres : st.reserve n = .ok st') :
    st.storedBytes + n ≤ maxBytes ∧ st' = { st with storedBytes := st.storedBytes + n } := by
  unfold MemBlobStore.reserve at hres
  simp only [h.cap] at hres
  split_ifs at hres with hover hfull
  refine ⟨Nat.le_of_not_lt hfull, ?_⟩
  rw [h.cap]
  exact (Except.ok.inj hres).symm

theorem capped_step {maxBytes : Nat} (h : MemCapped maxBytes st) {op : BlobOp}
    (hshort : NoLonger st op) : MemCapped maxBytes (st.step op).1 := by
  have hcounted := h.counted
  unfold MemBlobStore.heldBytes at hcounted
  cases op with
  | putXorb hash body =>
      have hadd := Maps.total_insert List.length h.xorbs hash body
      simp only [MemBlobStore.step, MemBlobStore.putXorb]
      split_ifs with hput
      · exact h
      · rw [Option.not_isSome_iff_eq_none] at hput
        rw [hput, Option.map_none, Option.getD_none] at hadd
        split
        · exact h
        · rename_i st' hres
          obtain ⟨hfits, rfl⟩ := reserve_capped h hres
          refine ⟨h.cap, h.xorbs.insert hash body, h.shards, ?_, hfits⟩
          simp only [MemBlobStore.heldBytes]
          omega
  | putShard hash body =>
      have hadd := Maps.total_insert List.length h.shards hash body
      simp only [MemBlobStore.step, MemBlobStore.putShard]
      split_ifs with hput
      · obtain ⟨stored, hget⟩ := Option.isSome_iff_exists.1 hput
        have hlen := hshort stored hget
        rw [hget, Option.map_some, Option.getD_some] at hadd
        refine ⟨h.cap, h.xorbs, h.shards.insert hash body, ?_, h.within⟩
        simp only [MemBlobStore.heldBytes]
        omega
      · rw [Option.not_isSome_iff_eq_none] at hput
        rw [hput, Option.map_none, Option.getD_none] at hadd
        split
        · exact h
        · rename_i st' hres
          obtain ⟨hfits, rfl⟩ := reserve_capped h hres
          refine ⟨h.cap, h.xorbs, h.shards.insert hash body, ?_, hfits⟩
          simp only [MemBlobStore.heldBytes]
          omega
  | xorbExists hash => exact h
  | getXorbRange hash start stop => exact h
  | getShard hash => exact h

/-- **A capped store never holds more than its cap**, whatever is asked of it, unless a shard is put
    over a shorter one. -/
theorem heldBytes_le {maxBytes : Nat} {ops : List BlobOp}
    (hshort : Replies.Admissible MemBlobStore.step NoLonger (MemBlobStore.new.withMaxBytes maxBytes)
      ops) :
    (Replies.after MemBlobStore.step (MemBlobStore.new.withMaxBytes maxBytes) ops).heldBytes ≤
      maxBytes := by
  have hnew : MemCapped maxBytes (MemBlobStore.new.withMaxBytes maxBytes) :=
    ⟨rfl, Maps.valid_nil, Maps.valid_nil, Nat.le_refl 0, Nat.zero_le maxBytes⟩
  have hcapped := Replies.after_invariant (MemCapped maxBytes)
    (fun st op h hshort => capped_step h hshort) hnew hshort
  exact hcapped.counted.trans hcapped.within

end Mem

/-! ## With an object service -/

section S3

open S3BlobStore

variable {σ : Type} {svc : ObjectService σ} {objects : σ → String → Option (List UInt8)}
  {pfx : String} {s : σ} {m : Blobs}

theorem length_debug (h : Hash32) : h.debug.toList.length = 64 := by
  unfold Hash32.debug
  rw [String.toList_ofList, List.length_flatMap]
  simp [h.length_eq]

/-- Two blobs never have one key. -/
theorem key_inj {name name' : BlobName} (h : key pfx name = key pfx name') : name = name' := by
  obtain ⟨kind, hash⟩ := name
  obtain ⟨kind', hash'⟩ := name'
  have htexts := congrArg String.toList h
  simp only [key, String.toList_append] at htexts
  have hhex : hash.debug.toList = hash'.debug.toList :=
    List.append_inj_right' htexts (by rw [length_debug, length_debug])
  have hhash := FsStore.debug_inj (String.toList_inj.1 hhex)
  subst hhash
  simp only [List.append_cancel_right_eq, List.append_cancel_left_eq] at htexts
  have hkind := String.toList_inj.1 htexts
  cases kind <;> cases kind' <;> first | rfl | exact absurd hkind (by decide)

/-- The objects are the blobs. -/
def S3Holds (objects : σ → String → Option (List UInt8)) (pfx : String) (s : σ) (m : Blobs) : Prop :=
  ∀ name, objects s (key pfx name) = m name

/-- The requests that the store on S3 answers in another way: an empty range of what is not there or
    past its end, and a range that begins where the blob ends or after. -/
def S3Differs (m : Blobs) : BlobOp → Prop
  | .getXorbRange hash start stop =>
    match m ⟨.xorbs, hash⟩ with
    | none => start = stop
    | some body => (start = stop ∧ body.length < start) ∨ (start < stop ∧ body.length ≤ start)
  | _ => False

/-- An answer is that of the specification exactly when the request is none of these. -/
def S3Answers (m : Blobs) (op : BlobOp) (answer : BlobAnswer) : Prop :=
  answer = (m.step op).2 ↔ ¬ S3Differs m op

theorem objectExists_of_holds (hdoc : svc.Documented objects) (h : S3Holds objects pfx s m)
    (name : BlobName) : objectExists svc s (key pfx name) = .ok (m name).isSome := by
  unfold objectExists
  cases hm : m name with
  | none => rw [hdoc.headNone _ _ ((h name).trans hm)]; rfl
  | some body => rw [hdoc.headSome _ _ body ((h name).trans hm)]; rfl

theorem putIfAbsent_of_holds (hdoc : svc.Documented objects) (h : S3Holds objects pfx s m)
    (name : BlobName) (body : List UInt8) :
    S3Holds objects pfx (putIfAbsent svc s (key pfx name) body).1 (m.put name body) ∧
      (putIfAbsent svc s (key pfx name) body).2 = .ok (m name).isNone := by
  unfold putIfAbsent
  rw [objectExists_of_holds hdoc h]
  cases hm : m name with
  | some stored =>
      rw [Blobs.put_of_some hm]
      exact ⟨h, rfl⟩
  | none =>
      obtain ⟨s', hput, hobjects⟩ := hdoc.put s (key pfx name) body
      simp only [Option.isSome_none, S3BlobStore.putObject, hput, Except.mapError]
      refine ⟨fun n => ?_, rfl⟩
      rw [Blobs.put_of_none hm, hobjects]
      by_cases hn : n = name
      · simp only [hn, if_true]
      · simp only [if_neg hn, if_neg (fun hkey => hn (key_inj hkey))]
        exact h n

/-- What a range of an object is read as. -/
theorem getXorbRange_s3 (hdoc : svc.Documented objects) (h : S3Holds objects pfx s m)
    (hash : XorbHash) (start stop : Nat) :
    S3Answers m (.getXorbRange hash start stop)
      (.bytes (getXorbRange svc pfx s hash start stop)) := by
  unfold S3Answers getXorbRange
  simp only [Blobs.step, rangeAnswer, BlobAnswer.bytes.injEq, S3Differs]
  by_cases hinv : stop < start
  · simp only [if_pos hinv, true_iff]
    cases m ⟨.xorbs, hash⟩ with
    | none => exact fun heq => by omega
    | some body => exact fun heq => by omega
  · simp only [if_neg hinv]
    have hobj := h ⟨.xorbs, hash⟩
    by_cases hempty : stop = start
    · subst hempty
      simp only [if_true]
      cases hm : m ⟨.xorbs, hash⟩ with
      | none => simp
      | some body =>
          simp only [rangeOf]
          split_ifs with hpast
          · simp [hpast]
          · simp only [List.drop_take_self, lt_self_iff_false, false_and, or_false, true_and, true_iff]
            omega
    · have hlt : start ≤ stop - 1 := by omega
      simp only [if_neg hempty, S3BlobStore.getObject]
      cases hm : m ⟨.xorbs, hash⟩ with
      | none =>
          rw [hdoc.getNone _ _ _ (hobj.trans hm)]
          simp only [Except.mapError, if_true, true_iff]
          omega
      | some body =>
          by_cases hin : start < body.length
          · rw [hdoc.getRange _ _ body _ _ (hobj.trans hm) hlt hin]
            have hstop : stop - 1 + 1 = stop := by omega
            simp only [Except.mapError, hstop, rangeOf, if_neg (show ¬ start > body.length by omega),
              true_iff]
            omega
          · obtain ⟨text, htext⟩ := hdoc.getPast _ _ body _ _ (hobj.trans hm) hlt (by omega)
            rw [htext]
            simp only [Except.mapError, rangeOf, reduceCtorEq, if_false]
            constructor
            · intro heq
              split_ifs at heq
              cases heq
            · intro hnot
              exact absurd (Or.inr ⟨by omega, by omega⟩) hnot

theorem s3_step (hdoc : svc.Documented objects) (h : S3Holds objects pfx s m) (op : BlobOp) :
    S3Holds objects pfx (S3BlobStore.step svc pfx s op).1 (m.step op).1 ∧
      S3Answers m op (S3BlobStore.step svc pfx s op).2 := by
  have hsame {answer : BlobAnswer} (heq : answer = (m.step op).2) (hnot : ¬ S3Differs m op) :
      S3Answers m op answer := ⟨fun _ => hnot, fun _ => heq⟩
  cases op with
  | putXorb hash body =>
      obtain ⟨hholds, hanswer⟩ := putIfAbsent_of_holds hdoc h ⟨.xorbs, hash⟩ body
      refine ⟨hholds, hsame ?_ id⟩
      simp only [S3BlobStore.step, hanswer, Blobs.step]
  | xorbExists hash =>
      refine ⟨h, hsame ?_ id⟩
      simp only [S3BlobStore.step, objectExists_of_holds hdoc h, Blobs.step]
  | getXorbRange hash start stop => exact ⟨h, getXorbRange_s3 hdoc h hash start stop⟩
  | putShard hash body =>
      obtain ⟨hholds, hanswer⟩ := putIfAbsent_of_holds hdoc h ⟨.shards, hash⟩ body
      refine ⟨hholds, hsame ?_ id⟩
      simp only [S3BlobStore.step, hanswer, Blobs.step, Except.map]
  | getShard hash =>
      refine ⟨h, hsame ?_ id⟩
      have hobj := h ⟨.shards, hash⟩
      simp only [S3BlobStore.step, S3BlobStore.getObject, Blobs.step, BlobAnswer.bytes.injEq]
      cases hm : m ⟨.shards, hash⟩ with
      | none =>
          rw [hdoc.getNone _ _ _ (hobj.trans hm)]
          rfl
      | some body =>
          rw [hdoc.getWhole _ _ body (hobj.trans hm)]
          rfl

end S3

/-! ## On a file system -/

section Fs

open FsStore
open Disk (Closed Stays)

/-- A store that nobody is writing to. -/
structure Ready (fs : FileSystem) : Prop where
  closed : Closed fs
  tmpDir : fs.entries ["tmp"] = some .dir
  noTmp : ∀ uuid, fs.entries (tmpPath uuid) = none
  files : ∀ p i, fs.entries p = some (.file i) → ∃ name, p = fanout name
  blobs : ∀ name n, fs.entries (fanout name) = some n → ∃ i, n = .file i ∧ i < fs.fresh

/-- The files are the blobs. -/
structure FsHolds (fs : FileSystem) (m : Blobs) : Prop where
  ready : Ready fs
  stored : ∀ name, stored fs name = m name

variable {display : FsStore.Path → String} {fs : FileSystem} {m : Blobs}

theorem FsHolds.entry_none (h : FsHolds fs m) {name : BlobName} (hm : m name = none) :
    fs.entries (fanout name) = none := by
  cases hentry : fs.entries (fanout name) with
  | none => rfl
  | some n =>
      obtain ⟨i, rfl, -⟩ := h.ready.blobs name n hentry
      have hstored := h.stored name
      simp only [FsStore.stored, hentry, hm] at hstored
      cases hstored

theorem FsHolds.entry_some (h : FsHolds fs m) {name : BlobName} {body : List UInt8}
    (hm : m name = some body) :
    ∃ i, fs.entries (fanout name) = some (.file i) ∧ (fs.inodes i).data = body := by
  have hstored := (h.stored name).trans hm
  unfold FsStore.stored at hstored
  split at hstored
  · rename_i i hi
    exact ⟨i, hi, Option.some.inj hstored⟩
  · cases hstored

theorem finishPut_done (fs : FileSystem) (p : Put) (answer : CoreResult Bool) (c : Choice) (n : Nat) :
    finishPut display fs ⟨p, .done answer⟩ c n = (fs, .done answer) := by
  induction n with
  | zero => rfl
  | succ n ih => exact ih

theorem finishGet_done (fs : FileSystem) (name : BlobName) (want : Want)
    (answer : CoreResult (List UInt8)) (c : Choice) (n : Nat) :
    finishGet fs ⟨name, want, .done answer⟩ c n = .done answer := by
  induction n with
  | zero => rfl
  | succ n ih => exact ih

/-- The directories of a blob can be made, and the file that it is written to. -/
theorem mkdir_ready (h : Ready fs) (name : BlobName) :
    ∃ fs', Disk.mkdirAll fs (fanout name).dropLast = some fs' ∧ Closed fs' ∧
      fs'.entries (fanout name).dropLast = some .dir ∧ fs'.entries ["tmp"] = some .dir ∧
      (∀ name, fs'.entries (fanout name) = fs.entries (fanout name)) ∧
      (∀ uuid, fs'.entries (tmpPath uuid) = none) ∧
      (∀ p i, fs'.entries p = some (.file i) → fs.entries p = some (.file i)) ∧
      fs'.inodes = fs.inodes ∧ fs'.fresh = fs.fresh := by
  have hnofile : ∀ q, q <+: (fanout name).dropLast → ∀ i, fs.entries q ≠ some (.file i) := by
    intro q hq i hi
    obtain ⟨name', rfl⟩ := h.files q i hi
    exact fanout_not_above name' (by rw [length_parent]; omega) hq
  obtain ⟨fs', hmk, hdir⟩ := Disk.mkdirAll_succeeds h.closed.1 hnofile
  obtain ⟨hinodes, hfresh⟩ := Disk.mkdirAll_inodes hmk
  have htmp (p : FsStore.Path) (hp : ["tmp"] <+: p) : fs'.entries p = fs.entries p := by
    refine (Disk.mkdirAll_stays hmk (fun hpre => ?_)).entries
    obtain ⟨t, ht⟩ := (hp.trans hpre).trans (List.dropLast_prefix _)
    simp only [fanout, List.cons_append, List.cons.injEq] at ht
    cases hkind : name.kind <;> rw [hkind] at ht <;> exact absurd ht.1 (by decide)
  refine ⟨fs', hmk, h.closed.mkdirAll hmk, hdir, ?_, fun name' => ?_, fun u => ?_,
    fun p i hi => Disk.mkdirAll_file hmk hi, hinodes, hfresh⟩
  · rw [htmp _ (List.prefix_refl _)]
    exact h.tmpDir
  · exact (Disk.mkdirAll_stays hmk (fanout_not_above name' (by rw [length_parent]; omega))).entries
  · rw [htmp (tmpPath u) (List.prefix_append ["tmp"] [u])]
    exact h.noTmp u

/-- The store once a new blob is put, its directories being there. -/
def written (fs : FileSystem) (name : BlobName) (body : List UInt8) (uuid : String) : FileSystem :=
  Disk.syncDir (Disk.setEntry (Disk.setEntry (Disk.sync (Disk.append
    { Disk.setInode (Disk.setEntry fs (tmpPath uuid) (some (.file fs.fresh))) fs.fresh ⟨[], false⟩ with
      fresh := fs.fresh + 1 } fs.fresh body) fs.fresh) (fanout name) (some (.file fs.fresh)))
    (tmpPath uuid) none) (fanout name).dropLast

theorem entries_written (fs : FileSystem) (name : BlobName) (body : List UInt8) (uuid : String)
    (p : FsStore.Path) : (written fs name body uuid).entries p =
      if p = tmpPath uuid then none
      else if p = fanout name then some (.file fs.fresh) else fs.entries p := by
  by_cases hp : p = tmpPath uuid
  · simp [written, Disk.syncDir, Disk.setEntry, hp]
  · simp [written, Disk.syncDir, Disk.setEntry, Disk.sync, Disk.append, Disk.setInode, hp]

theorem inodes_written (fs : FileSystem) (name : BlobName) (body : List UInt8) (uuid : String)
    (i : Nat) : (written fs name body uuid).inodes i =
      if i = fs.fresh then ⟨body, true⟩ else fs.inodes i := by
  by_cases hi : i = fs.fresh
  · simp [written, Disk.syncDir, Disk.setEntry, Disk.sync, Disk.append, Disk.setInode, hi]
  · simp [written, Disk.syncDir, Disk.setEntry, Disk.sync, Disk.append, Disk.setInode, hi]

/-- The calls of a put of a new blob, one after the other. -/
theorem finishPut_new (display : FsStore.Path → String) {fs' : FileSystem} {name : BlobName}
    (body : List UInt8) {uuid : String}
    (hnone : fs.entries (fanout name) = none)
    (hmk : Disk.mkdirAll fs (fanout name).dropLast = some fs')
    (hdir : fs'.entries (fanout name).dropLast = some .dir) (htmp : fs'.entries ["tmp"] = some .dir)
    (hfree : fs'.entries (tmpPath uuid) = none) (hdst : fs'.entries (fanout name) = none) :
    finishPut display fs ⟨⟨name, body⟩, .stat⟩ ⟨none, body.length, uuid⟩ 7 =
      (written fs' name body uuid, .done (.ok true)) := by
  have hne : fanout name ≠ tmpPath uuid := fanout_ne_tmp name uuid
  have hne' : tmpPath uuid ≠ fanout name := Ne.symm hne
  have hparent : (fanout name).dropLast ≠ tmpPath uuid := by
    intro heq
    have hlen := congrArg List.length heq
    rw [length_parent] at hlen
    cases hlen
  have hcreate : Disk.createNew fs' (tmpPath uuid) = some
      ({ Disk.setInode (Disk.setEntry fs' (tmpPath uuid) (some (.file fs'.fresh))) fs'.fresh
          ⟨[], false⟩ with fresh := fs'.fresh + 1 }, fs'.fresh) := by
    unfold Disk.createNew
    exact if_pos ⟨hfree, htmp⟩
  simp only [finishPut, Writer.next, hnone, Option.isSome_none, Bool.and_false, Bool.false_eq_true,
    if_false, hmk, hcreate, List.take_length, List.drop_length, if_true]
  have hmv : Disk.rename (Disk.sync (Disk.append
      { Disk.setInode (Disk.setEntry fs' (tmpPath uuid) (some (.file fs'.fresh))) fs'.fresh
          ⟨[], false⟩ with fresh := fs'.fresh + 1 } fs'.fresh body) fs'.fresh) (tmpPath uuid)
      (fanout name) = some (Disk.setEntry (Disk.setEntry (Disk.sync (Disk.append
        { Disk.setInode (Disk.setEntry fs' (tmpPath uuid) (some (.file fs'.fresh))) fs'.fresh
            ⟨[], false⟩ with fresh := fs'.fresh + 1 } fs'.fresh body) fs'.fresh) (fanout name)
          (some (.file fs'.fresh))) (tmpPath uuid) none) := by
    simp [Disk.rename, Disk.sync, Disk.append, Disk.setInode, Disk.setEntry, hne, hdst, hparent, hdir]
  rw [hmv]
  rfl

theorem closed_finishPut (display : FsStore.Path → String) {w : Writer} (hclosed : Closed fs)
    (hok : w.Ok fs) (c : Choice) (n : Nat) :
    Closed (finishPut display fs w c n).1 := by
  induction n generalizing fs w with
  | zero => exact hclosed
  | succ n ih =>
      have heff : Effect fs (w.next display fs c).1 w (w.next display fs c).2 :=
        effect_next hclosed hok rfl
      exact ih heff.closed heff.ok

/-- **A put, call after call, keeps the first body.** -/
theorem fs_put (display : FsStore.Path → String) (h : FsHolds fs m) (name : BlobName)
    (body : List UInt8) (uuid : String) :
    FsHolds (finishPut display fs ⟨⟨name, body⟩, .stat⟩ ⟨none, body.length, uuid⟩ 7).1
        (m.put name body) ∧
      (finishPut display fs ⟨⟨name, body⟩, .stat⟩ ⟨none, body.length, uuid⟩ 7).2 =
        .done (.ok (m name).isNone) := by
  cases hm : m name with
  | some stored =>
      obtain ⟨i, hentry, -⟩ := h.entry_some hm
      have hput : finishPut display fs ⟨⟨name, body⟩, .stat⟩ ⟨none, body.length, uuid⟩ 7 =
          (fs, .done (.ok false)) := by
        rw [finishPut]
        simp only [Writer.next, hentry, Option.isSome_some, Option.isNone_none, Bool.and_self, if_true]
        exact finishPut_done fs _ _ _ 6
      rw [hput, Blobs.put_of_some hm]
      exact ⟨h, rfl⟩
  | none =>
      have hnone := h.entry_none hm
      obtain ⟨fs', hmk, -, hdir, htmpDir, hsame, hfree, hfiles, hinodes, hfresh⟩ :=
        mkdir_ready h.ready name
      have hstart : Writer.Ok fs ⟨⟨name, body⟩, .stat⟩ := trivial
      have hclosed := closed_finishPut display h.ready.closed hstart ⟨none, body.length, uuid⟩ 7
      have hput := finishPut_new display body hnone hmk hdir htmpDir (hfree uuid)
        ((hsame name).trans hnone)
      rw [hput] at hclosed ⊢
      refine ⟨⟨⟨hclosed, ?_, fun u => ?_, fun p i hp => ?_, fun name' n hn => ?_⟩, fun name' => ?_⟩,
        rfl⟩
      · rw [entries_written, if_neg (by simp [tmpPath]), if_neg (by simp [fanout])]
        exact htmpDir
      · rw [entries_written]
        by_cases hu : tmpPath u = tmpPath uuid
        · rw [if_pos hu]
        · rw [if_neg hu, if_neg (Ne.symm (fanout_ne_tmp name u))]
          exact hfree u
      · rw [entries_written] at hp
        split_ifs at hp with _ hdst
        · exact ⟨name, hdst⟩
        · exact h.ready.files p i (hfiles p i hp)
      · rw [entries_written, if_neg (fanout_ne_tmp name' uuid)] at hn
        have hnext : (written fs' name body uuid).fresh = fs.fresh + 1 := by
          rw [← hfresh]
          rfl
        rw [hnext]
        split_ifs at hn
        · exact ⟨fs'.fresh, (Option.some.inj hn).symm, by omega⟩
        · rw [hsame] at hn
          obtain ⟨i, rfl, hi⟩ := h.ready.blobs name' n hn
          exact ⟨i, rfl, by omega⟩
      · rw [Blobs.put_of_none hm]
        simp only [stored, entries_written, if_neg (fanout_ne_tmp name' uuid)]
        by_cases hname : name' = name
        · simp only [hname, if_true, inodes_written]
        · rw [if_neg (fun heq => hname (fanout_inj heq)), if_neg hname, hsame, ← h.stored name']
          unfold stored
          cases hentry : fs.entries (fanout name') with
          | none => rfl
          | some n =>
              obtain ⟨i, rfl, hi⟩ := h.ready.blobs name' n hentry
              simp only [inodes_written, hinodes, if_neg (show i ≠ fs'.fresh by omega)]

/-- A read, call after call. -/
theorem fs_get_range (h : FsHolds fs m) (hash : XorbHash) (start stop : Nat) :
    finishGet fs (Reader.start ⟨.xorbs, hash⟩ (.range start stop)) ⟨none, 0, ""⟩ 4 =
      .done (rangeAnswer (m ⟨.xorbs, hash⟩) start stop) := by
  unfold Reader.start rangeAnswer
  by_cases hinv : stop < start
  · simp only [if_pos hinv]
    exact finishGet_done fs _ _ _ _ 4
  · simp only [if_neg hinv]
    cases hm : m ⟨.xorbs, hash⟩ with
    | none =>
        simp only [finishGet, Reader.next, h.entry_none hm]
    | some body =>
        obtain ⟨i, hentry, hdata⟩ := h.entry_some hm
        simp only [finishGet, Reader.next, hentry, hdata, rangeOf]
        by_cases hpast : start > body.length
        · simp only [if_pos hpast]
        · have hmin : ¬ body.length < min stop body.length := by omega
          simp only [if_neg hpast]
          rw [hdata, if_neg hmin, ← List.take_eq_take_min]

theorem fs_get_whole (h : FsHolds fs m) (hash : ShardHash) :
    finishGet fs (Reader.start ⟨.shards, hash⟩ .whole) ⟨none, 0, ""⟩ 4 =
      .done (wholeAnswer (m ⟨.shards, hash⟩)) := by
  unfold Reader.start wholeAnswer
  cases hm : m ⟨.shards, hash⟩ with
  | none => simp only [finishGet, Reader.next, h.entry_none hm]
  | some body =>
      obtain ⟨i, hentry, hdata⟩ := h.entry_some hm
      simp only [finishGet, Reader.next, hentry, hdata]

theorem fs_step (h : FsHolds fs m) (a : BlobOp × String) :
    FsHolds (step1 display fs a).1 (m.step a.1).1 ∧ (step1 display fs a).2 = (m.step a.1).2 := by
  obtain ⟨op, uuid⟩ := a
  cases op with
  | putXorb hash body =>
      obtain ⟨hholds, hanswer⟩ := fs_put display h ⟨.xorbs, hash⟩ body uuid
      refine ⟨hholds, ?_⟩
      simp only [step1, hanswer, PutPhase.answer, Blobs.step]
  | xorbExists hash =>
      refine ⟨h, ?_⟩
      simp only [step1, Blobs.step]
      cases hm : m ⟨.xorbs, hash⟩ with
      | none => rw [h.entry_none hm]; rfl
      | some body =>
          obtain ⟨i, hentry, -⟩ := h.entry_some hm
          rw [hentry]
          rfl
  | getXorbRange hash start stop =>
      refine ⟨h, ?_⟩
      simp only [step1, fs_get_range h, GetPhase.answer, Blobs.step]
  | putShard hash body =>
      obtain ⟨hholds, hanswer⟩ := fs_put display h ⟨.shards, hash⟩ body uuid
      refine ⟨hholds, ?_⟩
      simp only [step1, hanswer, PutPhase.answer, Blobs.step, Except.map]
  | getShard hash =>
      refine ⟨h, ?_⟩
      simp only [step1, fs_get_whole h, GetPhase.answer, Blobs.step]

theorem openStore_file {fs : FileSystem} {p : FsStore.Path} {i : Nat}
    (h : (openStore fs).entries p = some (.file i)) : fs.entries p = some (.file i) := by
  unfold openStore at h
  generalize ["xorbs", "shards", "tmp"] = subs at h
  induction subs generalizing fs with
  | nil => exact h
  | cons sub subs ih =>
      have hfile := ih h
      dsimp only at hfile
      cases hmk : Disk.mkdirAll fs [sub] with
      | none => rwa [hmk] at hfile
      | some fs' =>
          rw [hmk] at hfile
          exact Disk.mkdirAll_file hmk hfile

theorem holds_opened : FsHolds Site.opened.fs (fun _ => none) := by
  have hinv := inv_opened
  have hstays := (openStore_spec (Disk.closed_empty : Closed (Disk.State.empty : FileSystem))).2.2.2
  have hempty (p : FsStore.Path) (hp : 1 < p.length) : Site.opened.fs.entries p = none := by
    refine (hstays p hp).entries.trans (if_neg ?_)
    rintro rfl
    cases hp
  have hblob (name : BlobName) : Site.opened.fs.entries (fanout name) = none :=
    hempty _ (by simp [fanout])
  refine ⟨⟨hinv.closed, rfl, fun u => hempty _ (by simp [tmpPath]), fun p i hp => ?_,
    fun name n hn => ?_⟩, fun name => ?_⟩
  · have hfile : (Disk.State.empty : FileSystem).entries p = some (.file i) := openStore_file hp
    simp only [Disk.State.empty] at hfile
    split_ifs at hfile
    cases hfile
  · rw [hblob] at hn
    cases hn
  · unfold stored
    rw [hblob]

end Fs

/-! ## Every list of requests -/

/-- **The stores answer alike.** Whatever is asked, in whatever order: the store on a file system
    answers what a blob store is for, whatever its temporary files are called; the one on S3 does, on
    exactly the requests that do not differ; and the one in memory does, if no two bodies are put
    under one name. -/
theorem blob_stores_agree (ops : List BlobOp) :
    (∀ (display : FsStore.Path → String) (reqs : List (BlobOp × String)), reqs.map Prod.fst = ops →
      Replies.answers (FsStore.step1 display) FsStore.Site.opened.fs reqs =
        Replies.answers Blobs.step (fun _ => none) ops) ∧
    (∀ (σ : Type) (svc : ObjectService σ) (objects : σ → String → Option (List UInt8))
      (pfx : String) (s : σ), svc.Documented objects →
      (∀ name, objects s (S3BlobStore.key pfx name) = none) →
      Replies.Along Blobs.step S3Answers (fun _ => none) ops
        (Replies.answers (S3BlobStore.step svc pfx) s ops)) ∧
    (OneBody ops → Replies.answers MemBlobStore.step MemBlobStore.new ops =
      Replies.answers Blobs.step (fun _ => none) ops) := by
  refine ⟨fun display reqs hreqs => ?_, fun σ svc objects pfx s hdoc hempty => ?_, fun hone => ?_⟩
  · have hsim : ∀ fs m a, FsHolds fs m → True →
        FsHolds (FsStore.step1 display fs a).1 (Blobs.step m a.1).1 ∧
          (FsStore.step1 display fs a).2 = (Blobs.step m a.1).2 := fun fs m a h _ => fs_step h a
    rw [← hreqs, ← Replies.answers_map]
    exact Replies.answers_eq hsim holds_opened (Replies.admissible_true _ _ _)
  · have hsim : ∀ s m op, S3Holds objects pfx s m → True →
        S3Holds objects pfx (S3BlobStore.step svc pfx s op).1 (Blobs.step m op).1 ∧
          S3Answers m op (S3BlobStore.step svc pfx s op).2 := fun s m op h _ => s3_step hdoc h op
    exact Replies.along_answers hsim hempty (Replies.admissible_true _ _ _)
  · have hsim : ∀ st m op, MemHolds st m → SameShard m op →
        MemHolds (MemBlobStore.step st op).1 (Blobs.step m op).1 ∧
          (MemBlobStore.step st op).2 = (Blobs.step m op).2 := fun st m op h hsame => mem_step h hsame
    have hnew : MemHolds MemBlobStore.new (fun _ => none) := ⟨rfl, fun _ => rfl, fun _ => rfl⟩
    exact Replies.answers_eq hsim hnew (sameShard_of_oneBody hone)

namespace Sample

def parseRange (text : String) : Nat × Nat :=
  let digits := text.toList.drop 6
  (Nat.ofDigitChars 10 (digits.takeWhile (fun c => c ≠ '-')) 0,
    Nat.ofDigitChars 10 ((digits.dropWhile (fun c => c ≠ '-')).drop 1) 0)

theorem parseRange_rangeHeader (first last : Nat) :
    parseRange (rangeHeader first last) = (first, last) := by
  have hdigits (n : Nat) : ∀ c ∈ Nat.toDigits 10 n, decide (c ≠ '-') = true := by
    intro c hc
    have hdigit := Nat.isDigit_of_mem_toDigits (by decide) (by decide) hc
    refine decide_eq_true ?_
    rintro rfl
    exact absurd hdigit (by decide)
  have htext : (rangeHeader first last).toList.drop 6 =
      Nat.toDigits 10 first ++ '-' :: Nat.toDigits 10 last := by
    simp [rangeHeader, Nat.repr]
  have htake : (Nat.toDigits 10 first ++ '-' :: Nat.toDigits 10 last).takeWhile
      (fun c => c ≠ '-') = Nat.toDigits 10 first := by
    rw [List.takeWhile_append_of_pos (hdigits first)]
    simp
  have hdrop : (Nat.toDigits 10 first ++ '-' :: Nat.toDigits 10 last).dropWhile
      (fun c => c ≠ '-') = '-' :: Nat.toDigits 10 last := by
    rw [List.dropWhile_append_of_pos (hdigits first)]
    simp
  unfold parseRange
  rw [htext]
  simp only [htake, hdrop, List.drop_one, List.tail_cons, Nat.ofDigitChars_ten_toDigits]

/-- Objects in a map. -/
def mapService : ObjectService (String → Option (List UInt8)) where
  headObject m key := if (m key).isSome then .ok () else .error .notFound
  putObject m key body := .ok (fun k => if k = key then some body else m k)
  getObject m key range :=
    match m key, range with
    | none, _ => .error .noSuchKey
    | some body, none => .ok body
    | some body, some text =>
      if (parseRange text).1 < body.length then
        .ok ((body.take ((parseRange text).2 + 1)).drop (parseRange text).1)
      else .error (.other "service error: InvalidRange")

theorem mapService_documented : mapService.Documented id where
  headSome m key body h := by
    have h : m key = some body := h
    simp only [mapService, h, Option.isSome_some, if_true]
  headNone m key h := by
    have h : m key = none := h
    simp [mapService, h]
  put m key body := ⟨_, rfl, fun k => rfl⟩
  getNone m key range h := by
    have h : m key = none := h
    simp only [mapService, h]
  getWhole m key body h := by
    have h : m key = some body := h
    simp only [mapService, h]
  getRange m key body first last h _ hin := by
    have h : m key = some body := h
    simp only [mapService, h, parseRange_rangeHeader, if_pos hin]
  getPast m key body first last h _ hpast := by
    have h : m key = some body := h
    refine ⟨"service error: InvalidRange", ?_⟩
    simp only [mapService, h, parseRange_rangeHeader, if_neg (Nat.not_lt.2 hpast)]

/-- A range that begins at the end of the blob. -/
def atEnd : List BlobOp := [.putXorb (hash32 7) [1, 2], .getXorbRange (hash32 7) 2 3]

end Sample

/-- The stores in memory and on a file system answer with no bytes, the one on S3 with an error. -/
theorem blob_stores_agree_at_end :
    Replies.answers MemBlobStore.step MemBlobStore.new Sample.atEnd =
      [.putXorb (.ok true), .bytes (.ok [])] ∧
    Replies.Along Blobs.step S3Answers (fun _ => none) Sample.atEnd
      (Replies.answers (S3BlobStore.step Sample.mapService "") (fun _ => none) Sample.atEnd) := by
  obtain ⟨-, hs3, hmem⟩ := blob_stores_agree Sample.atEnd
  refine ⟨?_, hs3 _ Sample.mapService id "" _ Sample.mapService_documented (fun _ => rfl)⟩
  rw [hmem (fun p hp q hq _ => ?_)]
  · decide +kernel
  · have hall : ∀ p ∈ Sample.atEnd.filterMap BlobOp.put?, p.body = [1, 2] := by decide +kernel
    rw [hall p hp, hall q hq]

end BaleForGit.Server
