import BaleForGit.Server.Integrity

set_option autoImplicit false

/-! # What is read is read again

Readers beside the uploads of `Integrity`: a download fetches its terms one after the other, and so
does a client with the ranges of a response; between any two fetches, and between the layout query of
a term and the read of its range, uploads go on, fail, or are cut off by a crash. `Lasts` is what no
operation undoes: blobs, frames and terms are written once. What could be read is therefore read the
same by everyone, by both paths and for good.

The operation that would undo something is a put over a blob with another body: `put_xorb` looks
first, and another upload of the xorb can put its body in between. `KeepsBlobs` leaves it out. -/

namespace BaleForGit.Server

/-! ## What lasts -/

/-- What is stored in `st` is stored in `st'`. -/
structure Lasts (st st' : ServerState) : Prop where
  blobs : ∀ x body, st.blobs x = some body → st'.blobs x = some body
  frames : st.db.xorbFrames <+: st'.db.xorbFrames
  terms : ∀ h, st.db.fileTermList h ≠ [] → st'.db.fileTermList h = st.db.fileTermList h

theorem Lasts.refl (st : ServerState) : Lasts st st :=
  ⟨fun _ _ h => h, List.prefix_rfl, fun _ _ => rfl⟩

theorem Lasts.trans {st st' st'' : ServerState} (h : Lasts st st') (h' : Lasts st' st'') :
    Lasts st st'' where
  blobs := fun x body hx => h'.blobs x body (h.blobs x body hx)
  frames := h.frames.trans h'.frames
  terms := by
    intro g hg
    have hsame := h.terms g hg
    rw [h'.terms g (by rw [hsame]; exact hg), hsame]

/-- An operation that writes neither blobs nor terms. -/
theorem Lasts.of_same {st st' : ServerState} (hblobs : st'.blobs = st.blobs)
    (hframes : st.db.xorbFrames <+: st'.db.xorbFrames)
    (hterms : st'.db.fileTerms = st.db.fileTerms) : Lasts st st' := by
  refine ⟨fun x body hx => ?_, hframes, fun h _ => ?_⟩
  · rw [hblobs]
    exact hx
  · unfold Db.fileTermList
    rw [hterms]

/-- The xorb that an operation puts. -/
def Traffic.putting (s : Traffic) (a : TrafficAct) : Option XorbRequest :=
  match a with
  | .xorb (.step i) =>
    match s.uploads.pcs i with
    | .absent r _ => some r
    | _ => none
  | _ => none

/-- A put finds no blob, or one with its own body. -/
def KeepsBlobs (s : Traffic) (a : TrafficAct) : Prop :=
  ∀ r ∈ s.putting a, s.server.blobs r.hash = none ∨ s.server.blobs r.hash = some r.body

instance (s : Traffic) (a : TrafficAct) : Decidable (KeepsBlobs s a) :=
  inferInstanceAs (Decidable (∀ _ ∈ _, _))

section Steps

variable {svc : Service}

theorem uploadsStep_lasts {s : Traffic} {a : UploadAct} {u : Uploads}
    (hkeeps : KeepsBlobs s (.xorb a)) (hstep : uploadsStep svc s.uploads a = some u) :
    Lasts s.server u.server := by
  cases a with
  | receive i r =>
      simp only [uploadsStep] at hstep
      split at hstep
      · obtain rfl := Option.some.inj hstep
        exact Lasts.refl _
      · simp at hstep
  | stop i =>
      obtain rfl := Option.some.inj hstep
      exact Lasts.refl _
  | step i =>
      simp only [uploadsStep, uploadStep] at hstep
      cases hi : s.uploads.pcs i with
      | idle => simp [hi] at hstep
      | received r =>
          simp only [hi] at hstep
          split at hstep <;> obtain rfl := Option.some.inj hstep <;> exact Lasts.refl _
      | checked r =>
          simp only [hi] at hstep
          split at hstep <;> obtain rfl := Option.some.inj hstep <;> exact Lasts.refl _
      | parsed r layout =>
          simp only [hi] at hstep
          split at hstep <;> obtain rfl := Option.some.inj hstep <;> exact Lasts.refl _
      | verified r layout =>
          simp only [hi] at hstep
          obtain rfl := Option.some.inj hstep
          obtain ⟨-, hterms, -⟩ := registerXorbLayout_frame s.server.db r.hash layout
          refine Lasts.of_same rfl ?_ hterms
          simp only [Uploads.setPc, Db.xorbFrames_registerXorbLayout]
          exact Table.prefix_insertAll _ _
      | registered r layout =>
          simp only [hi] at hstep
          split_ifs at hstep <;> obtain rfl := Option.some.inj hstep <;> exact Lasts.refl _
      | absent r layout =>
          simp only [hi] at hstep
          obtain rfl := Option.some.inj hstep
          have hput : s.putting (.xorb (.step i)) = some r := by
            simp only [Traffic.putting, hi]
          refine ⟨fun x body hx => ?_, List.prefix_rfl, fun _ _ => rfl⟩
          simp only [Uploads.setPc, ServerState.putXorb]
          by_cases hxr : x = r.hash
          · -- another upload has put the xorb since this one looked, with the same body
            rw [hxr] at hx ⊢
            rw [Function.update_self]
            rcases hkeeps r hput with hnone | hsame
            · exact absurd (hx.symm.trans hnone) (by simp)
            · exact hsame.symm.trans hx
          · rw [Function.update_of_ne hxr]
            exact hx
      | answered res => simp [hi] at hstep

theorem shardOp_lasts {st : ServerState} {pc : ShardPc} {res : ServerState × ShardPc}
    (hstep : shardOp svc st pc = some res) : Lasts st res.1 := by
  cases pc with
  | idle => simp [shardOp] at hstep
  | received r =>
      simp only [shardOp] at hstep
      split_ifs at hstep with hsize
      · obtain rfl := Option.some.inj hstep
        exact Lasts.refl st
      · split at hstep <;> obtain rfl := Option.some.inj hstep <;> exact Lasts.refl st
  | checking r parsed todo =>
      cases todo with
      | nil =>
          obtain rfl := Option.some.inj hstep
          exact Lasts.refl st
      | cons c todo =>
          simp only [shardOp] at hstep
          split at hstep <;> obtain rfl := Option.some.inj hstep <;> exact Lasts.refl st
  | registering r parsed layouts todo =>
      cases todo with
      | nil =>
          obtain rfl := Option.some.inj hstep
          exact Lasts.refl st
      | cons cb todo =>
          obtain rfl := Option.some.inj hstep
          exact Lasts.of_same rfl List.prefix_rfl rfl
  | quota r parsed =>
      simp only [shardOp] at hstep
      split at hstep <;> obtain rfl := Option.some.inj hstep <;> exact Lasts.refl st
  | used r parsed q =>
      simp only [shardOp] at hstep
      split at hstep <;> obtain rfl := Option.some.inj hstep <;> exact Lasts.refl st
  | delta r parsed q used =>
      simp only [shardOp] at hstep
      split at hstep
      · obtain rfl := Option.some.inj hstep
        exact Lasts.refl st
      · split_ifs at hstep <;> obtain rfl := Option.some.inj hstep <;> exact Lasts.refl st
  | terms r parsed =>
      simp only [shardOp] at hstep
      split at hstep <;> obtain rfl := Option.some.inj hstep <;> exact Lasts.refl st
  | put r files =>
      obtain rfl := Option.some.inj hstep
      exact Lasts.of_same rfl List.prefix_rfl rfl
  | register r files =>
      obtain rfl := Option.some.inj hstep
      obtain ⟨-, -, hframes, -⟩ := registerFiles_frame st.db r.repo files r.now
      refine ⟨fun _ _ hx => hx, ?_, fun h hne => ?_⟩
      · simp only [hframes, List.prefix_rfl]
      · rw [fileTermList_registerFiles, termsAfter, if_neg hne]
  | answered res => simp [shardOp] at hstep

/-- **No step undoes what is stored**, a put over another body apart. -/
theorem trafficStep_lasts {s s' : Traffic} {a : TrafficAct} (hkeeps : KeepsBlobs s a)
    (hstep : trafficStep svc s a = some s') : Lasts s.server s'.server := by
  cases a with
  | xorb a =>
      obtain ⟨u, hu, rfl⟩ := Option.map_eq_some_iff.1 hstep
      exact uploadsStep_lasts hkeeps hu
  | receive i r =>
      simp only [trafficStep] at hstep
      split at hstep
      · obtain rfl := Option.some.inj hstep
        exact Lasts.refl _
      · simp at hstep
  | shard i =>
      obtain ⟨res, hres, rfl⟩ := Option.map_eq_some_iff.1 hstep
      exact shardOp_lasts hres
  | fail i e =>
      obtain rfl := Option.some.inj hstep
      exact Lasts.refl _
  | crash =>
      obtain rfl := Option.some.inj hstep
      exact Lasts.refl _

theorem run_lasts {s s' : Traffic} {acts : List TrafficAct}
    (hkeeps : Machine.Admissible (trafficStep svc) KeepsBlobs s acts)
    (hrun : Machine.run (trafficStep svc) s acts = some s') : Lasts s.server s'.server := by
  have hkeep : ∀ t a t', Lasts s.server t.server → KeepsBlobs t a →
      trafficStep svc t a = some t' → Lasts s.server t'.server :=
    fun t a t' ht hok hstep => ht.trans (trafficStep_lasts hok hstep)
  exact Machine.run_invariant hkeep (Lasts.refl s.server) hkeeps hrun

end Steps

/-! ## Terms that can be read -/

/-- What is read of a term: the bytes of its frames, decompressed. -/
def termRead (codec : Codec) (st : ServerState) (t : FileTerm) : Option (List UInt8) := do
  let (byteStart, byteEnd) ← (termByteRange (st.db.xorbFrameLayout t.xorb) t).toOption
  let body ← (st.getXorbRange t.xorb byteStart byteEnd).toOption
  (decompressXorbChunksInto codec body).toOption

theorem termRead_eq_some {codec : Codec} {st : ServerState} {t : FileTerm} {bytes : List UInt8} :
    termRead codec st t = some bytes ↔ ∃ range body,
      termByteRange (st.db.xorbFrameLayout t.xorb) t = .ok range ∧
        st.getXorbRange t.xorb range.1 range.2 = .ok body ∧
        decompressXorbChunksInto codec body = .ok bytes := by
  unfold termRead
  cases hrange : termByteRange (st.db.xorbFrameLayout t.xorb) t with
  | error e => simp [Except.toOption]
  | ok range =>
      cases hbody : st.getXorbRange t.xorb range.1 range.2 with
      | error e => simp [Except.toOption, hbody]
      | ok body =>
          cases hbytes : decompressXorbChunksInto codec body with
          | error e => simp [Except.toOption, hbody, hbytes]
          | ok got => simp [Except.toOption, hbody, hbytes]

section Terms

variable {st st' : ServerState}

theorem layout_eq {n : Nat} {x : XorbHash} (h : frameIndexes st.db x = List.range n) :
    st.db.xorbFrameLayout x = (framesOf x st.db.xorbFrames).map (fun r => r.frame) := by
  have hsorted : (framesOf x st.db.xorbFrames).Pairwise
      (fun a b => a.frame.frameIndex.toNat ≤ b.frame.frameIndex.toNat) := by
    unfold frameIndexes at h
    refine List.pairwise_map.1 ?_
    rw [h]
    exact List.pairwise_le_range
  unfold Db.xorbFrameLayout
  rw [Table.orderBy_of_pairwise hsorted]

/-- Layouts without gaps only get longer. -/
theorem Lasts.layout (h : Lasts st st') (hst : StoresOk st) (hst' : StoresOk st') (x : XorbHash) :
    st.db.xorbFrameLayout x <+: st'.db.xorbFrameLayout x := by
  obtain ⟨n, hn⟩ := hst.frames x
  obtain ⟨n', hn'⟩ := hst'.frames x
  rw [layout_eq hn, layout_eq hn']
  unfold framesOf
  exact (h.frames.filter _).map _

/-- A term within a layout has the same bytes in a longer one. -/
theorem termByteRange_extends {layout layout' : List XorbFrameRow} (h : layout <+: layout')
    {t : FileTerm} {range : Nat × Nat} (hrange : termByteRange layout t = .ok range) :
    termByteRange layout' t = .ok range := by
  obtain ⟨more, rfl⟩ := h
  unfold termByteRange at hrange ⊢
  split_ifs at hrange with hin
  have hstart := hin.start_lt
  have hlast := hin.last_lt
  have hin' : InFrames (layout ++ more) t := by
    refine ⟨hin.1, ?_⟩
    rw [List.length_append]
    exact Nat.le_add_right_of_le hin.2
  rw [dif_pos hin', ← hrange]
  simp only [List.get_eq_getElem, List.getElem_append_left hstart, List.getElem_append_left hlast]

theorem getXorbRange_ok_iff {x : XorbHash} {start stop : Nat} {bytes : List UInt8} :
    st.getXorbRange x start stop = .ok bytes ↔ start ≤ stop ∧ ∃ body, st.blobs x = some body ∧
      start ≤ body.length ∧ bytes = (body.take stop).drop start := by
  unfold ServerState.getXorbRange
  by_cases hlt : stop < start
  · rw [if_pos hlt]
    simp only [reduceCtorEq, false_iff]
    omega
  · rw [if_neg hlt]
    cases st.blobs x with
    | none => simp
    | some body =>
        by_cases hpast : body.length < start
        · simp only [gt_iff_lt, hpast, if_true, reduceCtorEq, Option.some.injEq, false_iff]
          rintro ⟨-, body', rfl, hle, -⟩
          omega
        · simp only [gt_iff_lt, hpast, if_false, Except.ok.injEq, Option.some.injEq,
            exists_eq_left']
          constructor
          · rintro rfl
            exact ⟨by omega, by omega, rfl⟩
          · rintro ⟨-, -, rfl⟩
            rfl

/-- **A term that can be read is read the same later.** -/
theorem Lasts.termRead {codec : Codec} (h : Lasts st st') (hst : StoresOk st) (hst' : StoresOk st')
    {t : FileTerm} {bytes : List UInt8} (hread : termRead codec st t = some bytes) :
    Server.termRead codec st' t = some bytes := by
  obtain ⟨range, body, hrange, hbody, hbytes⟩ := termRead_eq_some.1 hread
  refine termRead_eq_some.2 ⟨range, body, ?_, ?_, hbytes⟩
  · exact termByteRange_extends (h.layout hst hst' t.xorb) hrange
  · obtain ⟨hle, blob, hblob, hstart, rfl⟩ := getXorbRange_ok_iff.1 hbody
    exact getXorbRange_ok_iff.2 ⟨hle, blob, h.blobs _ _ hblob, hstart, rfl⟩

/-- What a download gets of a term. -/
theorem termRead_of_fetch {svc : Service} {t : FileTerm} {bytes : List UInt8}
    (h : fetchAndDecompressTerm svc st t = .ok bytes) : termRead svc.codec st t = some bytes := by
  unfold fetchAndDecompressTerm at h
  simp only at h
  split_ifs at h with hempty hcap
  · obtain ⟨range, -, h⟩ := Results.bind_eq_ok.1 h
    simp at h
  · obtain ⟨range, hrange, h⟩ := Results.bind_eq_ok.1 h
    obtain ⟨body, hbody, h⟩ := Results.bind_eq_ok.1 h
    exact termRead_eq_some.2 ⟨range, body, hrange, Results.mapError_eq_ok.1 hbody,
      Results.mapError_eq_ok.1 h⟩

/-- Nothing is made of a body that is shorter than a frame header. -/
theorem decompressed_length {codec : Codec} {body bytes : List UInt8}
    (h : decompressXorbChunksInto codec body = .ok bytes) : headerLen ≤ body.length := by
  unfold decompressXorbChunksInto at h
  obtain ⟨frames, hframes, -⟩ := Results.bind_eq_ok.1 h
  obtain ⟨hne, hlen, -⟩ := parseXorbFrames_length (Results.mapError_eq_ok.1 hframes)
  have hpos := List.length_pos_iff.2 hne
  unfold headerLen at hlen ⊢
  omega

/-- What a client gets of a term, from the range that a response gave it before. -/
theorem termRead_of_range {codec : Codec} (h : Lasts st st') (hst : StoresOk st)
    (hst' : StoresOk st') {t : FileTerm} (hin : InFrames (st.db.xorbFrameLayout t.xorb) t)
    {bytes : List UInt8} (hfetch : fetchRange codec st' (fetchOf st.db t) = some bytes) :
    termRead codec st' t = some bytes := by
  have hrange : termByteRange (st.db.xorbFrameLayout t.xorb) t =
      .ok (termBytes (st.db.xorbFrameLayout t.xorb) t) := termByteRange_eq_ok.2 ⟨hin, rfl⟩
  unfold fetchRange fetchOf at hfetch
  cases hbody : st'.getXorbRange t.xorb (termBytes (st.db.xorbFrameLayout t.xorb) t).1
      ((termBytes (st.db.xorbFrameLayout t.xorb) t).2 - 1 + 1) with
  | error e => simp [hbody] at hfetch
  | ok body =>
      simp only [hbody] at hfetch
      cases hbytes : decompressXorbChunksInto codec body with
      | error e => simp [hbytes, Except.toOption] at hfetch
      | ok got =>
          obtain rfl : got = bytes := by simpa [hbytes, Except.toOption] using hfetch
          -- the end of the range was made inclusive; that loses nothing unless it is zero
          have hend : (termBytes (st.db.xorbFrameLayout t.xorb) t).2 ≠ 0 := by
            intro hzero
            have hlen := decompressed_length hbytes
            obtain ⟨-, blob, -, -, rfl⟩ := getXorbRange_ok_iff.1 hbody
            rw [hzero, List.length_drop, List.length_take] at hlen
            unfold headerLen at hlen
            omega
          rw [Nat.sub_add_cancel (Nat.pos_of_ne_zero hend)] at hbody
          exact termRead_eq_some.2 ⟨_, body,
            termByteRange_extends (h.layout hst hst' t.xorb) hrange, hbody, hbytes⟩

end Terms

/-! ## Readers -/

/-- A download that is accepted was granted. -/
theorem granted_of_download {svc : Service} {access : RepoRef → CoreResult Unit} {st : ServerState}
    {pick : List FileRow → Option FileRow} {repoId : String} {h : FileHash} {d : Download}
    (hd : getFileDownload svc access st pick repoId h = .ok d) : Granted access repoId := by
  unfold getFileDownload at hd
  obtain ⟨repo, hrepo, hd⟩ := Results.bind_eq_ok.1 hd
  obtain ⟨u, hu, -⟩ := Results.bind_eq_ok.1 hd
  exact ⟨repo, hrepo, Results.mapError_eq_ok.1 hu⟩

section Readers

variable (svc : Service) (acts : List TrafficAct)

/-- The server after `k` actions of the run. -/
def Moment (k : Nat) (st : ServerState) : Prop :=
  ∃ s, Machine.run (trafficStep svc) Traffic.empty (acts.take k) = some s ∧ s.server = st

/-- The items are fetched one by one, at moments from `k` on, and give `bytes`. -/
def FetchedFrom {α : Type} (fetch : ServerState → α → Option (List UInt8)) (k : Nat)
    (items : List α) (bytes : List UInt8) : Prop :=
  ∃ parts, List.Forall₂ (fun item part => ∃ k' st', k ≤ k' ∧ Moment svc acts k' st' ∧
    fetch st' item = some part) items parts ∧ parts.flatten = bytes

/-- A download fetches a term: the layout of its xorb is looked up at some moment from `k` on, and the
    range is read at that moment or later. -/
def TermFetched (k : Nat) (t : FileTerm) (part : List UInt8) : Prop :=
  ∃ k₁ st₁ k₂ st₂, k ≤ k₁ ∧ k₁ ≤ k₂ ∧ Moment svc acts k₁ st₁ ∧ Moment svc acts k₂ st₂ ∧
    fetchAndDecompressTerm svc { st₂ with db := st₁.db } t = .ok part

/-- Somebody got `bytes` for `h` while the uploads went on. What a request looks up before its answer
    begins, it looks up at one moment. -/
inductive Got (h : FileHash) (bytes : List UInt8) : Prop where
  /-- From a download, which fetches a term when the stream has got to it. -/
  | download (k : Nat) (st : ServerState) (access : RepoRef → CoreResult Unit)
      (pick : List FileRow → Option FileRow) (repoId : String) (d : Download)
      (hmoment : Moment svc acts k st) (hd : getFileDownload svc access st pick repoId h = .ok d)
      (parts : List (List UInt8))
      (hparts : List.Forall₂ (TermFetched svc acts k) (st.db.fileTermList h) parts)
      (hbytes : parts.flatten = bytes)
  /-- From the ranges of a response. -/
  | ranges (k : Nat) (st : ServerState) (pick : List FileRow → Option FileRow) (repoId : String)
      (resp : ReconstructionResponse) (hmoment : Moment svc acts k st)
      (hresp : getReconstruction st.db pick repoId h = .ok resp)
      (hfetched : FetchedFrom svc acts (fetchRange svc.codec) k resp.fetchInfo bytes)

end Readers

section Agree

variable {svc : Service} {acts : List TrafficAct}

/-- Of two moments the earlier one lasts. -/
theorem Moment.lasts (hkeeps : Machine.Admissible (trafficStep svc) KeepsBlobs Traffic.empty acts)
    {k k' : Nat} (hk : k ≤ k') {st st' : ServerState} (h : Moment svc acts k st)
    (h' : Moment svc acts k' st') : Lasts st st' := by
  obtain ⟨s, hs, rfl⟩ := h
  obtain ⟨s', hs', rfl⟩ := h'
  have hsplit : acts.take k' = acts.take k ++ (acts.take k').drop k := by
    conv_lhs => rw [← List.take_append_drop k (acts.take k'), List.take_take, Nat.min_eq_left hk]
  rw [hsplit, Machine.run_append, hs, Option.bind_some] at hs'
  rw [← List.take_append_drop k' acts, hsplit, List.append_assoc] at hkeeps
  have hrest := (Machine.admissible_append.1 hkeeps).2 s hs
  exact run_lasts (Machine.admissible_append.1 hrest).1 hs'

theorem Moment.stores {k : Nat} {st : ServerState} (h : Moment svc acts k st) : StoresOk st := by
  obtain ⟨s, hs, rfl⟩ := h
  exact (run_grows trafficInv_empty hs).1.stores

/-- A moment at which every term of `h` can be read, one after the other. -/
def ReadFrom (svc : Service) (acts : List TrafficAct) (h : FileHash) (k : Nat) (st : ServerState)
    (bytes : List UInt8) : Prop :=
  Moment svc acts k st ∧ st.db.fileTermList h ≠ [] ∧
    FetchedFrom svc acts (termRead svc.codec) k (st.db.fileTermList h) bytes

theorem FetchedFrom.imp {α β : Type} {fetch : ServerState → α → Option (List UInt8)}
    {fetch' : ServerState → β → Option (List UInt8)} {k : Nat} {items : List β} {f : β → α}
    {bytes : List UInt8} (h : FetchedFrom svc acts fetch k (items.map f) bytes)
    (himp : ∀ b ∈ items, ∀ k' st' part, k ≤ k' → Moment svc acts k' st' →
      fetch st' (f b) = some part → fetch' st' b = some part) :
    FetchedFrom svc acts fetch' k items bytes := by
  obtain ⟨parts, hparts, hbytes⟩ := h
  refine ⟨parts, ?_, hbytes⟩
  clear hbytes
  induction items generalizing parts with
  | nil => simpa using hparts
  | cons b items ih =>
      rw [List.map_cons] at hparts
      obtain ⟨part, rest, ⟨k', st', hk, hmoment, hfetch⟩, hrest, rfl⟩ :=
        List.forall₂_cons_left_iff.1 hparts
      refine List.Forall₂.cons ⟨k', st', hk, hmoment, ?_⟩ (ih ?_ rest hrest)
      · exact himp b List.mem_cons_self k' st' part hk hmoment hfetch
      · exact fun b' hb' => himp b' (List.mem_cons_of_mem b hb')

/-- Everything fetched at one moment. -/
theorem FetchedFrom.of_mapM {α : Type} {fetch : ServerState → α → Option (List UInt8)} {k k' : Nat}
    (hk : k ≤ k') {st' : ServerState} (hmoment : Moment svc acts k' st') {items : List α}
    {parts : List (List UInt8)} (h : items.mapM (fetch st') = some parts) :
    FetchedFrom svc acts fetch k items parts.flatten := by
  refine ⟨parts, ?_, rfl⟩
  induction items generalizing parts with
  | nil =>
      obtain rfl := Option.some.inj h
      exact List.Forall₂.nil
  | cons item items ih =>
      rw [List.mapM_cons] at h
      obtain ⟨part, hpart, h⟩ := Option.bind_eq_some_iff.1 h
      obtain ⟨rest, hrest, h⟩ := Option.bind_eq_some_iff.1 h
      obtain rfl := Option.some.inj h
      exact List.Forall₂.cons ⟨k', st', hk, hmoment, hpart⟩ (ih hrest)

/-- **Both paths read terms.** -/
theorem Got.readFrom (hkeeps : Machine.Admissible (trafficStep svc) KeepsBlobs Traffic.empty acts)
    {h : FileHash} {bytes : List UInt8} (hgot : Got svc acts h bytes) :
    ∃ k st, ReadFrom svc acts h k st bytes := by
  cases hgot with
  | download k st access pick repoId d hmoment hd parts hparts hbytes =>
      obtain ⟨-, terms, hlookup, -⟩ := (getFileDownload_eq_ok (granted_of_download hd)).1 hd
      obtain ⟨rfl, hne, -⟩ := lookupFile_eq_some.1 hlookup
      refine ⟨k, st, hmoment, hne, parts, hparts.imp (fun t part hfetch => ?_), hbytes⟩
      obtain ⟨k₁, st₁, k₂, st₂, hk₁, hk₂, hmoment₁, hmoment₂, hfetch⟩ := hfetch
      obtain ⟨range, body, hrange, hbody, hpart⟩ := termRead_eq_some.1 (termRead_of_fetch hfetch)
      -- the layout has only grown when the range is read
      have hlayout := (hmoment₁.lasts hkeeps hk₂ hmoment₂).layout hmoment₁.stores hmoment₂.stores
        t.xorb
      exact ⟨k₂, st₂, Nat.le_trans hk₁ hk₂, hmoment₂, termRead_eq_some.2
        ⟨range, body, termByteRange_extends hlayout hrange, hbody, hpart⟩⟩
  | ranges k st pick repoId resp hmoment hresp hfetched =>
      obtain ⟨-, terms, hlookup, hin, rfl⟩ := getReconstruction_eq_ok.1 hresp
      obtain ⟨rfl, hne, -⟩ := lookupFile_eq_some.1 hlookup
      refine ⟨k, st, hmoment, hne, hfetched.imp (fun t ht k' st' part hk hmoment' hpart => ?_)⟩
      exact termRead_of_range (hmoment.lasts hkeeps hk hmoment') hmoment.stores hmoment'.stores
        (hin t ht) hpart

/-- A term has one content, whenever it is read. -/
theorem termRead_unique
    (hkeeps : Machine.Admissible (trafficStep svc) KeepsBlobs Traffic.empty acts) {t : FileTerm}
    {k k' : Nat} {st st' : ServerState} {part part' : List UInt8} (h : Moment svc acts k st)
    (h' : Moment svc acts k' st') (hread : termRead svc.codec st t = some part)
    (hread' : termRead svc.codec st' t = some part') : part = part' := by
  rcases Nat.le_total k k' with hk | hk
  · have hlater := (h.lasts hkeeps hk h').termRead h.stores h'.stores hread
    exact Option.some.inj (hlater.symm.trans hread')
  · have hlater := (h'.lasts hkeeps hk h).termRead h'.stores h.stores hread'
    exact Option.some.inj (hread.symm.trans hlater)

theorem FetchedFrom.unique
    (hkeeps : Machine.Admissible (trafficStep svc) KeepsBlobs Traffic.empty acts)
    {terms : List FileTerm} {k k' : Nat} {bytes bytes' : List UInt8}
    (h : FetchedFrom svc acts (termRead svc.codec) k terms bytes)
    (h' : FetchedFrom svc acts (termRead svc.codec) k' terms bytes') : bytes = bytes' := by
  obtain ⟨parts, hparts, rfl⟩ := h
  obtain ⟨parts', hparts', rfl⟩ := h'
  have hunique : Relator.RightUnique (fun (t : FileTerm) (part : List UInt8) =>
      ∃ k st, Moment svc acts k st ∧ termRead svc.codec st t = some part) := by
    rintro t part part' ⟨k, st, hmoment, hread⟩ ⟨k', st', hmoment', hread'⟩
    exact termRead_unique hkeeps hmoment hmoment' hread hread'
  have hsame : parts = parts' := by
    refine List.right_unique_forall₂' hunique (hparts.imp ?_) (hparts'.imp ?_)
    · rintro t part ⟨j, st, -, hmoment, hread⟩
      exact ⟨j, st, hmoment, hread⟩
    · rintro t part ⟨j, st, -, hmoment, hread⟩
      exact ⟨j, st, hmoment, hread⟩
  rw [hsame]

/-- The terms of a hash are the same at any two moments that have some. -/
theorem terms_unique (hkeeps : Machine.Admissible (trafficStep svc) KeepsBlobs Traffic.empty acts)
    {h : FileHash} {k k' : Nat} {st st' : ServerState} (hmoment : Moment svc acts k st)
    (hmoment' : Moment svc acts k' st') (hne : st.db.fileTermList h ≠ [])
    (hne' : st'.db.fileTermList h ≠ []) : st.db.fileTermList h = st'.db.fileTermList h := by
  rcases Nat.le_total k k' with hk | hk
  · exact ((hmoment.lasts hkeeps hk hmoment').terms h hne).symm
  · exact (hmoment'.lasts hkeeps hk hmoment).terms h hne'

/-- A response stays what the server answers. -/
theorem Lasts.reconstruction {st st' : ServerState} (h : Lasts st st') (hst : StoresOk st)
    (hst' : StoresOk st') {terms : List FileTerm}
    (hin : ∀ t ∈ terms, InFrames (st.db.xorbFrameLayout t.xorb) t) :
    Server.reconstruction st'.db terms = Server.reconstruction st.db terms := by
  have hfetch : ∀ t ∈ terms, fetchOf st'.db t = fetchOf st.db t := by
    intro t ht
    have hrange := termByteRange_eq_ok.2 ⟨hin t ht, rfl⟩
    obtain ⟨-, hsame⟩ := termByteRange_eq_ok.1
      (termByteRange_extends (h.layout hst hst' t.xorb) hrange)
    unfold fetchOf
    rw [← hsame]
  unfold Server.reconstruction
  rw [List.map_congr_left hfetch]

end Agree

/-- **Whoever reads a file, by whichever path and whenever, gets the same bytes.** In every run of
    uploads of both kinds, with failures and crashes, in which no put replaces a blob: two readers of
    a hash that get anything get the same, however their fetches fall between the operations of the
    uploads; all downloads of it announce the same length, and all responses for it name the same
    terms and byte ranges (the URLs that come with them are not in `ReconstructionResponse`). -/
theorem reads_agree (svc : Service) (acts : List TrafficAct) (h : FileHash)
    (hkeeps : Machine.Admissible (trafficStep svc) KeepsBlobs Traffic.empty acts) :
    (∀ bytes bytes', Got svc acts h bytes → Got svc acts h bytes' → bytes = bytes') ∧
      (∀ k k' st st' access access' pick pick' repoId repoId' d d', Moment svc acts k st →
        Moment svc acts k' st' → getFileDownload svc access st pick repoId h = .ok d →
        getFileDownload svc access' st' pick' repoId' h = .ok d' →
        d.contentLength = d'.contentLength) ∧
      ∀ k k' st st' pick pick' repoId repoId' resp resp', Moment svc acts k st →
        Moment svc acts k' st' → getReconstruction st.db pick repoId h = .ok resp →
        getReconstruction st'.db pick' repoId' h = .ok resp' → resp = resp' := by
  refine ⟨?_, ?_, ?_⟩
  · intro bytes bytes' hgot hgot'
    obtain ⟨k, st, hmoment, hne, hfetched⟩ := hgot.readFrom hkeeps
    obtain ⟨k', st', hmoment', hne', hfetched'⟩ := hgot'.readFrom hkeeps
    rw [← terms_unique hkeeps hmoment hmoment' hne hne'] at hfetched'
    exact hfetched.unique hkeeps hfetched'
  · intro k k' st st' access access' pick pick' repoId repoId' d d' hmoment hmoment' hd hd'
    obtain ⟨-, terms, hlookup, rfl⟩ := (getFileDownload_eq_ok (granted_of_download hd)).1 hd
    obtain ⟨-, terms', hlookup', rfl⟩ := (getFileDownload_eq_ok (granted_of_download hd')).1 hd'
    obtain ⟨rfl, hne, -⟩ := lookupFile_eq_some.1 hlookup
    obtain ⟨rfl, hne', -⟩ := lookupFile_eq_some.1 hlookup'
    rw [terms_unique hkeeps hmoment hmoment' hne hne']
  · intro k k' st st' pick pick' repoId repoId' resp resp' hmoment hmoment' hresp hresp'
    obtain ⟨-, terms, hlookup, hin, rfl⟩ := getReconstruction_eq_ok.1 hresp
    obtain ⟨-, terms', hlookup', hin', rfl⟩ := getReconstruction_eq_ok.1 hresp'
    obtain ⟨rfl, hne, -⟩ := lookupFile_eq_some.1 hlookup
    obtain ⟨rfl, hne', -⟩ := lookupFile_eq_some.1 hlookup'
    have hterms := terms_unique hkeeps hmoment hmoment' hne hne'
    rcases Nat.le_total k k' with hk | hk
    · rw [← hterms]
      exact ((hmoment.lasts hkeeps hk hmoment').reconstruction hmoment.stores hmoment'.stores
        hin).symm
    · rw [hterms]
      exact (hmoment'.lasts hkeeps hk hmoment).reconstruction hmoment'.stores hmoment.stores hin'

namespace Sample

/-- Two uploads of one xorb that both find no blob, a file of its chunk between their puts, and a
    crash. -/
def raced : List TrafficAct :=
  [.xorb (.receive 0 (byteUpload 0x61)), .xorb (.receive 1 (byteUpload 0x61))] ++
    List.replicate 5 (.xorb (.step 0)) ++ List.replicate 5 (.xorb (.step 1)) ++
    .xorb (.step 0) :: .receive 0 ⟨repo, shard [file 1 [(0x61, 1, 0, 1)]] [], 0⟩ :: List.replicate 8 (.shard 0) ++
    [.xorb (.step 1), .crash]

end Sample

/-- A response from before the second put, and its ranges fetched after the crash. -/
theorem reads_agree_raced :
    Got Sample.service Sample.raced (Sample.hash32 1) [0x61] ∧
      ∀ bytes, Got Sample.service Sample.raced (Sample.hash32 1) bytes → [0x61] = bytes := by
  have hkeeps : Machine.Admissible (trafficStep Sample.service) KeepsBlobs Traffic.empty
      Sample.raced := by
    decide +kernel
  have hread : (Machine.run (trafficStep Sample.service) Traffic.empty (Sample.raced.take 22)).bind
      (fun s => (getReconstruction s.server.db List.head? Sample.repo.repoId
        (Sample.hash32 1)).toOption.bind (fun resp =>
          (Machine.run (trafficStep Sample.service) Traffic.empty (Sample.raced.take 24)).bind
            (fun s' => resp.fetchInfo.mapM (fetchRange Sample.service.codec s'.server)))) =
      some [[0x61]] := by
    decide +kernel
  obtain ⟨s, hs, hread⟩ := Option.bind_eq_some_iff.1 hread
  obtain ⟨resp, hresp, hread⟩ := Option.bind_eq_some_iff.1 hread
  obtain ⟨s', hs', hparts⟩ := Option.bind_eq_some_iff.1 hread
  have hk : 22 ≤ 24 := by decide
  have hgot : Got Sample.service Sample.raced (Sample.hash32 1) [0x61] :=
    .ranges 22 s.server List.head? Sample.repo.repoId resp ⟨s, hs, rfl⟩
      (Results.toOption_eq_some.1 hresp)
      (FetchedFrom.of_mapM hk ⟨s', hs', rfl⟩ hparts)
  exact ⟨hgot, fun bytes =>
    (reads_agree Sample.service Sample.raced (Sample.hash32 1) hkeeps).1 [0x61] bytes hgot⟩

end BaleForGit.Server
