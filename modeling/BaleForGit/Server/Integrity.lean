import BaleForGit.Server.Reads
import BaleForGit.Server.ShardOps

set_option autoImplicit false

/-! # Integrity across the two stores

Any number of xorb and shard uploads run at once, one operation on a store at a time; any of them
can fail, and the server can stop, between any two operations. There is no transaction over both
stores. That every stored term still has a blob, and every blob a layout, rests on the order of the
operations alone: a layout is registered before its blob is put, terms are registered after their
xorbs have been found, and neither blobs nor layout rows are ever taken away. -/

namespace BaleForGit.Server

/-! ## The machine -/

/-- A server with its uploads under way. -/
structure Traffic where
  uploads : Uploads
  shards : Nat → ShardPc

def Traffic.server (s : Traffic) : ServerState := s.uploads.server

def Traffic.empty : Traffic := ⟨⟨ServerState.empty, fun _ => .idle⟩, fun _ => .idle⟩

inductive TrafficAct where
  | xorb (a : UploadAct)
  | receive (i : Nat) (r : ShardRequest)
  | shard (i : Nat)
  | fail (i : Nat) (e : CoreError)
  | crash

section Machine

variable (svc : Service)

/-- One operation of one upload, a failure, or a stop of the server. -/
def trafficStep (s : Traffic) (a : TrafficAct) : Option Traffic :=
  match a with
  | .xorb a => (uploadsStep svc s.uploads a).map (fun u => { s with uploads := u })
  | .receive i r =>
    match s.shards i with
    | .idle => some { s with shards := Function.update s.shards i (.received r) }
    | _ => none
  | .shard i =>
    (shardOp svc s.server (s.shards i)).map (fun res =>
      ⟨{ s.uploads with server := res.1 }, Function.update s.shards i res.2⟩)
  | .fail i e =>
    some { s with shards := Function.update s.shards i (.answered (.error (ApiError.ofCore e))) }
  | .crash => some ⟨{ s.uploads with pcs := fun _ => .idle }, fun _ => .idle⟩

end Machine

/-! ## Layouts without gaps -/

/-- The frame indexes stored for `x`, in the order of the table. -/
def frameIndexes (db : Db) (x : XorbHash) : List Nat :=
  (framesOf x db.xorbFrames).map (fun r => r.frame.frameIndex.toNat)

/-- Inserting the next rows of a count keeps the count. -/
theorem insertAll_indexes {x : XorbHash} {t rows : List FrameTableRow} {n a : Nat}
    (ht : t.map (fun r => r.frame.frameIndex.toNat) = List.range n) (hx : ∀ r ∈ t, r.xorbHash = x)
    (ha : a ≤ n) (hrows : rows.map (fun r => r.frame.frameIndex.toNat) =
      (List.range rows.length).map (fun i => a + i)) (hx' : ∀ r ∈ rows, r.xorbHash = x) :
    ∃ m, n ≤ m ∧ a + rows.length ≤ m ∧
      (Table.insertAll FrameTableRow.key t rows).map (fun r => r.frame.frameIndex.toNat) =
        List.range m := by
  induction rows generalizing t n a with
  | nil => exact ⟨n, Nat.le_refl n, by simpa using ha, ht⟩
  | cons r rows ih =>
      have hfirst : r.frame.frameIndex.toNat = a := by
        simpa [List.range_succ_eq_map] using congrArg List.head? hrows
      have hrest : rows.map (fun r => r.frame.frameIndex.toNat) =
          (List.range rows.length).map (fun i => a + 1 + i) := by
        have htail := congrArg List.tail hrows
        simp only [List.map_cons, List.tail_cons, List.length_cons, List.range_succ_eq_map,
          List.map_map] at htail
        rw [htail]
        refine List.map_congr_left (fun i _ => ?_)
        simp only [Function.comp_apply]
        omega
      -- the next row is a conflict exactly when its index is below what is stored
      have hmem : FrameTableRow.key r ∈ t.map FrameTableRow.key ↔ a < n := by
        constructor
        · intro hin
          obtain ⟨r', hr', hkey⟩ := List.mem_map.1 hin
          have hidx : r'.frame.frameIndex = r.frame.frameIndex := (Prod.mk.inj hkey).2
          have hin' : r'.frame.frameIndex.toNat ∈ t.map (fun r => r.frame.frameIndex.toNat) :=
            List.mem_map_of_mem hr'
          rw [ht, List.mem_range, hidx, hfirst] at hin'
          exact hin'
        · intro hlt
          have hin : a ∈ t.map (fun r => r.frame.frameIndex.toNat) := by
            rw [ht]
            exact List.mem_range.2 hlt
          obtain ⟨r', hr', hidx⟩ := List.mem_map.1 hin
          refine List.mem_map.2 ⟨r', hr', ?_⟩
          have hsame : r'.frame.frameIndex = r.frame.frameIndex :=
            UInt32.toNat_inj.1 (hidx.trans hfirst.symm)
          simp only [FrameTableRow.key, hsame, hx r' hr', hx' r List.mem_cons_self]
      rw [Table.insertAll_cons]
      unfold Table.insertIgnore
      by_cases hlt : a < n
      · rw [if_pos (hmem.2 hlt)]
        obtain ⟨m, hnm, ham, hres⟩ := ih ht hx (Nat.succ_le_of_lt hlt) hrest
          (fun r' hr' => hx' r' (List.mem_cons_of_mem r hr'))
        exact ⟨m, hnm, by rw [List.length_cons]; omega, hres⟩
      · obtain rfl : a = n := by omega
        rw [if_neg (fun h => hlt (hmem.1 h))]
        have ht' : (t ++ [r]).map (fun r => r.frame.frameIndex.toNat) = List.range (a + 1) := by
          rw [List.map_append, ht, List.map_singleton, hfirst, List.range_succ]
        have hx'' : ∀ r' ∈ t ++ [r], r'.xorbHash = x := by
          intro r' hr'
          rcases List.mem_append.1 hr' with h | h
          · exact hx r' h
          · rw [List.mem_singleton.1 h]
            exact hx' r List.mem_cons_self
        obtain ⟨m, hnm, ham, hres⟩ := ih ht' hx'' (Nat.le_refl _) hrest
          (fun r' hr' => hx' r' (List.mem_cons_of_mem r hr'))
        exact ⟨m, by omega, by rw [List.length_cons]; omega, hres⟩

/-- **A registration leaves no gap**, whatever layouts of the xorb came before. -/
theorem frameIndexes_registerXorbLayout {db : Db} {body : List UInt8}
    {frames : List XorbChunkFrame} (hparse : parseXorbFrames body = .ok frames) {x : XorbHash}
    {n : Nat} (h : frameIndexes db x = List.range n) :
    ∃ m, n ≤ m ∧ 0 < m ∧
      frameIndexes (db.registerXorbLayout x (frameLayout frames)) x = List.range m := by
  obtain ⟨hne, hlen, hmax⟩ := parseXorbFrames_length hparse
  have hrows : ((frameLayout frames).map (fun f => (⟨x, f⟩ : FrameTableRow))).map
      (fun r => r.frame.frameIndex.toNat) =
      (List.range ((frameLayout frames).map (fun f => (⟨x, f⟩ : FrameTableRow))).length).map
        (fun i => 0 + i) := by
    refine List.ext_getElem (by simp [frameLayout]) (fun i hi _ => ?_)
    simp only [List.length_map, frameLayout_length] at hi
    simp only [frameLayout, List.getElem_map, List.getElem_zipIdx, List.getElem_range,
      UInt32.toNat_ofNat']
    unfold headerLen at hlen
    unfold u32Max at hmax
    rw [Nat.mod_eq_of_lt]
    omega
  have hgroup : framesOf x (db.registerXorbLayout x (frameLayout frames)).xorbFrames =
      Table.insertAll FrameTableRow.key (framesOf x db.xorbFrames)
        ((frameLayout frames).map (fun f => ⟨x, f⟩)) := by
    rw [Db.xorbFrames_registerXorbLayout]
    unfold framesOf
    refine Table.filter_insertAll (fun a b hab => ?_) (fun r hr => ?_)
    · rw [show a.xorbHash = b.xorbHash from (Prod.mk.inj hab).1]
    · obtain ⟨f, -, rfl⟩ := List.mem_map.1 hr
      exact decide_eq_true rfl
  obtain ⟨m, hnm, ham, hres⟩ := insertAll_indexes h (fun r hr => (mem_framesOf.1 hr).2)
    (Nat.zero_le n) hrows (fun r hr => by
      obtain ⟨f, -, rfl⟩ := List.mem_map.1 hr
      rfl)
  refine ⟨m, hnm, ?_, ?_⟩
  · have hpos : 0 < frames.length := List.length_pos_iff.2 hne
    simp only [List.length_map, frameLayout_length] at ham
    omega
  · unfold frameIndexes
    rw [hgroup]
    exact hres

/-- A layout without gaps, read back in order. -/
theorem xorbFrameLayout_indexes {db : Db} {x : XorbHash} {n : Nat}
    (h : frameIndexes db x = List.range n) :
    (db.xorbFrameLayout x).map (fun f => f.frameIndex.toNat) = List.range n := by
  unfold frameIndexes at h
  have hsorted : (framesOf x db.xorbFrames).Pairwise
      (fun a b => a.frame.frameIndex.toNat ≤ b.frame.frameIndex.toNat) := by
    have hrange : ((framesOf x db.xorbFrames).map (fun r => r.frame.frameIndex.toNat)).Pairwise
        (· ≤ ·) := by
      rw [h]
      exact List.pairwise_le_range
    exact List.pairwise_map.1 hrange
  unfold Db.xorbFrameLayout
  rw [Table.orderBy_of_pairwise hsorted, List.map_map]
  exact h

/-! ## The invariant -/

/-- Blobs and layouts that were there are still there. -/
structure Grows (st st' : ServerState) : Prop where
  blobs : ∀ x, st.blobs x ≠ none → st'.blobs x ≠ none
  layouts : ∀ x, frameIndexes st.db x ≠ [] → frameIndexes st'.db x ≠ []

/-- An upload past its parse has the layout of its body; past its registration, the xorb has one. -/
def UploadPcOk (st : ServerState) : UploadPc → Prop
  | .parsed r layout => OwnLayout r layout
  | .verified r layout => OwnLayout r layout
  | .registered r _ => frameIndexes st.db r.hash ≠ []
  | .absent r _ => frameIndexes st.db r.hash ≠ []
  | _ => True

def ShardCheck.Passed (st : ServerState) : ShardCheck → Prop
  | .block _ => True
  | .entry e => st.blobs e.xorb ≠ none

/-- The xorbs of the entries have blobs. -/
def EntriesFound (st : ServerState) (parsed : ParsedShard) : Prop :=
  ∀ f ∈ parsed.files, ∀ e ∈ f.entries, st.blobs e.xorb ≠ none

/-- The xorbs of the terms have blobs. -/
def TermsFound (st : ServerState) (files : List (FileHash × List FileTerm)) : Prop :=
  ∀ f ∈ files, ∀ t ∈ f.2, st.blobs t.xorb ≠ none

/-- What a shard upload has found so far. -/
def ShardPcOk (st : ServerState) : ShardPc → Prop
  | .checking _ parsed todo => ∃ done, shardChecks parsed = done ++ todo ∧
      ∀ c ∈ done, c.Passed st
  | .registering _ parsed _ _ => EntriesFound st parsed
  | .quota _ parsed => EntriesFound st parsed
  | .used _ parsed _ => EntriesFound st parsed
  | .delta _ parsed _ _ => EntriesFound st parsed
  | .terms _ parsed => EntriesFound st parsed
  | .put _ files => TermsFound st files
  | .register _ files => TermsFound st files
  | _ => True

/-- What holds of the two stores. -/
structure StoresOk (st : ServerState) : Prop where
  frames : ∀ x, ∃ n, frameIndexes st.db x = List.range n
  blobs : ∀ x, st.blobs x ≠ none → frameIndexes st.db x ≠ []
  terms : ∀ row ∈ st.db.fileTerms, st.blobs row.term.xorb ≠ none

structure TrafficInv (s : Traffic) : Prop where
  stores : StoresOk s.server
  uploads : ∀ i, UploadPcOk s.server (s.uploads.pcs i)
  shards : ∀ i, ShardPcOk s.server (s.shards i)

theorem Grows.refl (st : ServerState) : Grows st st := ⟨fun _ h => h, fun _ h => h⟩

section Monotone

variable {st st' : ServerState}

theorem UploadPcOk.mono (hgrows : Grows st st') {pc : UploadPc} (h : UploadPcOk st pc) :
    UploadPcOk st' pc := by
  cases pc with
  | registered r layout => exact hgrows.layouts _ h
  | absent r layout => exact hgrows.layouts _ h
  | idle => trivial
  | received r => trivial
  | checked r => trivial
  | parsed r layout => exact h
  | verified r layout => exact h
  | answered res => trivial

theorem ShardCheck.Passed.mono (hgrows : Grows st st') {c : ShardCheck} (h : c.Passed st) :
    c.Passed st' := by
  cases c with
  | block cb => trivial
  | entry e => exact hgrows.blobs _ h

theorem EntriesFound.mono (hgrows : Grows st st') {parsed : ParsedShard}
    (h : EntriesFound st parsed) : EntriesFound st' parsed :=
  fun f hf e he => hgrows.blobs _ (h f hf e he)

theorem TermsFound.mono (hgrows : Grows st st') {files : List (FileHash × List FileTerm)}
    (h : TermsFound st files) : TermsFound st' files :=
  fun f hf t ht => hgrows.blobs _ (h f hf t ht)

theorem ShardPcOk.mono (hgrows : Grows st st') {pc : ShardPc} (h : ShardPcOk st pc) :
    ShardPcOk st' pc := by
  cases pc with
  | idle => trivial
  | received r => trivial
  | checking r parsed todo =>
      obtain ⟨done, hsplit, hdone⟩ := h
      exact ⟨done, hsplit, fun c hc => (hdone c hc).mono hgrows⟩
  | registering r parsed layouts todo => exact EntriesFound.mono hgrows h
  | quota r parsed => exact EntriesFound.mono hgrows h
  | used r parsed q => exact EntriesFound.mono hgrows h
  | delta r parsed q u => exact EntriesFound.mono hgrows h
  | terms r parsed => exact EntriesFound.mono hgrows h
  | put r files => exact TermsFound.mono hgrows h
  | register r files => exact TermsFound.mono hgrows h
  | answered res => trivial

end Monotone

/-! ## Operations of xorb uploads -/

/-- **What an operation of xorb uploads does to the stores**, and where it gets them. -/
theorem uploadsStep_ok {svc : Service} {u u' : Uploads} {a : UploadAct} (hstores : StoresOk u.server)
    (hpcs : ∀ i, UploadPcOk u.server (u.pcs i)) (hstep : uploadsStep svc u a = some u') :
    StoresOk u'.server ∧ Grows u.server u'.server ∧ ∀ i, UploadPcOk u'.server (u'.pcs i) := by
  -- the upload that moves, when the stores only grow
  have hmove : ∀ (st : ServerState) (i : Nat) (pc : UploadPc), StoresOk st → Grows u.server st →
      UploadPcOk st pc →
      StoresOk (({ u with server := st } : Uploads).setPc i pc).server ∧
        Grows u.server (({ u with server := st } : Uploads).setPc i pc).server ∧
        ∀ k, UploadPcOk (({ u with server := st } : Uploads).setPc i pc).server
          ((({ u with server := st } : Uploads).setPc i pc).pcs k) := by
    intro st i pc hst hgrows hpc
    refine ⟨hst, hgrows, fun k => ?_⟩
    simp only [Uploads.setPc]
    by_cases hk : k = i
    · rw [hk, Function.update_self]
      exact hpc
    · rw [Function.update_of_ne hk]
      exact (hpcs k).mono hgrows
  have hsame : ∀ (i : Nat) (pc : UploadPc), UploadPcOk u.server pc →
      StoresOk (u.setPc i pc).server ∧ Grows u.server (u.setPc i pc).server ∧
        ∀ k, UploadPcOk (u.setPc i pc).server ((u.setPc i pc).pcs k) :=
    fun i pc hpc => hmove u.server i pc hstores (Grows.refl _) hpc
  cases a with
  | receive i r =>
      simp only [uploadsStep] at hstep
      split at hstep
      · obtain rfl := Option.some.inj hstep
        exact hsame i _ trivial
      · simp at hstep
  | stop i =>
      simp only [uploadsStep] at hstep
      obtain rfl := Option.some.inj hstep
      exact hsame i _ trivial
  | step i =>
      simp only [uploadsStep, uploadStep] at hstep
      have hpc := hpcs i
      cases hi : u.pcs i with
      | idle => simp [hi] at hstep
      | received r =>
          simp only [hi] at hstep
          split at hstep <;> obtain rfl := Option.some.inj hstep <;> exact hsame i _ trivial
      | checked r =>
          simp only [hi] at hstep
          split at hstep
          · obtain rfl := Option.some.inj hstep
            exact hsame i _ trivial
          · next layout hparse =>
              obtain rfl := Option.some.inj hstep
              exact hsame i _ (ownLayout_of_parseXorb hparse)
      | parsed r layout =>
          rw [hi] at hpc
          simp only [hi] at hstep
          split at hstep <;> obtain rfl := Option.some.inj hstep
          · exact hsame i _ trivial
          · exact hsame i (.verified r layout) hpc
      | verified r layout =>
          rw [hi] at hpc
          obtain ⟨frames, hparse, rfl⟩ := hpc
          simp only [hi] at hstep
          obtain rfl := Option.some.inj hstep
          have hother : ∀ y, y ≠ r.hash → frameIndexes
              (u.server.db.registerXorbLayout r.hash (frameLayout frames)) y =
                frameIndexes u.server.db y := by
            intro y hy
            unfold frameIndexes
            rw [Db.framesOf_registerXorbLayout_of_ne u.server.db hy]
          obtain ⟨n, hn⟩ := hstores.frames r.hash
          obtain ⟨m, hnm, hpos, hm⟩ := frameIndexes_registerXorbLayout hparse hn
          have hne : frameIndexes
              (u.server.db.registerXorbLayout r.hash (frameLayout frames)) r.hash ≠ [] := by
            rw [hm, ne_eq, List.range_eq_nil]
            omega
          have hgrows : Grows u.server { u.server with
              db := u.server.db.registerXorbLayout r.hash (frameLayout frames) } := by
            refine ⟨fun _ hx => hx, fun x hx => ?_⟩
            by_cases hxr : x = r.hash
            · rw [hxr]
              exact hne
            · simp only
              rw [hother x hxr]
              exact hx
          refine hmove { u.server with
            db := u.server.db.registerXorbLayout r.hash (frameLayout frames) } i
            (.registered r (frameLayout frames)) ⟨fun x => ?_, fun x hx => ?_, fun row hrow => ?_⟩
            hgrows hne
          · by_cases hxr : x = r.hash
            · rw [hxr]
              exact ⟨m, hm⟩
            · simp only [hother x hxr]
              exact hstores.frames x
          · exact hgrows.layouts x (hstores.blobs x hx)
          · obtain ⟨-, hterms, -, -, -⟩ :=
              registerXorbLayout_frame u.server.db r.hash (frameLayout frames)
            simp only [hterms] at hrow
            exact hstores.terms row hrow
      | registered r layout =>
          rw [hi] at hpc
          simp only [hi] at hstep
          split_ifs at hstep <;> obtain rfl := Option.some.inj hstep
          · exact hsame i _ trivial
          · exact hsame i (.absent r layout) hpc
      | absent r layout =>
          rw [hi] at hpc
          simp only [hi] at hstep
          obtain rfl := Option.some.inj hstep
          have hblobs : ∀ x, (u.server.putXorb r.hash r.body).blobs x ≠ none ↔
              x = r.hash ∨ u.server.blobs x ≠ none := by
            intro x
            simp only [ServerState.putXorb]
            by_cases hxr : x = r.hash
            · simp [hxr]
            · simp [hxr]
          refine hmove (u.server.putXorb r.hash r.body) i (.answered (.ok true))
            ⟨hstores.frames, fun x hx => ?_, fun row hrow => ?_⟩ ⟨fun x hx => ?_, fun _ hx => hx⟩
            trivial
          · rcases (hblobs x).1 hx with rfl | hx
            · exact hpc
            · exact hstores.blobs x hx
          · exact (hblobs _).2 (Or.inr (hstores.terms row hrow))
          · exact (hblobs x).2 (Or.inr hx)
      | answered res => simp [hi] at hstep

/-! ## Operations of shard uploads -/

theorem frameIndexes_congr {db db' : Db} (h : db'.xorbFrames = db.xorbFrames) (x : XorbHash) :
    frameIndexes db' x = frameIndexes db x := by
  unfold frameIndexes
  rw [h]

/-- A change that touches neither blobs nor layouts, and only adds terms of stored xorbs. -/
theorem StoresOk.of_same {st : ServerState} (h : StoresOk st) (st' : ServerState) (hblobs : st'.blobs = st.blobs)
    (hframes : st'.db.xorbFrames = st.db.xorbFrames)
    (hterms : ∀ row ∈ st'.db.fileTerms, row ∈ st.db.fileTerms ∨ st.blobs row.term.xorb ≠ none) :
    StoresOk st' ∧ Grows st st' := by
  refine ⟨⟨fun x => ?_, fun x hx => ?_, fun row hrow => ?_⟩, fun x hx => ?_, fun x hx => ?_⟩
  · rw [frameIndexes_congr hframes]
    exact h.frames x
  · rw [hblobs] at hx
    rw [frameIndexes_congr hframes]
    exact h.blobs x hx
  · rw [hblobs]
    rcases hterms row hrow with hold | hnew
    · exact h.terms row hold
    · exact hnew
  · rw [hblobs]
    exact hx
  · rw [frameIndexes_congr hframes]
    exact hx

/-- A shard upload that has made all its checks has found all its xorbs. -/
theorem entriesFound_of_checked {st : ServerState} {parsed : ParsedShard}
    (h : ∀ c ∈ shardChecks parsed, c.Passed st) : EntriesFound st parsed := by
  intro f hf e he
  refine h (.entry e) (List.mem_append_right _ (List.mem_flatMap.2 ⟨f, hf, ?_⟩))
  exact List.mem_map_of_mem he

theorem passed_of_runCheck {st : ServerState} {c : ShardCheck} (h : runCheck st c = .ok ()) :
    c.Passed st := by
  cases c with
  | block cb => trivial
  | entry e =>
      simp only [runCheck, checkEntry] at h
      split_ifs at h with hnone
      intro hblob
      exact hnone (by rw [hblob]; rfl)

/-- **What an operation of a shard upload does to the stores**, and where it gets. -/
theorem shardOp_ok {svc : Service} {st : ServerState} {pc : ShardPc} {res : ServerState × ShardPc}
    (hstores : StoresOk st) (hpc : ShardPcOk st pc) (hstep : shardOp svc st pc = some res) :
    StoresOk res.1 ∧ Grows st res.1 ∧ ShardPcOk res.1 res.2 := by
  -- most operations only read
  have hsame : ∀ pc', ShardPcOk st pc' → StoresOk st ∧ Grows st st ∧ ShardPcOk st pc' :=
    fun pc' hpc' => ⟨hstores, Grows.refl st, hpc'⟩
  cases pc with
  | idle => simp [shardOp] at hstep
  | received r =>
      simp only [shardOp] at hstep
      split_ifs at hstep with hsize
      · obtain rfl := Option.some.inj hstep
        exact hsame _ trivial
      · split at hstep <;> obtain rfl := Option.some.inj hstep
        · exact hsame _ trivial
        · exact hsame _ ⟨[], rfl, by simp⟩
  | checking r parsed todo =>
      obtain ⟨done, hsplit, hdone⟩ := hpc
      cases todo with
      | nil =>
          simp only [shardOp] at hstep
          obtain rfl := Option.some.inj hstep
          rw [List.append_nil] at hsplit
          exact hsame _ (entriesFound_of_checked (hsplit ▸ hdone))
      | cons c todo =>
          simp only [shardOp] at hstep
          split at hstep
          · obtain rfl := Option.some.inj hstep
            exact hsame _ trivial
          · next hc =>
              obtain rfl := Option.some.inj hstep
              refine hsame _ ⟨done ++ [c], by simp [hsplit], fun d hd => ?_⟩
              rcases List.mem_append.1 hd with hd | hd
              -- what was found stays found: no blob is ever taken away
              · exact hdone d hd
              · rw [List.mem_singleton.1 hd]
                exact passed_of_runCheck hc
  | registering r parsed layouts todo =>
      cases todo with
      | nil =>
          simp only [shardOp] at hstep
          obtain rfl := Option.some.inj hstep
          exact hsame _ hpc
      | cons cb todo =>
          simp only [shardOp] at hstep
          obtain rfl := Option.some.inj hstep
          obtain ⟨hst, hgrows⟩ := hstores.of_same
            { st with db := st.db.registerXorb (casBlockInfo layouts cb) (casBlockRows cb) r.now }
            rfl rfl (fun row hrow => Or.inl hrow)
          exact ⟨hst, hgrows, EntriesFound.mono hgrows hpc⟩
  | quota r parsed =>
      simp only [shardOp] at hstep
      split at hstep <;> obtain rfl := Option.some.inj hstep
      · exact hsame _ trivial
      · exact hsame _ hpc
      · exact hsame _ hpc
  | used r parsed q =>
      simp only [shardOp] at hstep
      split at hstep <;> obtain rfl := Option.some.inj hstep
      · exact hsame _ trivial
      · exact hsame _ hpc
  | delta r parsed q used =>
      simp only [shardOp] at hstep
      split at hstep
      · obtain rfl := Option.some.inj hstep
        exact hsame _ trivial
      · split_ifs at hstep <;> obtain rfl := Option.some.inj hstep
        · exact hsame _ trivial
        · exact hsame _ hpc
  | terms r parsed =>
      simp only [shardOp] at hstep
      split at hstep
      · obtain rfl := Option.some.inj hstep
        exact hsame _ trivial
      · next files hfiles =>
          obtain rfl := Option.some.inj hstep
          refine hsame (.put r files) (fun f hf t ht => ?_)
          obtain ⟨p, hp, e, he, hx, -, -⟩ := filesToRegister_xorb hfiles hf ht
          rw [hx]
          exact hpc p hp e he
  | put r files =>
      simp only [shardOp] at hstep
      obtain rfl := Option.some.inj hstep
      obtain ⟨hst, hgrows⟩ := hstores.of_same
        (st.putShard (svc.codec.blake3 r.body) r.body) rfl rfl (fun row hrow => Or.inl hrow)
      exact ⟨hst, hgrows, TermsFound.mono hgrows hpc⟩
  | register r files =>
      simp only [shardOp] at hstep
      obtain rfl := Option.some.inj hstep
      -- the only operation that adds terms, and their xorbs were found before
      obtain ⟨-, -, hframes, -⟩ := registerFiles_frame st.db r.repo files r.now
      obtain ⟨hst, hgrows⟩ := hstores.of_same
        { st with db := st.db.registerFiles r.repo files r.now } rfl hframes
        (fun row hrow => by
          rcases mem_fileTerms_registerFiles st.db r.repo r.now hrow with hold | ⟨terms, hf, ht⟩
          · exact Or.inl hold
          · exact Or.inr (hpc _ hf _ ht))
      exact ⟨hst, hgrows, trivial⟩
  | answered res => simp [shardOp] at hstep

/-! ## Every interleaving -/

/-- **Every step keeps the invariant**, and the stores only grow. -/
theorem trafficStep_ok {svc : Service} {s s' : Traffic} {a : TrafficAct} (hinv : TrafficInv s)
    (hstep : trafficStep svc s a = some s') : TrafficInv s' ∧ Grows s.server s'.server := by
  cases a with
  | xorb a =>
      simp only [trafficStep] at hstep
      obtain ⟨u, hu, rfl⟩ := Option.map_eq_some_iff.1 hstep
      obtain ⟨hst, hgrows, hpcs⟩ := uploadsStep_ok hinv.stores hinv.uploads hu
      exact ⟨⟨hst, hpcs, fun i => (hinv.shards i).mono hgrows⟩, hgrows⟩
  | receive i r =>
      simp only [trafficStep] at hstep
      split at hstep
      · obtain rfl := Option.some.inj hstep
        refine ⟨⟨hinv.stores, hinv.uploads, fun k => ?_⟩, Grows.refl _⟩
        by_cases hk : k = i
        · simp only [hk, Function.update_self]
          trivial
        · simp only [Function.update_of_ne hk]
          exact hinv.shards k
      · simp at hstep
  | shard i =>
      simp only [trafficStep] at hstep
      obtain ⟨res, hres, rfl⟩ := Option.map_eq_some_iff.1 hstep
      obtain ⟨hst, hgrows, hpc⟩ := shardOp_ok hinv.stores (hinv.shards i) hres
      refine ⟨⟨hst, fun k => (hinv.uploads k).mono hgrows, fun k => ?_⟩, hgrows⟩
      by_cases hk : k = i
      · simp only [hk, Function.update_self]
        exact hpc
      · simp only [Function.update_of_ne hk]
        exact (hinv.shards k).mono hgrows
  | fail i e =>
      simp only [trafficStep] at hstep
      obtain rfl := Option.some.inj hstep
      refine ⟨⟨hinv.stores, hinv.uploads, fun k => ?_⟩, Grows.refl _⟩
      by_cases hk : k = i
      · simp only [hk, Function.update_self]
        trivial
      · simp only [Function.update_of_ne hk]
        exact hinv.shards k
  | crash =>
      simp only [trafficStep] at hstep
      obtain rfl := Option.some.inj hstep
      exact ⟨⟨hinv.stores, fun _ => trivial, fun _ => trivial⟩, Grows.refl _⟩

theorem trafficInv_empty : TrafficInv Traffic.empty := by
  refine ⟨⟨fun x => ⟨0, rfl⟩, fun x hx => ?_, fun row hrow => ?_⟩, fun _ => trivial,
    fun _ => trivial⟩
  · exact absurd rfl hx
  · simp [Traffic.server, Traffic.empty, ServerState.empty, Db.empty] at hrow

/-- What was there stays, in any interleaving. -/
theorem run_grows {svc : Service} {s s' : Traffic} {acts : List TrafficAct} (hinv : TrafficInv s)
    (hrun : Machine.run (trafficStep svc) s acts = some s') :
    TrafficInv s' ∧ Grows s.server s'.server := by
  induction acts generalizing s with
  | nil =>
      obtain rfl : s = s' := Option.some.inj hrun
      exact ⟨hinv, Grows.refl _⟩
  | cons a acts ih =>
      obtain ⟨t, ht, hrest⟩ := Machine.run_cons_eq_some hrun
      obtain ⟨hinv', hgrows⟩ := trafficStep_ok hinv ht
      obtain ⟨hinv'', hgrows'⟩ := ih hinv' hrest
      exact ⟨hinv'', fun x hx => hgrows'.blobs x (hgrows.blobs x hx),
        fun x hx => hgrows'.layouts x (hgrows.layouts x hx)⟩

/-! ## The missing layout -/

/-- Errors of other texts are not that of a missing layout. -/
theorem file_ne_layoutMissing (m : String) : "file" ++ m ≠ layoutMissing.message := by
  intro h
  have hchars := congrArg String.toList h
  simp [layoutMissing, String.toList_append] at hchars

theorem decompress_ne_layoutMissing (m : String) :
    "decompress term: " ++ m ≠ layoutMissing.message := by
  intro h
  have hchars := congrArg String.toList h
  simp [layoutMissing, String.toList_append] at hchars

theorem lookupFile_error {db : Db} {pick : List FileRow → Option FileRow} {h : FileHash}
    {e : CoreError} (herr : db.lookupFile pick h = .error e) : ∃ m, e = .internal ("file" ++ m) := by
  unfold Db.lookupFile at herr
  simp only at herr
  split_ifs at herr with hempty
  split at herr
  · simp at herr
  · next recorded hpick =>
      unfold nonnegI64ToU64 at herr
      by_cases hneg : recorded.totalBytes < 0
      · simp only [hneg, if_true, bind, Except.bind, Except.error.injEq] at herr
        refine ⟨"s.total_bytes" ++ (": aggregate overflowed i64 (got " ++
          (toString recorded.totalBytes ++
            "); database is corrupt or owner exceeds 8 EiB")), ?_⟩
        rw [← herr, ← String.append_assoc]
        simp only [String.append_assoc]
        rfl
      · simp only [hneg, if_false, bind, Except.bind] at herr
        split_ifs at herr with hsum
        refine ⟨" term list sums to " ++ (toString (termSum (db.fileTermList h)) ++
          (" but recorded size is " ++ (toString recorded.totalBytes.toNat ++
            "; refusing to serve an inconsistent reconstruction (re-register this file)"))), ?_⟩
        rw [← Except.error.inj herr, ← String.append_assoc]
        simp only [String.append_assoc]
        rfl

/-- `get_reconstruction` misses no layout when the terms of the file have one. -/
theorem getReconstruction_ne_layoutMissing {db : Db} {h : FileHash}
    (hlayouts : ∀ t ∈ db.fileTermList h, db.xorbFrameLayout t.xorb ≠ [])
    (pick : List FileRow → Option FileRow) (repoId : String) :
    getReconstruction db pick repoId h ≠ .error layoutMissing := by
  intro herr
  unfold getReconstruction at herr
  split_ifs at herr with hrepo
  · unfold buildReconstructionResponse at herr
    cases hlookup : db.lookupFile pick h with
    | error e =>
        obtain ⟨m, rfl⟩ := lookupFile_error hlookup
        simp only [hlookup, Except.mapError, bind, Except.bind, Except.error.injEq] at herr
        exact file_ne_layoutMissing m (congrArg ApiError.message herr)
    | ok found =>
        cases found with
        | none =>
            simp only [hlookup, Except.mapError, bind, Except.bind, Except.error.injEq] at herr
            exact absurd herr (by decide)
        | some terms =>
            simp only [hlookup, Except.mapError, bind, Except.bind] at herr
            obtain ⟨hsame, -, -⟩ := lookupFile_eq_some.1 hlookup
            split at herr
            · next e hmap =>
                obtain ⟨t, ht, hterm⟩ := Results.exists_of_mapM_error hmap
                have hne : db.xorbFrameLayout t.xorb ≠ [] := hlayouts t (hsame ▸ ht)
                unfold reconstructTerm Db.xorbFrameLayouts at hterm
                rw [if_pos ⟨List.mem_map_of_mem ht, hne⟩] at hterm
                simp only at hterm
                cases hrange : termByteRange (db.xorbFrameLayout t.xorb) t with
                | ok range => simp [hrange, bind, Except.bind, pure, Except.pure] at hterm
                | error e' =>
                    simp only [hrange, bind, Except.bind, Except.error.injEq] at hterm
                    unfold termByteRange at hrange
                    split_ifs at hrange
                    rw [Except.error.injEq] at hrange herr
                    rw [← hterm, ← hrange] at herr
                    exact absurd herr (by decide)
            · simp [pure, Except.pure] at herr
  · exact absurd (Except.error.inj herr) (by decide)

/-- Nor does the download. -/
theorem fetchAndDecompressTerm_ne_layoutMissing {svc : Service} {st : ServerState} {t : FileTerm}
    (hlayout : st.db.xorbFrameLayout t.xorb ≠ []) :
    fetchAndDecompressTerm svc st t ≠ .error layoutMissing := by
  intro herr
  unfold fetchAndDecompressTerm at herr
  simp only [List.isEmpty_iff, hlayout, if_false] at herr
  cases hrange : termByteRange (st.db.xorbFrameLayout t.xorb) t with
  | error e =>
      simp only [hrange, bind, Except.bind, Except.error.injEq] at herr
      unfold termByteRange at hrange
      split_ifs at hrange
      rw [Except.error.injEq] at hrange
      rw [← hrange] at herr
      exact absurd herr (by decide)
  | ok range =>
      simp only [hrange, bind, Except.bind] at herr
      split_ifs at herr with hcap
      · exact absurd (Except.error.inj herr) (by decide)
      · cases hbody : st.getXorbRange t.xorb range.1 range.2 with
        | error e =>
            simp only [hbody, Except.mapError, Except.error.injEq] at herr
            unfold ServerState.getXorbRange at hbody
            split_ifs at hbody
            · rw [Except.error.injEq] at hbody
              rw [← hbody] at herr
              exact absurd herr (by decide)
            · split at hbody
              · rw [Except.error.injEq] at hbody
                rw [← hbody] at herr
                exact absurd herr (by decide)
              · split_ifs at hbody
                rw [Except.error.injEq] at hbody
                rw [← hbody] at herr
                exact absurd herr (by decide)
        | ok body =>
            simp only [hbody, Except.mapError] at herr
            split at herr
            · exact decompress_ne_layoutMissing _ (congrArg ApiError.message (Except.error.inj herr))
            · simp at herr

/-- **Referential integrity.** In every state that any interleaving of uploads leads to, with any of
    them failing and the server stopping anywhere: the xorbs of stored terms have blobs, blobs have
    layouts without gaps, and no reader, then or later, misses a layout. -/
theorem referential_integrity (svc : Service) (acts : List TrafficAct) (s : Traffic)
    (hrun : Machine.run (trafficStep svc) Traffic.empty acts = some s) :
    (∀ row ∈ s.server.db.fileTerms, s.server.blobs row.term.xorb ≠ none) ∧
      (∀ x, s.server.blobs x ≠ none → s.server.db.xorbFrameLayout x ≠ [] ∧
        (s.server.db.xorbFrameLayout x).map (fun f => f.frameIndex.toNat) =
          List.range (s.server.db.xorbFrameLayout x).length) ∧
      (∀ pick repoId h, getReconstruction s.server.db pick repoId h ≠ .error layoutMissing) ∧
      ∀ row ∈ s.server.db.fileTerms, ∀ more s',
        Machine.run (trafficStep svc) s more = some s' →
          s'.server.db.xorbFrameLayout row.term.xorb ≠ [] ∧
            fetchAndDecompressTerm svc s'.server row.term ≠ .error layoutMissing := by
  have hlayout : ∀ u : Traffic, TrafficInv u → ∀ x, frameIndexes u.server.db x ≠ [] →
      u.server.db.xorbFrameLayout x ≠ [] := by
    intro u hu x hx hnil
    obtain ⟨n, hn⟩ := hu.stores.frames x
    have hidx := xorbFrameLayout_indexes hn
    rw [hnil, ← hn] at hidx
    exact hx hidx.symm
  obtain ⟨hinv, -⟩ := run_grows trafficInv_empty hrun
  refine ⟨hinv.stores.terms, fun x hx => ⟨?_, ?_⟩, fun pick repoId h => ?_, ?_⟩
  · exact hlayout s hinv x (hinv.stores.blobs x hx)
  · obtain ⟨n, hn⟩ := hinv.stores.frames x
    have hidx := xorbFrameLayout_indexes hn
    have hlen := congrArg List.length hidx
    rw [List.length_map, List.length_range] at hlen
    rw [hidx, hlen]
  · refine getReconstruction_ne_layoutMissing (fun t ht => ?_) pick repoId
    unfold Db.fileTermList at ht
    obtain ⟨row, hrow, rfl⟩ := List.mem_map.1 ht
    have hmem := (mem_termsOf.1 ((List.mem_insertionSort _).1 hrow)).1
    exact hlayout s hinv _ (hinv.stores.blobs _ (hinv.stores.terms row hmem))
  · intro row hrow more s' hmore
    obtain ⟨hinv', hgrows⟩ := run_grows hinv hmore
    have hne : s'.server.db.xorbFrameLayout row.term.xorb ≠ [] :=
      hlayout s' hinv' _ (hgrows.layouts _ (hinv.stores.blobs _ (hinv.stores.terms row hrow)))
    exact ⟨hne, fetchAndDecompressTerm_ne_layoutMissing hne⟩

namespace Sample

/-- An upload that the server stops in, the same upload again, and a file of its chunk. -/
def interrupted : List TrafficAct :=
  .xorb (.receive 0 (byteUpload 0x61)) :: List.replicate 4 (.xorb (.step 0)) ++ [.crash] ++
    .xorb (.receive 0 (byteUpload 0x61)) :: List.replicate 6 (.xorb (.step 0)) ++
    .receive 0 ⟨repo, shard [file 1 [(0x61, 1, 0, 1)]] [], 0⟩ :: List.replicate 8 (.shard 0)

end Sample

/-- A stop between layout and blob. -/
theorem referential_integrity_interrupted : ∃ s,
    Machine.run (trafficStep Sample.service) Traffic.empty Sample.interrupted = some s ∧
    s.server.db.fileTerms.length = 1 ∧
    (∀ row ∈ s.server.db.fileTerms, s.server.blobs row.term.xorb ≠ none) ∧
    getReconstruction s.server.db List.head? Sample.repo.repoId (Sample.hash32 1) ≠
      .error layoutMissing := by
  have hrun : (Machine.run (trafficStep Sample.service) Traffic.empty Sample.interrupted).map
      (fun s => s.server.db.fileTerms.length) = some 1 := by
    decide +kernel
  obtain ⟨s, hs, hterms⟩ := Option.map_eq_some_iff.1 hrun
  obtain ⟨hblobs, -, hread, -⟩ := referential_integrity Sample.service Sample.interrupted s hs
  exact ⟨s, hs, hterms, hblobs, hread List.head? Sample.repo.repoId (Sample.hash32 1)⟩

end BaleForGit.Server
