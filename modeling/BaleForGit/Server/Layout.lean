import BaleForGit.Server.UploadXorb

set_option autoImplicit false

/-! # Layouts and blobs

`Agree` says that the layout stored for every blob is that of its own body. The layout of a xorb is
registered by the first upload that gets that far, the blob by an upload that finds none; when these
are different bodies, the byte ranges of the layout are wrong for the blob. That happens when the
first upload stops before its put, or when two uploads race.

`LayoutClear` is the condition that rules it out: an upload that finds no blob finds its own layout,
and rows are added to a layout only while nothing relies on it. It is met whenever all bodies that
are received for one xorb have the same layout (`OneLayout`). -/

namespace BaleForGit.Server

/-! ## What a registration does to the layouts -/

theorem mem_framesOf {x : XorbHash} {t : List FrameTableRow} {r : FrameTableRow} :
    r ∈ framesOf x t ↔ r ∈ t ∧ r.xorbHash = x := by
  simp [framesOf]

namespace Db

variable (db : Db)

theorem xorbFrames_registerXorbLayout (x : XorbHash) (layout : List XorbFrameRow) :
    (db.registerXorbLayout x layout).xorbFrames =
      Table.insertAll FrameTableRow.key db.xorbFrames (layout.map (fun f => ⟨x, f⟩)) := by
  unfold registerXorbLayout
  split_ifs with hempty
  · rw [List.isEmpty_iff.1 hempty]
    rfl
  · exact insertAll_batches _ _ _

/-- The frames of other xorbs are not touched. -/
theorem framesOf_registerXorbLayout_of_ne {x y : XorbHash} (hne : y ≠ x)
    (layout : List XorbFrameRow) :
    framesOf y (db.registerXorbLayout x layout).xorbFrames = framesOf y db.xorbFrames := by
  rw [xorbFrames_registerXorbLayout]
  refine Table.filter_insertAll_of_not (fun r hr => ?_)
  obtain ⟨f, -, rfl⟩ := List.mem_map.1 hr
  exact decide_eq_false (Ne.symm hne)

/-- A layout none of whose indexes is new adds nothing. -/
theorem registerXorbLayout_of_taken {x : XorbHash} {layout : List XorbFrameRow}
    (h : ∀ f ∈ layout, f.frameIndex ∈ (db.xorbFrameLayout x).map XorbFrameRow.frameIndex) :
    (db.registerXorbLayout x layout).xorbFrames = db.xorbFrames := by
  rw [xorbFrames_registerXorbLayout]
  refine Table.insertAll_of_taken (fun r hr => ?_)
  obtain ⟨f, hf, rfl⟩ := List.mem_map.1 hr
  obtain ⟨g, hg, hidx⟩ := List.mem_map.1 (h f hf)
  obtain ⟨row, hrow, rfl⟩ := List.mem_map.1 hg
  have hmem : row ∈ framesOf x db.xorbFrames := (List.mem_insertionSort _).1 hrow
  rw [mem_framesOf] at hmem
  refine List.mem_map.2 ⟨row, hmem.1, ?_⟩
  simp only [FrameTableRow.key, hmem.2, hidx]

/-- **The first registration of a xorb stores its layout.** -/
theorem xorbFrameLayout_registerXorbLayout_first {x : XorbHash} {layout : List XorbFrameRow}
    (hnone : framesOf x db.xorbFrames = [])
    (hidx : (layout.map XorbFrameRow.frameIndex).Pairwise (· < ·)) :
    (db.registerXorbLayout x layout).xorbFrameLayout x = layout := by
  have hrows : framesOf x (db.registerXorbLayout x layout).xorbFrames =
      layout.map (fun f => ⟨x, f⟩) := by
    unfold framesOf at hnone ⊢
    rw [xorbFrames_registerXorbLayout, Table.filter_insertAll, hnone, Table.insertAll_of_fresh]
    · rfl
    · rw [List.map_map]
      have hnodup : (layout.map XorbFrameRow.frameIndex).Nodup := 
        hidx.imp (fun h => UInt32.ne_of_lt h)
      have hkey : layout.map (FrameTableRow.key ∘ fun f => (⟨x, f⟩ : FrameTableRow)) =
          (layout.map XorbFrameRow.frameIndex).map (fun i => (x, i)) := by
        rw [List.map_map]
        rfl
      rw [hkey]
      exact hnodup.map (fun i j hij => (Prod.mk.inj hij).2)
    · simp
    · intro a b hab
      have hx : a.xorbHash = b.xorbHash := (Prod.mk.inj hab).1
      rw [hx]
    · intro r hr
      obtain ⟨f, -, rfl⟩ := List.mem_map.1 hr
      exact decide_eq_true rfl
  unfold xorbFrameLayout
  rw [hrows, Table.orderBy_of_pairwise]
  · rw [List.map_map]
    exact List.map_id layout
  · rw [List.pairwise_map] at hidx ⊢
    exact hidx.imp (fun h => Nat.le_of_lt (UInt32.lt_iff_toNat_lt.1 h))

end Db

/-- The indexes of a parsed body's layout count up: there are fewer frames than `u32` can count. -/
theorem frameLayout_pairwise {body : List UInt8} {frames : List XorbChunkFrame}
    (h : parseXorbFrames body = .ok frames) :
    ((frameLayout frames).map XorbFrameRow.frameIndex).Pairwise (· < ·) := by
  obtain ⟨-, hlen, hmax⟩ := parseXorbFrames_length h
  unfold headerLen at hlen
  unfold u32Max at hmax
  rw [List.pairwise_iff_getElem]
  intro i j hi hj hij
  simp only [frameLayout, List.map_map, List.length_map, List.length_zipIdx] at hi hj
  simp only [frameLayout, List.getElem_map, List.getElem_zipIdx, UInt32.lt_iff_toNat_lt,
    UInt32.toNat_ofNat']
  rw [Nat.mod_eq_of_lt, Nat.mod_eq_of_lt] <;> omega

/-! ## Agreement -/

/-- The layout stored for every blob is that of its body. -/
def Agree (st : ServerState) : Prop :=
  ∀ x body, st.blobs x = some body → ∃ frames, parseXorbFrames body = .ok frames ∧
    st.db.xorbFrameLayout x = frameLayout frames

/-- An upload that finds no blob finds its own layout, and a registration adds rows to a layout only
    while there is no blob and no upload about to put one. -/
def LayoutClear (s : Uploads) (a : UploadAct) : Prop :=
  match a with
  | .step i =>
    match s.pcs i with
    | .registered r layout => s.server.blobs r.hash = none →
        s.server.db.xorbFrameLayout r.hash = layout
    | .verified r layout =>
        (∃ f ∈ layout, f.frameIndex ∉
          (s.server.db.xorbFrameLayout r.hash).map XorbFrameRow.frameIndex) →
        s.server.blobs r.hash = none ∧ ∀ k r' layout', s.pcs k = .absent r' layout' →
          r'.hash ≠ r.hash
    | _ => True
  | _ => True

/-- An upload past its parse has the layout of its body. -/
def OwnLayout (r : XorbRequest) (layout : List XorbFrameRow) : Prop :=
  ∃ frames, parseXorbFrames r.body = .ok frames ∧ layout = frameLayout frames

/-- What holds of an upload, wherever it has got to: an upload about to put its blob has its own
    layout stored. -/
def UploadOk (s : Uploads) (i : Nat) : Prop :=
  match s.pcs i with
  | .parsed r layout => OwnLayout r layout
  | .verified r layout => OwnLayout r layout
  | .registered r layout => OwnLayout r layout
  | .absent r layout => OwnLayout r layout ∧ s.server.db.xorbFrameLayout r.hash = layout
  | _ => True

structure UploadsInv (s : Uploads) : Prop where
  agree : Agree s.server
  uploads : ∀ i, UploadOk s i

theorem ownLayout_of_parseXorb {r : XorbRequest} {layout : List XorbFrameRow}
    (h : parseXorb r = .ok layout) : OwnLayout r layout := by
  unfold parseXorb at h
  cases hframes : parseXorbFrames r.body with
  | error e => simp [hframes] at h
  | ok frames =>
      simp only [hframes, Except.ok.injEq] at h
      exact ⟨frames, hframes, h.symm⟩

variable {svc : Service} {s s' : Uploads}

/-- A step of upload `i` leaves the others alone if it leaves the layouts that are about to be used
    as they are. -/
theorem UploadOk.frame {i k : Nat} {pc : UploadPc} {t : Uploads} (hok : UploadOk s k) (hne : k ≠ i)
    (hpcs : t.pcs = s.pcs)
    (hlayout : ∀ r layout, s.pcs k = .absent r layout →
      t.server.db.xorbFrameLayout r.hash = s.server.db.xorbFrameLayout r.hash) :
    UploadOk (t.setPc i pc) k := by
  have hsame : (t.setPc i pc).pcs k = s.pcs k := by
    simp only [Uploads.setPc, Function.update_of_ne hne, hpcs]
  unfold UploadOk at hok ⊢
  rw [hsame]
  cases hc : s.pcs k <;> simp only [hc] at hok ⊢
  case absent r layout => exact ⟨hok.1, (hlayout r layout hc).trans hok.2⟩
  all_goals exact hok

/-- A step that only moves upload `i` on. -/
theorem UploadsInv.move (hinv : UploadsInv s) {i : Nat} {pc : UploadPc}
    (hself : UploadOk (s.setPc i pc) i) : UploadsInv (s.setPc i pc) := by
  refine ⟨hinv.agree, fun k => ?_⟩
  by_cases hk : k = i
  · rw [hk]
    exact hself
  · exact (hinv.uploads k).frame hk rfl (fun _ _ _ => rfl)

/-- **A registration keeps the invariant** when it adds no rows, or nothing relies on the layout. -/
theorem UploadsInv.register (hinv : UploadsInv s) {i : Nat} {r : XorbRequest}
    {layout : List XorbFrameRow} (hpc : s.pcs i = .verified r layout)
    (hclear : LayoutClear s (.step i)) :
    UploadsInv ({ s with server := { s.server with
      db := s.server.db.registerXorbLayout r.hash layout } }.setPc i (.registered r layout)) := by
  simp only [LayoutClear, hpc] at hclear
  have hown := hinv.uploads i
  simp only [UploadOk, hpc] at hown
  have hother : ∀ y, y ≠ r.hash → (s.server.db.registerXorbLayout r.hash layout).xorbFrameLayout y =
      s.server.db.xorbFrameLayout y := by
    intro y hy
    unfold Db.xorbFrameLayout
    rw [Db.framesOf_registerXorbLayout_of_ne s.server.db hy]
  -- where a blob or a put to come relies on the layout, the condition says that no row is new
  have hkept : ∀ y, (y = r.hash → s.server.blobs r.hash ≠ none ∨
        ∃ k r' layout', s.pcs k = .absent r' layout' ∧ r'.hash = r.hash) →
      (s.server.db.registerXorbLayout r.hash layout).xorbFrameLayout y =
        s.server.db.xorbFrameLayout y := by
    intro y hused
    by_cases hy : y = r.hash
    · have htaken : ∀ f ∈ layout, f.frameIndex ∈
          (s.server.db.xorbFrameLayout r.hash).map XorbFrameRow.frameIndex := by
        intro f hf
        by_contra hnew
        obtain ⟨hnone, hidle⟩ := hclear ⟨f, hf, hnew⟩
        rcases hused hy with hblob | ⟨k, r', layout', hk, hx⟩
        · exact hblob hnone
        · exact hidle k r' layout' hk hx
      rw [hy]
      unfold Db.xorbFrameLayout
      rw [Db.registerXorbLayout_of_taken s.server.db htaken]
    · exact hother y hy
  refine ⟨fun x body hbody => ?_, fun k => ?_⟩
  · obtain ⟨frames, hparse, hlayout⟩ := hinv.agree x body hbody
    refine ⟨frames, hparse, ?_⟩
    rw [← hlayout]
    refine hkept x (fun hx => Or.inl ?_)
    rw [← hx, show s.server.blobs x = some body from hbody]
    simp
  · by_cases hk : k = i
    · subst hk
      simp only [UploadOk, Uploads.setPc, Function.update_self]
      exact hown
    · refine (hinv.uploads k).frame hk rfl (fun r' layout' hc => hkept r'.hash (fun hx => ?_))
      exact Or.inr ⟨k, r', layout', hc, hx⟩

/-- **A put keeps the invariant**: the upload's own layout is stored. -/
theorem UploadsInv.put (hinv : UploadsInv s) {i : Nat} {r : XorbRequest}
    {layout : List XorbFrameRow} (hpc : s.pcs i = .absent r layout) :
    UploadsInv ({ s with server := s.server.putXorb r.hash r.body }.setPc i
      (.answered (.ok true))) := by
  have hown := hinv.uploads i
  simp only [UploadOk, hpc] at hown
  obtain ⟨⟨frames, hparse, hframes⟩, hstored⟩ := hown
  refine ⟨fun x body hbody => ?_, fun k => ?_⟩
  · simp only [Uploads.setPc, ServerState.putXorb] at hbody ⊢
    by_cases hx : x = r.hash
    · rw [hx, Function.update_self, Option.some.injEq] at hbody
      refine ⟨frames, hbody ▸ hparse, ?_⟩
      rw [hx, hstored, hframes]
    · rw [Function.update_of_ne hx] at hbody
      exact hinv.agree x body hbody
  · by_cases hk : k = i
    · subst hk
      simp only [UploadOk, Uploads.setPc, Function.update_self]
    · exact (hinv.uploads k).frame hk rfl (fun _ _ _ => rfl)

theorem uploadStep_inv {i : Nat} (hinv : UploadsInv s) (hclear : LayoutClear s (.step i))
    (hstep : uploadStep svc s i = some s') : UploadsInv s' := by
  have hown := hinv.uploads i
  unfold UploadOk at hown
  unfold uploadStep at hstep
  cases hpc : s.pcs i with
  | idle => simp [hpc] at hstep
  | received r =>
      simp only [hpc] at hstep
      split at hstep <;> simp only [Option.some.injEq] at hstep <;> subst hstep <;>
        exact hinv.move (by simp only [UploadOk, Uploads.setPc, Function.update_self])
  | checked r =>
      simp only [hpc] at hstep
      split at hstep <;> simp only [Option.some.injEq] at hstep <;> subst hstep
      · exact hinv.move (by simp only [UploadOk, Uploads.setPc, Function.update_self])
      · next layout hparse =>
          refine hinv.move ?_
          simp only [UploadOk, Uploads.setPc, Function.update_self]
          exact ownLayout_of_parseXorb hparse
  | parsed r layout =>
      simp only [hpc] at hstep hown
      split at hstep <;> simp only [Option.some.injEq] at hstep <;> subst hstep
      · exact hinv.move (by simp only [UploadOk, Uploads.setPc, Function.update_self])
      · refine hinv.move ?_
        simp only [UploadOk, Uploads.setPc, Function.update_self]
        exact hown
  | verified r layout =>
      simp only [hpc, Option.some.injEq] at hstep
      subst hstep
      exact hinv.register hpc hclear
  | registered r layout =>
      simp only [hpc] at hstep hown
      simp only [LayoutClear, hpc] at hclear
      split_ifs at hstep with hblob <;> simp only [Option.some.injEq] at hstep <;> subst hstep
      · exact hinv.move (by simp only [UploadOk, Uploads.setPc, Function.update_self])
      · refine hinv.move ?_
        simp only [UploadOk, Uploads.setPc, Function.update_self]
        exact ⟨hown, hclear (by simpa using hblob)⟩
  | absent r layout =>
      simp only [hpc, Option.some.injEq] at hstep
      subst hstep
      exact hinv.put hpc
  | answered res => simp [hpc] at hstep

theorem uploadsStep_inv (s : Uploads) (a : UploadAct) (s' : Uploads) (hinv : UploadsInv s)
    (hclear : LayoutClear s a) (hstep : uploadsStep svc s a = some s') : UploadsInv s' := by
  cases a with
  | receive i r =>
      simp only [uploadsStep] at hstep
      split at hstep
      · simp only [Option.some.injEq] at hstep
        subst hstep
        exact hinv.move (by simp only [UploadOk, Uploads.setPc, Function.update_self])
      · simp at hstep
  | step i => exact uploadStep_inv hinv hclear hstep
  | stop i =>
      simp only [uploadsStep, Option.some.injEq] at hstep
      subst hstep
      exact hinv.move (by simp only [UploadOk, Uploads.setPc, Function.update_self])

theorem uploadsInv_fresh (db : Db) : UploadsInv (Uploads.fresh db) := by
  refine ⟨fun x body hbody => ?_, fun i => trivial⟩
  simp [Uploads.fresh] at hbody

/-- **Layouts agree with blobs** in every state of every interleaving of uploads, stopped anywhere,
    in which each upload that finds no blob finds its own layout and no rows are added to a layout
    in use. -/
theorem uploads_agree (svc : Service) (db : Db) (acts : List UploadAct) (s : Uploads)
    (hclear : Machine.Admissible (uploadsStep svc) LayoutClear (Uploads.fresh db) acts)
    (hrun : Machine.run (uploadsStep svc) (Uploads.fresh db) acts = some s) : Agree s.server := by
  exact (Machine.run_invariant uploadsStep_inv (uploadsInv_fresh db) hclear hrun).agree

/-! ## One layout for each xorb

A condition on the bodies alone: all that are received for one xorb lie in the same frames. -/

/-- All bodies received for one xorb have the same layout, as far as they are xorb bodies. -/
def OneLayout (acts : List UploadAct) : Prop :=
  ∀ i r i' r', .receive i r ∈ acts → .receive i' r' ∈ acts → r.hash = r'.hash →
    ∀ layout layout', OwnLayout r layout → OwnLayout r' layout' → layout = layout'

/-- A request of the run. -/
def Received (acts : List UploadAct) (r : XorbRequest) : Prop := ∃ i, .receive i r ∈ acts

/-- What an upload of the run relies on, with no upload in the way. -/
def OneOk (acts : List UploadAct) (db : Db) : UploadPc → Prop
  | .idle => True
  | .received r => Received acts r
  | .checked r => Received acts r
  | .parsed r layout => Received acts r ∧ OwnLayout r layout
  | .verified r layout => Received acts r ∧ OwnLayout r layout
  | .registered r layout => Received acts r ∧ OwnLayout r layout ∧
      db.xorbFrameLayout r.hash = layout
  | .absent r layout => Received acts r ∧ OwnLayout r layout ∧ db.xorbFrameLayout r.hash = layout
  | .answered _ => True

/-- A xorb has nothing yet, or the layout of the bodies that are received for it. -/
structure OneInv (acts : List UploadAct) (s : Uploads) : Prop where
  uploads : ∀ i, OneOk acts s.server.db (s.pcs i)
  layouts : ∀ x, (framesOf x s.server.db.xorbFrames = [] ∧ s.server.blobs x = none) ∨
    ∃ r, Received acts r ∧ r.hash = x ∧ OwnLayout r (s.server.db.xorbFrameLayout x)

variable {acts : List UploadAct}

theorem OneLayout.eq (hone : OneLayout acts) {r r' : XorbRequest} (hr : Received acts r)
    (hr' : Received acts r') (hhash : r.hash = r'.hash) {layout layout' : List XorbFrameRow}
    (hown : OwnLayout r layout) (hown' : OwnLayout r' layout') : layout = layout' := by
  obtain ⟨i, hi⟩ := hr
  obtain ⟨i', hi'⟩ := hr'
  exact hone i r i' r' hi hi' hhash layout layout' hown hown'

theorem OneInv.clear (hone : OneLayout acts) (hinv : OneInv acts s) (a : UploadAct) :
    LayoutClear s a := by
  cases a with
  | receive i r => trivial
  | stop i => trivial
  | step i =>
      have hok := hinv.uploads i
      cases hpc : s.pcs i <;> simp only [LayoutClear, hpc, OneOk] at hok ⊢
      case registered r layout => exact fun _ => hok.2.2
      case verified r layout =>
        obtain ⟨hr, hown⟩ := hok
        rintro ⟨f, hf, hnew⟩
        rcases hinv.layouts r.hash with ⟨hframes, hblob⟩ | ⟨r', hr', hhash, hown'⟩
        · refine ⟨hblob, fun k r' layout' hk hhash => ?_⟩
          -- an upload about to put has stored a layout, so that of both bodies is empty
          have hother := hinv.uploads k
          rw [hk] at hother
          obtain ⟨hr', hown', hstored⟩ := hother
          have hempty : s.server.db.xorbFrameLayout r'.hash = [] := by
            rw [hhash]
            unfold Db.xorbFrameLayout
            rw [hframes]
            rfl
          rw [hone.eq hr hr' hhash.symm hown hown', ← hstored, hempty] at hf
          exact absurd hf List.not_mem_nil
        · rw [hone.eq hr' hr hhash hown' hown] at hnew
          exact absurd (List.mem_map_of_mem hf) hnew

/-- A step that changes upload `i` only. -/
theorem OneInv.move (hinv : OneInv acts s) {i : Nat} {pc : UploadPc}
    (hself : OneOk acts s.server.db pc) : OneInv acts (s.setPc i pc) := by
  refine ⟨fun k => ?_, hinv.layouts⟩
  by_cases hk : k = i
  · simpa only [hk, Uploads.setPc, Function.update_self] using hself
  · simpa only [Uploads.setPc, Function.update_of_ne hk] using hinv.uploads k

/-- A registration stores the layout of its body, or finds it. -/
theorem OneInv.register (hone : OneLayout acts) (hinv : OneInv acts s) {i : Nat} {r : XorbRequest}
    {layout : List XorbFrameRow} (hr : Received acts r) (hown : OwnLayout r layout) :
    OneInv acts ({ s with server := { s.server with
      db := s.server.db.registerXorbLayout r.hash layout } }.setPc i (.registered r layout)) := by
  have hstored : (s.server.db.registerXorbLayout r.hash layout).xorbFrameLayout r.hash =
      layout := by
    rcases hinv.layouts r.hash with ⟨hframes, -⟩ | ⟨r', hr', hhash, hown'⟩
    · obtain ⟨frames, hparse, rfl⟩ := hown
      exact Db.xorbFrameLayout_registerXorbLayout_first s.server.db hframes
        (frameLayout_pairwise hparse)
    · have hsame := hone.eq hr' hr hhash hown' hown
      have htaken : ∀ f ∈ layout, f.frameIndex ∈
          (s.server.db.xorbFrameLayout r.hash).map XorbFrameRow.frameIndex := by
        intro f hf
        rw [hsame]
        exact List.mem_map_of_mem hf
      unfold Db.xorbFrameLayout at hsame ⊢
      rw [Db.registerXorbLayout_of_taken s.server.db htaken]
      exact hsame
  have hother : ∀ y, y ≠ r.hash →
      framesOf y (s.server.db.registerXorbLayout r.hash layout).xorbFrames =
        framesOf y s.server.db.xorbFrames :=
    fun y hy => Db.framesOf_registerXorbLayout_of_ne s.server.db hy layout
  have hlayout : ∀ r' layout', Received acts r' → OwnLayout r' layout' →
      s.server.db.xorbFrameLayout r'.hash = layout' →
        (s.server.db.registerXorbLayout r.hash layout).xorbFrameLayout r'.hash = layout' := by
    intro r' layout' hr' hown' hold
    by_cases hhash : r'.hash = r.hash
    · rw [hhash, hstored]
      exact hone.eq hr hr' hhash.symm hown hown'
    · unfold Db.xorbFrameLayout at hold ⊢
      rw [hother r'.hash hhash]
      exact hold
  refine ⟨fun k => ?_, fun x => ?_⟩
  · by_cases hk : k = i
    · simpa only [hk, Uploads.setPc, Function.update_self] using ⟨hr, hown, hstored⟩
    · have hok := hinv.uploads k
      simp only [Uploads.setPc, Function.update_of_ne hk]
      cases hc : s.pcs k <;> rw [hc] at hok <;> simp only [OneOk] at hok ⊢
      case registered r' layout' => exact ⟨hok.1, hok.2.1, hlayout r' layout' hok.1 hok.2.1 hok.2.2⟩
      case absent r' layout' => exact ⟨hok.1, hok.2.1, hlayout r' layout' hok.1 hok.2.1 hok.2.2⟩
      all_goals exact hok
  · by_cases hx : x = r.hash
    · refine Or.inr ⟨r, hr, hx.symm, ?_⟩
      rw [hx]
      exact hstored.symm ▸ hown
    · have hold := hinv.layouts x
      unfold Db.xorbFrameLayout at hold ⊢
      simp only [Uploads.setPc, hother x hx]
      exact hold

theorem OneInv.put (hinv : OneInv acts s) {i : Nat} {r : XorbRequest}
    {layout : List XorbFrameRow} (hr : Received acts r) (hown : OwnLayout r layout)
    (hstored : s.server.db.xorbFrameLayout r.hash = layout) :
    OneInv acts ({ s with server := s.server.putXorb r.hash r.body }.setPc i
      (.answered (.ok true))) := by
  refine ⟨fun k => ?_, fun x => ?_⟩
  · by_cases hk : k = i
    · simp only [hk, Uploads.setPc, Function.update_self, OneOk]
    · simpa only [Uploads.setPc, ServerState.putXorb, Function.update_of_ne hk]
        using hinv.uploads k
  · by_cases hx : x = r.hash
    · refine Or.inr ⟨r, hr, hx.symm, ?_⟩
      simp only [Uploads.setPc, ServerState.putXorb]
      rw [hx, hstored]
      exact hown
    · simpa only [Uploads.setPc, ServerState.putXorb, Function.update_of_ne hx]
        using hinv.layouts x

theorem OneInv.step (hone : OneLayout acts) (hinv : OneInv acts s) {i : Nat}
    (hstep : uploadStep svc s i = some s') : OneInv acts s' := by
  have hok := hinv.uploads i
  unfold uploadStep at hstep
  cases hpc : s.pcs i with
  | idle => simp [hpc] at hstep
  | received r =>
      simp only [hpc] at hstep hok
      split at hstep <;> simp only [Option.some.injEq] at hstep <;> subst hstep
      · exact hinv.move trivial
      · exact hinv.move hok
  | checked r =>
      simp only [hpc] at hstep hok
      split at hstep <;> simp only [Option.some.injEq] at hstep <;> subst hstep
      · exact hinv.move trivial
      · next layout hparse => exact hinv.move ⟨hok, ownLayout_of_parseXorb hparse⟩
  | parsed r layout =>
      simp only [hpc] at hstep hok
      split at hstep <;> simp only [Option.some.injEq] at hstep <;> subst hstep
      · exact hinv.move trivial
      · exact hinv.move hok
  | verified r layout =>
      simp only [hpc, Option.some.injEq] at hstep hok
      subst hstep
      exact hinv.register hone hok.1 hok.2
  | registered r layout =>
      simp only [hpc] at hstep hok
      split_ifs at hstep <;> simp only [Option.some.injEq] at hstep <;> subst hstep
      · exact hinv.move trivial
      · exact hinv.move hok
  | absent r layout =>
      simp only [hpc, Option.some.injEq] at hstep hok
      subst hstep
      exact hinv.put hok.1 hok.2.1 hok.2.2
  | answered res => simp [hpc] at hstep

/-- **One layout for each xorb is enough**, whatever the order of the steps and wherever uploads
    stop. -/
theorem oneLayout_clear (svc : Service) (db : Db) (hone : OneLayout acts) :
    Machine.Admissible (uploadsStep svc) LayoutClear (Uploads.fresh db) acts := by
  refine Machine.admissible_of_invariant (OneInv acts) (fun s a _ hinv => hinv.clear hone a) ?_ ?_
  · intro s a ha s' hinv hstep
    cases a with
    | receive i r =>
        simp only [uploadsStep] at hstep
        split at hstep
        · simp only [Option.some.injEq] at hstep
          subst hstep
          exact hinv.move ⟨i, ha⟩
        · simp at hstep
    | step i => exact hinv.step hone hstep
    | stop i =>
        simp only [uploadsStep, Option.some.injEq] at hstep
        subst hstep
        exact hinv.move trivial
  · exact ⟨fun i => trivial, fun x => Or.inl ⟨rfl, rfl⟩⟩

/-- **Bodies of one layout**: when all bodies received for a xorb lie in the same frames, the layout
    of every blob is that of its body, in every state of every interleaving. -/
theorem agree_of_oneLayout (svc : Service) (db : Db) (acts : List UploadAct) (s : Uploads)
    (hone : OneLayout acts)
    (hrun : Machine.run (uploadsStep svc) (Uploads.fresh db) acts = some s) : Agree s.server :=
  (Machine.run_invariant uploadsStep_inv (uploadsInv_fresh db) (oneLayout_clear svc db hone)
    hrun).agree

/-! ## Runs of few uploads

A run whose uploads are all below `n` can be checked for `LayoutClear` by running it. -/

/-- The xorb of an upload that has found no blob. -/
def UploadPc.putsTo : UploadPc → Option XorbHash
  | .absent r _ => some r.hash
  | _ => none

/-- What `LayoutClear` asks of the next step of an upload, as far as the uploads below `n` go. -/
def PcClearBelow (n : Nat) (s : Uploads) : UploadPc → Prop
  | .registered r layout => s.server.blobs r.hash = none →
      s.server.db.xorbFrameLayout r.hash = layout
  | .verified r layout =>
      (∃ f ∈ layout, f.frameIndex ∉
        (s.server.db.xorbFrameLayout r.hash).map XorbFrameRow.frameIndex) →
      s.server.blobs r.hash = none ∧ ∀ k < n, (s.pcs k).putsTo ≠ some r.hash
  | _ => True

def LayoutClearBelow (n : Nat) (s : Uploads) : UploadAct → Prop
  | .receive i _ => i < n
  | .step i => PcClearBelow n s (s.pcs i)
  | .stop _ => True

instance PcClearBelow.decidable (n : Nat) (s : Uploads) : ∀ pc, Decidable (PcClearBelow n s pc)
  | .registered r layout => inferInstanceAs (Decidable (s.server.blobs r.hash = none →
      s.server.db.xorbFrameLayout r.hash = layout))
  | .verified r layout => inferInstanceAs (Decidable ((∃ f ∈ layout, f.frameIndex ∉
      (s.server.db.xorbFrameLayout r.hash).map XorbFrameRow.frameIndex) →
        s.server.blobs r.hash = none ∧ ∀ k < n, (s.pcs k).putsTo ≠ some r.hash))
  | .idle | .received _ | .checked _ | .parsed _ _ | .absent _ _ | .answered _ => .isTrue trivial

instance LayoutClearBelow.decidable (n : Nat) (s : Uploads) :
    ∀ a, Decidable (LayoutClearBelow n s a)
  | .receive i _ => inferInstanceAs (Decidable (i < n))
  | .step i => PcClearBelow.decidable n s (s.pcs i)
  | .stop _ => .isTrue trivial

/-- An upload moves itself only. -/
theorem uploadStep_pcs {i : Nat} (hstep : uploadStep svc s i = some s') :
    s.pcs i ≠ .idle ∧ ∃ (t : Uploads) (pc : UploadPc), s' = t.setPc i pc ∧ t.pcs = s.pcs := by
  unfold uploadStep at hstep
  cases hpc : s.pcs i with
  | idle => simp [hpc] at hstep
  | answered res => simp [hpc] at hstep
  | received r | checked r | parsed r layout =>
      simp only [hpc] at hstep
      split at hstep <;> exact ⟨by simp, _, _, (Option.some.inj hstep).symm, rfl⟩
  | registered r layout =>
      simp only [hpc] at hstep
      split_ifs at hstep <;> exact ⟨by simp, _, _, (Option.some.inj hstep).symm, rfl⟩
  | verified r layout | absent r layout =>
      simp only [hpc] at hstep
      exact ⟨by simp, _, _, (Option.some.inj hstep).symm, rfl⟩

/-- The uploads from `n` on do not take part. -/
theorem uploadsStep_idle {n : Nat} {a : UploadAct} (hidle : ∀ k, n ≤ k → s.pcs k = .idle)
    (hok : LayoutClearBelow n s a) (hstep : uploadsStep svc s a = some s') :
    ∀ k, n ≤ k → s'.pcs k = .idle := by
  cases a with
  | receive i r =>
      simp only [uploadsStep] at hstep
      split at hstep
      · simp only [Option.some.injEq] at hstep
        subst hstep
        exact Machine.idle_update hidle (Or.inl hok)
      · simp at hstep
  | step i =>
      obtain ⟨hbusy, t, pc, rfl, ht⟩ := uploadStep_pcs hstep
      refine Machine.idle_update (fun k hk => ht ▸ hidle k hk) (Or.inl ?_)
      by_contra hge
      exact hbusy (hidle i (Nat.le_of_not_lt hge))
  | stop i =>
      simp only [uploadsStep, Option.some.injEq] at hstep
      subst hstep
      exact Machine.idle_update hidle (Or.inr rfl)

theorem layoutClear_of_below {n : Nat} (hidle : ∀ k, n ≤ k → s.pcs k = .idle)
    (h : Machine.Admissible (uploadsStep svc) (LayoutClearBelow n) s acts) :
    Machine.Admissible (uploadsStep svc) LayoutClear s acts := by
  refine h.imp_of_invariant (fun s => ∀ k, n ≤ k → s.pcs k = .idle) (fun t a ht hok => ?_)
    (fun t a t' => uploadsStep_idle) hidle
  cases a with
  | receive i r => trivial
  | stop i => trivial
  | step i =>
      simp only [LayoutClearBelow] at hok
      cases hpc : t.pcs i <;> simp only [LayoutClear, PcClearBelow, hpc] at hok ⊢
      case registered r layout => exact hok
      case verified r layout =>
        refine fun hnew => ⟨(hok hnew).1, fun k r' layout' hk hhash => ?_⟩
        by_cases hlt : k < n
        · refine (hok hnew).2 k hlt ?_
          rw [hk]
          exact congrArg some hhash
        · rw [ht k (Nat.le_of_not_lt hlt)] at hk
          cases hk

/-! ## Two bodies of one xorb -/

namespace Sample

/-- An LZ4 frame with one stored block of less than 256 bytes. -/
def lz4Decompress (frame : List UInt8) : Except String (List UInt8) :=
  if frame.take 7 = [0x04, 0x22, 0x4d, 0x18, 0x60, 0x40, 0x82] ∧
      (frame.drop 8).take 3 = [0, 0, 0x80] then
    .ok ((frame.drop 11).take (frame.getD 7 0).toNat)
  else .error "bad frame"

/-- Chunks are hashed by their first byte, xorbs by their first chunk. -/
def codec : Codec where
  decompressFromSlice
    | .none, payload => .ok payload
    | .lz4, payload => lz4Decompress payload
    | .byteGrouping4Lz4, _ => .error "unsupported"
  computeDataHash chunk := hash32 (chunk.headD 0)
  xorbHash entries := match entries with
    | e :: _ => e.1
    | [] => hash32 0
  blake3 bytes := hash32 (bytes.getD 48 0)

def service : Service := ⟨codec, none⟩

/-- One chunk of one byte, stored as it is. -/
def plainBody : List UInt8 := [0, 1, 0, 0, 0, 1, 0, 0, 0x61]

/-- The same chunk as an LZ4 frame. -/
def lz4Body : List UInt8 :=
  [0, 16, 0, 0, 1, 1, 0, 0] ++
    [0x04, 0x22, 0x4d, 0x18, 0x60, 0x40, 0x82, 1, 0, 0, 0x80, 0x61, 0, 0, 0, 0]

def plainUpload : XorbRequest := ⟨repo, hash32 0x61, plainBody⟩
def lz4Upload : XorbRequest := ⟨repo, hash32 0x61, lz4Body⟩

/-- The plain upload registers its layout and stops; the LZ4 upload of the same xorb follows. -/
def staleLayoutActs : List UploadAct :=
  [.receive 0 plainUpload] ++ List.replicate 4 (.step 0) ++ [.stop 0, .receive 1 lz4Upload] ++
    List.replicate 6 (.step 1)

end Sample

/-- **A stopped upload's layout outlives it**: the blob of the later upload gets the layout of a body
    that was never stored. -/
theorem stale_layout_disagrees :
    ¬ ∀ (acts : List UploadAct) (s : Uploads),
      Machine.run (uploadsStep Sample.service) (Uploads.fresh Db.empty) acts = some s →
        Agree s.server := by
  have hrun : (Machine.run (uploadsStep Sample.service) (Uploads.fresh Db.empty)
      Sample.staleLayoutActs).map (fun s => (s.server.blobs (Sample.hash32 0x61),
        s.server.db.xorbFrameLayout (Sample.hash32 0x61))) =
      some (some Sample.lz4Body, [⟨0, 0, 9, 1⟩]) := by
    decide +kernel
  have hparse : parseXorbFrames Sample.lz4Body = .ok [⟨0, 24, 1, 1⟩] := by
    decide +kernel
  obtain ⟨s, hs, hend⟩ := Option.map_eq_some_iff.1 hrun
  rw [Prod.mk.injEq] at hend
  intro hall
  obtain ⟨frames, hframes, hlayout⟩ := hall _ s hs _ _ hend.1
  rw [hparse, Except.ok.injEq] at hframes
  rw [hend.2, ← hframes] at hlayout
  exact absurd hlayout (by decide)

/-- Two uploads of one xorb race, with different bodies. The LZ4 upload registers its layout first;
    the plain one registers after it, which adds no row, and stops. -/
def Sample.racingUploads : List UploadAct :=
  [.receive 0 Sample.plainUpload, .receive 1 Sample.lz4Upload] ++ List.replicate 3 (.step 0) ++
    List.replicate 4 (.step 1) ++ [.step 0, .stop 0, .step 1, .step 1]

/-- The race ends with the blob and the layout of one and the same body. -/
theorem uploads_agree_race : ∃ s,
    Machine.run (uploadsStep Sample.service) (Uploads.fresh Db.empty) Sample.racingUploads = some s ∧
    s.server.blobs (Sample.hash32 0x61) = some Sample.lz4Body ∧ Agree s.server := by
  have hrun : (Machine.run (uploadsStep Sample.service) (Uploads.fresh Db.empty)
      Sample.racingUploads).map (fun s => s.server.blobs (Sample.hash32 0x61)) =
      some (some Sample.lz4Body) := by
    decide +kernel
  have hclear : Machine.Admissible (uploadsStep Sample.service) (LayoutClearBelow 2)
      (Uploads.fresh Db.empty) Sample.racingUploads := by
    decide +kernel
  obtain ⟨s, hs, hblob⟩ := Option.map_eq_some_iff.1 hrun
  exact ⟨s, hs, hblob, uploads_agree Sample.service Db.empty _ s
    (layoutClear_of_below (fun _ _ => rfl) hclear) hs⟩

end BaleForGit.Server
