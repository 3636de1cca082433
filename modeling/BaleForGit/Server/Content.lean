import Mathlib.Data.List.Forall2
import BaleForGit.Server.Reconstruct

set_option autoImplicit false

/-! # What terms denote

A term denotes the chunks of its xorb from its first index to its last, decompressed, one after the
other. In every state that requests lead to, both read paths find exactly these bytes for every term
whose indexes are within the frames of its xorb. -/

namespace BaleForGit.Server

section Denote

variable (codec : Codec)

/-- The chunks of a body, decompressed. -/
def xorbChunks (body : List UInt8) : Except XorbVerifyError (List (List UInt8)) := do
  let frames ← (parseXorbFrames body).mapError .parse
  frames.zipIdx.mapM (fun fi => frameChunk codec body fi.2 fi.1)

/-- The chunks of a stored xorb. -/
def chunksOf (st : ServerState) (x : XorbHash) : List (List UInt8) :=
  match st.blobs x with
  | none => []
  | some body => (xorbChunks codec body).toOption.getD []

/-- The bytes that a term denotes. -/
def termContent (st : ServerState) (t : FileTerm) : List UInt8 :=
  (((chunksOf codec st t.xorb).take t.chunkIdxEnd.toNat).drop t.chunkIdxStart.toNat).flatten

/-- The bytes that a term list denotes. -/
def content (st : ServerState) (terms : List FileTerm) : List UInt8 :=
  terms.flatMap (termContent codec st)

end Denote

/-- The sum of the uncompressed lengths of the frames of a range. -/
def framesUnpacked (layout : List XorbFrameRow) (range : RangeJson) : Nat :=
  (((layout.take range.stop).drop range.start).map (fun f => f.uncompressedLen.toNat)).sum

/-! ## The bytes of a run of frames -/

theorem framesBytes_append (fs gs : List XorbChunkFrame) :
    framesBytes (fs ++ gs) = framesBytes fs + framesBytes gs := by
  simp [framesBytes]

theorem framesBytes_take_succ {fs : List XorbChunkFrame} {i : Nat} (hi : i < fs.length) :
    framesBytes (fs.take (i + 1)) = framesBytes (fs.take i) + (fs.get ⟨i, hi⟩).onDiskLen.toNat := by
  rw [List.take_add_one, framesBytes_append]
  simp [framesBytes, List.getElem?_eq_getElem hi]

/-- The frames in between tile the bytes in between. -/
theorem Tiles.between {body : List UInt8} {fs : List XorbChunkFrame} {q lo hi : Nat}
    (h : Tiles body 0 fs q) (hlo : lo ≤ hi) :
    Tiles body (framesBytes (fs.take lo)) ((fs.take hi).drop lo) (framesBytes (fs.take hi)) := by
  rw [← List.take_append_drop hi fs, tiles_append, Nat.zero_add] at h
  have hsplit : fs.take hi = fs.take lo ++ (fs.take hi).drop lo := by
    conv_lhs => rw [← List.take_append_drop lo (fs.take hi), List.take_take, Nat.min_eq_left hlo]
  have hfirst := h.1
  rw [hsplit, tiles_append, Nat.zero_add, ← hsplit] at hfirst
  exact hfirst.2

theorem frameChunk_length {codec : Codec} {body : List UInt8} {i : Nat} {f : XorbChunkFrame}
    {chunk : List UInt8} (h : frameChunk codec body i f = .ok chunk) :
    chunk.length = f.uncompressedLen.toNat := by
  unfold frameChunk at h
  obtain ⟨scheme, -, h⟩ := Results.bind_eq_ok.1 h
  split at h
  · simp at h
  · split_ifs at h with hlen
    rw [← Except.ok.inj h]
    exact not_not.1 hlen

/-- A verified body decompresses. -/
theorem xorbChunks_of_verify {codec : Codec} {body : List UInt8} {x : XorbHash}
    (h : verifyXorbBody codec body x = .ok ()) :
    ∃ frames chunks, parseXorbFrames body = .ok frames ∧ xorbChunks codec body = .ok chunks := by
  obtain ⟨frames, es, hparse, hes, -, -⟩ := verifyXorbBody_ok h
  unfold xorbEntries at hes
  obtain ⟨frames', hframes, hes⟩ := Results.bind_eq_ok.1 hes
  rw [Results.mapError_eq_ok, hparse, Except.ok.injEq] at hframes
  subst hframes
  have hall : ∀ fi ∈ frames.zipIdx, ∃ c, frameChunk codec body fi.2 fi.1 = .ok c := by
    intro fi hfi
    obtain ⟨e, he⟩ := Results.exists_mapM_eq_ok.1 ⟨es, hes⟩ fi hfi
    obtain ⟨c, hc, -⟩ := Results.bind_eq_ok.1 he
    exact ⟨c, hc⟩
  obtain ⟨chunks, hchunks⟩ := Results.exists_mapM_eq_ok.2 hall
  refine ⟨frames, chunks, hparse, ?_⟩
  unfold xorbChunks
  rw [hparse]
  exact hchunks

/-- **The bytes of a run of frames decompress to the chunks of these frames.** -/
theorem xorbChunks_slice {codec : Codec} {body : List UInt8} {frames : List XorbChunkFrame}
    {chunks : List (List UInt8)} (hparse : parseXorbFrames body = .ok frames)
    (hchunks : xorbChunks codec body = .ok chunks) {lo hi : Nat} (hlo : lo < hi)
    (hhi : hi ≤ frames.length) :
    xorbChunks codec ((body.take (framesBytes (frames.take hi))).drop
      (framesBytes (frames.take lo))) = .ok ((chunks.take hi).drop lo) := by
  obtain ⟨-, -, hmax⟩ := parseXorbFrames_length hparse
  obtain ⟨q, htiles, -, hq⟩ := parseXorbFrames_tiles hparse
  have hbetween := htiles.between (Nat.le_of_lt hlo)
  have hle : framesBytes (frames.take hi) ≤ body.length := by
    have hstop := htiles.stop_eq
    have hsplit := framesBytes_append (frames.take hi) (frames.drop hi)
    rw [List.take_append_drop] at hsplit
    omega
  have hne : (frames.take hi).drop lo ≠ [] := by
    rw [ne_eq, List.drop_eq_nil_iff, List.length_take, Nat.min_eq_left hhi]
    omega
  have hslice := parseXorbFrames_slice hmax hne hbetween hle
  unfold xorbChunks at hchunks ⊢
  rw [hslice]
  rw [hparse] at hchunks
  change frames.zipIdx.mapM (fun fi => frameChunk codec body fi.2 fi.1) = .ok chunks at hchunks
  change List.mapM _ _ = _
  -- frame `i` of the slice is frame `lo + i` of the body, moved to the front
  rw [Results.mapM_eq_ok, List.forall₂_iff_get] at hchunks ⊢
  obtain ⟨hlen, hget⟩ := hchunks
  rw [List.length_zipIdx] at hlen
  refine ⟨by simp [hlen], fun i hi₁ hi₂ => ?_⟩
  simp only [List.length_zipIdx, List.length_map, List.length_drop, List.length_take] at hi₁
  have hidx : lo + i < frames.length := by omega
  have hone := hget (lo + i) (by simpa using hidx) (by omega)
  simp only [List.get_eq_getElem, List.getElem_zipIdx, Nat.zero_add] at hone
  simp only [List.get_eq_getElem, List.getElem_zipIdx, List.getElem_map, List.getElem_drop,
    List.getElem_take]
  have hat := htiles.frameAt hidx
  rw [Nat.zero_add] at hat
  refine frameChunk_slice codec hmax hat ?_ ?_ hone
  · have hsplit := framesBytes_append (frames.take lo) ((frames.take (lo + i)).drop lo)
    rw [show frames.take lo = (frames.take (lo + i)).take lo by
      rw [List.take_take, Nat.min_eq_left (Nat.le_add_right lo i)], List.take_append_drop] at hsplit
    rw [List.take_take, Nat.min_eq_left (Nat.le_add_right lo i)] at hsplit
    omega
  · rw [← framesBytes_take_succ hidx]
    have hsplit := framesBytes_append ((frames.take hi).take (lo + i + 1))
      ((frames.take hi).drop (lo + i + 1))
    rw [List.take_append_drop, List.take_take, Nat.min_eq_left (by omega)] at hsplit
    omega

theorem decompressXorbChunksInto_eq (codec : Codec) (body : List UInt8) :
    decompressXorbChunksInto codec body = (xorbChunks codec body).map List.flatten := by
  unfold decompressXorbChunksInto xorbChunks
  cases parseXorbFrames body with
  | error e => rfl
  | ok frames =>
      simp only [Except.mapError, bind, Except.bind]
      cases frames.zipIdx.mapM (fun fi => frameChunk codec body fi.2 fi.1) with
      | error e => rfl
      | ok chunks => rfl

@[simp] theorem frameLayout_length (frames : List XorbChunkFrame) :
    (frameLayout frames).length = frames.length := by
  simp [frameLayout]

/-- The byte range of a term in the layout of a body. -/
theorem termByteRange_frameLayout {body : List UInt8} {frames : List XorbChunkFrame}
    (hparse : parseXorbFrames body = .ok frames) {t : FileTerm}
    (hin : InFrames (frameLayout frames) t) :
    termByteRange (frameLayout frames) t = .ok (framesBytes (frames.take t.chunkIdxStart.toNat),
      framesBytes (frames.take t.chunkIdxEnd.toNat)) := by
  obtain ⟨q, htiles, -, -⟩ := parseXorbFrames_tiles hparse
  have hlt := UInt32.lt_iff_toNat_lt.1 hin.1
  have hle := hin.2
  rw [frameLayout_length] at hle
  have hfirst := (htiles.frameAt (i := t.chunkIdxStart.toNat) (by omega)).start
  have hpred : t.chunkIdxEnd.toNat - 1 < frames.length := by omega
  have hlast := (htiles.frameAt hpred).start
  have hsucc := framesBytes_take_succ hpred
  rw [Nat.sub_add_cancel (by omega)] at hsucc
  rw [Nat.zero_add] at hfirst hlast
  simp only [List.get_eq_getElem] at hfirst hlast hsucc
  unfold termByteRange
  rw [dif_pos hin]
  simp only [frameLayout, List.get_eq_getElem, List.getElem_map, List.getElem_zipIdx, hfirst, hlast,
    hsucc]

/-! ## Reading a term -/

section Read

variable {svc : Service} {bodies : List (List UInt8)} {st : ServerState}

/-- What is known of a stored xorb. -/
theorem SeqInv.stored (hinv : SeqInv svc bodies st) {x : XorbHash} {body : List UInt8}
    (hblob : st.blobs x = some body) :
    ∃ frames, parseXorbFrames body = .ok frames ∧ st.db.xorbFrameLayout x = frameLayout frames ∧
      xorbChunks svc.codec body = .ok (chunksOf svc.codec st x) := by
  obtain ⟨frames, hparse, hlayout⟩ := hinv.agree x body hblob
  obtain ⟨-, chunks, -, hchunks⟩ := xorbChunks_of_verify (hinv.verified x body hblob).1
  refine ⟨frames, hparse, hlayout, ?_⟩
  simp only [chunksOf, hblob, hchunks, Except.toOption, Option.getD_some]

theorem SeqInv.blob_of_inFrames (hinv : SeqInv svc bodies st) {t : FileTerm}
    (hin : InFrames (st.db.xorbFrameLayout t.xorb) t) : ∃ body, st.blobs t.xorb = some body := by
  cases hblob : st.blobs t.xorb with
  | some body => exact ⟨body, rfl⟩
  | none =>
      have hempty : st.db.xorbFrameLayout t.xorb = [] := by
        unfold Db.xorbFrameLayout
        rw [hinv.noLayout t.xorb hblob]
        rfl
      have hlt := hin.start_lt
      rw [hempty] at hlt
      simp at hlt

/-- **The bytes of a term within the frames decompress to what it denotes.** -/
theorem SeqInv.readTerm (hinv : SeqInv svc bodies st) {t : FileTerm}
    (hin : InFrames (st.db.xorbFrameLayout t.xorb) t) :
    ∃ lo hi body, termByteRange (st.db.xorbFrameLayout t.xorb) t = .ok (lo, hi) ∧ lo < hi ∧
      st.getXorbRange t.xorb lo hi = .ok body ∧
      decompressXorbChunksInto svc.codec body = .ok (termContent svc.codec st t) := by
  obtain ⟨body, hblob⟩ := hinv.blob_of_inFrames hin
  obtain ⟨frames, hparse, hlayout, hchunks⟩ := hinv.stored hblob
  rw [hlayout] at hin ⊢
  have hlt := UInt32.lt_iff_toNat_lt.1 hin.1
  have hle := hin.2
  rw [frameLayout_length] at hle
  obtain ⟨q, htiles, -, hq⟩ := parseXorbFrames_tiles hparse
  have hbetween := htiles.between (Nat.le_of_lt hlt)
  have hstop := hbetween.stop_eq
  have hcount := framesBytes_ge hbetween
  have hall := htiles.stop_eq
  have hsplit := framesBytes_append (frames.take t.chunkIdxEnd.toNat)
    (frames.drop t.chunkIdxEnd.toNat)
  rw [List.take_append_drop] at hsplit
  rw [List.length_drop, List.length_take, Nat.min_eq_left hle] at hcount
  have hpos : framesBytes (frames.take t.chunkIdxStart.toNat) <
      framesBytes (frames.take t.chunkIdxEnd.toNat) := by
    unfold headerLen at hcount
    omega
  refine ⟨_, _, (body.take (framesBytes (frames.take t.chunkIdxEnd.toNat))).drop
    (framesBytes (frames.take t.chunkIdxStart.toNat)), termByteRange_frameLayout hparse hin, hpos,
    ?_, ?_⟩
  · unfold ServerState.getXorbRange
    rw [if_neg (by omega)]
    simp only [hblob]
    rw [if_neg (by omega)]
  · rw [decompressXorbChunksInto_eq, xorbChunks_slice hparse hchunks hlt hle]
    rfl

/-- A term denotes as many bytes as its frames say. -/
theorem SeqInv.termContent_length (hinv : SeqInv svc bodies st) {t : FileTerm}
    (hin : InFrames (st.db.xorbFrameLayout t.xorb) t) :
    (termContent svc.codec st t).length =
      framesUnpacked (st.db.xorbFrameLayout t.xorb) (termRange t) := by
  obtain ⟨body, hblob⟩ := hinv.blob_of_inFrames hin
  obtain ⟨frames, hparse, hlayout, hchunks⟩ := hinv.stored hblob
  have hlengths : (chunksOf svc.codec st t.xorb).map List.length =
      (frameLayout frames).map (fun f => f.uncompressedLen.toNat) := by
    unfold xorbChunks at hchunks
    rw [hparse] at hchunks
    change frames.zipIdx.mapM (fun fi => frameChunk svc.codec body fi.2 fi.1) = _ at hchunks
    rw [Results.mapM_eq_ok, List.forall₂_iff_get] at hchunks
    refine List.ext_getElem ?_ (fun i hi hi' => ?_)
    · rw [List.length_map, List.length_map, frameLayout_length, ← hchunks.1, List.length_zipIdx]
    · simp only [List.length_map, frameLayout_length] at hi hi'
      have hone := frameChunk_length (hchunks.2 i (by simpa using hi') hi)
      simpa [frameLayout] using hone
  unfold termContent framesUnpacked termRange
  rw [List.length_flatten, hlayout, List.map_drop, List.map_drop, List.map_take, List.map_take,
    hlengths]

/-- **What `fetch_and_decompress_term` returns.** -/
theorem SeqInv.fetchAndDecompressTerm_iff (hinv : SeqInv svc bodies st) {t : FileTerm}
    {bytes : List UInt8} :
    fetchAndDecompressTerm svc st t = .ok bytes ↔
      InFrames (st.db.xorbFrameLayout t.xorb) t ∧
        t.unpackedSegmentBytes.toNat ≤ maxTermUnpackedBytes ∧
        bytes = termContent svc.codec st t := by
  unfold fetchAndDecompressTerm
  by_cases hin : InFrames (st.db.xorbFrameLayout t.xorb) t
  · obtain ⟨lo, hi, body, hrange, -, hbody, hbytes⟩ := hinv.readTerm hin
    have hne : (st.db.xorbFrameLayout t.xorb).isEmpty = false := by
      have hlt := hin.start_lt
      cases hlayout : st.db.xorbFrameLayout t.xorb with
      | nil => simp [hlayout] at hlt
      | cons f fs => rfl
    simp only [hne, hrange, bind, Except.bind]
    by_cases hcap : t.unpackedSegmentBytes.toNat ≤ maxTermUnpackedBytes
    · simp [hin, hcap, Nat.not_lt.2 hcap, hbody, hbytes, Except.mapError, eq_comm]
    · simp [hcap, Nat.lt_of_not_le hcap]
  · have herr : termByteRange (st.db.xorbFrameLayout t.xorb) t = .error badTermRange := by
      unfold termByteRange
      rw [dif_neg hin]
    simp only [herr, bind, Except.bind]
    split_ifs <;> simp [hin]

end Read

end BaleForGit.Server
