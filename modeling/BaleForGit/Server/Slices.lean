import BaleForGit.Server.Content
import BaleForGit.Server.Layout

set_option autoImplicit false

/-! # Slices of a xorb body

A reader never sees a whole xorb: it is given the bytes from the start of one frame to the end of
another, as an inclusive range in `get_reconstruction` and as a half-open range in the download
path, and runs the parser of whole bodies on them. The parser stops at a trailer in the body; in the
slice it neither stops early nor runs on, and its frames are those of the body, moved to the front. -/

namespace BaleForGit.Server

/-- The bytes from the start of one frame to the end of another. -/
def subSlice (body : List UInt8) (first last : XorbChunkFrame) : List UInt8 :=
  (body.take (last.onDiskStart.toNat + last.onDiskLen.toNat)).drop first.onDiskStart.toNat

/-- What a client is given that fetches an inclusive range. -/
def inclusiveSlice (body : List UInt8) (range : RangeJson) : List UInt8 :=
  (body.take (range.stop + 1)).drop range.start

section Decompress

variable (codec : Codec)

/-- The loop of `decompress_xorb_chunks_into`: what `out` holds at the end of it, and how it ends. -/
def extendChunks (body : List UInt8) : List (XorbChunkFrame × Nat) → List UInt8 →
    List UInt8 × Except XorbVerifyError Unit
  | [], out => (out, .ok ())
  | fi :: rest, out =>
    match frameChunk codec body fi.2 fi.1 with
    | .error e => (out, .error e)
    | .ok decompressed => extendChunks body rest (out ++ decompressed)

/-- `decompress_xorb_chunks_into`, with the buffer it appends to. -/
def decompressXorbChunksOnto (body out : List UInt8) : List UInt8 × Except XorbVerifyError Unit :=
  match parseXorbFrames body with
  | .error e => (out, .error (.parse e))
  | .ok frames => extendChunks codec body frames.zipIdx out

end Decompress

theorem extendChunks_of_mapM {codec : Codec} {body : List UInt8} {fis : List (XorbChunkFrame × Nat)}
    {chunks : List (List UInt8)} (out : List UInt8)
    (h : fis.mapM (fun fi => frameChunk codec body fi.2 fi.1) = .ok chunks) :
    extendChunks codec body fis out = (out ++ chunks.flatten, .ok ()) := by
  rw [Results.mapM_eq_ok] at h
  induction h generalizing out with
  | nil => simp [extendChunks]
  | cons hchunk _ ih =>
      rw [extendChunks, hchunk]
      simp only [ih, List.flatten_cons, List.append_assoc]

/-- **What decompresses is appended, chunk after chunk.** -/
theorem decompressXorbChunksOnto_of_chunks {codec : Codec} {body : List UInt8}
    {chunks : List (List UInt8)} (out : List UInt8) (h : xorbChunks codec body = .ok chunks) :
    decompressXorbChunksOnto codec body out = (out ++ chunks.flatten, .ok ()) := by
  unfold xorbChunks at h
  unfold decompressXorbChunksOnto
  obtain ⟨frames, hframes, h⟩ := Results.bind_eq_ok.1 h
  rw [Results.mapError_eq_ok] at hframes
  rw [hframes]
  exact extendChunks_of_mapM out h

theorem extendChunks_result (codec : Codec) (body : List UInt8)
    (fis : List (XorbChunkFrame × Nat)) (out : List UInt8) :
    (extendChunks codec body fis out).2 =
      (fis.mapM (fun fi => frameChunk codec body fi.2 fi.1)).map (fun _ => ()) := by
  induction fis generalizing out with
  | nil => rfl
  | cons fi fis ih =>
      rw [extendChunks, List.mapM_cons]
      cases frameChunk codec body fi.2 fi.1 with
      | error e => rfl
      | ok decompressed =>
          simp only [ih, bind, Except.bind]
          cases fis.mapM (fun fi => frameChunk codec body fi.2 fi.1) <;> rfl

/-- From an empty buffer it is `decompressXorbChunksInto`. -/
theorem decompressXorbChunksOnto_nil (codec : Codec) (body : List UInt8) :
    (decompressXorbChunksOnto codec body []).2.map
        (fun _ => (decompressXorbChunksOnto codec body []).1) =
      decompressXorbChunksInto codec body := by
  rw [decompressXorbChunksInto_eq]
  cases hchunks : xorbChunks codec body with
  | ok chunks =>
      rw [decompressXorbChunksOnto_of_chunks [] hchunks, List.nil_append]
      rfl
  | error e =>
      have hresult : (decompressXorbChunksOnto codec body []).2 = .error e := by
        unfold xorbChunks at hchunks
        unfold decompressXorbChunksOnto
        cases hparse : parseXorbFrames body with
        | error e' =>
            rw [hparse] at hchunks
            exact congrArg Except.error (Except.error.inj hchunks)
        | ok frames =>
            rw [hparse] at hchunks
            simp only [Except.mapError, bind, Except.bind] at hchunks
            simp only [extendChunks_result, hchunks]
            rfl
      rw [hresult]
      rfl

/-! ## Where frames lie -/

/-- The frames lie one after the other from the front of the body on, and `u32` holds where. -/
structure PrefixTiling (body : List UInt8) (frames : List XorbChunkFrame) : Prop where
  starts : ∀ i f, frames[i]? = some f → f.onDiskStart.toNat = framesBytes (frames.take i)
  headers : ∀ f ∈ frames, headerLen ≤ f.onDiskLen.toNat
  ends : ∀ f ∈ frames, f.onDiskStart.toNat + f.onDiskLen.toNat ≤ body.length
  small : body.length ≤ u32Max

theorem prefixTiling_of_parse {body : List UInt8} {frames : List XorbChunkFrame}
    (hparse : parseXorbFrames body = .ok frames) : PrefixTiling body frames := by
  obtain ⟨-, -, hmax⟩ := parseXorbFrames_length hparse
  obtain ⟨q, htiles, -, -⟩ := parseXorbFrames_tiles hparse
  have hat : ∀ i f, frames[i]? = some f → FrameAt body (framesBytes (frames.take i)) f := by
    intro i f hf
    obtain ⟨hi, rfl⟩ := List.getElem?_eq_some_iff.1 hf
    have hat := htiles.frameAt hi
    rwa [Nat.zero_add] at hat
  have hmem : ∀ f ∈ frames, ∃ pos, FrameAt body pos f := by
    intro f hf
    obtain ⟨i, hi⟩ := List.getElem?_of_mem hf
    exact ⟨_, hat i f hi⟩
  refine ⟨fun i f hf => (hat i f hf).start, fun f hf => ?_, fun f hf => ?_, hmax⟩
  · obtain ⟨pos, hpos⟩ := hmem f hf
    exact hpos.headerLen_le
  · obtain ⟨pos, hpos⟩ := hmem f hf
    rw [hpos.start]
    exact hpos.fits

theorem PrefixTiling.stop {body : List UInt8} {frames : List XorbChunkFrame}
    (h : PrefixTiling body frames) {e : Nat} {last : XorbChunkFrame} (he : 0 < e)
    (hlast : frames[e - 1]? = some last) :
    last.onDiskStart.toNat + last.onDiskLen.toNat = framesBytes (frames.take e) := by
  obtain ⟨hi, hget⟩ := List.getElem?_eq_some_iff.1 hlast
  have hsucc := framesBytes_take_succ hi
  rw [Nat.sub_add_cancel he, List.get_eq_getElem, hget] at hsucc
  rw [h.starts _ _ hlast, hsucc]

/-! ## Reading a slice -/

/-- What the readers make of the bytes of the frames from `s` to before `e`. -/
structure SliceReads (codec : Codec) (frames : List XorbChunkFrame) (chunks : List (List UInt8))
    (s e base : Nat) (slice : List UInt8) : Prop where
  shifts : ∀ f ∈ (frames.take e).drop s,
    (f.shift base).onDiskStart.toNat + base = f.onDiskStart.toNat
  parses : parseXorbFrames slice = .ok (((frames.take e).drop s).map (XorbChunkFrame.shift base))
  appends : ∀ out, decompressXorbChunksOnto codec slice out =
    (out ++ ((chunks.take e).drop s).flatten, .ok ())
  length : ((chunks.take e).drop s).flatten.length =
    (((frames.take e).drop s).map (fun f => f.uncompressedLen.toNat)).sum

theorem chunk_lengths {codec : Codec} {body : List UInt8} {frames : List XorbChunkFrame}
    {chunks : List (List UInt8)} (hparse : parseXorbFrames body = .ok frames)
    (hchunks : xorbChunks codec body = .ok chunks) :
    chunks.map List.length = frames.map (fun f => f.uncompressedLen.toNat) := by
  unfold xorbChunks at hchunks
  rw [hparse] at hchunks
  change frames.zipIdx.mapM (fun fi => frameChunk codec body fi.2 fi.1) = _ at hchunks
  rw [Results.mapM_eq_ok, List.forall₂_iff_get] at hchunks
  refine List.ext_getElem (by simp [← hchunks.1]) (fun i hi hi' => ?_)
  rw [List.length_map] at hi hi'
  have hone := frameChunk_length (hchunks.2 i (by simpa using hi') hi)
  simpa using hone

/-- **The bytes of a run of frames are a body of these frames, with these chunks.** -/
theorem sliceReads_of_parse {codec : Codec} {body : List UInt8} {frames : List XorbChunkFrame}
    {chunks : List (List UInt8)} (hparse : parseXorbFrames body = .ok frames)
    (hchunks : xorbChunks codec body = .ok chunks) {s e : Nat} {first last : XorbChunkFrame}
    (hse : s < e) (hfirst : frames[s]? = some first) (hlast : frames[e - 1]? = some last) :
    SliceReads codec frames chunks s e first.onDiskStart.toNat (subSlice body first last) := by
  have htiling := prefixTiling_of_parse hparse
  obtain ⟨hi, -⟩ := List.getElem?_eq_some_iff.1 hlast
  have he : e ≤ frames.length := by omega
  obtain ⟨q, htiles, -, hq⟩ := parseXorbFrames_tiles hparse
  have hbetween := htiles.between (Nat.le_of_lt hse)
  have hstop : framesBytes (frames.take e) ≤ body.length := by
    rw [← htiling.stop (Nat.lt_of_le_of_lt (Nat.zero_le s) hse) hlast]
    exact htiling.ends last (List.mem_of_getElem? hlast)
  have hne : (frames.take e).drop s ≠ [] := by
    rw [ne_eq, List.drop_eq_nil_iff, List.length_take, Nat.min_eq_left he]
    omega
  have hslice : subSlice body first last =
      (body.take (framesBytes (frames.take e))).drop (framesBytes (frames.take s)) := by
    unfold subSlice
    rw [htiling.stop (Nat.lt_of_le_of_lt (Nat.zero_le s) hse) hlast, htiling.starts s first hfirst]
  rw [hslice, htiling.starts s first hfirst]
  refine ⟨fun f hf => ?_, parseXorbFrames_slice htiling.small hne hbetween hstop,
    fun out => decompressXorbChunksOnto_of_chunks out (xorbChunks_slice hparse hchunks hse he), ?_⟩
  · obtain ⟨i, hi⟩ := List.getElem?_of_mem hf
    rw [List.getElem?_drop, List.getElem?_take] at hi
    split_ifs at hi with hlt
    have hstart := htiling.starts _ f hi
    have hfits := htiling.ends f (List.mem_of_getElem? hi)
    have hsmall := htiling.small
    unfold u32Max at hsmall
    have hle : framesBytes (frames.take s) ≤ framesBytes (frames.take (s + i)) := by
      have hsplit := framesBytes_append ((frames.take (s + i)).take s) ((frames.take (s + i)).drop s)
      rw [List.take_append_drop, List.take_take, Nat.min_eq_left (Nat.le_add_right s i)] at hsplit
      omega
    simp only [XorbChunkFrame.shift, UInt32.toNat_ofNat']
    rw [Nat.mod_eq_of_lt (by omega)]
    omega
  · rw [List.length_flatten, List.map_drop, List.map_take, chunk_lengths hparse hchunks,
      ← List.map_take, ← List.map_drop]

/-! ## The ranges of a term -/

/-- What both read paths do for a term whose xorb has this body and layout: the inclusive range of the
    response and the half-open range of the download are the same bytes, and a term beyond the frames
    is refused by both. -/
structure TermReads (svc : Service) (st : ServerState) (xorbs : List XorbHash) (body : List UInt8)
    (frames : List XorbChunkFrame) (chunks : List (List UInt8)) (t : FileTerm) : Prop where
  refused : ¬ InFrames (frameLayout frames) t →
    reconstructTerm (st.db.xorbFrameLayouts xorbs) t = .error badTermRange ∧
      fetchAndDecompressTerm svc st t = .error badTermRange
  served : InFrames (frameLayout frames) t → ∃ first last range,
    frames[t.chunkIdxStart.toNat]? = some first ∧ frames[t.chunkIdxEnd.toNat - 1]? = some last ∧
    reconstructTerm (st.db.xorbFrameLayouts xorbs) t =
      .ok (wireTerm t, t.xorb, ⟨termRange t, range⟩) ∧
    range.start ≤ range.stop ∧ range.stop < body.length ∧
    inclusiveSlice body range = subSlice body first last ∧
    st.getXorbRange t.xorb range.start (range.stop + 1) = .ok (subSlice body first last) ∧
    fetchAndDecompressTerm svc st t =
      if t.unpackedSegmentBytes.toNat > maxTermUnpackedBytes then
        .error ⟨500, "term unpacked size exceeds per-term cap"⟩
      else .ok ((chunks.take t.chunkIdxEnd.toNat).drop t.chunkIdxStart.toNat).flatten

theorem termReads_of_parse {svc : Service} {st : ServerState} {xorbs : List XorbHash}
    {body : List UInt8} {frames : List XorbChunkFrame} {chunks : List (List UInt8)} {t : FileTerm}
    (hparse : parseXorbFrames body = .ok frames) (hchunks : xorbChunks svc.codec body = .ok chunks)
    (hxorb : t.xorb ∈ xorbs) (hblob : st.blobs t.xorb = some body)
    (hlayout : st.db.xorbFrameLayout t.xorb = frameLayout frames) :
    TermReads svc st xorbs body frames chunks t := by
  obtain ⟨hne, -, -⟩ := parseXorbFrames_length hparse
  have hlayoutNe : frameLayout frames ≠ [] := by
    rw [← List.length_pos_iff, frameLayout_length]
    exact List.length_pos_iff.2 hne
  have hlayouts : st.db.xorbFrameLayouts xorbs t.xorb = some (frameLayout frames) := by
    unfold Db.xorbFrameLayouts
    rw [hlayout, if_pos ⟨hxorb, hlayoutNe⟩]
  have hempty : (frameLayout frames).isEmpty = false := by simpa using hlayoutNe
  constructor
  · intro hout
    have hrange : termByteRange (frameLayout frames) t = .error badTermRange := by
      unfold termByteRange
      rw [dif_neg hout]
    unfold reconstructTerm fetchAndDecompressTerm
    simp only [hlayouts, hlayout, hempty, hrange]
    exact ⟨rfl, rfl⟩
  · intro hin
    have hlt := UInt32.lt_iff_toNat_lt.1 hin.1
    have hle := hin.2
    rw [frameLayout_length] at hle
    have htiling := prefixTiling_of_parse hparse
    have hfirst : frames[t.chunkIdxStart.toNat]? =
        some (frames.get ⟨t.chunkIdxStart.toNat, by omega⟩) := List.getElem?_eq_getElem _
    have hlast : frames[t.chunkIdxEnd.toNat - 1]? =
        some (frames.get ⟨t.chunkIdxEnd.toNat - 1, by omega⟩) := List.getElem?_eq_getElem _
    generalize frames.get _ = first at hfirst
    generalize frames.get _ = last at hlast
    have hread := sliceReads_of_parse hparse hchunks hlt hfirst hlast
    have hrange := termByteRange_frameLayout hparse hin
    have hstart := htiling.starts _ first hfirst
    have hstop := htiling.stop (by omega) hlast
    have hheader := htiling.headers last (List.mem_of_getElem? hlast)
    have hends := htiling.ends last (List.mem_of_getElem? hlast)
    have hbefore : first.onDiskStart.toNat ≤ last.onDiskStart.toNat := by
      rw [hstart, htiling.starts _ last hlast]
      have hsplit := framesBytes_append
        ((frames.take (t.chunkIdxEnd.toNat - 1)).take t.chunkIdxStart.toNat)
        ((frames.take (t.chunkIdxEnd.toNat - 1)).drop t.chunkIdxStart.toNat)
      rw [List.take_append_drop, List.take_take, Nat.min_eq_left (by omega)] at hsplit
      omega
    unfold headerLen at hheader
    rw [← hstart, ← hstop] at hrange
    have hstopSucc : last.onDiskStart.toNat + last.onDiskLen.toNat - 1 + 1 =
        last.onDiskStart.toNat + last.onDiskLen.toNat := by omega
    have hget : st.getXorbRange t.xorb first.onDiskStart.toNat
        (last.onDiskStart.toNat + last.onDiskLen.toNat) = .ok (subSlice body first last) := by
      unfold ServerState.getXorbRange
      rw [if_neg (by omega)]
      simp only [hblob]
      rw [if_neg (by omega)]
      rfl
    refine ⟨first, last, ⟨first.onDiskStart.toNat,
      last.onDiskStart.toNat + last.onDiskLen.toNat - 1⟩, hfirst, hlast, ?_, by simp only; omega,
      by simp only; omega, ?_, ?_, ?_⟩
    · unfold reconstructTerm
      simp only [hlayouts, hrange]
      rfl
    · unfold inclusiveSlice subSlice
      rw [hstopSucc]
    · rw [hstopSucc]
      exact hget
    · have hbytes : decompressXorbChunksInto svc.codec (subSlice body first last) =
          .ok ((chunks.take t.chunkIdxEnd.toNat).drop t.chunkIdxStart.toNat).flatten := by
        have hslice := xorbChunks_slice hparse hchunks hlt hle
        rw [← hstart, ← hstop] at hslice
        rw [decompressXorbChunksInto_eq]
        unfold subSlice
        rw [hslice]
        rfl
      unfold fetchAndDecompressTerm
      simp only [hlayout, hempty, hrange, bind, Except.bind, hget, Except.mapError, hbytes]
      rfl

/-- **The slices of a verified body hold the chunks of their frames, and both read paths name the same
    slice for a term.** -/
theorem xorb_slices (codec : Codec) (body : List UInt8) (x : XorbHash)
    (hverify : verifyXorbBody codec body x = .ok ()) :
    ∃ frames chunks, parseXorbFrames body = .ok frames ∧ xorbChunks codec body = .ok chunks ∧
      PrefixTiling body frames ∧
      (∀ s e first last, s < e → frames[s]? = some first → frames[e - 1]? = some last →
        SliceReads codec frames chunks s e first.onDiskStart.toNat (subSlice body first last)) ∧
      ∀ (svc : Service) (st : ServerState) (xorbs : List XorbHash) (t : FileTerm),
        svc.codec = codec → t.xorb ∈ xorbs → st.blobs t.xorb = some body →
        st.db.xorbFrameLayout t.xorb = frameLayout frames →
        TermReads svc st xorbs body frames chunks t := by
  obtain ⟨frames, chunks, hparse, hchunks⟩ := xorbChunks_of_verify hverify
  refine ⟨frames, chunks, hparse, hchunks, prefixTiling_of_parse hparse,
    fun s e first last hse hfirst hlast => sliceReads_of_parse hparse hchunks hse hfirst hlast, ?_⟩
  rintro svc st xorbs t rfl hxorb hblob hlayout
  exact termReads_of_parse hparse hchunks hxorb hblob hlayout

namespace Sample

/-- Two chunks of one byte each, and a trailer. -/
def pairBody : List UInt8 := [0, 1, 0, 0, 0, 1, 0, 0, 0x61, 0, 1, 0, 0, 0, 1, 0, 0, 0x62, 0x58]

end Sample

theorem xorb_slices_pair : ∃ frames second,
    parseXorbFrames Sample.pairBody = .ok frames ∧ frames[1]? = some second ∧
    subSlice Sample.pairBody second second = [0, 1, 0, 0, 0, 1, 0, 0, 0x62] ∧
    parseXorbFrames (subSlice Sample.pairBody second second) = .ok [⟨0, 9, 1, 0⟩] ∧
    ∀ out, decompressXorbChunksOnto Sample.codec (subSlice Sample.pairBody second second) out =
      (out ++ [0x62], .ok ()) := by
  obtain ⟨frames, chunks, hparse, hchunks, -, hslices, -⟩ :=
    xorb_slices Sample.codec Sample.pairBody (Sample.hash32 0x61) rfl
  obtain rfl : [⟨0, 9, 1, 0⟩, ⟨9, 9, 1, 0⟩] = frames := Except.ok.inj hparse
  obtain rfl : [[0x61], [0x62]] = chunks := Except.ok.inj hchunks
  have hread := hslices 1 2 ⟨9, 9, 1, 0⟩ ⟨9, 9, 1, 0⟩ (by decide) rfl rfl
  exact ⟨_, ⟨9, 9, 1, 0⟩, hparse, rfl, rfl, hread.parses, hread.appends⟩

end BaleForGit.Server
