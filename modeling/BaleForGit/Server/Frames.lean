import Mathlib.Algebra.Ring.Nat
import BaleForGit.Server.Xorb

set_option autoImplicit false

/-! # Frames of a body and of its slices

The frames of a parsed body tile a prefix of it: each starts where the one before ends. So the bytes
from the start of one frame to the end of another are a body of their own, whose frames are those in
between, and a chunk decompresses to the same bytes wherever its frame lies. -/

namespace BaleForGit.Server

/-- A frame of `body` that starts at `pos`, as its header says. -/
structure FrameAt (body : List UInt8) (pos : Nat) (f : XorbChunkFrame) : Prop where
  version : ((body.drop pos).take headerLen).getD 0 0 = 0
  scheme : f.compressionScheme = ((body.drop pos).take headerLen).getD 4 0
  known : ¬ 2 < f.compressionScheme
  start : f.onDiskStart.toNat = pos
  length : f.onDiskLen.toNat = headerLen + (u24Le ((body.drop pos).take headerLen) 1).toNat
  unpacked : f.uncompressedLen = u24Le ((body.drop pos).take headerLen) 5
  fits : pos + f.onDiskLen.toNat ≤ body.length

/-- `frames` are the frames of `body` from `p` to `q`. -/
def Tiles (body : List UInt8) : Nat → List XorbChunkFrame → Nat → Prop
  | p, [], q => p = q
  | p, f :: fs, q => FrameAt body p f ∧ Tiles body (p + f.onDiskLen.toNat) fs q

/-- No frame starts at `q`: the body ends, or a trailer begins. -/
def FramesEnd (body : List UInt8) (q : Nat) : Prop :=
  q + headerLen ≤ body.length → ((body.drop q).take headerLen).getD 0 0 ≠ 0

/-- The bytes that frames take. -/
def framesBytes (frames : List XorbChunkFrame) : Nat :=
  (frames.map (fun f => f.onDiskLen.toNat)).sum

/-! ## Tilings -/

theorem FrameAt.headerLen_le {body : List UInt8} {pos : Nat} {f : XorbChunkFrame}
    (h : FrameAt body pos f) : headerLen ≤ f.onDiskLen.toNat := by
  rw [h.length]
  exact Nat.le_add_right _ _

theorem Tiles.stop_eq {body : List UInt8} {p q : Nat} {fs : List XorbChunkFrame}
    (h : Tiles body p fs q) : q = p + framesBytes fs := by
  induction fs generalizing p with
  | nil => exact (Nat.add_zero p).symm ▸ Eq.symm h
  | cons f fs ih =>
      rw [ih h.2]
      simp only [framesBytes, List.map_cons, List.sum_cons]
      omega

theorem Tiles.le_length {body : List UInt8} {p q : Nat} {fs : List XorbChunkFrame}
    (h : Tiles body p fs q) (hp : p ≤ body.length) : q ≤ body.length := by
  induction fs generalizing p with
  | nil =>
      rw [← show p = q from h]
      exact hp
  | cons f fs ih => exact ih h.2 h.1.fits

theorem tiles_append {body : List UInt8} {p q : Nat} {fs gs : List XorbChunkFrame} :
    Tiles body p (fs ++ gs) q ↔ Tiles body p fs (p + framesBytes fs) ∧
      Tiles body (p + framesBytes fs) gs q := by
  induction fs generalizing p with
  | nil => simp [Tiles, framesBytes]
  | cons f fs ih =>
      have hbytes : p + framesBytes (f :: fs) = p + f.onDiskLen.toNat + framesBytes fs := by
        simp only [framesBytes, List.map_cons, List.sum_cons]
        omega
      rw [List.cons_append, Tiles, Tiles, ih, hbytes]
      exact and_assoc.symm

/-- Where a frame of a tiling starts. -/
theorem Tiles.frameAt {body : List UInt8} {p q : Nat} {fs : List XorbChunkFrame}
    (h : Tiles body p fs q) {i : Nat} (hi : i < fs.length) :
    FrameAt body (p + framesBytes (fs.take i)) (fs.get ⟨i, hi⟩) := by
  have hsplit : fs = fs.take i ++ fs.get ⟨i, hi⟩ :: fs.drop (i + 1) := by
    rw [List.get_eq_getElem, ← List.drop_eq_getElem_cons hi, List.take_append_drop]
  rw [hsplit, tiles_append] at h
  exact h.2.1

/-! ## Parsing -/

/-- **A parsed body is tiled by its frames**, up to where no frame starts. -/
theorem parseFrames_tiles {body : List UInt8} (hmax : body.length ≤ u32Max) {rounds pos : Nat}
    {acc frames : List XorbChunkFrame} (hpos : pos ≤ body.length) (hrounds : body.length ≤ rounds + pos)
    (h : parseFrames body rounds pos acc = .ok frames) :
    ∃ more q, frames = acc ++ more ∧ Tiles body pos more q ∧ FramesEnd body q := by
  induction rounds generalizing pos acc with
  | zero =>
      simp only [parseFrames, Except.ok.injEq] at h
      refine ⟨[], pos, by rw [List.append_nil, h], rfl, fun hfit => ?_⟩
      unfold headerLen at hfit
      omega
  | succ rounds ih =>
      simp only [parseFrames] at h
      split_ifs at h with hfit hfoot hscheme hlen
      · exact ⟨[], pos, by rw [List.append_nil, Except.ok.inj h], rfl, fun _ => hfoot⟩
      · unfold u32Max at hmax
        have hbig : ∀ n, n ≤ body.length → (UInt32.ofNat n).toNat = n := by
          intro n hn
          rw [UInt32.toNat_ofNat', Nat.mod_eq_of_lt]
          omega
        have hstart := hbig pos hpos
        have hlength := hbig (headerLen + (u24Le ((body.drop pos).take headerLen) 1).toNat)
          (by omega)
        obtain ⟨more, q, hframes, htiles, hend⟩ := ih (by omega) (by unfold headerLen; omega) h
        refine ⟨_ :: more, q, by rw [hframes, List.append_assoc, List.singleton_append], ⟨?_, ?_⟩,
          hend⟩
        · exact ⟨not_not.1 hfoot, rfl, hscheme, hstart, hlength, rfl, by
            simp only [hlength]
            omega⟩
        · simp only [hlength]
          exact htiles
      · refine ⟨[], pos, by rw [List.append_nil, Except.ok.inj h], rfl, fun hfit' => ?_⟩
        exact absurd hfit' hfit

/-- **A tiled body is parsed into its frames.** -/
theorem parseFrames_of_tiles {body : List UInt8} {rounds pos q : Nat}
    {acc more : List XorbChunkFrame} (htiles : Tiles body pos more q) (hend : FramesEnd body q)
    (hrounds : more.length ≤ rounds) :
    parseFrames body rounds pos acc = .ok (acc ++ more) := by
  induction rounds generalizing pos acc more with
  | zero =>
      rw [List.length_eq_zero_iff.1 (Nat.le_zero.1 hrounds), List.append_nil]
      rfl
  | succ rounds ih =>
      cases more with
      | nil =>
          obtain rfl : pos = q := htiles
          simp only [parseFrames, List.append_nil]
          split_ifs with hfit hfoot
          · rfl
          · exact absurd (not_not.1 hfoot) (hend hfit)
          · exact absurd (not_not.1 hfoot) (hend hfit)
          · exact absurd (not_not.1 hfoot) (hend hfit)
          · rfl
      | cons f more =>
          obtain ⟨hat, hrest⟩ := htiles
          have hfits := hat.fits
          have hlen := hat.length
          have hknown := hat.known
          rw [hat.scheme] at hknown
          simp only [parseFrames]
          rw [if_pos (by omega), if_neg (not_not.2 hat.version), if_neg hknown, if_neg (by omega)]
          have hf : (⟨UInt32.ofNat pos,
              UInt32.ofNat (headerLen + (u24Le ((body.drop pos).take headerLen) 1).toNat),
              u24Le ((body.drop pos).take headerLen) 5,
              ((body.drop pos).take headerLen).getD 4 0⟩ : XorbChunkFrame) = f := by
            rw [← hlen, ← hat.unpacked, ← hat.scheme, ← hat.start, UInt32.ofNat_toNat,
              UInt32.ofNat_toNat]
          rw [hf, ← hlen, ih hrest (Nat.le_of_succ_le_succ hrounds), List.append_assoc,
            List.singleton_append]

/-- **What the parser accepts**: the frames tile the body up to where none starts. -/
theorem parseXorbFrames_tiles {body : List UInt8} {frames : List XorbChunkFrame}
    (h : parseXorbFrames body = .ok frames) :
    ∃ q, Tiles body 0 frames q ∧ FramesEnd body q ∧ q ≤ body.length := by
  obtain ⟨-, hp, hmax⟩ := parseXorbFrames_eq_ok h
  obtain ⟨more, q, hframes, htiles, hend⟩ := parseFrames_tiles hmax (Nat.zero_le _)
    (Nat.le_refl _) hp
  rw [List.nil_append] at hframes
  rw [hframes]
  exact ⟨q, htiles, hend, htiles.le_length (Nat.zero_le _)⟩

theorem framesBytes_ge {body : List UInt8} {p q : Nat} {fs : List XorbChunkFrame}
    (h : Tiles body p fs q) : fs.length * headerLen ≤ framesBytes fs := by
  induction fs generalizing p with
  | nil => simp [framesBytes]
  | cons f fs ih =>
      have hrest := ih h.2
      have hfirst := h.1.headerLen_le
      simp only [framesBytes, List.map_cons, List.sum_cons, List.length_cons] at hrest ⊢
      rw [Nat.add_mul]
      omega

/-! ## Slices -/

/-- The frame as it lies in what follows the first `base` bytes. -/
def XorbChunkFrame.shift (base : Nat) (f : XorbChunkFrame) : XorbChunkFrame :=
  { f with onDiskStart := UInt32.ofNat (f.onDiskStart.toNat - base) }

theorem FrameAt.slice {body : List UInt8} (hmax : body.length ≤ u32Max) {pos lo hi : Nat}
    {f : XorbChunkFrame} (h : FrameAt body pos f) (hlo : lo ≤ pos)
    (hhi : pos + f.onDiskLen.toNat ≤ hi) :
    FrameAt ((body.take hi).drop lo) (pos - lo) (f.shift lo) := by
  have hle := h.headerLen_le
  have hfits := h.fits
  have hheader : (((body.take hi).drop lo).drop (pos - lo)).take headerLen =
      (body.drop pos).take headerLen := by
    rw [List.drop_drop, Nat.add_sub_cancel' hlo, List.drop_take, List.take_take,
      Nat.min_eq_left (by omega)]
  refine ⟨?_, ?_, h.known, ?_, ?_, ?_, ?_⟩
  · rw [hheader]
    exact h.version
  · rw [hheader]
    exact h.scheme
  · simp only [XorbChunkFrame.shift, h.start, UInt32.toNat_ofNat']
    unfold u32Max at hmax
    rw [Nat.mod_eq_of_lt]
    omega
  · rw [hheader]
    exact h.length
  · rw [hheader]
    exact h.unpacked
  · simp only [XorbChunkFrame.shift, List.length_drop, List.length_take]
    omega

theorem Tiles.slice {body : List UInt8} (hmax : body.length ≤ u32Max) {p q lo hi : Nat}
    {fs : List XorbChunkFrame} (h : Tiles body p fs q) (hlo : lo ≤ p) (hhi : q ≤ hi) :
    Tiles ((body.take hi).drop lo) (p - lo) (fs.map (XorbChunkFrame.shift lo)) (q - lo) := by
  induction fs generalizing p with
  | nil =>
      obtain rfl : p = q := h
      rfl
  | cons f fs ih =>
      have hstop := h.2.stop_eq
      refine ⟨h.1.slice hmax hlo (by omega), ?_⟩
      have hnext : p - lo + (f.shift lo).onDiskLen.toNat = p + f.onDiskLen.toNat - lo := by
        simp only [XorbChunkFrame.shift]
        omega
      rw [hnext]
      exact ih h.2 (by omega)

/-- **The bytes of a run of frames parse into these frames.** -/
theorem parseXorbFrames_slice {body : List UInt8} (hmax : body.length ≤ u32Max) {lo hi : Nat}
    {fs : List XorbChunkFrame} (hne : fs ≠ []) (h : Tiles body lo fs hi) (hhi : hi ≤ body.length) :
    parseXorbFrames ((body.take hi).drop lo) = .ok (fs.map (XorbChunkFrame.shift lo)) := by
  have htiles := h.slice hmax (Nat.le_refl lo) (Nat.le_refl hi)
  rw [Nat.sub_self] at htiles
  have hlen : ((body.take hi).drop lo).length = hi - lo := by
    rw [List.length_drop, List.length_take, Nat.min_eq_left hhi]
  have hend : FramesEnd ((body.take hi).drop lo) (hi - lo) := by
    intro hfit
    rw [hlen] at hfit
    unfold headerLen at hfit
    omega
  have hcount := framesBytes_ge htiles
  have hstop := htiles.stop_eq
  unfold headerLen at hcount
  rw [List.length_map] at hcount
  unfold parseXorbFrames
  rw [if_neg (by rw [hlen]; omega), parseFrames_of_tiles htiles hend (by
    rw [List.length_map, hlen]
    omega)]
  simp [hne]

/-- **A chunk decompresses to the same bytes in a slice.** -/
theorem frameChunk_slice (codec : Codec) {body : List UInt8} (hmax : body.length ≤ u32Max)
    {pos lo hi : Nat} {f : XorbChunkFrame} (h : FrameAt body pos f) (hlo : lo ≤ pos)
    (hhi : pos + f.onDiskLen.toNat ≤ hi) {i j : Nat} {chunk : List UInt8}
    (hchunk : frameChunk codec body i f = .ok chunk) :
    frameChunk codec ((body.take hi).drop lo) j (f.shift lo) = .ok chunk := by
  have hshift := h.slice hmax hlo hhi
  have hpayload : (((body.take hi).drop lo).take
        ((f.shift lo).onDiskStart.toNat + (f.shift lo).onDiskLen.toNat)).drop
          ((f.shift lo).onDiskStart.toNat + headerLen) =
      (body.take (f.onDiskStart.toNat + f.onDiskLen.toNat)).drop
        (f.onDiskStart.toNat + headerLen) := by
    have hlen : (f.shift lo).onDiskLen.toNat = f.onDiskLen.toNat := rfl
    rw [hshift.start, h.start, hlen, List.take_drop, List.drop_drop, List.take_take]
    congr 1
    · omega
    · congr 1
      omega
  -- the index of a frame only shows in error messages
  have hscheme : ∀ k l, schemeOf k f.compressionScheme = schemeOf l f.compressionScheme ∨
      2 < f.compressionScheme := by
    intro k l
    unfold schemeOf
    split <;> first | exact Or.inl rfl | skip
    rename_i hne0 hne1 hne2
    right
    have h0 : f.compressionScheme.toNat ≠ 0 := fun he => hne0 (UInt8.toNat_inj.1 he)
    have h1 : f.compressionScheme.toNat ≠ 1 := fun he => hne1 (UInt8.toNat_inj.1 he)
    have h2 : f.compressionScheme.toNat ≠ 2 := fun he => hne2 (UInt8.toNat_inj.1 he)
    rw [UInt8.lt_iff_toNat_lt]
    show 2 < f.compressionScheme.toNat
    omega
  unfold frameChunk at hchunk ⊢
  simp only [hpayload]
  rcases hscheme i j with hsame | hbig
  · have hsame' : schemeOf j (f.shift lo).compressionScheme = schemeOf i f.compressionScheme :=
      hsame.symm
    rw [hsame']
    have hunp : (f.shift lo).uncompressedLen = f.uncompressedLen := rfl
    rw [hunp]
    cases hs : schemeOf i f.compressionScheme with
    | error e => simp [hs, bind, Except.bind] at hchunk
    | ok scheme =>
        simp only [hs, bind, Except.bind] at hchunk ⊢
        split at hchunk
        · simp at hchunk
        · split_ifs at hchunk ⊢ with hlen
          exact hchunk
  · exact absurd hbig h.known

end BaleForGit.Server
