import BaleForGit.Server.Shard

set_option autoImplicit false

/-! # Writing shards (`serialize`), and reading them back

`serialize` writes the header, the files and their bookend, the CAS blocks and their bookend, and
the footer, if the shard has one, with the offsets of what it has just written. `parse` is a
separate loop over the same layout.

`Stands buf p bytes` says what the buffer holds at a position, and `Decodes x bytes a` that the reader
`x` turns these bytes into `a` wherever they stand. Readers compose as the bytes do
(`Decodes.bind`), so there is one such lemma for each part of the format. In the other direction
every reader takes exactly the bytes that the writer would write for its result, and what is
parsed is well formed (`parse_shardWf`). -/

namespace BaleForGit.Server

/-! ## The writer -/

/-- The `width` little-endian bytes of a number. -/
def leBytes : Nat → Nat → List UInt8
  | 0, _ => []
  | width + 1, n => UInt8.ofNat n :: leBytes width (n / 256)

/-- `u32::to_le_bytes`. -/
def le32 (n : UInt32) : List UInt8 := leBytes 4 n.toNat

/-- `u64::to_le_bytes`. -/
def le64 (n : UInt64) : List UInt8 := leBytes 8 n.toNat

def zeros (n : Nat) : List UInt8 := List.replicate n 0

/-- `0xFF * 32`, then `0x00 * 16`. -/
def bookend : List UInt8 := List.replicate 32 0xff ++ zeros 16

def serializeTermEntry (e : FileTermEntry) : List UInt8 :=
  e.xorb.bytes ++ le32 e.casFlags ++ le32 e.unpackedSegmentBytes ++ le32 e.chunkIdxStart ++
    le32 e.chunkIdxEnd

def serializeVerification (v : Hash32) : List UInt8 := v.bytes ++ zeros 16

/-- A file of the file-info section; a flag without its sha256 is written as zeros. -/
def serializeFile (f : ParsedFile) : List UInt8 :=
  f.fileHash.bytes ++ le32 f.fileFlags ++ le32 (UInt32.ofNat f.entries.length) ++ zeros 8 ++
    f.entries.flatMap serializeTermEntry ++
    (if f.fileFlags &&& flagWithVerification ≠ 0 then
      f.verifications.flatMap serializeVerification else []) ++
    (if f.fileFlags &&& flagWithMetadataExt ≠ 0 then
      (swapU64Groups (f.sha256.getD (Cursor.hashOf []))).bytes ++ zeros 16 else [])

def serializeChunkEntry (c : CasChunkEntry) : List UInt8 :=
  c.chunkHash.bytes ++ le32 c.byteStart ++ le32 c.unpackedSegmentBytes ++ zeros 8

def serializeCasBlock (cb : ParsedCasBlock) : List UInt8 :=
  cb.xorb.bytes ++ le32 cb.casFlags ++ le32 (UInt32.ofNat cb.chunks.length) ++
    le32 cb.numBytesInCas ++ le32 cb.numBytesOnDisk ++ cb.chunks.flatMap serializeChunkEntry

def serializeHeader (h : ShardHeader) : List UInt8 := h.tag ++ le64 h.version ++ le64 h.footerSize

/-- The file-info section, with its bookend. -/
def fileSection (s : ParsedShard) : List UInt8 := s.files.flatMap serializeFile ++ bookend

/-- The CAS-info section, with its bookend. -/
def casSection (s : ParsedShard) : List UInt8 := s.casBlocks.flatMap serializeCasBlock ++ bookend

/-- The footer, for sections at these offsets: the lookup tables are absent, and their offsets point
    at the end of the sections. -/
def serializeFooter (ft : ShardFooter) (fileInfoOffset casInfoOffset footerOffset : UInt64) :
    List UInt8 :=
  le64 ft.version ++ le64 fileInfoOffset ++ le64 casInfoOffset ++
    [footerOffset, 0, footerOffset, 0, footerOffset, 0].flatMap le64 ++
    ft.chunkHashHmacKey.bytes ++ le64 ft.shardCreationTimestamp ++ le64 ft.shardKeyExpiry ++
    zeros 72 ++ le64 footerOffset

/-- `out.len() as u64` before the file-info section, before the CAS-info section and after it. -/
def fileInfoOffset (s : ParsedShard) : UInt64 := UInt64.ofNat (serializeHeader s.header).length
def casInfoOffset (s : ParsedShard) : UInt64 :=
  UInt64.ofNat (serializeHeader s.header ++ fileSection s).length
def footerOffset (s : ParsedShard) : UInt64 :=
  UInt64.ofNat (serializeHeader s.header ++ fileSection s ++ casSection s).length

/-- `serialize`. -/
def serialize (s : ParsedShard) : List UInt8 :=
  serializeHeader s.header ++ fileSection s ++ casSection s ++
    match s.footer with
    | none => []
    | some ft => serializeFooter ft (fileInfoOffset s) (casInfoOffset s) (footerOffset s)

/-- The shard whose footer has the offsets that `serialize` writes. -/
def ParsedShard.withOffsets (s : ParsedShard) : ParsedShard :=
  { s with footer := s.footer.map (fun ft => { ft with
      fileInfoOffset := fileInfoOffset s
      casInfoOffset := casInfoOffset s
      footerOffset := footerOffset s }) }

/-! ## Bytes at a position -/

/-- The buffer holds `bytes` from position `p` on. -/
def Stands (buf : List UInt8) (p : Nat) (bytes : List UInt8) : Prop := bytes <+: buf.drop p

/-- Wherever `bytes` stand, `x` reads them, and reads `a`. -/
def Decodes {α : Type} (x : Cursor α) (bytes : List UInt8) (a : α) : Prop :=
  ∀ buf p, Stands buf p bytes → x buf p = .ok (a, p + bytes.length)

theorem Stands.length_le {buf bytes : List UInt8} {p : Nat} (h : Stands buf p bytes) :
    bytes.length ≤ buf.length - p := by
  have hle := List.IsPrefix.length_le h
  rwa [List.length_drop] at hle

theorem stands_append {buf as bs : List UInt8} {p : Nat} :
    Stands buf p (as ++ bs) ↔ Stands buf p as ∧ Stands buf (p + as.length) bs := by
  unfold Stands
  constructor
  · rintro ⟨rest, hrest⟩
    refine ⟨⟨bs ++ rest, by rw [← hrest, List.append_assoc]⟩, rest, ?_⟩
    rw [← List.drop_drop, ← hrest, List.append_assoc, List.drop_left]
  · rintro ⟨⟨rest, hrest⟩, rest', hrest'⟩
    refine ⟨rest', ?_⟩
    rw [← List.drop_drop, ← hrest, List.drop_left] at hrest'
    rw [List.append_assoc, hrest', hrest]

theorem Cursor.bind_ok {α β : Type} {x : Cursor α} {f : α → Cursor β} {buf : List UInt8}
    {p q : Nat} {a : α} (h : x buf p = .ok (a, q)) : (x >>= f) buf p = f a buf q := by
  simp only [bind, h]

/-! ## Readers compose as the bytes do -/

namespace Decodes

variable {α β : Type}

theorem pure (a : α) : Decodes (Pure.pure a : Cursor α) [] a := fun _ _ _ => rfl

theorem bind {x : Cursor α} {f : α → Cursor β} {as bs : List UInt8} {a : α} {b : β}
    (hx : Decodes x as a) (hf : Decodes (f a) bs b) : Decodes (x >>= f) (as ++ bs) b := by
  intro buf p hstands
  obtain ⟨has, hbs⟩ := stands_append.1 hstands
  rw [Cursor.bind_ok (hx buf p has), hf buf _ hbs, List.length_append, Nat.add_assoc]

theorem take {bytes : List UInt8} {n : Nat} (hn : bytes.length = n) :
    Decodes (Cursor.take n) bytes bytes := by
  intro buf p hstands
  have hle := hstands.length_le
  have hslice : (buf.drop p).take n = bytes := by
    rw [← hn]
    exact (List.prefix_iff_eq_take.1 hstands).symm
  unfold Cursor.take
  rw [if_neg (by omega), hslice, hn]

theorem skip {bytes : List UInt8} {n : Nat} (hn : bytes.length = n) :
    Decodes (Cursor.skip n) bytes () := by
  have h := (take hn).bind (f := fun _ => (Pure.pure () : Cursor Unit)) (pure ())
  rw [List.append_nil] at h
  exact h

/-- Reading a value is reading its bytes. -/
theorem map {x : Cursor α} {bytes : List UInt8} {a : α} {b : β} (f : α → β) (hx : Decodes x bytes a)
    (hf : f a = b) : Decodes (do return f (← x)) bytes b := by
  have h := hx.bind (f := fun a => (Pure.pure (f a) : Cursor β)) (pure (f a))
  rw [List.append_nil, hf] at h
  exact h

/-- The allocation guard lets pass what is there. -/
theorem guard {n : UInt32} {k : Cursor β} {bytes : List UInt8} {b : β}
    (hn : n.toNat * entrySize ≤ bytes.length) (hk : Decodes k bytes b) :
    Decodes (guardEntries n >>= fun _ => k) bytes b := by
  intro buf p hstands
  have hle := hstands.length_le
  have hdiv : n.toNat ≤ (buf.length - p) / entrySize := by
    rw [Nat.le_div_iff_mul_le (by decide)]
    omega
  have hpass : guardEntries n buf p = .ok ((), p) := by
    unfold guardEntries
    rw [Cursor.bind_ok (a := buf.length - p) (q := p) rfl, if_neg (Nat.not_lt.2 hdiv)]
    rfl
  rw [Cursor.bind_ok hpass]
  exact hk buf p hstands

theorem many {x : Cursor α} (enc : α → List UInt8) (as : List α)
    (hx : ∀ a ∈ as, Decodes x (enc a) a) : Decodes (Cursor.many x as.length) (as.flatMap enc) as := by
  induction as with
  | nil => exact pure []
  | cons a as ih =>
      have hrest := ih (fun b hb => hx b (List.mem_cons_of_mem a hb))
      have h := (hx a List.mem_cons_self).bind (f := fun a => do
        let rest ← Cursor.many x as.length
        return a :: rest) (map (fun rest => a :: rest) hrest rfl)
      exact h

theorem parseSection {item : Cursor (Option α)} (enc : α → List UInt8) {stop : List UInt8}
    {as : List α} {rounds : Nat} (hitem : ∀ a ∈ as, Decodes item (enc a) (some a))
    (hstop : Decodes item stop none) (hrounds : as.length < rounds) :
    Decodes (Server.parseSection item rounds) (as.flatMap enc ++ stop) as := by
  induction as generalizing rounds with
  | nil =>
      obtain ⟨n, rfl⟩ : ∃ n, rounds = n + 1 := ⟨rounds - 1, by simp at hrounds; omega⟩
      rw [List.flatMap_nil, List.nil_append, ← List.append_nil stop, Server.parseSection]
      exact hstop.bind (pure [])
  | cons a as ih =>
      obtain ⟨n, rfl⟩ : ∃ n, rounds = n + 1 := ⟨rounds - 1, by simp at hrounds; omega⟩
      have hlt : as.length < n := by simpa using hrounds
      have hrest := ih (fun b hb => hitem b (List.mem_cons_of_mem a hb)) hlt
      rw [List.flatMap_cons, List.append_assoc, Server.parseSection]
      exact (hitem a List.mem_cons_self).bind (map (fun rest => a :: rest) hrest rfl)

end Decodes

/-! ## Numbers and hashes -/

theorem length_leBytes (width n : Nat) : (leBytes width n).length = width := by
  induction width generalizing n with
  | zero => rfl
  | succ width ih => rw [leBytes, List.length_cons, ih]

theorem leNat_leBytes (width n : Nat) : Cursor.leNat (leBytes width n) = n % 256 ^ width := by
  induction width generalizing n with
  | zero => rw [Nat.pow_zero, Nat.mod_one]; rfl
  | succ width ih =>
      have hcons : Cursor.leNat (leBytes (width + 1) n) =
          (UInt8.ofNat n).toNat + 256 * Cursor.leNat (leBytes width (n / 256)) := rfl
      have hbyte : (UInt8.ofNat n).toNat = n % 256 := UInt8.toNat_ofNat'
      rw [hcons, ih, hbyte, Nat.pow_succ', Nat.mod_mul]

@[simp] theorem length_le32 (n : UInt32) : (le32 n).length = 4 := length_leBytes 4 _

@[simp] theorem length_le64 (n : UInt64) : (le64 n).length = 8 := length_leBytes 8 _

@[simp] theorem length_zeros (n : Nat) : (zeros n).length = n := List.length_replicate ..

theorem hashOf_bytes (h : Hash32) : Cursor.hashOf h.bytes = h := by
  obtain ⟨bytes, hlen⟩ := h
  simp only [Cursor.hashOf, Hash32.mk.injEq]
  rw [List.take_append_of_le_length (by omega), List.take_of_length_le (by omega)]

namespace Decodes

theorem u32 (n : UInt32) : Decodes Cursor.u32 (le32 n) n := by
  refine (take (length_le32 n)).map (fun bytes => UInt32.ofNat (Cursor.leNat bytes)) ?_
  unfold le32
  rw [leNat_leBytes, Nat.mod_eq_of_lt (show n.toNat < 256 ^ 4 from n.toNat_lt), UInt32.ofNat_toNat]

theorem u64 (n : UInt64) : Decodes Cursor.u64 (le64 n) n := by
  refine (take (length_le64 n)).map (fun bytes => UInt64.ofNat (Cursor.leNat bytes)) ?_
  unfold le64
  rw [leNat_leBytes, Nat.mod_eq_of_lt (show n.toNat < 256 ^ 8 from n.toNat_lt), UInt64.ofNat_toNat]

theorem hash (h : Hash32) : Decodes Cursor.hash h.bytes h :=
  (take h.length_eq).map Cursor.hashOf (hashOf_bytes h)

end Decodes

theorem swapU64Groups_bytes {h : Hash32} {a b c d : List UInt8}
    (hbytes : h.bytes = a ++ (b ++ (c ++ d))) (ha : a.length = 8) (hb : b.length = 8)
    (hc : c.length = 8) (hd : d.length = 8) :
    (swapU64Groups h).bytes = a.reverse ++ (b.reverse ++ (c.reverse ++ d.reverse)) := by
  have hgroups : (List.range 4).flatMap (fun g => ((h.bytes.drop (8 * g)).take 8).reverse) =
      a.reverse ++ (b.reverse ++ (c.reverse ++ d.reverse)) := by
    have htwo : h.bytes.drop 8 = b ++ (c ++ d) := by rw [hbytes, List.drop_left' ha]
    have hthree : h.bytes.drop 16 = c ++ d := by
      rw [← List.drop_drop (i := 8) (j := 8), htwo, List.drop_left' hb]
    have hfour : h.bytes.drop 24 = d := by
      rw [← List.drop_drop (i := 8) (j := 16), hthree, List.drop_left' hc]
    have hone : h.bytes.drop 0 = a ++ (b ++ (c ++ d)) := hbytes
    simp only [show List.range 4 = [0, 1, 2, 3] from rfl, List.flatMap_cons, List.flatMap_nil,
      List.append_nil, Nat.mul_zero, Nat.mul_one, Nat.reduceMul, hone, htwo, hthree, hfour,
      List.take_left' ha, List.take_left' hb, List.take_left' hc, List.take_of_length_le (Nat.le_of_eq hd)]
  have htake : (swapU64Groups h).bytes = ((List.range 4).flatMap (fun g =>
      ((h.bytes.drop (8 * g)).take 8).reverse) ++ List.replicate 32 0).take 32 := rfl
  rw [htake, hgroups, List.take_left']
  simp [ha, hb, hc, hd]

/-- **`swap_u64_groups` is its own inverse.** -/
theorem swapU64Groups_swapU64Groups (h : Hash32) : swapU64Groups (swapU64Groups h) = h := by
  have hlen := h.length_eq
  obtain ⟨a, b, c, d, hbytes, ha, hb, hc, hd⟩ : ∃ a b c d : List UInt8,
      h.bytes = a ++ (b ++ (c ++ d)) ∧ a.length = 8 ∧ b.length = 8 ∧ c.length = 8 ∧
        d.length = 8 := by
    refine ⟨h.bytes.take 8, (h.bytes.drop 8).take 8, ((h.bytes.drop 8).drop 8).take 8,
      ((h.bytes.drop 8).drop 8).drop 8, by simp only [List.take_append_drop], ?_⟩
    simp only [List.length_take, List.length_drop]
    omega
  have hswap := swapU64Groups_bytes hbytes ha hb hc hd
  have hback := swapU64Groups_bytes hswap (by simp [ha]) (by simp [hb]) (by simp [hc])
    (by simp [hd])
  rw [List.reverse_reverse, List.reverse_reverse, List.reverse_reverse, List.reverse_reverse,
    ← hbytes] at hback
  rw [Hash32.mk.injEq]
  exact hback

/-! ## Well-formed shards -/

/-- A file that `parse` can give: no bookend, one verification for each entry or none, a sha256 or
    none, as its flags say. -/
structure FileWf (f : ParsedFile) : Prop where
  hash : isBookendHash f.fileHash = false
  verified : f.fileFlags &&& flagWithVerification ≠ 0 →
    f.verifications.length = f.entries.length
  unverified : f.fileFlags &&& flagWithVerification = 0 → f.verifications = []
  sha256 : f.sha256.isSome = true ↔ f.fileFlags &&& flagWithMetadataExt ≠ 0

/-- A shard that `parse` can give; the tag is an array of 32 bytes in the source. -/
structure ShardWf (s : ParsedShard) : Prop where
  tag : s.header.tag.length = 32
  version : s.header.version = mdbShardHeaderVersion
  files : ∀ f ∈ s.files, FileWf f
  casBlocks : ∀ cb ∈ s.casBlocks, isBookendHash cb.xorb = false
  footer : s.footer.isSome = true ↔ s.header.footerSize = footerSize
  footerVersion : ∀ ft, s.footer = some ft → ft.version = mdbShardFooterVersion

/-! ## Lengths -/

@[simp] theorem length_bookend : bookend.length = entrySize := rfl

@[simp] theorem length_serializeTermEntry (e : FileTermEntry) :
    (serializeTermEntry e).length = entrySize := by
  simp [serializeTermEntry, e.xorb.length_eq, entrySize]

@[simp] theorem length_serializeVerification (v : Hash32) :
    (serializeVerification v).length = entrySize := by
  simp [serializeVerification, v.length_eq, entrySize]

@[simp] theorem length_serializeChunkEntry (c : CasChunkEntry) :
    (serializeChunkEntry c).length = entrySize := by
  simp [serializeChunkEntry, c.chunkHash.length_eq, entrySize]

theorem length_flatMap_entries {α : Type} {enc : α → List UInt8} (as : List α)
    (henc : ∀ a, (enc a).length = entrySize) : (as.flatMap enc).length = as.length * entrySize := by
  induction as with
  | nil => simp
  | cons a as ih =>
      rw [List.flatMap_cons, List.length_append, henc, ih, List.length_cons, Nat.add_mul]
      omega

/-- The entries of a file, its verifications among them, each take 48 bytes. -/
theorem entries_le_serializeFile {f : ParsedFile} (hwf : FileWf f) :
    entrySize + (f.entries.length + f.verifications.length) * entrySize ≤
      (serializeFile f).length := by
  have hverified : ((if f.fileFlags &&& flagWithVerification ≠ 0 then
      f.verifications.flatMap serializeVerification else []) : List UInt8).length =
        f.verifications.length * entrySize := by
    split_ifs with hflag
    · exact length_flatMap_entries _ length_serializeVerification
    · rw [hwf.unverified (not_not.1 hflag)]
      simp
  simp only [serializeFile, List.length_append, f.fileHash.length_eq, length_le32, length_zeros,
    length_flatMap_entries _ length_serializeTermEntry, hverified, Nat.add_mul]
  unfold entrySize
  omega

theorem chunks_le_serializeCasBlock (cb : ParsedCasBlock) :
    entrySize + cb.chunks.length * entrySize ≤ (serializeCasBlock cb).length := by
  simp only [serializeCasBlock, List.length_append, cb.xorb.length_eq, length_le32,
    length_flatMap_entries _ length_serializeChunkEntry]
  unfold entrySize
  omega

theorem length_le_flatMap {α : Type} (enc : α → List UInt8) {as : List α} {a : α} (ha : a ∈ as) :
    (enc a).length ≤ (as.flatMap enc).length := by
  induction as with
  | nil => simp at ha
  | cons b as ih =>
      rw [List.flatMap_cons, List.length_append]
      rcases List.mem_cons.1 ha with rfl | ha
      · exact Nat.le_add_right _ _
      · exact Nat.le_trans (ih ha) (Nat.le_add_left _ _)

theorem count_le_flatMap {α : Type} (enc : α → List UInt8) (as : List α) {n : Nat}
    (henc : ∀ a ∈ as, n ≤ (enc a).length) : as.length * n ≤ (as.flatMap enc).length := by
  induction as with
  | nil => simp
  | cons a as ih =>
      have hrest := ih (fun b hb => henc b (List.mem_cons_of_mem a hb))
      have hfirst := henc a List.mem_cons_self
      rw [List.flatMap_cons, List.length_append, List.length_cons, Nat.add_mul]
      omega

theorem length_serialize (s : ParsedShard) : (serialize s).length =
    (serializeHeader s.header).length + (s.files.flatMap serializeFile).length +
      (s.casBlocks.flatMap serializeCasBlock).length + 2 * entrySize +
        (if s.footer.isSome then 200 else 0) := by
  have hfooter : ∀ ft a b c, (serializeFooter ft a b c).length = 200 := by
    intro ft a b c
    simp [serializeFooter, ft.chunkHashHmacKey.length_eq]
  simp only [serialize, fileSection, casSection, List.length_append, length_bookend]
  cases s.footer with
  | none => simp; omega
  | some ft => simp [hfooter]; omega

/-! ## Reading what was written -/

namespace Decodes

theorem fileTermEntry (e : FileTermEntry) :
    Decodes Server.fileTermEntry (serializeTermEntry e) e := by
  unfold serializeTermEntry Server.fileTermEntry
  simp only [List.append_assoc]
  refine (hash e.xorb).bind ((u32 e.casFlags).bind ((u32 e.unpackedSegmentBytes).bind
    ((u32 e.chunkIdxStart).bind ?_)))
  exact (u32 e.chunkIdxEnd).map (fun chunkIdxEnd => FileTermEntry.mk e.xorb e.casFlags
    e.unpackedSegmentBytes e.chunkIdxStart chunkIdxEnd) rfl

theorem verificationEntry (v : Hash32) :
    Decodes Server.verificationEntry (serializeVerification v) v := by
  unfold serializeVerification Server.verificationEntry
  exact (hash v).bind ((skip (length_zeros 16)).map (fun _ => v) rfl)

theorem casChunkEntry (c : CasChunkEntry) :
    Decodes Server.casChunkEntry (serializeChunkEntry c) c := by
  unfold serializeChunkEntry Server.casChunkEntry
  simp only [List.append_assoc]
  refine (hash c.chunkHash).bind ((u32 c.byteStart).bind ((u32 c.unpackedSegmentBytes).bind ?_))
  exact (skip (length_zeros 8)).map
    (fun _ => CasChunkEntry.mk c.chunkHash c.byteStart c.unpackedSegmentBytes) rfl

/-- The flag-dependent part of a file. -/
theorem ite {α : Type} {c : Prop} [Decidable c] {x y : Cursor α} {as bs : List UInt8} {a : α}
    (hx : c → Decodes x as a) (hy : ¬ c → Decodes y bs a) :
    Decodes (if c then x else y) (if c then as else bs) a := by
  by_cases hc : c
  · simpa only [if_pos hc] using hx hc
  · simpa only [if_neg hc] using hy hc

theorem parseFile {f : ParsedFile} (hwf : FileWf f) (hcount : f.entries.length < 4294967296) :
    Decodes Server.parseFile (serializeFile f) (some f) := by
  have hn : (UInt32.ofNat f.entries.length).toNat = f.entries.length := by
    rw [UInt32.toNat_ofNat', Nat.mod_eq_of_lt hcount]
  have hentries := many serializeTermEntry f.entries (fun e _ => fileTermEntry e)
  have hverifications := many serializeVerification f.verifications (fun v _ => verificationEntry v)
  unfold serializeFile Server.parseFile
  simp only [List.append_assoc]
  refine (hash f.fileHash).bind ((u32 f.fileFlags).bind ((u32 _).bind
    ((skip (length_zeros 8)).bind ?_)))
  rw [if_neg (by rw [hwf.hash]; decide), hn]
  refine guard (by rw [hn, List.length_append, length_flatMap_entries _
    length_serializeTermEntry]; omega) (hentries.bind ?_)
  refine bind (a := f.verifications) (ite (fun hflag => ?_) (fun hflag => ?_)) ?_
  · have hlen := hwf.verified hflag
    refine guard (by rw [hn, length_flatMap_entries _ length_serializeVerification, hlen]) ?_
    rw [← hlen]
    exact hverifications
  · rw [hwf.unverified (not_not.1 hflag)]
    exact pure []
  · have hsha : Decodes (if f.fileFlags &&& flagWithMetadataExt ≠ 0 then do
          let h ← Cursor.hash
          Cursor.skip 16
          return some (swapU64Groups h)
        else return none : Cursor (Option Hash32))
        (if f.fileFlags &&& flagWithMetadataExt ≠ 0 then
          (swapU64Groups (f.sha256.getD (Cursor.hashOf []))).bytes ++ zeros 16 else [])
        f.sha256 := by
      refine ite (fun hflag => ?_) (fun hflag => ?_)
      · obtain ⟨sha, hsome⟩ := Option.isSome_iff_exists.1 (hwf.sha256.2 hflag)
        rw [hsome, Option.getD_some]
        refine (hash _).bind ((skip (length_zeros 16)).map
          (fun _ => some (swapU64Groups (swapU64Groups sha))) ?_)
        rw [swapU64Groups_swapU64Groups]
      · have hnone : f.sha256 = none := by
          rw [← Option.not_isSome_iff_eq_none]
          exact fun hsome => hflag (hwf.sha256.1 hsome)
        rw [hnone]
        exact pure none
    have h := hsha.map (fun sha => some (ParsedFile.mk f.fileHash f.fileFlags f.entries
      f.verifications sha)) rfl
    exact h

theorem parseFile_bookend : Decodes Server.parseFile bookend none := by
  have hbytes : bookend = (Cursor.hashOf (List.replicate 32 0xff)).bytes ++
      (le32 0 ++ (le32 0 ++ (zeros 8 ++ []))) := by decide
  rw [hbytes]
  unfold Server.parseFile
  refine (hash _).bind ((u32 0).bind ((u32 0).bind ((skip (length_zeros 8)).bind ?_)))
  rw [if_pos (by decide)]
  exact pure none

theorem parseCasBlock {cb : ParsedCasBlock} (hhash : isBookendHash cb.xorb = false)
    (hcount : cb.chunks.length < 4294967296) :
    Decodes Server.parseCasBlock (serializeCasBlock cb) (some cb) := by
  have hn : (UInt32.ofNat cb.chunks.length).toNat = cb.chunks.length := by
    rw [UInt32.toNat_ofNat', Nat.mod_eq_of_lt hcount]
  have hchunks := many serializeChunkEntry cb.chunks (fun c _ => casChunkEntry c)
  unfold serializeCasBlock Server.parseCasBlock
  simp only [List.append_assoc]
  refine (hash cb.xorb).bind ((u32 cb.casFlags).bind ((u32 _).bind
    ((u32 cb.numBytesInCas).bind ((u32 cb.numBytesOnDisk).bind ?_))))
  rw [if_neg (by rw [hhash]; decide), hn]
  refine guard (by rw [hn, length_flatMap_entries _ length_serializeChunkEntry]) ?_
  exact hchunks.map (fun chunks => some (ParsedCasBlock.mk cb.xorb cb.casFlags cb.numBytesInCas
    cb.numBytesOnDisk chunks)) rfl

theorem parseCasBlock_bookend : Decodes Server.parseCasBlock bookend none := by
  have hbytes : bookend = (Cursor.hashOf (List.replicate 32 0xff)).bytes ++
      (le32 0 ++ (le32 0 ++ (le32 0 ++ (le32 0 ++ [])))) := by decide
  rw [hbytes]
  unfold Server.parseCasBlock
  refine (hash _).bind ((u32 0).bind ((u32 0).bind ((u32 0).bind ((u32 0).bind ?_))))
  rw [if_pos (by decide)]
  exact pure none

theorem parseFooter {ft : ShardFooter} {len : Nat} {fileInfo casInfo footer : UInt64}
    (hversion : ft.version = mdbShardFooterVersion) (hlen : footer.toNat ≤ len) :
    Decodes (Server.parseFooter len) (serializeFooter ft fileInfo casInfo footer)
      { ft with fileInfoOffset := fileInfo, casInfoOffset := casInfo, footerOffset := footer } := by
  unfold serializeFooter Server.parseFooter
  simp only [List.append_assoc]
  refine (u64 ft.version).bind ?_
  rw [if_neg (not_not.2 hversion)]
  refine (u64 fileInfo).bind ((u64 casInfo).bind ((skip (by simp)).bind
    ((hash ft.chunkHashHmacKey).bind ((u64 ft.shardCreationTimestamp).bind
      ((u64 ft.shardKeyExpiry).bind ((skip (length_zeros 72)).bind ?_))))))
  rw [← List.append_nil (le64 footer)]
  refine (u64 footer).bind ?_
  rw [if_neg (by omega)]
  exact pure _

theorem parseShard {s : ParsedShard} (hwf : ShardWf s) (hmax : (serialize s).length ≤ maxShardBytes) :
    Decodes (Server.parseShard (serialize s).length) (serialize s) s.withOffsets := by
  have hlen := length_serialize s
  unfold maxShardBytes at hmax
  have hfile : ∀ f ∈ s.files, f.entries.length < 4294967296 := by
    intro f hf
    have hentries := entries_le_serializeFile (hwf.files f hf)
    have hle := length_le_flatMap serializeFile hf
    unfold entrySize at hentries
    omega
  have hblock : ∀ cb ∈ s.casBlocks, cb.chunks.length < 4294967296 := by
    intro cb hcb
    have hchunks := chunks_le_serializeCasBlock cb
    have hle := length_le_flatMap serializeCasBlock hcb
    unfold entrySize at hchunks
    omega
  have hfiles : s.files.length < (serialize s).length := by
    have hle := count_le_flatMap serializeFile s.files (n := 1) (fun f hf => by
      have hentries := entries_le_serializeFile (hwf.files f hf)
      unfold entrySize at hentries
      omega)
    unfold entrySize at hlen
    omega
  have hblocks : s.casBlocks.length < (serialize s).length := by
    have hle := count_le_flatMap serializeCasBlock s.casBlocks (n := 1)
      (fun cb _ => by
        have hchunks := chunks_le_serializeCasBlock cb
        unfold entrySize at hchunks
        omega)
    unfold entrySize at hlen
    omega
  have hoffset : (footerOffset s).toNat ≤ (serialize s).length := by
    have hle : (serializeHeader s.header ++ fileSection s ++ casSection s).length ≤
        (serialize s).length := by
      unfold serialize
      exact (List.prefix_append _ _).length_le
    unfold footerOffset
    rw [UInt64.toNat_ofNat', Nat.mod_eq_of_lt (by omega)]
    exact hle
  generalize (serialize s).length = len at hfiles hblocks hoffset ⊢
  unfold serialize serializeHeader fileSection casSection Server.parseShard
  simp only [List.append_assoc]
  refine (take hwf.tag).bind ((u64 s.header.version).bind ?_)
  rw [if_neg (not_not.2 hwf.version)]
  refine (u64 s.header.footerSize).bind ?_
  rw [← List.append_assoc]
  refine (parseSection serializeFile (fun f hf => parseFile (hwf.files f hf) (hfile f hf))
    parseFile_bookend hfiles).bind ?_
  rw [← List.append_assoc]
  refine (parseSection serializeCasBlock (fun cb hcb => parseCasBlock (hwf.casBlocks cb hcb)
    (hblock cb hcb)) parseCasBlock_bookend hblocks).bind ?_
  have hfooter : Decodes (if s.header.footerSize = footerSize then do
        return some (← Server.parseFooter len) else return none : Cursor (Option ShardFooter))
      (match s.footer with
        | none => []
        | some ft => serializeFooter ft (fileInfoOffset s) (casInfoOffset s) (footerOffset s))
      s.withOffsets.footer := by
    cases hft : s.footer with
    | none =>
        have hsize : s.header.footerSize ≠ footerSize := fun h => by
          have hsome := hwf.footer.2 h
          rw [hft] at hsome
          simp at hsome
        rw [if_neg hsize]
        simp only [ParsedShard.withOffsets, hft, Option.map_none]
        exact pure none
    | some ft =>
        rw [if_pos (hwf.footer.1 (by rw [hft]; rfl))]
        simp only [ParsedShard.withOffsets, hft, Option.map_some]
        exact (parseFooter (hwf.footerVersion ft hft) hoffset).map some rfl
  exact hfooter.map (fun footer => ParsedShard.mk s.header s.files s.casBlocks footer) rfl

end Decodes

/-- **What was written is read back**, with the offsets that were written. -/
theorem parse_serialize {s : ParsedShard} (hwf : ShardWf s)
    (hmax : (serialize s).length ≤ maxShardBytes) :
    parse (serialize s) = .ok s.withOffsets := by
  have hread := Decodes.parseShard hwf hmax (serialize s) 0 (List.prefix_refl _)
  unfold parse
  rw [if_neg (Nat.not_lt.2 hmax), hread]
  rfl

/-! ## What is parsed is well formed -/

/-- Whatever `x` reads, it takes `n` bytes of the buffer. -/
def Width {α : Type} (x : Cursor α) (n : Nat) : Prop :=
  ∀ buf p a q, p ≤ buf.length → x buf p = .ok (a, q) → q = p + n ∧ q ≤ buf.length

namespace Width

variable {α β : Type}

theorem pure (a : α) : Width (Pure.pure a : Cursor α) 0 := by
  intro buf p b q hp h
  obtain ⟨-, rfl⟩ := Cursor.pure_eq_ok h
  exact ⟨rfl, hp⟩

theorem bind {x : Cursor α} {f : α → Cursor β} {n m : Nat} (hx : Width x n)
    (hf : ∀ a, Width (f a) m) : Width (x >>= f) (n + m) := by
  intro buf p b q hp h
  obtain ⟨a, r, hxr, hfr⟩ := Cursor.bind_eq_ok h
  obtain ⟨rfl, hr⟩ := hx buf p a r hp hxr
  obtain ⟨rfl, hq⟩ := hf a buf _ b q hr hfr
  exact ⟨Nat.add_assoc _ _ _, hq⟩

theorem take (n : Nat) : Width (Cursor.take n) n := by
  intro buf p a q hp h
  unfold Cursor.take at h
  split_ifs at h with hshort
  obtain ⟨-, rfl⟩ := Prod.mk.inj (Except.ok.inj h)
  exact ⟨rfl, by omega⟩

theorem skip (n : Nat) : Width (Cursor.skip n) n := (take n).bind (fun _ => pure ())

theorem u32 : Width Cursor.u32 4 := (take 4).bind (fun _ => pure _)

theorem u64 : Width Cursor.u64 8 := (take 8).bind (fun _ => pure _)

theorem hash : Width Cursor.hash 32 := (take 32).bind (fun _ => pure _)

theorem many {x : Cursor α} {n : Nat} (hx : Width x n) (k : Nat) :
    Width (Cursor.many x k) (k * n) := by
  induction k with
  | zero => rw [Nat.zero_mul]; exact pure []
  | succ k ih =>
      have h : Width (Cursor.many x (k + 1)) (n + (k * n + 0)) :=
        hx.bind (fun a => ih.bind (fun rest => pure (a :: rest)))
      rwa [Nat.add_comm n, Nat.add_zero (k * n), ← Nat.succ_mul] at h

theorem fileTermEntry : Width Server.fileTermEntry entrySize :=
  hash.bind (fun _ => u32.bind (fun _ => u32.bind (fun _ => u32.bind (fun _ => u32.bind
    (fun _ => pure _)))))

theorem verificationEntry : Width Server.verificationEntry entrySize :=
  hash.bind (fun _ => (skip 16).bind (fun _ => pure _))

theorem casChunkEntry : Width Server.casChunkEntry entrySize :=
  hash.bind (fun _ => u32.bind (fun _ => u32.bind (fun _ => (skip 8).bind (fun _ => pure _))))

theorem guardEntries (n : UInt32) : Width (Server.guardEntries n) 0 := by
  intro buf p a q hp h
  obtain ⟨remaining, r, hr, h⟩ := Cursor.bind_eq_ok h
  obtain rfl : p = r := (Prod.mk.inj (Except.ok.inj hr)).2
  split_ifs at h with hlarge
  · obtain ⟨pos, q', -, h⟩ := Cursor.bind_eq_ok h
    simp [Cursor.fail] at h
  · exact pure () buf p a q hp h

end Width

/-- A reader of items takes what the writer writes for them: the bookend, or an item that is well
    formed. -/
def TakesItem {α : Type} (item : Cursor (Option α)) (enc : α → List UInt8) (wf : α → Prop) : Prop :=
  ∀ buf p found q, p ≤ buf.length → item buf p = .ok (found, q) → q ≤ buf.length ∧
    match found with
    | none => q = p + entrySize
    | some a => q = p + (enc a).length ∧ wf a

theorem takesItem_parseFile : TakesItem parseFile serializeFile FileWf := by
  intro buf p found q hp h
  obtain ⟨fileHash, p₁, h₁, h⟩ := Cursor.bind_eq_ok h
  obtain ⟨fileFlags, p₂, h₂, h⟩ := Cursor.bind_eq_ok h
  obtain ⟨numEntries, p₃, h₃, h⟩ := Cursor.bind_eq_ok h
  obtain ⟨_, p₄, h₄, h⟩ := Cursor.bind_eq_ok h
  obtain ⟨rfl, hp₁⟩ := Width.hash _ _ _ _ hp h₁
  obtain ⟨rfl, hp₂⟩ := Width.u32 _ _ _ _ hp₁ h₂
  obtain ⟨rfl, hp₃⟩ := Width.u32 _ _ _ _ hp₂ h₃
  obtain ⟨rfl, hp₄⟩ := Width.skip 8 _ _ _ _ hp₃ h₄
  by_cases hend : isBookendHash fileHash = true
  · rw [if_pos hend] at h
    obtain ⟨rfl, rfl⟩ := Cursor.pure_eq_ok h
    exact ⟨hp₄, by unfold entrySize; omega⟩
  · rw [if_neg hend] at h
    obtain ⟨_, p₅, h₅, h⟩ := Cursor.bind_eq_ok h
    obtain ⟨entries, p₆, h₆, h⟩ := Cursor.bind_eq_ok h
    obtain ⟨verifications, p₇, h₇, h⟩ := Cursor.bind_eq_ok h
    obtain ⟨sha256, p₈, h₈, h⟩ := Cursor.bind_eq_ok h
    obtain ⟨rfl, rfl⟩ := Cursor.pure_eq_ok h
    obtain ⟨rfl, hp₅⟩ := Width.guardEntries _ _ _ _ _ hp₄ h₅
    obtain ⟨rfl, hp₆⟩ := Width.fileTermEntry.many _ _ _ _ _ hp₅ h₆
    have hcount := Cursor.length_many h₆
    have hverified : p₇ ≤ buf.length ∧
        p₇ = p + 32 + 4 + 4 + 8 + 0 + numEntries.toNat * entrySize +
          verifications.length * entrySize ∧
        (fileFlags &&& flagWithVerification ≠ 0 → verifications.length = entries.length) ∧
        (fileFlags &&& flagWithVerification = 0 → verifications = []) := by
      split_ifs at h₇ with hflag
      · obtain ⟨_, r, hguard, h₇⟩ := Cursor.bind_eq_ok h₇
        obtain ⟨rfl, hr⟩ := Width.guardEntries _ _ _ _ _ hp₆ hguard
        obtain ⟨rfl, hp₇⟩ := Width.verificationEntry.many _ _ _ _ _ hr h₇
        have hlen := Cursor.length_many h₇
        exact ⟨hp₇, by rw [hlen]; omega, fun _ => by rw [hlen, hcount], fun h0 => absurd h0 hflag⟩
      · obtain ⟨rfl, rfl⟩ := Cursor.pure_eq_ok h₇
        exact ⟨hp₆, by simp, fun h0 => absurd h0 hflag, fun _ => rfl⟩
    obtain ⟨hp₇, rfl, hsome, hnone⟩ := hverified
    have hsha : p₈ ≤ buf.length ∧
        p₈ = p + 32 + 4 + 4 + 8 + 0 + numEntries.toNat * entrySize +
          verifications.length * entrySize +
          (if fileFlags &&& flagWithMetadataExt ≠ 0 then entrySize else 0) ∧
        (sha256.isSome = true ↔ fileFlags &&& flagWithMetadataExt ≠ 0) := by
      split_ifs at h₈ ⊢ with hflag
      · obtain ⟨sha, r, hr, h₈⟩ := Cursor.bind_eq_ok h₈
        obtain ⟨_, r', hr', h₈⟩ := Cursor.bind_eq_ok h₈
        obtain ⟨rfl, rfl⟩ := Cursor.pure_eq_ok h₈
        obtain ⟨rfl, hle⟩ := Width.hash _ _ _ _ hp₇ hr
        obtain ⟨rfl, hle'⟩ := Width.skip 16 _ _ _ _ hle hr'
        exact ⟨hle', by unfold entrySize; omega, by simp [hflag]⟩
      · obtain ⟨rfl, rfl⟩ := Cursor.pure_eq_ok h₈
        exact ⟨hp₇, by omega, by simp [hflag]⟩
    obtain ⟨hp₈, rfl, hshaIff⟩ := hsha
    refine ⟨hp₈, ?_, ⟨by simpa using hend, hsome, hnone, hshaIff⟩⟩
    have hverifiedLen : ((if fileFlags &&& flagWithVerification ≠ 0 then
        verifications.flatMap serializeVerification else []) : List UInt8).length =
          verifications.length * entrySize := by
      split_ifs with hflag
      · exact length_flatMap_entries _ length_serializeVerification
      · rw [hnone (not_not.1 hflag)]
        simp
    have hshaLen : ((if fileFlags &&& flagWithMetadataExt ≠ 0 then
        (swapU64Groups (sha256.getD (Cursor.hashOf []))).bytes ++ zeros 16 else []) :
          List UInt8).length =
            (if fileFlags &&& flagWithMetadataExt ≠ 0 then entrySize else 0) := by
      split_ifs
      · rw [List.length_append, Hash32.length_eq, length_zeros]
        rfl
      · rfl
    simp only [serializeFile, List.length_append, fileHash.length_eq, length_le32, length_zeros,
      length_flatMap_entries _ length_serializeTermEntry, hverifiedLen, hshaLen, hcount]
    omega

theorem takesItem_parseCasBlock :
    TakesItem parseCasBlock serializeCasBlock (fun cb => isBookendHash cb.xorb = false) := by
  intro buf p found q hp h
  obtain ⟨casHash, p₁, h₁, h⟩ := Cursor.bind_eq_ok h
  obtain ⟨casFlags, p₂, h₂, h⟩ := Cursor.bind_eq_ok h
  obtain ⟨numEntries, p₃, h₃, h⟩ := Cursor.bind_eq_ok h
  obtain ⟨numBytesInCas, p₄, h₄, h⟩ := Cursor.bind_eq_ok h
  obtain ⟨numBytesOnDisk, p₅, h₅, h⟩ := Cursor.bind_eq_ok h
  obtain ⟨rfl, hp₁⟩ := Width.hash _ _ _ _ hp h₁
  obtain ⟨rfl, hp₂⟩ := Width.u32 _ _ _ _ hp₁ h₂
  obtain ⟨rfl, hp₃⟩ := Width.u32 _ _ _ _ hp₂ h₃
  obtain ⟨rfl, hp₄⟩ := Width.u32 _ _ _ _ hp₃ h₄
  obtain ⟨rfl, hp₅⟩ := Width.u32 _ _ _ _ hp₄ h₅
  by_cases hend : isBookendHash casHash = true
  · rw [if_pos hend] at h
    obtain ⟨rfl, rfl⟩ := Cursor.pure_eq_ok h
    exact ⟨hp₅, by unfold entrySize; omega⟩
  · rw [if_neg hend] at h
    obtain ⟨_, p₆, h₆, h⟩ := Cursor.bind_eq_ok h
    obtain ⟨chunks, p₇, h₇, h⟩ := Cursor.bind_eq_ok h
    obtain ⟨rfl, rfl⟩ := Cursor.pure_eq_ok h
    obtain ⟨rfl, hp₆⟩ := Width.guardEntries _ _ _ _ _ hp₅ h₆
    obtain ⟨rfl, hp₇⟩ := Width.casChunkEntry.many _ _ _ _ _ hp₆ h₇
    refine ⟨hp₇, ?_, by simpa using hend⟩
    simp only [serializeCasBlock, List.length_append, casHash.length_eq, length_le32,
      length_flatMap_entries _ length_serializeChunkEntry, Cursor.length_many h₇]
    omega

/-- A section is its items and a bookend. -/
theorem TakesItem.section_ok {α : Type} {item : Cursor (Option α)} {enc : α → List UInt8}
    {wf : α → Prop} (hitem : TakesItem item enc wf) {rounds : Nat} {buf : List UInt8} {p q : Nat}
    {as : List α} (hp : p ≤ buf.length) (h : parseSection item rounds buf p = .ok (as, q)) :
    q = p + (as.flatMap enc).length + entrySize ∧ q ≤ buf.length ∧ ∀ a ∈ as, wf a := by
  induction rounds generalizing p as q with
  | zero =>
      obtain ⟨_, _, -, h⟩ := Cursor.bind_eq_ok h
      simp [Cursor.fail] at h
  | succ rounds ih =>
      obtain ⟨found, r, hfound, h⟩ := Cursor.bind_eq_ok h
      obtain ⟨hr, hfound⟩ := hitem buf p found r hp hfound
      cases found with
      | none =>
          obtain ⟨rfl, rfl⟩ := Cursor.pure_eq_ok h
          exact ⟨by simpa using hfound, hr, by simp⟩
      | some a =>
          obtain ⟨rest, r', hrest, h⟩ := Cursor.bind_eq_ok h
          obtain ⟨rfl, rfl⟩ := Cursor.pure_eq_ok h
          obtain ⟨hpos, hle, hwf⟩ := ih hr hrest
          refine ⟨?_, hle, ?_⟩
          · rw [List.flatMap_cons, List.length_append]
            omega
          · intro b hb
            rcases List.mem_cons.1 hb with rfl | hb
            · exact hfound.2
            · exact hwf b hb

theorem parseFooter_ok {len : Nat} {buf : List UInt8} {p q : Nat} {ft : ShardFooter}
    (hp : p ≤ buf.length) (h : parseFooter len buf p = .ok (ft, q)) :
    ft.version = mdbShardFooterVersion ∧ p + 200 ≤ buf.length := by
  obtain ⟨version, p₁, h₁, h⟩ := Cursor.bind_eq_ok h
  obtain ⟨hpos₁, hp₁⟩ := Width.u64 _ _ _ _ hp h₁
  split_ifs at h with hversion
  · simp [Cursor.fail] at h
  · obtain ⟨fileInfoOffset, p₂, h₂, h⟩ := Cursor.bind_eq_ok h
    obtain ⟨casInfoOffset, p₃, h₃, h⟩ := Cursor.bind_eq_ok h
    obtain ⟨_, p₄, h₄, h⟩ := Cursor.bind_eq_ok h
    obtain ⟨hmacKey, p₅, h₅, h⟩ := Cursor.bind_eq_ok h
    obtain ⟨created, p₆, h₆, h⟩ := Cursor.bind_eq_ok h
    obtain ⟨expiry, p₇, h₇, h⟩ := Cursor.bind_eq_ok h
    obtain ⟨_, p₈, h₈, h⟩ := Cursor.bind_eq_ok h
    obtain ⟨footerOffset, p₉, h₉, h⟩ := Cursor.bind_eq_ok h
    obtain ⟨hpos₂, hp₂⟩ := Width.u64 _ _ _ _ hp₁ h₂
    obtain ⟨hpos₃, hp₃⟩ := Width.u64 _ _ _ _ hp₂ h₃
    obtain ⟨hpos₄, hp₄⟩ := Width.skip 48 _ _ _ _ hp₃ h₄
    obtain ⟨hpos₅, hp₅⟩ := Width.hash _ _ _ _ hp₄ h₅
    obtain ⟨hpos₆, hp₆⟩ := Width.u64 _ _ _ _ hp₅ h₆
    obtain ⟨hpos₇, hp₇⟩ := Width.u64 _ _ _ _ hp₆ h₇
    obtain ⟨hpos₈, hp₈⟩ := Width.skip 72 _ _ _ _ hp₇ h₈
    obtain ⟨hpos₉, hp₉⟩ := Width.u64 _ _ _ _ hp₈ h₉
    split_ifs at h
    · simp [Cursor.fail] at h
    · obtain ⟨rfl, -⟩ := Cursor.pure_eq_ok h
      exact ⟨not_not.1 hversion, by omega⟩

/-- **What is parsed is well formed, and no longer when written again.** -/
theorem parse_shardWf {bytes : List UInt8} {s : ParsedShard} (h : parse bytes = .ok s) :
    ShardWf s ∧ (serialize s).length ≤ bytes.length ∧ bytes.length ≤ maxShardBytes := by
  unfold parse at h
  split_ifs at h with hlarge
  cases hp : parseShard bytes.length bytes 0 with
  | error e => simp [hp, Except.map] at h
  | ok r =>
      obtain ⟨got, stop⟩ := r
      simp only [hp, Except.map, Except.ok.injEq] at h
      subst h
      obtain ⟨tag, p₁, h₁, hp⟩ := Cursor.bind_eq_ok hp
      obtain ⟨version, p₂, h₂, hp⟩ := Cursor.bind_eq_ok hp
      obtain ⟨hpos₁, hp₁⟩ := Width.take 32 _ _ _ _ (Nat.zero_le _) h₁
      obtain ⟨hpos₂, hp₂⟩ := Width.u64 _ _ _ _ hp₁ h₂
      have htag : tag.length = 32 := by
        unfold Cursor.take at h₁
        split_ifs at h₁ with hshort
        rw [← (Prod.mk.inj (Except.ok.inj h₁)).1, List.length_take, List.length_drop]
        omega
      split_ifs at hp with hversion
      · simp [Cursor.fail] at hp
      · obtain ⟨size, p₃, h₃, hp⟩ := Cursor.bind_eq_ok hp
        obtain ⟨files, p₄, h₄, hp⟩ := Cursor.bind_eq_ok hp
        obtain ⟨casBlocks, p₅, h₅, hp⟩ := Cursor.bind_eq_ok hp
        obtain ⟨footer, p₆, h₆, hp⟩ := Cursor.bind_eq_ok hp
        obtain ⟨rfl, rfl⟩ := Cursor.pure_eq_ok hp
        obtain ⟨hpos₃, hp₃⟩ := Width.u64 _ _ _ _ hp₂ h₃
        obtain ⟨hpos₄, hp₄, hfiles⟩ := takesItem_parseFile.section_ok hp₃ h₄
        obtain ⟨hpos₅, hp₅, hblocks⟩ := takesItem_parseCasBlock.section_ok hp₄ h₅
        have hfooter : (footer.isSome = true ↔ size = footerSize) ∧
            (∀ ft, footer = some ft → ft.version = mdbShardFooterVersion) ∧
            p₅ + (if footer.isSome then 200 else 0) ≤ bytes.length := by
          split_ifs at h₆ with hsize
          · obtain ⟨ft, r, hft, h₆⟩ := Cursor.bind_eq_ok h₆
            obtain ⟨rfl, rfl⟩ := Cursor.pure_eq_ok h₆
            obtain ⟨hv, hle⟩ := parseFooter_ok hp₅ hft
            refine ⟨by simp [hsize], fun ft' hft' => ?_, by simpa using hle⟩
            rw [← Option.some.inj hft']
            exact hv
          · obtain ⟨rfl, rfl⟩ := Cursor.pure_eq_ok h₆
            exact ⟨by simp [hsize], by simp, by simpa using hp₅⟩
        refine ⟨⟨htag, not_not.1 hversion, hfiles, hblocks, hfooter.1, hfooter.2.1⟩, ?_,
          Nat.le_of_not_lt hlarge⟩
        rw [length_serialize]
        have hle := hfooter.2.2
        simp only [serializeHeader, List.length_append, htag, length_le64]
        omega

/-! ## The round trip -/

/-- The offsets are those of the sections: `as u64` loses nothing. -/
structure TrueOffsets (s : ParsedShard) : Prop where
  fileInfo : (fileInfoOffset s).toNat = (serializeHeader s.header).length
  casInfo : (casInfoOffset s).toNat = (serializeHeader s.header ++ fileSection s).length
  footer : (footerOffset s).toNat =
    (serializeHeader s.header ++ fileSection s ++ casSection s).length

theorem trueOffsets_of_fits {s : ParsedShard} (hmax : (serialize s).length ≤ maxShardBytes) :
    TrueOffsets s := by
  have hlen := length_serialize s
  unfold maxShardBytes at hmax
  have hfits : ∀ n, n ≤ (serialize s).length → (UInt64.ofNat n).toNat = n := by
    intro n hn
    rw [UInt64.toNat_ofNat', Nat.mod_eq_of_lt (by omega)]
  refine ⟨hfits _ (by omega), hfits _ ?_, hfits _ ?_⟩
  · simp only [fileSection, List.length_append, length_bookend]
    omega
  · simp only [fileSection, casSection, List.length_append, length_bookend]
    omega

/-- The writer does not look at the offsets of the footer it is given. -/
theorem serialize_withOffsets (s : ParsedShard) : serialize s.withOffsets = serialize s := by
  unfold serialize ParsedShard.withOffsets
  cases s.footer with
  | none => rfl
  | some ft => rfl

/-- **The shard format round-trips.** A well-formed shard that is small enough is read back, with
    the offsets of its sections in the footer; so is whatever was parsed, and from then on nothing
    changes. -/
theorem shard_round_trip :
    (∀ s, ShardWf s → (serialize s).length ≤ maxShardBytes →
      parse (serialize s) = .ok s.withOffsets ∧ TrueOffsets s) ∧
    ∀ bytes p, parse bytes = .ok p →
      parse (serialize p) = .ok p.withOffsets ∧ TrueOffsets p ∧
        parse (serialize p.withOffsets) = .ok p.withOffsets := by
  refine ⟨fun s hwf hmax => ⟨parse_serialize hwf hmax, trueOffsets_of_fits hmax⟩, ?_⟩
  intro bytes p hp
  obtain ⟨hwf, hlen, hbytes⟩ := parse_shardWf hp
  have hmax := Nat.le_trans hlen hbytes
  have hread := parse_serialize hwf hmax
  refine ⟨hread, trueOffsets_of_fits hmax, ?_⟩
  rw [serialize_withOffsets]
  exact hread

namespace Sample

/-- A file of one verified term with a sha256, and the CAS block of its xorb, under a footer. -/
def verifiedShard : ParsedShard where
  header := ⟨List.replicate 32 7, mdbShardHeaderVersion, footerSize⟩
  files := [⟨hash32 1, flagWithVerification ||| flagWithMetadataExt, [⟨hash32 2, 0, 1, 0, 1⟩],
    [hash32 3], some (hash32 4)⟩]
  casBlocks := [⟨hash32 2, 0, 1, 9, [⟨hash32 5, 0, 1⟩]⟩]
  footer := some ⟨mdbShardFooterVersion, 0, 0, hash32 6, 10, 20, 0⟩

theorem verifiedShard_wf : ShardWf verifiedShard where
  tag := rfl
  version := rfl
  files := by
    intro f hf
    rw [List.mem_singleton.1 hf]
    exact ⟨rfl, fun _ => rfl, by decide, by decide⟩
  casBlocks := by
    intro cb hcb
    rw [List.mem_singleton.1 hcb]
    rfl
  footer := by decide
  footerVersion := by
    intro ft hft
    rw [← Option.some.inj hft]

end Sample

theorem shard_round_trip_verified :
    parse (serialize Sample.verifiedShard) = .ok Sample.verifiedShard.withOffsets ∧
      parse (serialize Sample.verifiedShard.withOffsets) = .ok Sample.verifiedShard.withOffsets := by
  have hread := (shard_round_trip.1 Sample.verifiedShard Sample.verifiedShard_wf
    (by decide +kernel)).1
  exact ⟨hread, (shard_round_trip.2 _ _ hread).1⟩

end BaleForGit.Server
