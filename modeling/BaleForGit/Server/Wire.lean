import Mathlib.Data.List.GetD
import BaleForGit.Library.Hex
import BaleForGit.Library.Results
import BaleForGit.Library.Utf8
import BaleForGit.Server.Types

set_option autoImplicit false

/-! # Hashes on the wire (`bale-server-wire`)

In paths and in JSON a hash is the hexadecimal of its bytes with each group of eight reversed: each
group is a little-endian number. There is one text for each hash (`decodeHash_iff`). -/

namespace BaleForGit.Server

inductive HexError where
  | badLength
  | badHex
deriving DecidableEq, Repr

def HexError.display : HexError → String
  | .badLength => "hash hex string must be 64 lowercase chars"
  | .badHex => "hash hex string contains non-hex characters"

/-- Where a byte goes when each group of eight is reversed. -/
def groupIndex (i : Nat) : Nat := i / 8 * 8 + (7 - i % 8)

/-- The 32 bytes with each group of eight reversed. -/
def reverseGroups (bytes : List UInt8) : List UInt8 :=
  (List.range 32).map (fun i => bytes.getD (groupIndex i) 0)

theorem length_reverseGroups (bytes : List UInt8) : (reverseGroups bytes).length = 32 := by
  simp [reverseGroups]

/-- `encode_hash`, as the bytes of the text. -/
def encodeHash (h : Hash32) : List UInt8 := Hex.encode (reverseGroups h.bytes)

/-- `decode_hash`. -/
def decodeHash (s : List UInt8) : Except HexError Hash32 :=
  if s.length ≠ 64 then .error .badLength
  else match Hex.decode s with
    | none => .error .badHex
    | some bytes => .ok ⟨reverseGroups bytes, length_reverseGroups bytes⟩

theorem groupIndex_lt {i : Nat} (h : i < 32) : groupIndex i < 32 := by
  unfold groupIndex
  omega

theorem groupIndex_groupIndex (i : Nat) : groupIndex (groupIndex i) = i := by
  unfold groupIndex
  omega

/-- Reversed twice, the bytes are what they were. -/
theorem reverseGroups_reverseGroups {bytes : List UInt8} (h : bytes.length = 32) :
    reverseGroups (reverseGroups bytes) = bytes := by
  refine List.ext_getElem (by rw [length_reverseGroups, h]) (fun i hi hi' => ?_)
  have hi32 : i < 32 := h ▸ hi'
  have hget : ∀ (bs : List UInt8) (j : Nat) (hj : j < (reverseGroups bs).length),
      (reverseGroups bs)[j] = bs[groupIndex j]?.getD 0 := by
    intro bs j hj
    simp [reverseGroups]
  have hgroup : groupIndex i < (reverseGroups bytes).length := by
    rw [length_reverseGroups]
    exact groupIndex_lt hi32
  rw [hget, List.getElem?_eq_getElem hgroup, Option.getD_some, hget, groupIndex_groupIndex,
    List.getElem?_eq_getElem hi', Option.getD_some]

theorem decodeHash_encodeHash (h : Hash32) : decodeHash (encodeHash h) = .ok h := by
  have hlen : (encodeHash h).length = 64 := by
    unfold encodeHash
    rw [Hex.length_encode, length_reverseGroups]
  unfold decodeHash
  rw [if_neg (by simp [hlen])]
  unfold encodeHash
  simp only [Hex.decode_encode, reverseGroups_reverseGroups h.length_eq]

/-- **A hash has one text.** -/
theorem decodeHash_iff {s : List UInt8} {h : Hash32} : decodeHash s = .ok h ↔ s = encodeHash h := by
  constructor
  · intro hdecode
    unfold decodeHash at hdecode
    split_ifs at hdecode with hlen
    split at hdecode
    · cases hdecode
    · rename_i bytes hbytes
      have htext := Hex.encode_of_decode hbytes
      have hbytesLen : bytes.length = 32 := by
        have := congrArg List.length htext
        rw [Hex.length_encode] at this
        omega
      rw [← Except.ok.inj hdecode]
      unfold encodeHash
      rw [reverseGroups_reverseGroups hbytesLen, htext]
  · rintro rfl
    exact decodeHash_encodeHash h

/-! ## The loops over a text

`encode_hash` and `decode_hash` go through the four groups, and through the bytes of each from
either end. They do to a text what the functions above do to its bytes (`bytes_encodeHashText`,
`decodeHashText_eq`). -/

def hexChar (d : Nat) : Char := Char.ofNat (if d < 10 then 48 + d else 87 + d)

/-- `{:02x}`. -/
def hex2 (b : UInt8) : List Char := [hexChar (b.toNat / 16), hexChar (b.toNat % 16)]

/-- `encode_hash`. -/
def encodeHashText (h : Hash32) : String :=
  String.ofList ((List.range 4).foldl (fun out group =>
    (List.range 8).reverse.foldl
      (fun out i => out ++ hex2 (h.bytes.getD (group * 8 + i) 0)) out) [])

def hexNibble (c : UInt8) : Except HexError UInt8 :=
  if 48 ≤ c ∧ c ≤ 57 then .ok (c - 48)
  else if 97 ≤ c ∧ c ≤ 102 then .ok (c - 97 + 10)
  -- capitals are no digits here
  else .error .badHex

/-- The byte of the `i`-th pair of digits of a group. -/
def hexPair (bytes : List UInt8) (group i : Nat) : Except HexError UInt8 := do
  let hi ← hexNibble (bytes.getD (group * 16 + i * 2) 0)
  let lo ← hexNibble (bytes.getD (group * 16 + i * 2 + 1) 0)
  return (hi <<< 4) ||| lo

/-- `decode_hash`. -/
def decodeHashText (s : String) : Except HexError Hash32 := do
  let bytes := s.toUTF8.data.toList
  if bytes.length ≠ 64 then throw .badLength
  let out ← (List.range 4).foldlM (fun out group =>
    (List.range 8).foldlM (fun out i => do
      let b ← hexPair bytes group i
      return out.setIfInBounds (group * 8 + (7 - i)) b) out) (Vector.replicate 32 0)
  return ⟨out.toList, out.length_toList⟩

theorem hexChar_lt {d : Nat} (hd : d < 16) : (hexChar d).toNat < 128 := by
  have hall : ∀ d : Fin 16, (hexChar d).toNat < 128 := by decide
  exact hall ⟨d, hd⟩

theorem byte_hexChar {d : Nat} (hd : d < 16) : Utf8.byte (hexChar d) = Hex.digit d := by
  have hall : ∀ d : Fin 16, Utf8.byte (hexChar d) = Hex.digit d := by decide
  exact hall ⟨d, hd⟩

theorem bytes_hex2 (b : UInt8) :
    Utf8.bytes (hex2 b) = [Hex.digit (b.toNat / 16), Hex.digit (b.toNat % 16)] := by
  have hb := b.toNat_lt
  unfold hex2
  rw [Utf8.bytes_cons, Utf8.bytes_cons, Utf8.encodeChar_ascii (hexChar_lt (by omega)),
    Utf8.encodeChar_ascii (hexChar_lt (by omega)), byte_hexChar (by omega),
    byte_hexChar (by omega)]
  rfl

theorem bytes_flatMap_hex2 (bytes : List UInt8) :
    Utf8.bytes (bytes.flatMap hex2) = Hex.encode bytes := by
  induction bytes with
  | nil => rfl
  | cons b bytes ih =>
      rw [List.flatMap_cons, Utf8.bytes_append, bytes_hex2, ih, Hex.encode_cons]
      rfl

/-- The loop takes the bytes in the order of `groupIndex`. -/
theorem toList_encodeHashText (h : Hash32) :
    (encodeHashText h).toList = (reverseGroups h.bytes).flatMap hex2 := by
  have horder : (List.range 32).map groupIndex =
      (List.range 4).flatMap (fun group => (List.range 8).reverse.map (fun i => group * 8 + i)) := by
    decide
  have hbytes : reverseGroups h.bytes =
      ((List.range 32).map groupIndex).map (fun k => h.bytes.getD k 0) := by
    rw [List.map_map]
    rfl
  rw [hbytes, horder]
  unfold encodeHashText
  simp only [String.toList_ofList, List.foldl_append_eq_append, List.nil_append,
    ← List.flatMap_def, List.map_flatMap, List.flatMap_assoc, List.flatMap_map]

theorem bytes_encodeHashText (h : Hash32) :
    (encodeHashText h).toUTF8.data.toList = encodeHash h := by
  rw [← Utf8.bytes_toList, toList_encodeHashText, bytes_flatMap_hex2]
  rfl

theorem hexNibble_eq_ok {c v : UInt8} :
    hexNibble c = .ok v ↔ Hex.value c = some v.toNat := by
  have hdigit : (48 ≤ c ∧ c ≤ 57) ↔ 48 ≤ c.toNat ∧ c.toNat ≤ 57 := by
    rw [UInt8.le_iff_toNat_le, UInt8.le_iff_toNat_le]
    exact Iff.rfl
  have hletter : (97 ≤ c ∧ c ≤ 102) ↔ 97 ≤ c.toNat ∧ c.toNat ≤ 102 := by
    rw [UInt8.le_iff_toNat_le, UInt8.le_iff_toNat_le]
    exact Iff.rfl
  unfold hexNibble Hex.value
  simp only [hdigit, hletter]
  split_ifs with hnum halpha
  · have hsub : (c - 48).toNat = c.toNat - 48 :=
      UInt8.toNat_sub_of_le c 48 (UInt8.le_iff_toNat_le.2 hnum.1)
    rw [Except.ok.injEq, Option.some.injEq, ← hsub, UInt8.toNat_inj]
  · have hsub : (c - 97).toNat = c.toNat - 97 :=
      UInt8.toNat_sub_of_le c 97 (UInt8.le_iff_toNat_le.2 halpha.1)
    have hadd : (c - 97 + 10).toNat = c.toNat - 87 := by
      rw [UInt8.toNat_add, hsub]
      change (c.toNat - 97 + 10) % 256 = _
      omega
    rw [Except.ok.injEq, Option.some.injEq, ← hadd, UInt8.toNat_inj]
  · simp

theorem hexNibble_error {c : UInt8} {e : HexError} (h : hexNibble c = .error e) : e = .badHex := by
  unfold hexNibble at h
  split_ifs at h
  exact (Except.error.inj h).symm

/-- Two digits are their byte's halves. -/
theorem shift_or {x y : Nat} (hx : x < 16) (hy : y < 16) :
    ((UInt8.ofNat x <<< 4) ||| UInt8.ofNat y).toNat = x * 16 + y := by
  have hall : ∀ x y : Fin 16,
      ((UInt8.ofNat x <<< 4) ||| UInt8.ofNat y).toNat = x.val * 16 + y.val := by decide +kernel
  exact hall ⟨x, hx⟩ ⟨y, hy⟩

theorem hexPair_eq_ok {bytes : List UInt8} {group i : Nat} {b : UInt8}
    (hlen : group * 16 + i * 2 + 1 < bytes.length) :
    hexPair bytes group i = .ok b ↔
      bytes[2 * (group * 8 + i)]? = some (Hex.digit (b.toNat / 16)) ∧
      bytes[2 * (group * 8 + i) + 1]? = some (Hex.digit (b.toNat % 16)) := by
  have hindex : group * 16 + i * 2 = 2 * (group * 8 + i) := by omega
  rw [hindex] at hlen
  unfold hexPair
  rw [hindex, List.getD_eq_getElem _ _ (by omega), List.getD_eq_getElem _ _ hlen,
    List.getElem?_eq_getElem (by omega), List.getElem?_eq_getElem hlen, Option.some.injEq,
    Option.some.injEq, Results.bind_eq_ok]
  have hb := b.toNat_lt
  constructor
  · rintro ⟨hi, hhi, hrest⟩
    obtain ⟨lo, hlo, hb⟩ := Results.bind_eq_ok.1 hrest
    obtain ⟨hhi16, hhi⟩ := Hex.digit_of_value (hexNibble_eq_ok.1 hhi)
    obtain ⟨hlo16, hlo⟩ := Hex.digit_of_value (hexNibble_eq_ok.1 hlo)
    have hsum := shift_or hhi16 hlo16
    rw [UInt8.ofNat_toNat, UInt8.ofNat_toNat, Except.ok.inj hb] at hsum
    have hdiv : b.toNat / 16 = hi.toNat := by omega
    have hmod : b.toNat % 16 = lo.toNat := by omega
    rw [hdiv, hmod, hhi, hlo]
    exact ⟨rfl, rfl⟩
  · rintro ⟨hhi, hlo⟩
    have hnibble : ∀ d, d < 16 → hexNibble (Hex.digit d) = .ok (UInt8.ofNat d) := by
      intro d hd
      rw [hexNibble_eq_ok, Hex.value_digit hd, UInt8.toNat_ofNat', Nat.mod_eq_of_lt (by omega)]
    refine ⟨_, hhi ▸ hnibble _ (by omega), Results.bind_eq_ok.2 ⟨_, hlo ▸ hnibble _ (by omega), ?_⟩⟩
    refine congrArg Except.ok (UInt8.toNat_inj.1 ?_)
    rw [shift_or (by omega) (by omega)]
    omega

theorem hexPair_error {bytes : List UInt8} {group i : Nat} {e : HexError}
    (h : hexPair bytes group i = .error e) : e = .badHex := by
  unfold hexPair at h
  cases hhi : hexNibble (bytes.getD (group * 16 + i * 2) 0) with
  | error e' =>
      rw [hhi] at h
      exact Except.error.inj h ▸ hexNibble_error hhi
  | ok hi =>
      cases hlo : hexNibble (bytes.getD (group * 16 + i * 2 + 1) 0) with
      | error e' =>
          rw [hhi, hlo] at h
          exact Except.error.inj h ▸ hexNibble_error hlo
      | ok lo =>
          rw [hhi, hlo] at h
          cases h

/-- The indices of the two loops, in order. -/
def groupPairs : List (Nat × Nat) :=
  (List.range 4).flatMap (fun group => (List.range 8).map (fun i => (group, i)))

/-- Where the loop writes. -/
def pairIndex (p : Nat × Nat) : Nat := p.1 * 8 + (7 - p.2)

theorem mem_groupPairs {group i : Nat} : (group, i) ∈ groupPairs ↔ group < 4 ∧ i < 8 := by
  simp [groupPairs, eq_comm]

/-- `decode_hash` fills the hash. -/
theorem decodeHashText_fill {s : String} (hlen : s.toUTF8.data.toList.length = 64) :
    decodeHashText s = (Results.fill pairIndex (fun p => hexPair s.toUTF8.data.toList p.1 p.2)
      groupPairs (Vector.replicate 32 0)).map (fun out => ⟨out.toList, out.length_toList⟩) := by
  have hinner : ∀ (out : Vector UInt8 32) (group : Nat),
      Results.fill pairIndex (fun p => hexPair s.toUTF8.data.toList p.1 p.2)
        ((List.range 8).map (fun i => (group, i))) out =
      (List.range 8).foldlM (fun out i => do
        let b ← hexPair s.toUTF8.data.toList group i
        return out.setIfInBounds (group * 8 + (7 - i)) b) out := by
    intro out group
    unfold Results.fill
    rw [List.foldlM_map]
    rfl
  unfold groupPairs
  rw [Results.fill_flatMap]
  simp only [hinner]
  unfold decodeHashText
  rw [if_neg (not_not.2 hlen)]
  rfl

theorem nodup_pairIndex : (groupPairs.map pairIndex).Nodup := by decide

theorem pairIndex_lt {p : Nat × Nat} (hp : p ∈ groupPairs) : pairIndex p < 32 := by
  obtain ⟨hgroup, -⟩ := mem_groupPairs.1 hp
  unfold pairIndex
  omega

theorem pairIndex_surjective {k : Nat} (hk : k < 32) : k ∈ groupPairs.map pairIndex :=
  List.mem_map.2 ⟨(k / 8, 7 - k % 8), mem_groupPairs.2 ⟨by omega, by omega⟩, by
    simp only [pairIndex]
    omega⟩

theorem getElem?_reverseGroups (bytes : List UInt8) {k : Nat} (hk : k < 32) :
    (reverseGroups bytes)[k]? = some (bytes.getD (groupIndex k) 0) := by
  simp [reverseGroups, hk]

/-- **The loop reads the text of the hash.** -/
theorem fill_eq_ok_iff {bytes : List UInt8} (hlen : bytes.length = 64) (out : Vector UInt8 32) :
    Results.fill pairIndex (fun p => hexPair bytes p.1 p.2) groupPairs (Vector.replicate 32 0) =
      .ok out ↔ bytes = Hex.encode (reverseGroups out.toList) := by
  rw [Results.fill_eq_ok nodup_pairIndex (fun p hp => pairIndex_lt hp)]
  constructor
  · rintro ⟨hpairs, -⟩
    have hbytes : ∀ k, k < 32 → ∃ b, (reverseGroups out.toList)[k]? = some b ∧
        bytes[2 * k]? = some (Hex.digit (b.toNat / 16)) ∧
        bytes[2 * k + 1]? = some (Hex.digit (b.toNat % 16)) := by
      intro k hk
      obtain ⟨b, hb, hget⟩ := hpairs (k / 8, k % 8) (mem_groupPairs.2 ⟨by omega, by omega⟩)
      have hdigits := (hexPair_eq_ok (by omega)).1 hb
      have hindex : k / 8 * 8 + k % 8 = k := by omega
      rw [hindex] at hdigits
      refine ⟨b, ?_, hdigits⟩
      rw [getElem?_reverseGroups _ hk, List.getD_eq_getElem?_getD]
      have hpair : out.toList[groupIndex k]? = some b := by
        rw [← hget, Vector.getElem?_toList]
        rfl
      rw [hpair]
      rfl
    refine List.ext_getElem? (fun j => ?_)
    by_cases hj : j < 64
    · obtain ⟨b, hrev, heven, hodd⟩ := hbytes (j / 2) (by omega)
      rcases Nat.mod_two_eq_zero_or_one j with hpar | hpar
      · have hj2 : j = 2 * (j / 2) := by omega
        rw [hj2, heven, Hex.getElem?_encode_even, hrev]
        rfl
      · have hj2 : j = 2 * (j / 2) + 1 := by omega
        rw [hj2, hodd, Hex.getElem?_encode_odd, hrev]
        rfl
    · rw [List.getElem?_eq_none (by omega), List.getElem?_eq_none]
      rw [Hex.length_encode, length_reverseGroups]
      omega
  · intro htext
    refine ⟨?_, fun k hk => ?_⟩
    · rintro ⟨group, i⟩ hp
      obtain ⟨hgroup, hi⟩ := mem_groupPairs.1 hp
      have hk : pairIndex (group, i) < 32 := pairIndex_lt hp
      refine ⟨out[pairIndex (group, i)], (hexPair_eq_ok (by omega)).2 ?_, by simp⟩
      have hrev : (reverseGroups out.toList)[group * 8 + i]? = some out[pairIndex (group, i)] := by
        have hindex : groupIndex (group * 8 + i) = pairIndex (group, i) := by
          unfold groupIndex pairIndex
          omega
        rw [getElem?_reverseGroups _ (by omega), hindex, List.getD_eq_getElem?_getD,
          Vector.getElem?_toList, Vector.getElem?_eq_getElem hk]
        rfl
      rw [htext, Hex.getElem?_encode_even, Hex.getElem?_encode_odd, hrev]
      exact ⟨rfl, rfl⟩
    · have hbig : ¬ k < 32 := fun hlt => hk (pairIndex_surjective hlt)
      rw [Vector.getElem?_eq_none (by omega), Vector.getElem?_eq_none (by omega)]

theorem decodeHashText_eq_ok {s : String} {h : Hash32} :
    decodeHashText s = .ok h ↔ s = encodeHashText h := by
  have hbytes : s = encodeHashText h ↔ s.toUTF8.data.toList = encodeHash h := by
    rw [← bytes_encodeHashText, ← Utf8.bytes_toList, ← Utf8.bytes_toList, Utf8.bytes_inj,
      String.toList_inj]
  rw [hbytes]
  by_cases hlen : s.toUTF8.data.toList.length = 64
  · rw [decodeHashText_fill hlen, Results.map_eq_ok]
    constructor
    · rintro ⟨out, hfill, rfl⟩
      exact (fill_eq_ok_iff hlen out).1 hfill
    · intro htext
      refine ⟨⟨h.bytes.toArray, h.length_eq⟩, (fill_eq_ok_iff hlen _).2 htext, rfl⟩
  · refine iff_of_false (fun h => ?_) (fun h => hlen ?_)
    · unfold decodeHashText at h
      rw [if_pos hlen] at h
      cases h
    · rw [h, encodeHash, Hex.length_encode, length_reverseGroups]

/-- The two readers agree, on what they reject too. -/
theorem decodeHashText_eq (s : String) : decodeHashText s = decodeHash s.toUTF8.data.toList := by
  cases htext : decodeHashText s with
  | ok h =>
      rw [decodeHashText_eq_ok.1 htext, bytes_encodeHashText, decodeHash_encodeHash]
  | error e =>
      by_cases hlen : s.toUTF8.data.toList.length = 64
      · have herr : e = .badHex := by
          rw [decodeHashText_fill hlen] at htext
          cases hfill : Results.fill pairIndex
              (fun p => hexPair s.toUTF8.data.toList p.1 p.2) groupPairs (Vector.replicate 32 0) with
          | ok out =>
              rw [hfill] at htext
              cases htext
          | error e' =>
              obtain ⟨p, -, hp⟩ := Results.exists_of_fill_error hfill
              rw [hfill] at htext
              exact Except.error.inj htext ▸ hexPair_error hp
        cases hdecode : decodeHash s.toUTF8.data.toList with
        | ok h =>
            have hs := decodeHash_iff.1 hdecode
            rw [← bytes_encodeHashText, ← Utf8.bytes_toList, ← Utf8.bytes_toList, Utf8.bytes_inj,
              String.toList_inj] at hs
            rw [decodeHashText_eq_ok.2 hs] at htext
            cases htext
        | error e' =>
            unfold decodeHash at hdecode
            rw [if_neg (not_not.2 hlen)] at hdecode
            split at hdecode
            · rw [herr, Except.error.inj hdecode]
            · cases hdecode
      · unfold decodeHashText at htext
        rw [if_pos hlen] at htext
        unfold decodeHash
        rw [if_pos hlen, ← Except.error.inj htext]

/-- A digit that is read: `[0-9a-f]`. -/
def IsHexChar (c : Char) : Prop := ('0' ≤ c ∧ c ≤ '9') ∨ ('a' ≤ c ∧ c ≤ 'f')

instance (c : Char) : Decidable (IsHexChar c) :=
  inferInstanceAs (Decidable (('0' ≤ c ∧ c ≤ '9') ∨ ('a' ≤ c ∧ c ≤ 'f')))

theorem isHexChar_hexChar {d : Nat} (hd : d < 16) : IsHexChar (hexChar d) := by
  have hall : ∀ d : Fin 16, IsHexChar (hexChar d) := by decide
  exact hall ⟨d, hd⟩

theorem IsHexChar.toNat {c : Char} (h : IsHexChar c) :
    (48 ≤ c.toNat ∧ c.toNat ≤ 57) ∨ (97 ≤ c.toNat ∧ c.toNat ≤ 102) := h

theorem isSome_value_byte {c : Char} (h : IsHexChar c) : (Hex.value (Utf8.byte c)).isSome := by
  have hc := h.toNat
  unfold Hex.value
  rw [Utf8.toNat_byte (by omega)]
  split_ifs with hnum halpha
  · rfl
  · rfl
  · omega

theorem length_encodeHashText (h : Hash32) : (encodeHashText h).toList.length = 64 := by
  rw [toList_encodeHashText, List.length_flatMap]
  have hall : (reverseGroups h.bytes).map (fun b => (hex2 b).length) = List.replicate 32 2 := by
    rw [List.eq_replicate_iff, List.length_map, length_reverseGroups]
    exact ⟨rfl, by simp [hex2]⟩
  rw [hall]
  rfl

theorem isHexChar_of_mem {h : Hash32} {c : Char} (hc : c ∈ (encodeHashText h).toList) :
    IsHexChar c := by
  rw [toList_encodeHashText] at hc
  obtain ⟨b, -, hb⟩ := List.mem_flatMap.1 hc
  have := b.toNat_lt
  rcases List.mem_pair.1 hb with rfl | rfl
  · exact isHexChar_hexChar (by omega)
  · exact isHexChar_hexChar (by omega)

/-- **What is read**: 64 digits. -/
theorem exists_decodeHashText_iff (s : String) :
    (∃ h, decodeHashText s = .ok h) ↔ s.toList.length = 64 ∧ ∀ c ∈ s.toList, IsHexChar c := by
  constructor
  · rintro ⟨h, hdecode⟩
    obtain rfl := decodeHashText_eq_ok.1 hdecode
    exact ⟨length_encodeHashText h, fun c hc => isHexChar_of_mem hc⟩
  · rintro ⟨hlen, hchars⟩
    have hascii : ∀ c ∈ s.toList, c.toNat < 128 := by
      intro c hc
      have := (hchars c hc).toNat
      omega
    rw [decodeHashText_eq, ← Utf8.bytes_toList]
    have hbytes : (Utf8.bytes s.toList).length = 64 := by
      rw [Utf8.length_bytes_ascii hascii, hlen]
    have hsome : (Hex.decode (Utf8.bytes s.toList)).isSome := by
      rw [Hex.isSome_decode_iff, hbytes, Utf8.bytes_ascii hascii]
      refine ⟨rfl, fun b hb => ?_⟩
      obtain ⟨c, hc, rfl⟩ := List.mem_map.1 hb
      exact isSome_value_byte (hchars c hc)
    obtain ⟨bytes, hdecode⟩ := Option.isSome_iff_exists.1 hsome
    unfold decodeHash
    rw [if_neg (not_not.2 hbytes), hdecode]
    exact ⟨_, rfl⟩

/-- **A hash has one text**, over all texts: what is written is read back, what is read is 64 digits
    and the text that would be written, so no two texts name a hash. -/
theorem hashText_bijection :
    (∀ h, decodeHashText (encodeHashText h) = .ok h) ∧
    (∀ s, (∃ h, decodeHashText s = .ok h) ↔
      s.toList.length = 64 ∧ ∀ c ∈ s.toList, IsHexChar c) ∧
    (∀ s h, decodeHashText s = .ok h → encodeHashText h = s) ∧
    ∀ s t h, decodeHashText s = .ok h → decodeHashText t = .ok h → s = t := by
  refine ⟨fun h => decodeHashText_eq_ok.2 rfl, exists_decodeHashText_iff, fun s h hs => ?_,
    fun s t h hs ht => ?_⟩
  · exact (decodeHashText_eq_ok.1 hs).symm
  · rw [decodeHashText_eq_ok.1 hs, decodeHashText_eq_ok.1 ht]

end BaleForGit.Server
