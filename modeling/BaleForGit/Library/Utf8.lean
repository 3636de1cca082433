import Mathlib.Data.List.Infix

set_option autoImplicit false

/-! # Characters and bytes

The UTF-8 bytes of a text as a list. A text is known by its bytes, and so is what it begins with
(`bytes_isPrefix_iff`). A byte below 128 is a character of its own and part of no other, so texts of
ASCII characters can be read byte by byte. -/

namespace Utf8

/-- The bytes of the characters. -/
def bytes (s : List Char) : List UInt8 := s.flatMap String.utf8EncodeChar

@[simp] theorem bytes_nil : bytes [] = [] := rfl

@[simp] theorem bytes_cons (c : Char) (s : List Char) :
    bytes (c :: s) = String.utf8EncodeChar c ++ bytes s := rfl

@[simp] theorem bytes_append (s t : List Char) : bytes (s ++ t) = bytes s ++ bytes t := by
  simp [bytes]

theorem data_utf8Encode (s : List Char) : s.utf8Encode.data.toList = bytes s := by
  induction s with
  | nil => rfl
  | cons c s ih =>
      rw [List.utf8Encode_cons, ByteArray.data_append, Array.toList_append, ih,
        List.utf8Encode_singleton, List.toList_data_toByteArray, bytes_cons]

/-- What `toUTF8` holds. -/
theorem bytes_toList (s : String) : bytes s.toList = s.toUTF8.data.toList := by
  rw [String.toUTF8_eq_toByteArray, ← String.utf8Encode_toList, data_utf8Encode]

theorem toByteArray_bytes (s : List Char) : (⟨(bytes s).toArray⟩ : ByteArray) = s.utf8Encode := by
  refine ByteArray.ext ?_
  rw [← data_utf8Encode, Array.toArray_toList]

theorem fromUTF8_bytes (s : String) : String.fromUTF8? ⟨(bytes s.toList).toArray⟩ = some s := by
  rw [toByteArray_bytes, String.utf8Encode_toList]
  unfold String.fromUTF8?
  rw [dif_pos s.isValidUTF8]
  rfl

/-- **Texts begin alike when their bytes do.** -/
theorem bytes_isPrefix_iff {s t : List Char} : bytes s <+: bytes t ↔ s <+: t := by
  constructor
  · rintro ⟨rest, hrest⟩
    refine List.isPrefix_of_utf8Encode_append_eq_utf8Encode rest.toByteArray ?_
    refine ByteArray.ext (Array.ext' ?_)
    rw [ByteArray.data_append, Array.toList_append, data_utf8Encode, data_utf8Encode,
      List.toList_data_toByteArray, hrest]
  · rintro ⟨rest, rfl⟩
    exact ⟨bytes rest, (bytes_append s rest).symm⟩

theorem bytes_inj {s t : List Char} : bytes s = bytes t ↔ s = t := by
  constructor
  · intro h
    have hst : s <+: t := bytes_isPrefix_iff.1 (h ▸ List.prefix_rfl)
    have hts : t <+: s := bytes_isPrefix_iff.1 (h ▸ List.prefix_rfl)
    exact hst.eq_of_length (le_antisymm hst.length_le hts.length_le)
  · rintro rfl
    rfl

/-! ## ASCII -/

/-- The byte of an ASCII character. -/
def byte (c : Char) : UInt8 := UInt8.ofNat c.toNat

theorem encodeChar_ascii {c : Char} (hc : c.toNat < 128) : String.utf8EncodeChar c = [byte c] := by
  have hle : c.val.toNat ≤ 0x7f := Nat.le_of_lt_succ hc
  unfold String.utf8EncodeChar
  simp only [hle, if_true]
  rfl

/-- Another character has no byte below 128. -/
theorem le_of_mem_encodeChar {c : Char} (hc : ¬ c.toNat < 128) {b : UInt8}
    (hb : b ∈ String.utf8EncodeChar c) : 128 ≤ b.toNat := by
  have hgt : ¬ c.val.toNat ≤ 0x7f := fun h => hc (Nat.lt_succ_of_le h)
  have hlead : ∀ n, n < 128 → 128 ≤ (UInt8.ofNat (n + 128)).toNat := by
    intro n hn
    rw [UInt8.toNat_ofNat']
    omega
  unfold String.utf8EncodeChar at hb
  simp only [hgt, if_false] at hb
  split_ifs at hb <;>
    simp only [List.mem_cons, List.not_mem_nil, or_false] at hb <;>
    rcases hb with rfl | rfl | rfl | rfl <;>
    exact hlead _ (by omega)

theorem toNat_byte {c : Char} (hc : c.toNat < 128) : (byte c).toNat = c.toNat := by
  unfold byte
  rw [UInt8.toNat_ofNat']
  omega

theorem byte_inj {c d : Char} (hc : c.toNat < 128) (hd : d.toNat < 128) :
    byte c = byte d ↔ c = d := by
  rw [← UInt8.toNat_inj, toNat_byte hc, toNat_byte hd]
  constructor
  · intro h
    rw [← Char.ofNat_toNat c, h, Char.ofNat_toNat]
  · rintro rfl
    rfl

theorem bytes_ascii {s : List Char} (hs : ∀ c ∈ s, c.toNat < 128) : bytes s = s.map byte := by
  induction s with
  | nil => rfl
  | cons c s ih =>
      rw [bytes_cons, encodeChar_ascii (hs c List.mem_cons_self), List.map_cons,
        ih (fun d hd => hs d (List.mem_cons_of_mem c hd))]
      rfl

/-- **A byte below 128 is a character.** -/
theorem mem_bytes_iff {c : Char} (hc : c.toNat < 128) {s : List Char} :
    byte c ∈ bytes s ↔ c ∈ s := by
  induction s with
  | nil => simp
  | cons d s ih =>
      rw [bytes_cons, List.mem_append, List.mem_cons, ih]
      refine or_congr_left ?_
      by_cases hd : d.toNat < 128
      · rw [encodeChar_ascii hd, List.mem_singleton, byte_inj hc hd]
      · refine iff_of_false (fun h => ?_) (fun h => hd (h ▸ hc))
        have := le_of_mem_encodeChar hd h
        rw [toNat_byte hc] at this
        omega

/-- A text whose bytes are all ASCII is one of ASCII characters. -/
theorem ascii_of_bytes {s : List Char} (hs : ∀ b ∈ bytes s, b.toNat < 128) :
    ∀ c ∈ s, c.toNat < 128 := by
  intro c hc
  by_contra hbig
  obtain ⟨b, hb⟩ := List.exists_mem_of_ne_nil _ (String.utf8EncodeChar_ne_nil (c := c))
  have hmem : b ∈ bytes s := List.mem_flatMap.2 ⟨c, hc, hb⟩
  have := le_of_mem_encodeChar hbig hb
  have := hs b hmem
  omega

theorem length_bytes_ascii {s : List Char} (hs : ∀ c ∈ s, c.toNat < 128) :
    (bytes s).length = s.length := by
  rw [bytes_ascii hs, List.length_map]

end Utf8
