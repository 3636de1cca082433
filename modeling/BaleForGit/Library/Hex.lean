import Mathlib.Data.List.Basic

set_option autoImplicit false

/-! # Lower-case hexadecimal

Bytes as texts of two digits each. Only lower-case digits are read, so that each text that is read is
the one that is written (`encode_of_decode`). -/

namespace Hex

def digit (d : Nat) : UInt8 := UInt8.ofNat (if d < 10 then 48 + d else 87 + d)

/-- The value of a digit; capitals are none. -/
def value (c : UInt8) : Option Nat :=
  if 48 ≤ c.toNat ∧ c.toNat ≤ 57 then some (c.toNat - 48)
  else if 97 ≤ c.toNat ∧ c.toNat ≤ 102 then some (c.toNat - 87)
  else none

def encode (bytes : List UInt8) : List UInt8 :=
  bytes.flatMap (fun b => [digit (b.toNat / 16), digit (b.toNat % 16)])

def decode : List UInt8 → Option (List UInt8)
  | [] => some []
  | [_] => none
  | hi :: lo :: rest =>
    (value hi).bind (fun h => (value lo).bind (fun l =>
      (decode rest).map (fun bytes => UInt8.ofNat (h * 16 + l) :: bytes)))

@[simp] theorem encode_nil : encode [] = [] := rfl

theorem encode_cons (b : UInt8) (bytes : List UInt8) :
    encode (b :: bytes) = digit (b.toNat / 16) :: digit (b.toNat % 16) :: encode bytes := rfl

@[simp] theorem length_encode (bytes : List UInt8) : (encode bytes).length = 2 * bytes.length := by
  induction bytes with
  | nil => rfl
  | cons b bytes ih =>
      rw [encode_cons, List.length_cons, List.length_cons, ih, List.length_cons]
      omega

theorem toNat_digit {d : Nat} (hd : d < 16) :
    (digit d).toNat = if d < 10 then 48 + d else 87 + d := by
  unfold digit
  rw [UInt8.toNat_ofNat']
  split_ifs <;> omega

/-- **A digit has its value.** -/
theorem value_digit {d : Nat} (hd : d < 16) : value (digit d) = some d := by
  unfold value
  rw [toNat_digit hd]
  by_cases hten : d < 10
  · rw [if_pos hten, if_pos (by omega)]
    congr 1
    omega
  · rw [if_neg hten, if_neg (by omega), if_pos (by omega)]
    congr 1
    omega

/-- What has a value is a digit. -/
theorem digit_of_value {c : UInt8} {d : Nat} (h : value c = some d) : d < 16 ∧ digit d = c := by
  have hbound : d < 16 ∧ c.toNat = if d < 10 then 48 + d else 87 + d := by
    unfold value at h
    split_ifs at h with hnum halpha
    · have hd := Option.some.inj h
      rw [if_pos (by omega)]
      omega
    · have hd := Option.some.inj h
      rw [if_neg (by omega)]
      omega
  refine ⟨hbound.1, UInt8.toNat_inj.1 ?_⟩
  rw [toNat_digit hbound.1, hbound.2]

/-- **What is written is read back.** -/
theorem decode_encode (bytes : List UInt8) : decode (encode bytes) = some bytes := by
  induction bytes with
  | nil => rfl
  | cons b bytes ih =>
      have hb := b.toNat_lt
      rw [encode_cons, decode, value_digit (by omega), value_digit (by omega), ih]
      have hbyte : UInt8.ofNat (b.toNat / 16 * 16 + b.toNat % 16) = b := by
        rw [Nat.div_add_mod', UInt8.ofNat_toNat]
      simp only [Option.bind_some, Option.map_some, hbyte]

/-- **What is read are pairs of digits.** -/
theorem isSome_decode_iff (text : List UInt8) :
    (decode text).isSome ↔ text.length % 2 = 0 ∧ ∀ c ∈ text, (value c).isSome := by
  induction text using decode.induct with
  | case1 => simp [decode]
  | case2 c => simp [decode]
  | case3 hi lo rest ih =>
      have hlen : (hi :: lo :: rest).length % 2 = rest.length % 2 := by
        rw [List.length_cons, List.length_cons]
        omega
      rw [hlen, List.forall_mem_cons, List.forall_mem_cons]
      cases hhi : value hi with
      | none => simp [decode, hhi]
      | some x =>
          cases hlo : value lo with
          | none => simp [decode, hhi, hlo]
          | some y => simp [decode, hhi, hlo, ih]

theorem getElem?_encode_even (bytes : List UInt8) (i : Nat) :
    (encode bytes)[2 * i]? = bytes[i]?.map (fun b => digit (b.toNat / 16)) := by
  induction bytes generalizing i with
  | nil => rfl
  | cons b bytes ih =>
      cases i with
      | zero => rfl
      | succ i => exact ih i

theorem getElem?_encode_odd (bytes : List UInt8) (i : Nat) :
    (encode bytes)[2 * i + 1]? = bytes[i]?.map (fun b => digit (b.toNat % 16)) := by
  induction bytes generalizing i with
  | nil => rfl
  | cons b bytes ih =>
      cases i with
      | zero => rfl
      | succ i => exact ih i

/-- **What is read is what would be written.** -/
theorem encode_of_decode {text bytes : List UInt8} (h : decode text = some bytes) :
    encode bytes = text := by
  induction text using decode.induct generalizing bytes with
  | case1 =>
      rw [← Option.some.inj h]
      rfl
  | case2 c => cases h
  | case3 hi lo rest ih =>
      rw [decode] at h
      obtain ⟨x, hx, h⟩ := Option.bind_eq_some_iff.1 h
      obtain ⟨y, hy, h⟩ := Option.bind_eq_some_iff.1 h
      obtain ⟨tail, htail, rfl⟩ := Option.map_eq_some_iff.1 h
      obtain ⟨hx16, hhi⟩ := digit_of_value hx
      obtain ⟨hy16, hlo⟩ := digit_of_value hy
      have hnat : (UInt8.ofNat (x * 16 + y)).toNat = x * 16 + y := by
        rw [UInt8.toNat_ofNat']
        omega
      have hdiv : (x * 16 + y) / 16 = x := by omega
      have hmod : (x * 16 + y) % 16 = y := by omega
      rw [encode_cons, hnat, hdiv, hmod, hhi, hlo, ih htail]

end Hex
