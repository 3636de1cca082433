import BaleForGit.Library.Utf8

set_option autoImplicit false

/-! # Bale pointer files (`pointer.rs`)

A pointer blob is JSON wrapping a `XetFileInfo`. JSON is serde's, so the calls the code makes into
`serde_json` enter as the parameter `Serde`; everything `parse_pointer` checks before handing the
text to `from_str` is modelled. -/

namespace BaleForGit

/-- What a pointer says about a file: the merkle hash (a free-form string in xet-data), its size
    and its sha256. -/
structure XetFileInfo where
  hash : String
  fileSize : Option Nat
  sha256 : Option String
deriving DecidableEq, Repr

/-- The calls into `serde_json`. -/
structure Serde where
  /-- `from_str::<XetFileInfo>`. -/
  fromStr : String → Option XetFileInfo
  /-- `to_string_pretty(&info)`. -/
  toStringPretty : XetFileInfo → String
  /-- `from_str::<Value>`, then `.get("hash")` and `.as_str()`. -/
  hashField : String → Option String

inductive PointerError where
  | tooLarge
  | notAPointer
  | json
deriving DecidableEq, Repr

/-- `POINTER_MAX_BYTES`. -/
def pointerMaxBytes : Nat := 4096

/-- `POINTER_SENTINEL`. -/
def pointerSentinel : String := "\"hash\""

/-- The characters `str::trim` strips: Unicode `White_Space`. -/
def isWhiteSpace (c : Char) : Bool :=
  let n := c.toNat
  (9 ≤ n && n ≤ 13) || n == 32 || n == 0x85 || n == 0xA0 || n == 0x1680 ||
    (0x2000 ≤ n && n ≤ 0x200A) || n == 0x2028 || n == 0x2029 || n == 0x202F || n == 0x205F ||
    n == 0x3000

def trim (s : List Char) : List Char :=
  ((s.dropWhile isWhiteSpace).reverse.dropWhile isWhiteSpace).reverse

/-- `str::as_bytes`. -/
def asBytes (s : String) : List UInt8 := s.toUTF8.data.toList

/-- `str::from_utf8`. -/
def fromUtf8 (bytes : List UInt8) : Option String := String.fromUTF8? ⟨bytes.toArray⟩

theorem asBytes_fromUtf8 {bytes : List UInt8} {s : String} (h : fromUtf8 bytes = some s) :
    asBytes s = bytes := by
  unfold fromUtf8 String.fromUTF8? at h
  split at h
  · simp only [Option.some.injEq] at h
    subst h
    rfl
  · exact absurd h (by simp)

theorem asBytes_eq (s : String) : asBytes s = Utf8.bytes s.toList := (Utf8.bytes_toList s).symm

theorem asBytes_inj {s t : String} : asBytes s = asBytes t ↔ s = t := by
  rw [asBytes_eq, asBytes_eq, Utf8.bytes_inj, String.toList_inj]

theorem fromUtf8_asBytes (s : String) : fromUtf8 (asBytes s) = some s := by
  unfold fromUtf8
  rw [asBytes_eq, Utf8.fromUTF8_bytes]

/-- `encode_pointer_string`. -/
def encodePointerString (serde : Serde) (info : XetFileInfo) : String :=
  serde.toStringPretty info ++ "\n"

section Parse

variable (fromStr : String → Option XetFileInfo)

def parsePointer (bytes : List UInt8) : Except PointerError XetFileInfo :=
  if bytes.length > pointerMaxBytes then .error .tooLarge
  else match fromUtf8 bytes with
    | none => .error .notAPointer
    | some text =>
      if pointerSentinel.toList <:+: text.toList then
        match fromStr (String.ofList (trim text.toList)) with
        | some info => .ok info
        | none => .error .json
      else .error .notAPointer

/-- What parses as a pointer is non-empty and within the cap, so a scan that skips other blobs by
    their header size alone loses no pointer. -/
theorem parsePointer_length {bytes : List UInt8} {info : XetFileInfo}
    (h : parsePointer fromStr bytes = .ok info) :
    bytes.length ≠ 0 ∧ bytes.length ≤ pointerMaxBytes := by
  refine ⟨fun hzero => ?_, ?_⟩
  · have hnil : bytes = [] := List.eq_nil_of_length_eq_zero hzero
    subst hnil
    have hempty : fromUtf8 [] = some "" := by decide
    have hsent : pointerSentinel ≠ "" := by decide
    simp [parsePointer, hempty, hsent] at h
  · by_contra hlen
    unfold parsePointer at h
    rw [if_pos (by omega)] at h
    exact absurd h (by simp)

end Parse

end BaleForGit
