import Mathlib.Data.List.Basic
import BaleForGit.Server.Types

set_option autoImplicit false

/-! # Header texts and secrets (`bale-server-http`)

What handlers read off a request: the text of a header, a bearer after its prefix, hexadecimal and
decimal numbers as the standard library parses them, and the comparison of secrets that takes the
same time wherever they differ. Texts are lists of characters. -/

namespace BaleForGit.Server

/-! ## Texts -/

/-- `HeaderValue::to_str`: visible ASCII, blanks and tabs. -/
def headerText (value : List UInt8) : Option (List Char) :=
  if value.all (fun b => b = 9 || (32 ≤ b && b < 127)) then
    some (value.map (fun b => Char.ofNat b.toNat))
  else none

/-- ASCII white space. -/
def isBlank (c : Char) : Bool := c = ' ' || (9 ≤ c.toNat && c.toNat ≤ 13)

/-- `str::trim`, of ASCII text. -/
def trim (text : List Char) : List Char :=
  ((text.dropWhile isBlank).reverse.dropWhile isBlank).reverse

/-- `str::strip_prefix`. -/
def stripPrefix (start text : List Char) : Option (List Char) :=
  if start <+: text then some (text.drop start.length) else none

/-- The text of an `authorization` header after `Bearer `. -/
def bearer (authorization : Option (List UInt8)) : Option (List Char) :=
  (authorization.bind headerText).bind (stripPrefix "Bearer ".toList)

/-! ## Numbers -/

/-- The value of a hexadecimal digit, in either case. -/
def hexValue (c : Char) : Option Nat :=
  if '0' ≤ c ∧ c ≤ '9' then some (c.toNat - 48)
  else if 'a' ≤ c ∧ c ≤ 'f' then some (c.toNat - 87)
  else if 'A' ≤ c ∧ c ≤ 'F' then some (c.toNat - 55)
  else none

/-- `hex::decode`. -/
def hexDecode : List Char → Option (List UInt8)
  | [] => some []
  | [_] => none
  | hi :: lo :: rest =>
    (hexValue hi).bind (fun h => (hexValue lo).bind (fun l =>
      (hexDecode rest).map (fun bytes => UInt8.ofNat (h * 16 + l) :: bytes)))

/-! ## Secrets -/

/-- `ct_eq`: the length difference and all byte differences, or-ed together. -/
def ctEq (a b : List UInt8) : Bool :=
  (a.zip b).foldl (fun acc xy => acc ||| UInt32.ofNat (xy.1 ^^^ xy.2).toNat)
    (UInt32.ofNat (a.length ^^^ b.length)) == 0

end BaleForGit.Server
