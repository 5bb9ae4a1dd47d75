/-
  Identifiers of records.

  An identifier is sixteen bytes.  It is written as 32 digits of base 16 in five groups; it is
  also read without the hyphens, between two other characters such as braces, or after
  `urn:uuid:`.
-/
import JavaToCpp.Text.Basic

namespace JavaToCpp

structure Uuid where
  bytes : Text
deriving DecidableEq, Repr, Inhabited

namespace Uuid

def nil : Uuid := ⟨List.replicate 16 0⟩

def toText (u : Uuid) : Text :=
  let h := Text.hex u.bytes
  Text.join "-" [h.take 8, (h.drop 8).take 4, (h.drop 12).take 4, (h.drop 16).take 4, h.drop 20]

/-- The identifier of 32 digits in five groups; what follows them does not matter. -/
def ofGroups? (t : Text) : Option Uuid :=
  let hyphen (i : Nat) : Bool := t[i]? == some (Text.byte '-')
  if hyphen 8 && hyphen 13 && hyphen 18 && hyphen 23 then
    let digits := t.take 8 ++ (t.drop 9).take 4 ++ (t.drop 14).take 4 ++ (t.drop 19).take 4 ++
      (t.drop 24).take 12
    (Text.ofHex? digits).map Uuid.mk
  else none

def parse? (t : Text) : Option Uuid :=
  if t.length = 36 then ofGroups? t
  else if t.length = 45 then
    if Text.lower (t.take 9) = Text.ofString "urn:uuid:" then ofGroups? (t.drop 9) else none
  else if t.length = 38 then ofGroups? (t.drop 1)
  else if t.length = 32 then (Text.ofHex? t).map Uuid.mk
  else none

end Uuid

end JavaToCpp
