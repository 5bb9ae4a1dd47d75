/-
  Bytes as letters, digits, `-` and `_`.

  Three bytes are written as four characters; the last one or two bytes take two or three
  characters and nothing is added to them.  Line ends between characters are passed over when
  reading.
-/
import JavaToCpp.Text.Basic

namespace JavaToCpp.Text

def base64Digit (n : Nat) : UInt8 :=
  let n := n % 64
  if n < 26 then UInt8.ofNat (65 + n)
  else if n < 52 then UInt8.ofNat (71 + n)
  else if n < 62 then UInt8.ofNat (n - 4)
  else if n = 62 then byte '-'
  else byte '_'

def base64Value? (b : UInt8) : Option Nat :=
  if isUpper b then some (b.toNat - 65)
  else if isLower b then some (b.toNat - 71)
  else if isDigit b then some (b.toNat + 4)
  else if b == byte '-' then some 62
  else if b == byte '_' then some 63
  else none

def toBase64Url : Text → Text
  | a :: b :: c :: t =>
    let n := (a.toNat * 256 + b.toNat) * 256 + c.toNat
    [n / 262144, n / 4096, n / 64, n].map base64Digit ++ toBase64Url t
  | [a, b] =>
    let n := (a.toNat * 256 + b.toNat) * 4
    [n / 4096, n / 64, n].map base64Digit
  | [a] => [a.toNat / 4, a.toNat * 16].map base64Digit
  | [] => []

/-- The bytes of groups of six bits; bits beyond the last whole byte are dropped. -/
def ofSextets? : List Nat → Option Text
  | a :: b :: c :: d :: rest =>
    let n := ((a * 64 + b) * 64 + c) * 64 + d
    (ofSextets? rest).map ([UInt8.ofNat (n / 65536), UInt8.ofNat (n / 256), UInt8.ofNat n] ++ ·)
  | [a, b, c] =>
    let n := (a * 64 + b) * 64 + c
    some [UInt8.ofNat (n / 1024), UInt8.ofNat (n / 4)]
  | [a, b] => some [UInt8.ofNat ((a * 64 + b) / 16)]
  | [_] => none
  | [] => some []

def ofBase64Url? (t : Text) : Option Text := do
  let sextets ← (t.filter fun b => b != 10 && b != 13).mapM base64Value?
  ofSextets? sextets

end JavaToCpp.Text
