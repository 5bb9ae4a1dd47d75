/-
  Bytes written as a percent sign and two digits.

  Each part of a URL has bytes that it keeps; all others are escaped.  A query writes a blank as a
  plus sign.
-/
import JavaToCpp.Text.Basic

namespace JavaToCpp.Text

inductive UrlPart where
  | user
  | host
  | path
  | query
deriving DecidableEq, Repr

def oneOf (chars : String) (b : UInt8) : Bool := (ofString chars).contains b

def UrlPart.keeps (p : UrlPart) (b : UInt8) : Bool :=
  isLetter b || isDigit b || oneOf "-_.~" b ||
    match p with
    | user => oneOf "$&+,;=" b
    | host => oneOf "!$&'()*+,;=:[]<>\"" b
    | path => oneOf "$&+,/:;=@" b
    | query => false

def escapedByte (b : UInt8) : Text := byte '%' :: upper (hexNat 2 b.toNat)

def percentEscape (p : UrlPart) (t : Text) : Text :=
  t.flatMap fun b =>
    if p.keeps b then [b]
    else if p = .query && b == blank then [byte '+']
    else escapedByte b

/-- The text that escapes stand for; none if a percent sign is not followed by two digits. -/
def percentUnescape? (p : UrlPart) : Text → Option Text
  | [] => some []
  | 37 :: a :: b :: t =>
    match hexValue? a, hexValue? b with
    | some a, some b => (percentUnescape? p t).map (UInt8.ofNat (16 * a + b) :: ·)
    | _, _ => none
  | b :: t =>
    if b == 37 then none
    else (percentUnescape? p t).map ((if p = .query && b == 43 then blank else b) :: ·)

end JavaToCpp.Text
