/-
  Texts as byte strings.

  A text is any list of bytes, valid UTF-8 or not, so that positions and lengths
  count bytes.  A string literal stands for its UTF-8 bytes (`ofString`).
-/
namespace JavaToCpp

abbrev Text := List UInt8

namespace Text

def ofString (s : String) : Text := s.toByteArray.data.toList

instance : Coe String Text := ⟨ofString⟩

def byte (c : Char) : UInt8 := c.toUInt8

def newline : UInt8 := 10

def blank : UInt8 := 32

def join (sep : Text) (parts : List Text) : Text := sep.intercalate parts

def times (n : Nat) (t : Text) : Text := (List.replicate n t).flatten

def stripPrefix? : (p t : Text) → Option Text
  | [], t => some t
  | _ :: _, [] => none
  | a :: p, b :: t => if a = b then stripPrefix? p t else none

def startsWith (p t : Text) : Bool := (stripPrefix? p t).isSome

/-- The place of the first end of the text that satisfies `here`, counted from `n`. -/
def placeFrom? (here : Text → Bool) (n : Nat) : Text → Option Nat
  | [] => if here [] then some n else none
  | b :: t => if here (b :: t) then some n else placeFrom? here (n + 1) t

def place? (part t : Text) : Option Nat := placeFrom? (startsWith part) 0 t

/-- What comes before and after the first occurrence of `sep`. -/
def cut? (sep t : Text) : Option (Text × Text) :=
  (place? sep t).map fun n => (t.take n, t.drop (n + sep.length))

def includes (part t : Text) : Bool := (place? part t).isSome

def endsWith (p t : Text) : Bool := startsWith p.reverse t.reverse

/-- What comes before `p` at the end of the text, or the text itself without one. -/
def stripSuffix (p t : Text) : Text :=
  match stripPrefix? p.reverse t.reverse with
  | some rest => rest.reverse
  | none => t

def trimRight (drop : UInt8 → Bool) (t : Text) : Text := (t.reverse.dropWhile drop).reverse

def trim (drop : UInt8 → Bool) (t : Text) : Text := trimRight drop (t.dropWhile drop)

/-! ## Letters and digits of ASCII -/

def isDigit (b : UInt8) : Bool := 48 ≤ b && b ≤ 57
def isUpper (b : UInt8) : Bool := 65 ≤ b && b ≤ 90
def isLower (b : UInt8) : Bool := 97 ≤ b && b ≤ 122
def isLetter (b : UInt8) : Bool := isUpper b || isLower b

def isWord (b : UInt8) : Bool := isLetter b || isDigit b || b == 95

def lowerByte (b : UInt8) : UInt8 := if isUpper b then b + 32 else b

def upperByte (b : UInt8) : UInt8 := if isLower b then b - 32 else b

def lower (t : Text) : Text := t.map lowerByte
def upper (t : Text) : Text := t.map upperByte

/-! ## Numbers -/

def decimal (n : Nat) : Text := (Nat.toDigits 10 n).map Char.toUInt8

def ofInt : Int → Text
  | .ofNat n => decimal n
  | .negSucc n => byte '-' :: decimal (n + 1)

def hexValue? (b : UInt8) : Option Nat :=
  if isDigit b then some (b.toNat - 48)
  else if 97 ≤ b && b ≤ 102 then some (b.toNat - 87)
  else if 65 ≤ b && b ≤ 70 then some (b.toNat - 55)
  else none

def hexDigit (n : Nat) : UInt8 :=
  let d := n % 16
  if d < 10 then UInt8.ofNat (48 + d) else UInt8.ofNat (87 + d)

def hexNat : (width n : Nat) → Text
  | 0, _ => []
  | width + 1, n => hexNat width (n / 16) ++ [hexDigit n]

def hex (t : Text) : Text := t.flatMap fun b => hexNat 2 b.toNat

def ofHex? : Text → Option Text
  | [] => some []
  | [_] => none
  | a :: b :: t => do
    let hi ← hexValue? a
    let lo ← hexValue? b
    let rest ← ofHex? t
    return UInt8.ofNat (hi * 16 + lo) :: rest

def toNat? (t : Text) : Option Nat :=
  if t.isEmpty || !t.all isDigit then none
  else some (t.foldl (fun n b => n * 10 + (b.toNat - 48)) 0)

def numbers (t : Text) : List Nat := (t.splitOnP fun b => !isDigit b).filterMap toNat?

/-! ## Layout -/

def padLeft (width : Nat) (t : Text) : Text := List.replicate (width - t.length) blank ++ t

def padRight (width : Nat) (t : Text) : Text := t ++ List.replicate (width - t.length) blank

/-- The order of byte strings: the first difference decides, a proper start comes first. -/
def le : Text → Text → Bool
  | [], _ => true
  | _ :: _, [] => false
  | a :: s, b :: t => if a = b then le s t else a < b

end Text

end JavaToCpp
