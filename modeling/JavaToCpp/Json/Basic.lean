/-
  JSON values.

  A number is kept as it is written, and an object keeps its members in the order and number in
  which they are written.  `settle` reads the numbers as binary64 and makes a map of every
  object: each name once, with the last value given to it, in the order of the names.  Two texts
  mean the same if they settle to the same value.
-/
import JavaToCpp.Number.Binary64
import JavaToCpp.Text.Utf8

namespace JavaToCpp

inductive Json where
  | null
  | bool (b : Bool)
  | number (literal : Text)
  | string (t : Text)
  | array (items : List Json)
  | object (members : List (Text × Json))
deriving Repr, Inhabited

namespace Json

def int (n : Int) : Json := number (Text.ofInt n)

def nat (n : Nat) : Json := number (Text.decimal n)

/-! ## Numbers -/

/-- A decimal number: its sign, its digits and the power of ten to multiply them by. -/
structure Decimal where
  negative : Bool
  digits : Nat
  exponent : Int
deriving DecidableEq, Repr

def digitsValue (t : Text) : Nat := (Text.toNat? t).getD 0

/-- The value of the digits of a power of ten.  It is far out of range from ten thousand on, and
    further digits do not count. -/
def powerValue (t : Text) : Nat :=
  t.foldl (fun n b => if n < 10000 then n * 10 + (b.toNat - 48) else n) 0

def signedPower : Text → Int
  | 45 :: t => -(powerValue t)
  | 43 :: t => powerValue t
  | t => powerValue t

/-- How many digits of a number are read.  A number of more digits is not half way between two
    neighbours in binary64, so that of the others it only matters whether they are all zeros. -/
def digitsRead : Nat := 800

def significand (t : Text) : Nat × Nat :=
  let t := t.dropWhile (· == 48)
  let head := digitsValue (t.take digitsRead)
  let others := t.drop digitsRead
  if others.all (· == 48) then (head, others.length) else (head * 10 + 1, others.length - 1)

def decimalOf (literal : Text) : Decimal :=
  let (negative, t) := match literal with
    | 45 :: t => (true, t)
    | t => (false, t)
  let whole := t.takeWhile Text.isDigit
  let t := t.drop whole.length
  let (fraction, t) := match t with
    | 46 :: t => (t.takeWhile Text.isDigit, t.dropWhile Text.isDigit)
    | t => ([], t)
  let (digits, power) := significand (whole ++ fraction)
  ⟨negative, digits, signedPower (t.drop 1) - fraction.length + power⟩

def toBinary64? (literal : Text) : Option Binary64 :=
  let d := decimalOf literal
  Binary64.ofDecimal? d.negative d.digits d.exponent

/-- Digits with a point or zeros, the first digit standing for `10 ^ lead`. -/
def positional (digits : Text) (lead : Int) : Text :=
  if lead < 0 then "0." ++ List.replicate (-lead - 1).toNat (Text.byte '0') ++ digits
  else
    let whole := lead.toNat + 1
    if digits.length ≤ whole then digits ++ List.replicate (whole - digits.length) (Text.byte '0')
    else digits.take whole ++ "." ++ digits.drop whole

/-- Digits with a power of ten, the first digit standing for `10 ^ lead`. -/
def scientific (digits : Text) (lead : Int) : Text :=
  let fraction : Text := if digits.length ≤ 1 then [] else "." ++ digits.drop 1
  let sign : Text := if lead < 0 then "-" else "+"
  digits.take 1 ++ fraction ++ "e" ++ sign ++ Text.decimal lead.natAbs

/-- A number as it is written: the shortest decimal, with a power of ten only below `10 ^ -6` and
    from `10 ^ 21` on. -/
def writeNumber (x : Binary64) : Text :=
  let (digits, k) := x.shortest
  let ds := Text.decimal digits
  let lead : Int := k + ds.length - 1
  let sign : Text := if x.negative then "-" else []
  sign ++
    if digits = 0 then Text.ofString "0"
    else if lead < -6 || 21 ≤ lead then scientific ds lead
    else positional ds lead

/-! ## Objects -/

/-- Gives a name a value in a list of members with one value for each name, in the order of the
    names. -/
def put (name : Text) (v : Json) : List (Text × Json) → List (Text × Json)
  | [] => [(name, v)]
  | (n, w) :: ms =>
    if n = name then (name, v) :: ms
    else if Text.le name n then (name, v) :: (n, w) :: ms
    else (n, w) :: put name v ms

/-- The members as a map: each name once, with its last value, in order. -/
def toMap (members : List (Text × Json)) : List (Text × Json) :=
  members.foldl (fun m (name, v) => put name v m) []

/-- The value of a name in a list of members, the last one given. -/
def findIn? (name : Text) (members : List (Text × Json)) : Option Json :=
  (members.reverse.find? fun m => m.1 == name).map Prod.snd

def find? (name : Text) : Json → Option Json
  | object members => findIn? name members
  | _ => none

mutual

/-- The value with its numbers read and its objects made into maps; none if a number is too
    great. -/
def settle : Json → Option Json
  | null => some null
  | bool b => some (bool b)
  | number literal => (toBinary64? literal).map fun x => number (writeNumber x)
  | string t => some (string t)
  | array items => (settleItems items).map array
  | object members => (settleMembers members).map fun ms => object (toMap ms)

def settleItems : List Json → Option (List Json)
  | [] => some []
  | v :: vs => do
    let v ← settle v
    return v :: (← settleItems vs)

def settleMembers : List (Text × Json) → Option (List (Text × Json))
  | [] => some []
  | (name, v) :: ms => do
    let v ← settle v
    return (name, v) :: (← settleMembers ms)

end

/-! ## Text -/

/-- A character of a string as it is written.  Characters that matter in markup are written as
    escapes, and so are the two separators of lines and paragraphs. -/
def escape (g : Text.Glyph) : Text :=
  let unicode (n : Nat) : Text := "\\u" ++ Text.hexNat 4 n
  if g.broken then unicode Text.replacement
  else if g.rune = 34 then "\\\""
  else if g.rune = 92 then "\\\\"
  else if g.rune = 8 then "\\b"
  else if g.rune = 9 then "\\t"
  else if g.rune = 10 then "\\n"
  else if g.rune = 12 then "\\f"
  else if g.rune = 13 then "\\r"
  else if g.rune < 32 || g.rune = 60 || g.rune = 62 || g.rune = 38 || g.rune = 0x2028 ||
      g.rune = 0x2029 then unicode g.rune
  else g.bytes

def writeString (t : Text) : Text := "\"" ++ (Text.glyphs t).flatMap escape ++ "\""

mutual

def write : Json → Text
  | null => "null"
  | bool true => "true"
  | bool false => "false"
  | number literal => literal
  | string t => writeString t
  | array items => "[" ++ Text.join "," (writeItems items) ++ "]"
  | object members => "\x7b" ++ Text.join "," (writeMembers members) ++ "\x7d"

def writeItems : List Json → List Text
  | [] => []
  | v :: vs => write v :: writeItems vs

def writeMembers : List (Text × Json) → List Text
  | [] => []
  | (name, v) :: ms => (writeString name ++ ":" ++ write v) :: writeMembers ms

end

end Json

end JavaToCpp
