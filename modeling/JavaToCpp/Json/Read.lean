/-
  Reading JSON.

  A value is read from the front of a text; `readFirst` gives what follows it and `read` asks for
  nothing but white space there.  A text that ends inside a value is told apart from one that can
  not become a value whatever follows.  Values nest at most ten thousand deep.

  Escapes in strings are resolved; halves of surrogate pairs and bytes that cannot be decoded
  become replacement characters.
-/
import JavaToCpp.Json.Basic

namespace JavaToCpp.Json

inductive Fault where
  | incomplete
  | malformed
deriving DecidableEq, Repr

def isSpace (b : UInt8) : Bool := b == 32 || b == 9 || b == 10 || b == 13

def skipSpace (t : Text) : Text := t.dropWhile isSpace

/-- The value of four digits of base 16 at the front of a text. -/
def hexFour? : Text → Except Fault (Nat × Text)
  | a :: b :: c :: d :: t =>
    match Text.hexValue? a, Text.hexValue? b, Text.hexValue? c, Text.hexValue? d with
    | some a, some b, some c, some d => .ok (((a * 16 + b) * 16 + c) * 16 + d, t)
    | _, _, _, _ => .error .malformed
  | short => .error (if short.all fun b => (Text.hexValue? b).isSome then .incomplete else .malformed)

def surrogatePair? (high low : Nat) : Option Nat :=
  if 0xD800 ≤ high && high < 0xDC00 && 0xDC00 ≤ low && low < 0xE000 then
    some ((high - 0xD800) * 1024 + (low - 0xDC00) + 0x10000)
  else none

/-- The character of a numeric escape whose first number is `n`, and what follows. -/
def unicodeEscape (n : Nat) (t : Text) : Text × Text :=
  match t with
  | 92 :: 117 :: rest =>
    match hexFour? rest with
    | .ok (m, after) =>
      match surrogatePair? n m with
      | some rune => (Text.encodeRune rune, after)
      | none => (Text.encodeRune n, t)
    | .error _ => (Text.encodeRune n, t)
  | _ => (Text.encodeRune n, t)

def letterEscape? (b : UInt8) : Option UInt8 :=
  if b == 34 || b == 92 || b == 47 then some b
  else if b == 98 then some 8
  else if b == 102 then some 12
  else if b == 110 then some 10
  else if b == 114 then some 13
  else if b == 116 then some 9
  else none

/-- The characters of a string up to its closing quote, those before in `found`, the latest
    first. -/
def readChars : (fuel : Nat) → (found : Text) → Text → Except Fault (Text × Text)
  | 0, _, _ => .error .incomplete
  | _ + 1, _, [] => .error .incomplete
  | _ + 1, found, 34 :: t => .ok (found.reverse, t)
  | _ + 1, _, [92] => .error .incomplete
  | fuel + 1, found, 92 :: 117 :: t =>
    match hexFour? t with
    | .error e => .error e
    | .ok (n, t) =>
      let (bytes, t) := unicodeEscape n t
      readChars fuel (bytes.reverse ++ found) t
  | fuel + 1, found, 92 :: b :: t =>
    match letterEscape? b with
    | some c => readChars fuel (c :: found) t
    | none => .error .malformed
  | fuel + 1, found, b :: t =>
    if b < 32 then .error .malformed else readChars fuel (b :: found) t

def readString (fuel : Nat) (t : Text) : Except Fault (Text × Text) :=
  (readChars fuel [] t).map fun (bytes, rest) => (Text.toUtf8 bytes, rest)

def readDigits (t : Text) : Except Fault (Text × Text) :=
  match t.takeWhile Text.isDigit, t.dropWhile Text.isDigit with
  | [], [] => .error .incomplete
  | [], _ => .error .malformed
  | ds, rest => .ok (ds, rest)

/-- The whole part of a number: a zero, or digits that do not start with one. -/
def readWhole : Text → Except Fault (Text × Text)
  | 48 :: t => .ok ([48], t)
  | t => readDigits t

def readFraction : Text → Except Fault (Text × Text)
  | 46 :: t => (readDigits t).map fun (ds, rest) => (46 :: ds, rest)
  | t => .ok ([], t)

def readExponent : Text → Except Fault (Text × Text)
  | e :: t =>
    if e == 101 || e == 69 then
      match t with
      | [] => .error .incomplete
      | s :: t =>
        if s == 43 || s == 45 then (readDigits t).map fun (ds, rest) => (e :: s :: ds, rest)
        else (readDigits (s :: t)).map fun (ds, rest) => (e :: ds, rest)
    else .ok ([], e :: t)
  | [] => .ok ([], [])

def readNumber (t : Text) : Except Fault (Text × Text) := do
  let (sign, t) : Text × Text := match t with
    | 45 :: t => ([45], t)
    | t => ([], t)
  let (whole, t) ← readWhole t
  let (fraction, t) ← readFraction t
  let (exponent, t) ← readExponent t
  return (sign ++ whole ++ fraction ++ exponent, t)

def readWord : (word t : Text) → Except Fault Text
  | [], t => .ok t
  | _ :: _, [] => .error .incomplete
  | a :: word, b :: t => if a = b then readWord word t else .error .malformed

def maxDepth : Nat := 10000

mutual

/-- A value at a depth, and what follows it.  Every byte that is read takes at most two off `fuel`,
    so that twice the length of the text is enough for all of it. -/
def readValue : (fuel depth : Nat) → Text → Except Fault (Json × Text)
  | 0, _, _ => .error .incomplete
  | fuel + 1, depth, t =>
    match skipSpace t with
    | [] => .error .incomplete
    | 34 :: t => (readString fuel t).map fun (s, rest) => (string s, rest)
    | 91 :: t =>
      if maxDepth ≤ depth then .error .malformed
      else
        match skipSpace t with
        | 93 :: rest => .ok (array [], rest)
        | t => readItems fuel (depth + 1) [] t
    | 123 :: t =>
      if maxDepth ≤ depth then .error .malformed
      else
        match skipSpace t with
        | 125 :: rest => .ok (object [], rest)
        | t => readMembers fuel (depth + 1) [] t
    | 110 :: t => (readWord "ull" t).map fun rest => (null, rest)
    | 116 :: t => (readWord "rue" t).map fun rest => (bool true, rest)
    | 102 :: t => (readWord "alse" t).map fun rest => (bool false, rest)
    | t => (readNumber t).map fun (literal, rest) => (number literal, rest)

/-- The items of an array from the next one on, those before in `found`, the latest first. -/
def readItems : (fuel depth : Nat) → (found : List Json) → Text → Except Fault (Json × Text)
  | 0, _, _, _ => .error .incomplete
  | fuel + 1, depth, found, t =>
    match readValue fuel depth t with
    | .error e => .error e
    | .ok (v, t) =>
      match skipSpace t with
      | [] => .error .incomplete
      | 44 :: t => readItems fuel depth (v :: found) t
      | 93 :: t => .ok (array (v :: found).reverse, t)
      | _ => .error .malformed

/-- The members of an object from the next one on, those before in `found`, the latest first. -/
def readMembers : (fuel depth : Nat) → (found : List (Text × Json)) → Text →
    Except Fault (Json × Text)
  | 0, _, _, _ => .error .incomplete
  | fuel + 1, depth, found, t =>
    match skipSpace t with
    | [] => .error .incomplete
    | 34 :: t =>
      match readString fuel t with
      | .error e => .error e
      | .ok (name, t) =>
        match skipSpace t with
        | [] => .error .incomplete
        | 58 :: t =>
          match readValue fuel depth t with
          | .error e => .error e
          | .ok (v, t) =>
            match skipSpace t with
            | [] => .error .incomplete
            | 44 :: t => readMembers fuel depth ((name, v) :: found) t
            | 125 :: t => .ok (object ((name, v) :: found).reverse, t)
            | _ => .error .malformed
        | _ => .error .malformed
    | _ => .error .malformed

end

def readFirst (t : Text) : Except Fault (Json × Text) := readValue (2 * t.length + 2) 0 t

def read (t : Text) : Except Fault Json := do
  let (v, rest) ← readFirst t
  if (skipSpace rest).isEmpty then return v else throw .malformed

end JavaToCpp.Json
