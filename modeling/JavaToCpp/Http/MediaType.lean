/-
  Media types with parameters, such as `multipart/form-data; boundary=x`.

  The type is two tokens with a stroke between them or one token.  Parameters follow semicolons;
  their values are tokens or quoted.

  A parameter whose name ends in a star has a value that names its character set and escapes bytes
  with percent signs.  A long value can be given in pieces, whose names end in a star and their
  number, and in one more star where they are escaped.  Both ways win over the plain one.
-/
import JavaToCpp.Text.Blank
import JavaToCpp.Text.Percent

namespace JavaToCpp.Http

structure MediaType where
  name : Text
  params : List (Text × Text)
deriving DecidableEq, Repr

namespace MediaType

def isSpecial (b : UInt8) : Bool := (Text.ofString "()<>@,;:\\\"/[]?=").contains b

def isTokenByte (b : UInt8) : Bool := 32 < b && b < 127 && !isSpecial b

def token (t : Text) : Text × Text := (t.takeWhile isTokenByte, t.dropWhile isTokenByte)

def skipBlanks (t : Text) : Text :=
  Text.ofGlyphs ((Text.glyphs t).dropWhile Text.Glyph.isBlank)

def isName (t : Text) : Bool :=
  let (main, rest) := token t
  if main.isEmpty then false
  else
    match rest with
    | [] => true
    | 47 :: rest =>
      let (sub, rest) := token rest
      !sub.isEmpty && rest.isEmpty
    | _ => false

/-- The text up to a closing quote, after what has been `seen` of it in reverse, and what follows
    the quote.  A backslash hides a special character. -/
def quotedFrom? (seen : Text) : Text → Option (Text × Text)
  | [] => none
  | 34 :: t => some (seen.reverse, t)
  | 92 :: b :: t =>
    if isSpecial b then quotedFrom? (b :: seen) t else quotedFrom? (92 :: seen) (b :: t)
  | b :: t => if b == 13 || b == 10 then none else quotedFrom? (b :: seen) t
termination_by t => t.length

def value? (t : Text) : Option (Text × Text) :=
  match t with
  | 34 :: t => quotedFrom? [] t
  | t =>
    let (v, rest) := token t
    if v.isEmpty then none else some (v, rest)

def param? (t : Text) : Option ((Text × Text) × Text) :=
  match skipBlanks t with
  | 59 :: t =>
    let (name, rest) := token (skipBlanks t)
    if name.isEmpty then none
    else
      match skipBlanks rest with
      | 61 :: rest => (value? (skipBlanks rest)).map fun (v, rest) => ((Text.lower name, v), rest)
      | _ => none
  | _ => none

/-- The parameters of a text, none if it does not make sense.  A semicolon can stand at the end; a
    parameter can be repeated with the same value.  `fuel` bounds their number. -/
def params? : (fuel : Nat) → (found : List (Text × Text)) → Text → Option (List (Text × Text))
  | 0, _, _ => none
  | fuel + 1, found, t =>
    let t := skipBlanks t
    if t.isEmpty then some found
    else
      match param? t with
      | none => if Text.strip t = Text.ofString ";" then some found else none
      | some ((name, v), rest) =>
        match found.find? fun p => p.1 == name with
        | some p => if p.2 = v then params? fuel found rest else none
        | none => params? fuel (found ++ [(name, v)]) rest

/-! ## Parameters with a star -/

def star : UInt8 := Text.byte '*'

def lookup (ps : List (Text × Text)) (name : Text) : Option Text :=
  (ps.find? fun p => p.1 == name).map Prod.snd

/-- A text in small letters.  The dotted capital I and the sign of the kelvin have small letters
    of ASCII too. -/
def small (t : Text) : Text :=
  (Text.glyphs t).flatMap fun g =>
    if g.rune == 0x130 then [Text.byte 'i']
    else if g.rune == 0x212A then [Text.byte 'k']
    else Text.lower g.bytes

def charsets : List Text := ["us-ascii", "utf-8"]

/-- The value of a text with a character set, a language and escaped bytes, each after an
    apostrophe. -/
def decode? (t : Text) : Option Text := do
  let (charset, t) ← Text.cut? "'" t
  let (_, escaped) ← Text.cut? "'" t
  if charsets.contains (small charset) then Text.percentUnescape? .path escaped else none

/-- The pieces of a value from the `n`th one on, as far as they follow each other.  The first one
    has a character set if it is escaped.  `fuel` bounds their number. -/
def pieces (ps : List (Text × Text)) (base : Text) : (fuel n : Nat) → List Text
  | 0, _ => []
  | fuel + 1, n =>
    let name := base ++ star :: Text.decimal n
    match lookup ps name, lookup ps (name ++ [star]) with
    | some v, _ => v :: pieces ps base fuel (n + 1)
    | none, some v =>
      let piece := if n = 0 then decode? v else Text.percentUnescape? .path v
      piece.getD [] :: pieces ps base fuel (n + 1)
    | none, none => []

def starred? (ps : List (Text × Text)) (base : Text) : Option Text :=
  match lookup ps (base ++ [star]) with
  | some v => decode? v
  | none =>
    let found := pieces ps base ps.length 0
    if found.isEmpty then none else some found.flatten

def base? (name : Text) : Option Text := (Text.cut? [star] name).map Prod.fst

/-- The parameters without stars; values from those with a star come first. -/
def settle (ps : List (Text × Text)) : List (Text × Text) :=
  let bases := (ps.filterMap fun p => base? p.1).eraseDups
  (bases.filterMap fun base => (starred? ps base).map fun v => (base, v)) ++
    ps.filter fun p => (base? p.1).isNone

/-! ## Media types -/

def parse? (t : Text) : Option MediaType :=
  let base := t.takeWhile (· != Text.byte ';')
  let name := Text.strip (small base)
  if isName name then
    (params? (t.length + 1) [] (t.drop base.length)).map fun ps => ⟨name, settle ps⟩
  else none

def get? (m : MediaType) (name : String) : Option Text :=
  lookup m.params name

end MediaType

end JavaToCpp.Http
