/-
  Connection texts.

  A connection text lists settings: a keyword, an equals sign and a value, apart from each other by
  white space.  White space around the equals sign does not count.  A value in single quotes can
  hold white space; a backslash takes the character after it as it is.
-/
import JavaToCpp.Text.Blank
import JavaToCpp.Text.Quoted

namespace JavaToCpp.Keywords

open Text (Glyph)

inductive Fault where
  | noEquals (keyword : Text)
  | lastBackslash
  | openQuote
deriving DecidableEq, Repr

def Fault.message : Fault → Text
  | noEquals keyword =>
    "missing \"=\" after " ++ Text.quoted keyword ++ " in connection info string\""
  | lastBackslash => "missing character after backslash"
  | openQuote => "unterminated quoted string literal in connection string"

def isAscii (c : Char) (g : Glyph) : Bool := g.rune == c.toNat

/-- Reads a value up to the next white space; gives what follows. -/
def plainValue : List Glyph → Except Fault (Text × List Glyph)
  | [] => .ok ([], [])
  | g :: gs =>
    if g.isBlank then .ok ([], gs)
    else if isAscii '\\' g then
      match gs with
      | [] => .error .lastBackslash
      | g :: gs => (plainValue gs).map fun (v, rest) => (g.bytes ++ v, rest)
    else (plainValue gs).map fun (v, rest) => (g.bytes ++ v, rest)

def quotedValue : List Glyph → Except Fault (Text × List Glyph)
  | [] => .error .openQuote
  | g :: gs =>
    if isAscii '\'' g then .ok ([], gs)
    else if isAscii '\\' g then
      match gs with
      | [] => .error .openQuote
      | g :: gs => (quotedValue gs).map fun (v, rest) => (g.bytes ++ v, rest)
    else (quotedValue gs).map fun (v, rest) => (g.bytes ++ v, rest)

def value : List Glyph → Except Fault (Text × List Glyph)
  | [] => .ok ([], [])
  | g :: gs => if isAscii '\'' g then quotedValue gs else plainValue (g :: gs)

def isPart (g : Glyph) : Bool := !g.isBlank && !isAscii '=' g

def readAll : (fuel : Nat) → List Glyph → Except Fault (List (Text × Text))
  | 0, _ => .ok []
  | fuel + 1, gs =>
    let gs := gs.dropWhile Glyph.isBlank
    if gs.isEmpty then .ok []
    else
      let keyword := Text.ofGlyphs (gs.takeWhile isPart)
      match (gs.dropWhile isPart).dropWhile Glyph.isBlank with
      | [] => .error (.noEquals keyword)
      | g :: gs =>
        if isAscii '=' g then do
          let (v, rest) ← value (gs.dropWhile Glyph.isBlank)
          return (keyword, v) :: (← readAll fuel rest)
        else .error (.noEquals keyword)

/-- Reads the settings of a connection text.  Bytes that are not UTF-8 are replaced. -/
def read (t : Text) : Except Fault (List (Text × Text)) :=
  readAll (t.length + 1) (Text.glyphs (Text.toUtf8 t))

/-- The value of a keyword: the last one counts. -/
def get? (settings : List (Text × Text)) (keyword : Text) : Option Text :=
  (settings.reverse.find? fun s => s.1 == keyword).map Prod.snd

/-! ## Acceptable texts -/

def isPort (t : Text) : Bool :=
  ((Text.toNat? t).filter fun n => 1 ≤ n && n ≤ 65535).isSome

def sslModes : List String := ["", "disable", "allow", "prefer", "require", "verify-ca", "verify-full"]

def isSetting (s : Text × Text) : Bool :=
  if s.1.isEmpty then false
  else if s.1 = Text.ofString "port" then isPort s.2
  else if s.1 = Text.ofString "sslmode" then sslModes.any fun m => Text.ofString m == s.2
  else true

def schemes : List Text := ["postgres://", "postgresql://"]

/-- Whether what follows a scheme begins with a host that has no port or a proper one. -/
def hasProperPort (address : Text) : Bool :=
  let authority := address.takeWhile fun b => b != Text.byte '/' && b != Text.byte '?'
  let host := ((authority.splitOnP (· == Text.byte '@')).getLast?).getD []
  match Text.cut? ":" host with
  | none => true
  | some (_, port) => port.isEmpty || isPort port

def accepts (t : Text) : Bool :=
  match schemes.findSome? fun scheme => Text.stripPrefix? scheme t with
  | some address => hasProperPort address
  | none =>
    match read t with
    | .ok settings => settings.all isSetting
    | .error _ => false

end JavaToCpp.Keywords
