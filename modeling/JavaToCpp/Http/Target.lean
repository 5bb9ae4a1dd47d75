/-
  What a request asks for.

  The target of a request is a path and a query after a question mark.  Escapes in the path are
  resolved; a path that is escaped in an unusual way is routed as it was written.
-/
import JavaToCpp.Text.Percent

namespace JavaToCpp.Http

structure Target where
  /-- the path as it was written -/
  written : Text
  path : Text
  query : Text
deriving DecidableEq, Repr

namespace Target

def isControl (b : UInt8) : Bool := b < 32 || b == 127

def local? (t : Text) : Option Text :=
  if t.head? == some (Text.byte '/') || t = Text.ofString "*" then some t
  else
    match Text.cut? "://" t with
    | some (scheme, rest) =>
      if !scheme.isEmpty && scheme.all (fun b => Text.isLetter b || Text.isDigit b || Text.oneOf "+-." b) &&
          (scheme.head?.map Text.isLetter).getD false then
        some (rest.dropWhile fun b => b != Text.byte '/' && b != Text.byte '?')
      else none
    | none => none

def parse? (t : Text) : Option Target := do
  if t.any fun b => isControl b || b == Text.blank then none
  let t ← local? t
  let (written, query) := (Text.cut? "?" t).getD (t, [])
  let path ← Text.percentUnescape? .path written
  return ⟨written, path, query⟩

def route (t : Target) : Text :=
  let p := if Text.percentEscape .path t.path = t.written then t.path else t.written
  if p.isEmpty then "/" else p

end Target

/-! ## Forms -/

abbrev Form := List (Text × Text)

namespace Form

/-- A name with its value, without a value if there is no equals sign. -/
def pair? (t : Text) : Option (Text × Text) :=
  if t.contains (Text.byte ';') then none
  else do
    let (name, value) := (Text.cut? "=" t).getD (t, [])
    return (← Text.percentUnescape? .query name, ← Text.percentUnescape? .query value)

def parts (query : Text) : List Text :=
  (query.splitOnP (· == Text.byte '&')).filter fun p => !p.isEmpty

/-- The most parts of a query, those that are empty included. -/
def maxParts : Nat := 10000

def isTooLong (query : Text) : Bool := maxParts < query.count (Text.byte '&') + 1

/-- The values of a query; parts that do not make sense are left out.  A query that is too long
    has none. -/
def ofQuery (query : Text) : Form :=
  if isTooLong query then [] else (parts query).filterMap pair?

def isProper (query : Text) : Bool :=
  !isTooLong query && (parts query).all fun p => (pair? p).isSome

def first (f : Form) (name : String) : Text :=
  ((f.find? fun p => p.1 == Text.ofString name).map Prod.snd).getD []

end Form

end JavaToCpp.Http
