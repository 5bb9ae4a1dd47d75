/-
  Scopes.

  The open blocks of a function form a stack, the innermost block first.  A name means the
  variable of the innermost block that declares it.  A block also remembers whether every path
  through it so far has returned.
-/
import JavaToCpp.Typing.ValueType

namespace JavaToCpp

structure Variable where
  name : Text
  type : ValueType
  initialized : Bool
  line : Int
deriving DecidableEq, Repr, Inhabited

/-- A block: its variables, the latest first, and whether it has returned. -/
structure Frame where
  declared : List Variable := []
  returned : Bool := false
deriving DecidableEq, Repr, Inhabited

/-- The open blocks, the innermost first. -/
abbrev Scopes := List Frame

namespace Scopes

def push (s : Scopes) : Scopes := {} :: s

def pop? : Scopes → Option (Frame × Scopes)
  | [] => none
  | f :: s => some (f, s)

/-- The level of the innermost block, 0 for the outermost one. -/
def depth (s : Scopes) : Int := s.length - 1

def lookup? (s : Scopes) (name : Text) : Option Variable :=
  s.findSome? fun f => f.declared.find? fun v => v.name == name

def declare (s : Scopes) (v : Variable) : Scopes :=
  match s with
  | [] => []
  | f :: s => { f with declared := v :: f.declared } :: s

def markReturned : Scopes → Scopes
  | [] => []
  | f :: s => { f with returned := true } :: s

def returned (s : Scopes) : Bool := s.head?.any Frame.returned

def initializeIn (name : Text) : List Variable → List Variable
  | [] => []
  | v :: vs => if v.name == name then { v with initialized := true } :: vs else v :: initializeIn name vs

def setInitialized (name : Text) : Scopes → Scopes
  | [] => []
  | f :: s =>
    if f.declared.any fun v => v.name == name then
      { f with declared := initializeIn name f.declared } :: s
    else f :: setInitialized name s

end Scopes

end JavaToCpp
