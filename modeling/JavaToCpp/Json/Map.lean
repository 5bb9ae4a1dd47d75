/-
  Maps that are stored as JSON.

  A map can be absent.  Scanning stored text into a map adds the members of the text to those
  that the map has; a null makes it absent, and no stored value at all makes it empty.
-/
import JavaToCpp.Json.Read

namespace JavaToCpp.Json

abbrev Map := List (Text × Json)

namespace Map

inductive Stored where
  | nothing
  | text (t : Text)
  /-- a value that is no text -/
  | other
deriving DecidableEq, Repr

inductive ScanError where
  | badType
  | undecodable
deriving DecidableEq, Repr

def ScanError.message : ScanError → Text
  | badType => "type assertion failed: failed to decode JSONB"
  | undecodable => "decode error"

def merge (m : Map) (members : List (Text × Json)) : Map :=
  members.foldl (fun m (name, v) => put name v m) m

def scan (stored : Stored) (before : Option Map) : Except ScanError (Option Map) :=
  match stored with
  | .nothing => .ok (some [])
  | .other => .error .badType
  | .text t =>
    match read t with
    | .error _ => .error .undecodable
    | .ok v =>
      match settle v with
      | some (object members) => .ok (some (merge (before.getD []) members))
      | some null => .ok none
      | _ => .error .undecodable

/-- The text that is stored for a map, none for an absent one. -/
def value (m : Option Map) : Option Text := m.map fun m => write (object m)

end Map

end JavaToCpp.Json
