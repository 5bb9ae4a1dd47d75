/-
  Cached values read as a type.

  A cache of items hands out copies: an item is written as JSON and read again as the type that is
  asked for.  An item can also be JSON text itself.
-/
import JavaToCpp.Cache.Basic
import JavaToCpp.Json.Read
import JavaToCpp.Text.Literal

namespace JavaToCpp.Cache

inductive Item where
  | value (v : Json)
  | raw (t : Text)
deriving Repr

inductive Shape where
  /-- the item itself -/
  | any
  | text
  | int
  | map
  | list
  /-- the item is not read -/
  | nothing
deriving DecidableEq, Repr

inductive Failure where
  | badKey
  | missing
  | unreadable
deriving DecidableEq, Repr

inductive FetchFailure where
  | cached (f : Failure)
  | made (message : Text)
  | unreadable
deriving DecidableEq, Repr

def Failure.message : Failure → Text
  | badKey => "invalid input"
  | missing => "not found"
  | unreadable => "assigning cached value: "

def FetchFailure.message : FetchFailure → Text
  | cached f => "getting from cache: " ++ f.message
  | made message => message
  | unreadable => "assigning fetched value: "

def Item.text : Item → Text
  | value v => v.write
  | raw t => t

/-- A JSON value as a type; a null leaves the type's first value. -/
def Shape.read : Shape → Json → Option Json
  | text, .null => some (.string [])
  | text, .string t => some (.string t)
  | int, .null => some (.int 0)
  | int, .number literal => (Text.toInt? literal).map .int
  | map, .null => some .null
  | map, .object members => (Json.object members).settle
  | list, .null => some .null
  | list, .array items => (Json.array items).settle
  | _, _ => none

def Shape.assign (s : Shape) (i : Item) : Option Item :=
  match s with
  | any => some i
  | nothing => some (.value .null)
  | s =>
    match Json.read i.text with
    | .ok v => (s.read v).map .value
    | .error _ => none

def store (c : Cache Item) (now : Timestamp) (key : Text) (i : Item) : Except Failure (Cache Item) :=
  if key.isEmpty then .error .badKey else .ok (c.set now key i)

def remove (c : Cache Item) (key : Text) : Except Failure (Cache Item) :=
  if key.isEmpty then .error .badKey else .ok (c.delete key)

def fetch (c : Cache Item) (now : Timestamp) (key : Text) (s : Shape) : Except Failure Item :=
  if key.isEmpty then .error .badKey
  else
    match c.get? now key with
    | none => .error .missing
    | some i =>
      match s.assign i with
      | some i => .ok i
      | none => .error .unreadable

structure Fetched where
  result : Except FetchFailure Item
  cache : Cache Item
  made : Bool

/-- The item of a key as a type; if there is none, one is made and stored. -/
def fetchOr (c : Cache Item) (now : Timestamp) (key : Text) (s : Shape)
    (make : Except Text Item) : Fetched :=
  match c.fetch now key s with
  | .ok i => ⟨.ok i, c, false⟩
  | .error .missing =>
    match make with
    | .error message => ⟨.error (.made message), c, true⟩
    | .ok i =>
      let result := match s.assign i with
        | some i => .ok i
        | none => .error .unreadable
      ⟨result, c.set now key i, true⟩
  | .error f => ⟨.error (.cached f), c, false⟩

end JavaToCpp.Cache
