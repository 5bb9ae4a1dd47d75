/-
  Types of values.

  The types are ranked by width: a value fits a slot of its own type or a wider one, except that
  Booleans fit only Booleans.  `void` is the type of a function without a value and fits nothing.
  Names, `fits` and `isNumeric` are given on ranks, which the types share with the tables that
  list them by number.
-/
import JavaToCpp.Text.Basic

namespace JavaToCpp

/-- The types of values, `void` for none. -/
inductive ValueType where
  | void
  | boolean
  | char
  | int
  | float
  | double
deriving DecidableEq, Repr, Inhabited

namespace ValueType

def rank : ValueType → Int
  | void => 0
  | boolean => 1
  | char => 2
  | int => 3
  | float => 4
  | double => 5

/-- The type with a rank; `void` for a number that is no rank. -/
def ofRank (n : Int) : ValueType :=
  ([.void, .boolean, .char, .int, .float, .double].find? fun t => t.rank == n).getD .void

def nameOfRank (n : Int) : Text :=
  if n = 1 then "BOOLEAN"
  else if n = 2 then "CHAR"
  else if n = 3 then "INT"
  else if n = 4 then "FLOAT"
  else if n = 5 then "DOUBLE"
  else "NONE"

def name (t : ValueType) : Text := nameOfRank t.rank

/-- Whether a value of rank `v` may be stored in a slot of rank `target`. -/
def fitsRank (v target : Int) : Bool :=
  if v = 0 || target = 0 then false
  else if v = 1 || target = 1 then v == target
  else v ≤ target

/-- Whether a value of type `v` may be stored in a slot of type `target`. -/
def fits (v target : ValueType) : Bool := fitsRank v.rank target.rank

def numericRank (n : Int) : Bool := 2 ≤ n

def isNumeric (t : ValueType) : Bool := numericRank t.rank

def widest (a b : ValueType) : ValueType := if b.rank < a.rank then a else b

def ofKeyword (keyword : Text) : ValueType :=
  if keyword = Text.ofString "boolean" then boolean
  else if keyword = Text.ofString "char" then char
  else if keyword = Text.ofString "int" then int
  else if keyword = Text.ofString "float" then float
  else if keyword = Text.ofString "double" then double
  else void

def ofLiteral (category : Text) : ValueType :=
  if category = Text.ofString "number_int" then int
  else if category = Text.ofString "number_float" then double
  else if category = Text.ofString "char_literal" then char
  else if category = Text.ofString "boolean_value" then boolean
  else void

end ValueType

end JavaToCpp
