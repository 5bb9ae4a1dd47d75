/-
  Great numbers in full.

  From `10 ^ 21` on numbers are written with a power of ten, which a reader rounds to binary64.
  `exact` writes them with all the digits of their binary64 value, so that a reader who does not
  round reads the same number.
-/
import JavaToCpp.Json.Basic

namespace JavaToCpp.Json

def greatFrom : Nat := 1000000000000000000000

/-- A number literal, with all digits if the number is great. -/
def exactLiteral (literal : Text) : Text :=
  match toBinary64? literal with
  | none => literal
  | some x =>
    let (n, d) := x.ratio
    let sign : Text := if x.negative then "-" else []
    if d = 1 && greatFrom ≤ n then sign ++ Text.decimal n else literal

mutual

/-- The value with its great numbers in full. -/
def exact : Json → Json
  | null => null
  | bool b => bool b
  | number literal => number (exactLiteral literal)
  | string t => string t
  | array items => array (exactItems items)
  | object members => object (exactMembers members)

def exactItems : List Json → List Json
  | [] => []
  | v :: vs => exact v :: exactItems vs

def exactMembers : List (Text × Json) → List (Text × Json)
  | [] => []
  | (name, v) :: ms => (name, exact v) :: exactMembers ms

end

end JavaToCpp.Json
