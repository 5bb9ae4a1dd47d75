/-
  Words for values.
-/
import JavaToCpp.Text.Basic

namespace JavaToCpp.Text

def truths : List (String × Bool) := [
  ("1", true), ("t", true), ("T", true), ("true", true), ("TRUE", true), ("True", true),
  ("0", false), ("f", false), ("F", false), ("false", false), ("FALSE", false), ("False", false)]

def toBool? (t : Text) : Option Bool :=
  (truths.find? fun w => Text.ofString w.1 == t).map Prod.snd

def wordBound : Int := 9223372036854775808

def fitsWord (n : Int) : Bool := -wordBound ≤ n && n < wordBound

/-- The integer of digits after an optional sign, if it has 64 bits. -/
def toInt? (t : Text) : Option Int :=
  let (negative, digits) : Bool × Text := match t with
    | 45 :: t => (true, t)
    | 43 :: t => (false, t)
    | t => (false, t)
  (toNat? digits).bind fun n =>
    let v : Int := if negative then -n else n
    if fitsWord v then some v else none

end JavaToCpp.Text
