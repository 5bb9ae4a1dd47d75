/-
  Durations as text, such as `1h30m` or `-1.5s`.

  A duration is a sequence of numbers with units, after an optional sign.  It is counted in
  nanoseconds and fits 64 bits.  A fraction is multiplied by its unit in binary64 and cut off to
  whole nanoseconds.
-/
import JavaToCpp.Number.Binary64
import JavaToCpp.Text.Basic

namespace JavaToCpp.Duration

def nanosecond : Int := 1
def second : Int := 1000000000
def minute : Int := 60 * second
def hour : Int := 60 * minute

/-- The greatest number of whole seconds that a duration of 64 bits has. -/
def maxSeconds : Int := 9223372036

inductive Error where
  | invalid (text : Text)
  | missingUnit (text : Text)
  | unknownUnit (unit text : Text)
deriving DecidableEq, Repr

def quotedByte (b : UInt8) : Text :=
  if b < 32 || 128 ≤ b then "\\x" ++ Text.hexNat 2 b.toNat
  else if b == 34 || b == 92 then [92, b]
  else [b]

/-- A text in quotes; control characters and everything beyond ASCII byte by byte. -/
def quoted (t : Text) : Text := "\"" ++ t.flatMap quotedByte ++ "\""

def Error.message : Error → Text
  | invalid t => "time: invalid duration " ++ quoted t
  | missingUnit t => "time: missing unit in duration " ++ quoted t
  | unknownUnit u t => "time: unknown unit " ++ quoted u ++ " in duration " ++ quoted t

def units : List (String × Nat) := [
  ("ns", 1), ("us", 1000), ("µs", 1000), ("μs", 1000), ("ms", 1000000),
  ("s", 1000000000), ("m", 60000000000), ("h", 3600000000000)]

def unit? (name : Text) : Option Nat :=
  (units.find? fun u => Text.ofString u.1 == name).map Prod.snd

def limit : Nat := 9223372036854775808

/-- The digits of a fraction that count: as many as fit 63 bits. -/
def fractionOf : (value places : Nat) → Text → Nat × Nat
  | value, places, [] => (value, places)
  | value, places, b :: t =>
    if (limit - 1) / 10 < value then (value, places)
    else
      let next := value * 10 + (b.toNat - 48)
      if limit < next then (value, places) else fractionOf next (places + 1) t

def fractionNanoseconds (value places unit : Nat) : Nat :=
  match Binary64.ofRatio? false unit (Nat.pow 10 places), Binary64.ofRatio? false value 1 with
  | some step, some count =>
    let (n, d) := step.ratio
    let (m, e) := count.ratio
    match Binary64.ofRatio? false (n * m) (d * e) with
    | some product =>
      let (a, b) := product.ratio
      a / b
    | none => 0
  | _, _ => 0

/-- The sum of the parts of a duration, beginning with `total`. -/
def parts (whole : Text) : (fuel total : Nat) → Text → Except Error Nat
  | 0, total, _ => .ok total
  | _ + 1, total, [] => .ok total
  | fuel + 1, total, t =>
    let digits := t.takeWhile Text.isDigit
    let t := t.drop digits.length
    let (hasPoint, t) := match t with
      | 46 :: t => (true, t)
      | t => (false, t)
    let fraction := if hasPoint then t.takeWhile Text.isDigit else []
    let t := t.drop fraction.length
    if digits.isEmpty && fraction.isEmpty then .error (.invalid whole)
    else
      let value := (Text.toNat? digits).getD 0
      if limit < value then .error (.invalid whole)
      else
        let name := t.takeWhile fun b => b != 46 && !Text.isDigit b
        if name.isEmpty then .error (.missingUnit whole)
        else
          match unit? name with
          | none => .error (.unknownUnit name whole)
          | some unit =>
            let (f, places) := fractionOf 0 0 fraction
            let part := value * unit + if f = 0 then 0 else fractionNanoseconds f places unit
            -- the sum is kept in 64 bits
            let sum := (total + part) % (2 * limit)
            if limit < value * unit || limit < part || limit < sum then .error (.invalid whole)
            else parts whole fuel sum (t.drop name.length)

def parse (text : Text) : Except Error Int :=
  let (negative, t) := match text with
    | 45 :: t => (true, t)
    | 43 :: t => (false, t)
    | t => (false, t)
  if t = [48] then .ok 0
  else if t.isEmpty then .error (.invalid text)
  else
    match parts text t.length 0 t with
    | .error e => .error e
    | .ok n =>
      if negative then .ok (-(n : Int)) else if n < limit then .ok n else .error (.invalid text)

/-! ## Writing -/

def decimals (places n : Nat) : Text :=
  let ds := Text.decimal (n % Nat.pow 10 places)
  let fraction := Text.trimRight (· == Text.byte '0')
    (List.replicate (places - ds.length) (Text.byte '0') ++ ds)
  Text.decimal (n / Nat.pow 10 places) ++ (if fraction.isEmpty then [] else Text.byte '.' :: fraction)

/-- A number of nanoseconds in the greatest units that it reaches. -/
def magnitudeText (n : Nat) : Text :=
  if n = 0 then "0s"
  else if n < 1000 then Text.decimal n ++ "ns"
  else if n < 1000000 then decimals 3 n ++ "µs"
  else if n < 1000000000 then decimals 6 n ++ "ms"
  else
    let minutes := n / 60000000000
    let seconds := decimals 9 (n % 60000000000) ++ "s"
    if minutes = 0 then seconds
    else if minutes < 60 then Text.decimal minutes ++ "m" ++ seconds
    else Text.decimal (minutes / 60) ++ "h" ++ Text.decimal (minutes % 60) ++ "m" ++ seconds

def toText (d : Int) : Text := (if d < 0 then [Text.byte '-'] else []) ++ magnitudeText d.natAbs

end JavaToCpp.Duration
