/-
  Points in time.

  A timestamp counts nanoseconds from the beginning of 1970, in the calendar that has leap years
  every four years except in centuries not divisible by 400.  Text has the form
  `2025-03-01T12:02:00.5+01:00`: the hour can have one digit, the fraction can follow a point or a
  comma, and the offset is `Z` or hours and minutes.
-/
import JavaToCpp.Number.Total
import JavaToCpp.Time.Duration

namespace JavaToCpp

abbrev Timestamp := Int

namespace Timestamp

/-- How many days of the calendar come before a year, counted from the year 0. -/
def daysBeforeYear (year : Int) : Int :=
  let y := year - 1
  365 * year + y.fdiv 4 - y.fdiv 100 + y.fdiv 400 + 1

def isLeap (year : Int) : Bool := (year % 4 == 0 && year % 100 != 0) || year % 400 == 0

def monthLengths (year : Int) : List Nat :=
  [31, if isLeap year then 29 else 28, 31, 30, 31, 30, 31, 31, 30, 31, 30, 31]

def daysOf (year : Int) (month day : Nat) : Int :=
  daysBeforeYear year - daysBeforeYear 1970 + total ((monthLengths year).take (month - 1)) + day - 1

/-- The point in time of a date and a time of day in a zone with the given offset in seconds. -/
def ofCivil (year : Int) (month day hour minute second nano : Nat) (offset : Int) : Timestamp :=
  ((daysOf year month day * 24 + hour) * 3600 + minute * 60 + second - offset) * 1000000000 + nano

/-- The point that stands for no time at all: the beginning of the year 1. -/
def zero : Timestamp := ofCivil 1 1 1 0 0 0 0 0

/-! ## Reading -/

def two? : Text → Option (Nat × Text)
  | a :: b :: t => if Text.isDigit a && Text.isDigit b then (Text.toNat? [a, b]).map (·, t) else none
  | _ => none

def oneOrTwo? (t : Text) : Option (Nat × Text) :=
  match two? t with
  | some r => some r
  | none =>
    match t with
    | a :: t => if Text.isDigit a then (Text.toNat? [a]).map (·, t) else none
    | [] => none

def four? (t : Text) : Option (Nat × Text) :=
  if t.length < 4 then none else (Text.toNat? (t.take 4)).map (·, t.drop 4)

def after? (b : UInt8) : Text → Option Text
  | c :: t => if b == c then some t else none
  | [] => none

/-- A fraction of a second in nanoseconds; digits beyond the ninth do not count. -/
def fraction? (t : Text) : Option (Nat × Text) :=
  match t with
  | p :: t' =>
    if (p == 46 || p == 44) && t'.head?.any Text.isDigit then
      let ds := t'.takeWhile Text.isDigit
      let nine := (ds ++ List.replicate 9 (Text.byte '0')).take 9
      (Text.toNat? nine).map (·, t'.drop ds.length)
    else some (0, t)
  | [] => some (0, [])

def offset? (t : Text) : Option Int := do
  if t = [Text.byte 'Z'] then return 0
  let (sign, t) ← match t with
    | 43 :: t => some ((1 : Int), t)
    | 45 :: t => some (-1, t)
    | _ => none
  let (h, t) ← two? t
  let t ← after? (Text.byte ':') t
  let (m, t) ← two? t
  if t.isEmpty && h ≤ 24 && m ≤ 60 then return sign * (h * 3600 + m * 60) else none

def parse? (t : Text) : Option Timestamp := do
  let (year, t) ← four? t
  let t ← after? (Text.byte '-') t
  let (month, t) ← two? t
  let t ← after? (Text.byte '-') t
  let (day, t) ← two? t
  let t ← after? (Text.byte 'T') t
  let (hour, t) ← oneOrTwo? t
  let t ← after? (Text.byte ':') t
  let (minute, t) ← two? t
  let t ← after? (Text.byte ':') t
  let (second, t) ← two? t
  let (nano, t) ← fraction? t
  let offset ← offset? t
  if 1 ≤ month && month ≤ 12 && 1 ≤ day && day ≤ (monthLengths year).getD (month - 1) 0 &&
      hour < 24 && minute < 60 && second < 60 then
    return ofCivil year month day hour minute second nano offset
  else none

/-! ## Writing -/

/-- The month and the day of a day of the year, counted from 0. -/
def monthAndDay (month : Nat) : (lengths : List Nat) → (day : Nat) → Nat × Nat
  | [], day => (month, day + 1)
  | n :: ns, day => if day < n then (month, day + 1) else monthAndDay (month + 1) ns (day - n)

/-- The greatest year that does not begin after a day; the guess is off by one at most. -/
def yearOfDay (day : Int) : Int :=
  let guess := (day * 400).fdiv 146097 + 1970
  if day < daysOf guess 1 1 then guess - 1
  else if day < daysOf (guess + 1) 1 1 then guess
  else guess + 1

def zeroPadded (width n : Nat) : Text :=
  let ds := Text.decimal n
  List.replicate (width - ds.length) (Text.byte '0') ++ ds

def yearText : Int → Text
  | .ofNat n => zeroPadded 4 n
  | .negSucc n => Text.byte '-' :: zeroPadded 4 (n + 1)

/-- A fraction of a second, without zeros at its end. -/
def fractionText (nano : Nat) : Text :=
  if nano = 0 then [] else "." ++ Text.trimRight (· == Text.byte '0') (zeroPadded 9 nano)

/-- A point in time as text, in the zone without offset. -/
def toText (t : Timestamp) : Text :=
  let seconds := t.fdiv 1000000000
  let day := seconds.fdiv 86400
  let rest := (seconds - day * 86400).toNat
  let year := yearOfDay day
  let (month, dom) := monthAndDay 1 (monthLengths year) (day - daysOf year 1 1).toNat
  yearText year ++ "-" ++ zeroPadded 2 month ++ "-" ++ zeroPadded 2 dom ++ "T" ++
    zeroPadded 2 (rest / 3600) ++ ":" ++ zeroPadded 2 (rest / 60 % 60) ++ ":" ++
    zeroPadded 2 (rest % 60) ++ fractionText (t - seconds * 1000000000).toNat ++ "Z"

end Timestamp

end JavaToCpp
