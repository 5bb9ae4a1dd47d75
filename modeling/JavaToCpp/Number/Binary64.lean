/-
  Numbers with 53 binary digits.

  A finite number of the binary64 format is `± mantissa * 2 ^ exponent`.  A decimal number is
  rounded to the nearest one, halves to the even mantissa.  The shortest decimal of a number has
  the fewest digits that are rounded back to it and, of those, is the nearest one; a half goes to
  the even digit.
-/
namespace JavaToCpp

structure Binary64 where
  negative : Bool
  mantissa : Nat
  exponent : Int
deriving DecidableEq, Repr

namespace Binary64

def minExponent : Int := -1074

def maxExponent : Int := 971

/-- Mantissas have 53 binary digits and are below this number. -/
def mantissaBound : Nat := 9007199254740992

/-- `n / d` with the fraction scaled by a power of two: the numerator and the denominator of
    `n / d / 2 ^ e`. -/
def scaled (n d : Nat) (e : Int) : Nat × Nat :=
  if 0 ≤ e then (n, d * Nat.pow 2 e.toNat) else (n * Nat.pow 2 (-e).toNat, d)

/-- `n / d` to the nearest integer, halves to the even one. -/
def roundEven (n d : Nat) : Nat :=
  let q := n / d
  let r := n % d
  if d < 2 * r then q + 1 else if 2 * r = d then q + q % 2 else q

/-- The exponent with which `n / d` has a mantissa of 53 digits, or the least one. -/
def exponentFor (n d : Nat) : Int :=
  let e : Int := n.log2 - d.log2 - 53
  let (a, b) := scaled n d e
  max minExponent (if mantissaBound ≤ a / b then e + 1 else e)

def ofRatio? (negative : Bool) (n d : Nat) : Option Binary64 :=
  if n = 0 then some ⟨negative, 0, minExponent⟩
  else
    let e := exponentFor n d
    let (a, b) := scaled n d e
    let m := roundEven a b
    let (m, e) := if m = mantissaBound then (mantissaBound / 2, e + 1) else (m, e)
    if maxExponent < e then none else some ⟨negative, m, e⟩

/-- The number nearest to `digits * 10 ^ exponent`.  Powers of ten far from one are not worked
    out. -/
def ofDecimal? (negative : Bool) (digits : Nat) (exponent : Int) : Option Binary64 :=
  let size : Int := (Nat.toDigits 10 digits).length + exponent
  if digits = 0 || size < -400 then some ⟨negative, 0, minExponent⟩
  else if 400 < size then none
  else if 0 ≤ exponent then ofRatio? negative (digits * Nat.pow 10 exponent.toNat) 1
  else ofRatio? negative digits (Nat.pow 10 (-exponent).toNat)

def ratio (x : Binary64) : Nat × Nat :=
  if 0 ≤ x.exponent then (x.mantissa * Nat.pow 2 x.exponent.toNat, 1)
  else (x.mantissa, Nat.pow 2 (-x.exponent).toNat)

def decimalRatio (d : Nat) (k : Int) : Nat × Nat :=
  if 0 ≤ k then (d * Nat.pow 10 k.toNat, 1) else (d, Nat.pow 10 (-k).toNat)

/-- The exponent of the first digit of `n / d`: the greatest `k` with `10 ^ k ≤ n / d`, looked for
    downward from `k`. -/
def leadingExponent (n d : Nat) : (fuel : Nat) → (k : Int) → Int
  | 0, k => k
  | fuel + 1, k =>
    let (a, b) := decimalRatio 1 k
    if a * d ≤ n * b then k else leadingExponent n d fuel (k - 1)

/-- The exponent of a power of ten above `n / d`, from the numbers of binary digits: a hundred
    thousand of them are 30103 decimal ones. -/
def powerAbove (n d : Nat) : Int := (30103 * ((n.log2 : Int) - d.log2 + 1)).fdiv 100000 + 1

/-- Whether `d * 10 ^ k` is rounded to the magnitude of the number. -/
def readsBack (x : Binary64) (d : Nat) (k : Int) : Bool :=
  (ofDecimal? x.negative d k) == some x

/-- The digits before `n / d / 10 ^ k`. -/
def digitsBelow (n d : Nat) (k : Int) : Nat :=
  let (a, b) := decimalRatio 1 k
  n * b / (d * a)

/-- Whether the grid point above is nearer than the one below, or as near and even. -/
def prefersAbove (n d : Nat) (k : Int) (below : Nat) : Bool :=
  let (a, b) := decimalRatio 1 k
  -- twice the distance from below, against a whole step
  let twice := 2 * (n * b - below * (d * a))
  if d * a < twice then true else twice == d * a && below % 2 == 1

/-- The decimal with the digits of the power `k` and above, if it reads back. -/
def decimalAt? (x : Binary64) (k : Int) : Option Nat :=
  let (n, d) := x.ratio
  let below := digitsBelow n d k
  let above := below + 1
  match x.readsBack below k, x.readsBack above k with
  | true, true => some (if prefersAbove n d k below then above else below)
  | true, false => some below
  | false, true => some above
  | false, false => none

/-- The first decimal that reads back, with more and more digits. -/
def search (x : Binary64) : (fuel : Nat) → (k : Int) → Nat × Int
  | 0, k => (digitsBelow x.ratio.1 x.ratio.2 k, k)
  | fuel + 1, k =>
    match x.decimalAt? k with
    | some digits => (digits, k)
    | none => search x fuel (k - 1)

def withoutZeros : (fuel : Nat) → Nat × Int → Nat × Int
  | 0, p => p
  | fuel + 1, (digits, k) =>
    if digits % 10 = 0 then withoutZeros fuel (digits / 10, k + 1) else (digits, k)

def shortest (x : Binary64) : Nat × Int :=
  if x.mantissa = 0 then (0, 0)
  else
    let (n, d) := x.ratio
    withoutZeros 17 (x.search 17 (leadingExponent n d 640 (powerAbove n d)))

end Binary64

end JavaToCpp
