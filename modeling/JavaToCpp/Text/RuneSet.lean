/-
  Sets of code points, as lists of ranges.
-/
import JavaToCpp.Text.Utf8

namespace JavaToCpp

abbrev RuneSet := List (Nat × Nat)

namespace RuneSet

def mem (set : RuneSet) (rune : Nat) : Bool := set.any fun (lo, hi) => lo ≤ rune && rune ≤ hi

def full : RuneSet := [(0, Text.maxRune)]

def union (a b : RuneSet) : RuneSet := a ++ b

/-- Joins neighbours of a list sorted by lower end. -/
def joined : RuneSet → RuneSet
  | [] => []
  | [r] => [r]
  | (lo, hi) :: (lo', hi') :: rest =>
    if lo' ≤ hi + 1 then joined ((lo, max hi hi') :: rest)
    else (lo, hi) :: joined ((lo', hi') :: rest)
termination_by set => set.length

def insert (r : Nat × Nat) : RuneSet → RuneSet
  | [] => [r]
  | s :: rest => if r.1 ≤ s.1 then r :: s :: rest else s :: insert r rest

def normalise (set : RuneSet) : RuneSet := joined (set.foldr insert [])

/-- What the ranges of a normal set leave out from `low` on. -/
def gaps (low : Nat) : RuneSet → RuneSet
  | [] => if low ≤ Text.maxRune then [(low, Text.maxRune)] else []
  | (lo, hi) :: rest => if low < lo then (low, lo - 1) :: gaps (hi + 1) rest else gaps (hi + 1) rest

def complement (set : RuneSet) : RuneSet := gaps 0 (normalise set)

def intersect (a b : RuneSet) : RuneSet :=
  complement (union (complement a) (complement b))

/-- Reads gaps and lengths in turn, the first gap counted from `low`.  A length of 0 behind `n`
    stands for `n` single code points with a gap of one before each. -/
def fromGaps (low : Nat) : List Nat → RuneSet
  | n :: 0 :: rest =>
    (List.range n).map (fun k => (low + 2 * k + 1, low + 2 * k + 1)) ++ fromGaps (low + 2 * n) rest
  | gap :: length :: rest => (low + gap, low + gap + length - 1) :: fromGaps (low + gap + length) rest
  | _ => []

/-- The set of a table that lists, in turn, how many code points to leave out and how many to
    take. -/
def ofGaps (table : String) : RuneSet :=
  fromGaps 0 (Text.numbers table)

end RuneSet

end JavaToCpp
