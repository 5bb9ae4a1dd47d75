/-
  Patterns as trees.

  A pattern is a tree of characters, assertions and operators.  Its `height` and its `size`, the
  number of steps it is worth with all repetitions written out, are what limits the patterns that
  may be used; `countsWithin` limits the counts of nested repetitions.
-/
import JavaToCpp.Text.RuneSet

namespace JavaToCpp.Pattern

inductive Assertion where
  | beginText
  | endText
  | beginLine
  | endLine
  | wordBoundary
  | noWordBoundary
deriving DecidableEq, Repr

inductive Regex where
  | empty
  /-- characters one after the other, with `fold` up to case -/
  | literal (fold : Bool) (runes : List Nat)
  /-- one character of a set; `fold` says that the set was written without regard to case -/
  | oneOf (fold : Bool) (set : RuneSet)
  | notNewline
  | anyRune
  | assertion (a : Assertion)
  | group (index : Nat) (named : Bool) (body : Regex)
  | star (greedy : Bool) (body : Regex)
  | plus (greedy : Bool) (body : Regex)
  | opt (greedy : Bool) (body : Regex)
  | rep (least : Nat) (most : Option Nat) (greedy : Bool) (body : Regex)
  | concat (parts : List Regex)
  /-- one of several patterns, the first one first -/
  | alternate (choices : List Regex)
deriving Repr

namespace Regex

mutual

def height : Regex → Nat
  | group _ _ r | star _ r | plus _ r | opt _ r | rep _ _ _ r => r.height + 1
  | concat rs | alternate rs => highest 0 rs + 1
  | _ => 1

def highest : (h : Nat) → List Regex → Nat
  | h, [] => h
  | h, r :: rs => highest (max h r.height) rs

end

mutual

/-- How many steps the pattern is worth with its repetitions written out. -/
def size : Regex → Nat
  | literal _ runes => max 1 runes.length
  | group _ _ r | star _ r => r.size + 2
  | plus _ r | opt _ r => r.size + 1
  | rep least none _ r => if least = 0 then r.size + 2 else least * r.size + 1
  | rep least (some most) _ r => max 1 (most * r.size + (most - least))
  | concat rs => max 1 (totalSize 0 rs)
  | alternate rs => max 1 (totalSize (rs.length - 1) rs)
  | _ => 1

def totalSize : (n : Nat) → List Regex → Nat
  | n, [] => n
  | n, r :: rs => totalSize (n + r.size) rs

end

mutual

/-- Whether no count inside the pattern, multiplied with the counts around it, exceeds `n`. -/
def countsWithin : (n : Nat) → Regex → Bool
  | n, rep least most _ r =>
    let m := most.getD least
    if most == some 0 then true
    else if n < m then false
    else countsWithin (if m = 0 then n else n / m) r
  | n, group _ _ r | n, star _ r | n, plus _ r | n, opt _ r => countsWithin n r
  | n, concat rs | n, alternate rs => allCountsWithin n rs
  | _, _ => true

def allCountsWithin : (n : Nat) → List Regex → Bool
  | _, [] => true
  | n, r :: rs => countsWithin n r && allCountsWithin n rs

end

end Regex

end JavaToCpp.Pattern
