/-
  Differences of grammars.

  Two grammars differ in the nonterminals that only one of them defines and, for a nonterminal
  that both define, in its alternatives.  Alternatives are tried in order, so a change of their
  order alone counts as well.
-/
import JavaToCpp.Grammar.Basic

namespace JavaToCpp.Grammar

structure RuleDiff where
  name : Symbol
  added : List Text
  removed : List Text
  /-- the same alternatives in another order or number -/
  reordered : Bool
deriving DecidableEq, Repr

structure Diff where
  added : List Symbol
  removed : List Symbol
  modified : List RuleDiff
deriving DecidableEq, Repr

def sorted (ts : List Text) : List Text := ts.mergeSort Text.le

def RuleDiff.between (name : Symbol) (old new : List Text) : RuleDiff :=
  let added := new.filter fun a => !old.contains a
  let removed := old.filter fun a => !new.contains a
  ⟨name, added, removed,
    added.isEmpty && removed.isEmpty && Text.join "|" old != Text.join "|" new⟩

def RuleDiff.isEmpty (d : RuleDiff) : Bool := d.added.isEmpty && d.removed.isEmpty && !d.reordered

def names (g : Option Grammar) : List Symbol := (g.map nonterminals).getD []

def alternativesIn (g : Option Grammar) (s : Symbol) : List Text :=
  (g.map fun g => g.alternatives s).getD []

namespace Diff

def between (old new : Option Grammar) : Diff :=
  let common := (names new).filter (names old).contains
  ⟨sorted ((names new).filter fun s => !(names old).contains s),
    sorted ((names old).filter fun s => !(names new).contains s),
    ((sorted common).map fun s =>
      RuleDiff.between s (alternativesIn old s) (alternativesIn new s)).filter fun d => !d.isEmpty⟩

def isEmpty (d : Diff) : Bool := d.added.isEmpty && d.removed.isEmpty && d.modified.isEmpty

def marked (mark : Text) (ts : List Text) : Text := ts.flatMap fun t => mark ++ t ++ "\n"

/-- A section of the text, or nothing if it has no lines. -/
def part (title lines : Text) : Text := if lines.isEmpty then [] else title ++ "\n" ++ lines ++ "\n"

def describeRule (d : RuleDiff) : Text :=
  "  " ++ d.name ++ ":\n" ++ marked "    + " d.added ++ marked "    - " d.removed ++
    (if d.reordered then Text.ofString "    ~ alternatives reordered\n" else [])

def describe (d : Diff) : Text :=
  if d.isEmpty then "No changes"
  else
    Text.trimRight (· == Text.newline)
      (part "Added nonterminals:" (marked "  + " d.added) ++
        part "Removed nonterminals:" (marked "  - " d.removed) ++
        part "Modified nonterminals:" (d.modified.flatMap describeRule))

end Diff

end JavaToCpp.Grammar
