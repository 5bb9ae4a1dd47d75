/-
  Grammars as rows.

  A stored grammar is a table with a row for each alternative.  Reading the rows in order gives
  the grammar back; no rows are no grammar.
-/
import JavaToCpp.Grammar.Load

namespace JavaToCpp.Grammar

structure Row where
  nonterminal : Symbol
  /-- the place of the nonterminal among the nonterminals -/
  nonterminalPosition : Nat
  alternative : Text
  /-- the place of the alternative among those of its nonterminal -/
  position : Nat
deriving DecidableEq, Repr

def toRows (g : Grammar) : List Row :=
  g.nonterminals.zipIdx.flatMap fun (s, i) =>
    (g.alternatives s).zipIdx.map fun (a, j) => ⟨s, i, a, j⟩

def textOfRows (rows : List (Symbol × Text)) : Text :=
  rows.flatMap fun (s, a) => s ++ " -> " ++ a ++ "\n"

def ofRows (rows : List (Symbol × Text)) : Except LoadError (Option Grammar) :=
  if rows.isEmpty then .ok none else (load (textOfRows rows)).map some

end JavaToCpp.Grammar
