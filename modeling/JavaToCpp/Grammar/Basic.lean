/-
  Grammars.

  A grammar is the list of its rules in the order of the text they came from.  A symbol with
  rules is a nonterminal, every other symbol a terminal.  A *tag* is a nonterminal whose rules
  hold terminals only; a tag accepts the categories that are a rule of it by themselves.
-/
import JavaToCpp.Text.Basic

namespace JavaToCpp

abbrev Symbol := Text

namespace Grammar

/-- One alternative of a nonterminal.  The number tells equal alternatives apart. -/
structure Rule where
  number : Nat
  lhs : Symbol
  rhs : List Symbol
deriving DecidableEq, Repr, Inhabited

def Rule.alternative (r : Rule) : Text := Text.join " " r.rhs

def Rule.describe (r : Rule) : Text := r.lhs ++ " -> " ++ r.alternative

end Grammar

structure Grammar where
  rules : List Grammar.Rule
deriving DecidableEq, Repr, Inhabited

namespace Grammar

def program : Symbol := "<program>"

/-- The left-hand sides, each once, in the order in which they first occur. -/
def nonterminals (g : Grammar) : List Symbol := (g.rules.map Rule.lhs).eraseDups

def rulesOf (g : Grammar) (s : Symbol) : List Rule := g.rules.filter fun r => r.lhs == s

def isTerminal (g : Grammar) (s : Symbol) : Bool := !g.rules.any fun r => r.lhs == s

/-- Whether the symbol has rules, and these hold terminals only. -/
def isTag (g : Grammar) (s : Symbol) : Bool :=
  !g.isTerminal s && (g.rulesOf s).all fun r => r.rhs.all g.isTerminal

def accepts (g : Grammar) (tag : Symbol) (category : Text) : Bool :=
  g.isTag tag && (g.rulesOf tag).any fun r => r.rhs == [category]

/-- The usual start symbol if it has rules, else the first nonterminal. -/
def start (g : Grammar) : Symbol :=
  if g.isTerminal program then (g.rules.head?.map Rule.lhs).getD [] else program

/-- The terminals that occur in the rules, each once, nonterminal by nonterminal. -/
def terminals (g : Grammar) : List Symbol :=
  ((g.nonterminals.flatMap fun s => (g.rulesOf s).flatMap Rule.rhs).filter g.isTerminal).eraseDups

def alternatives (g : Grammar) (s : Symbol) : List Text := (g.rulesOf s).map Rule.alternative

def renderLine (g : Grammar) (s : Symbol) : Text :=
  s ++ " -> " ++ Text.join " | " (g.alternatives s) ++ "\n"

def render (g : Grammar) : Text := g.nonterminals.flatMap g.renderLine

end Grammar

end JavaToCpp
