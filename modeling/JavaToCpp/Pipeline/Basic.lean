/-
  From Java to C++.

  A source is cut into tokens, the tokens are parsed, the tree is checked and the C++ text is
  generated.  Each stage can fail; the fault of a stage has a line and a message, and the check
  also names the kind of violation.
-/
import JavaToCpp.Chart.Recognise
import JavaToCpp.Cpp.Generate
import JavaToCpp.Typing.Check

namespace JavaToCpp.Pipeline

inductive Stage where
  | lexical
  | grammatical
  | semantic
deriving DecidableEq, Repr

def Stage.name : Stage → Text
  | lexical => "lexical"
  | grammatical => "syntax"
  | semantic => "semantic"

inductive Fault where
  | lexical (e : Token.Error)
  | rejected (r : Chart.Rejection)
  | violation (v : Violation)
  /-- the check was given a tree that is not that of a program -/
  | uncheckable
  /-- the generator was given a tree that is not that of a program -/
  | ungenerable
  | missing
deriving DecidableEq, Repr

structure Report where
  stage : Stage
  /-- the kind of violation, empty for the other stages -/
  kind : Text
  line : Int
  message : Text
deriving DecidableEq, Repr

namespace Fault

/-- What front ends show of a fault; nothing for a fault that no stage reports. -/
def report? : Fault → Option Report
  | lexical e => some ⟨.lexical, [], e.line, e.message⟩
  | rejected r => some ⟨.grammatical, [], r.line, r.message⟩
  | violation v => some ⟨.semantic, v.cause.kind, v.line, v.cause.message⟩
  | uncheckable => none
  | ungenerable => none
  | missing => none

def describe : Fault → Text
  | lexical e => e.describe
  | rejected r => r.describe
  | violation v => v.describe
  | uncheckable => "semantic: expected a program tree"
  | ungenerable => "generator: expected a program tree"
  | missing => "the tree lacks a node"

def ofCheck : Typing.Failure → Fault
  | .notProgram => uncheckable
  | .missing => missing
  | .violation v => violation v

def ofGenerate : Cpp.Failure → Fault
  | .notProgram => ungenerable
  | .missing => missing

end Fault

def tokens (source : Text) : Except Fault (List Token) := (Java.tokenize source).mapError .lexical

def chart (g : Grammar) (source : Text) : Except Fault Chart :=
  (tokens source).map (Chart.ofTokens g)

def treeOf (c : Chart) : Except Fault Tree :=
  match c.rejection? with
  | some r => .error (.rejected r)
  | none => .ok (c.tree?.getD .hole)

def parse (g : Grammar) (source : Text) : Except Fault Tree := do treeOf (← chart g source)

def checkTree (t : Tree) : Except Fault Unit := (Typing.check t).mapError .ofCheck

def check (g : Grammar) (source : Text) : Except Fault Unit := do checkTree (← parse g source)

def generate (t : Tree) : Except Fault Text := (Cpp.generate t).mapError .ofGenerate

structure Product where
  output : Text
  tokens : Nat
  sets : Nat
  states : Nat
  checked : Bool
deriving DecidableEq, Repr

def Product.lines (p : Product) : Nat := (Text.stripSuffix "\n" p.output).count Text.newline + 1

/-- Runs the stages on a source, the check only if it is asked for. -/
def run (g : Grammar) (checked : Bool) (source : Text) : Except Fault Product := do
  let c ← chart g source
  let t ← treeOf c
  if checked then checkTree t
  return ⟨← generate t, c.tokens.length, c.sets.length, c.size, checked⟩

end JavaToCpp.Pipeline
