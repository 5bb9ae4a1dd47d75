/-
  Programs.

  What the checker needs of a parse tree: functions with their headers, statements and
  expressions, each with the lines that violations are reported in.  A tree handed in from
  outside can lack nodes; `missing` stands for a part that cannot be read, and `untyped` or
  `other` for a part that is none of the language.
-/
import JavaToCpp.Tree.Basic
import JavaToCpp.Typing.Scope

namespace JavaToCpp.Program

inductive Callee where
  | print
  | max
  | min
  | user
deriving DecidableEq, Repr

/-- Where an operand stands: its line and, if it is nothing but a variable, that variable with
    its own line. -/
structure Site where
  line : Int
  bare : Option (Text × Int)
deriving DecidableEq, Repr

inductive Expr where
  | missing
  | untyped
  | literal (type : ValueType)
  | var (name : Text) (line : Int)
  | call (callee : Callee) (name : Text) (line : Int) (args : List Expr)
  | negation (arg : Expr) (line : Int)
  /-- conjunction or disjunction -/
  | logic (left : Expr) (leftLine : Int) (right : Expr) (rightLine : Int)
  /-- a comparison, with `equality` for equal and unequal -/
  | compare (equality : Bool) (left : Expr) (leftSite : Site) (right : Expr) (rightSite : Site)
  | math (left : Expr) (leftSite : Site) (right : Expr) (rightSite : Site)
deriving Repr, Inhabited

inductive Update where
  | missing
  | nothing
  | set (value : Expr) (line : Int)
  /-- arithmetic with the old value -/
  | combine (value : Expr) (line : Int)
  | increment
deriving Repr, Inhabited

inductive Assignment where
  | missing
  | to (name : Text) (line : Int) (update : Update)
deriving Repr, Inhabited

mutual

inductive Statement where
  | missing
  | other
  | varDecl (name : Text) (line : Int) (type : ValueType) (init : Option (Expr × Int))
  | assign (a : Assignment)
  | call (c : Expr)
  | ret (line : Int) (value : Option (Expr × Int))
  | cond (c : Conditional)
  | forLoop (init : Statement) (test : Expr) (testLine : Int) (step : Assignment) (body : Block)
  | whileLoop (test : Expr) (testLine : Int) (body : Block)
  | doWhile (body : Block) (test : Expr) (testLine : Int)
  | block (b : Block)

inductive Block where
  | missing
  | nil
  | cons (line : Int) (s : Statement) (rest : Block)

inductive Conditional where
  | branch (test : Expr) (testLine : Int) (yes : Block) (no : Alternative)

inductive Alternative where
  | none
  | missing
  | block (b : Block)
  | chain (c : Conditional)

end

/-- A function, with `void` as the type of what it returns if it returns nothing. -/
structure Function where
  name : Text
  returns : ValueType
  params : List Variable
  body : Tree
  line : Int
  entry : Bool
deriving Repr, Inhabited

namespace Function

/-- The function as it is declared, without the names of its parameters. -/
def signature (f : Function) : Text :=
  f.name ++ "(" ++ Text.join ", " (f.params.map fun p => Text.lower p.type.name) ++ ")"

def sameParams (f g : Function) : Bool :=
  f.params.map Variable.type == g.params.map Variable.type

end Function

end JavaToCpp.Program
