/-
  From rule text to grammars.

  A line has the form `name -> a b | c`.  Blank lines and lines that start with `#` are passed
  over; a name that comes again gets further alternatives.  A line may have up to 65535 bytes;
  the lines before one that is too long are still looked at.
-/
import JavaToCpp.Grammar.Basic
import JavaToCpp.Text.Blank
import JavaToCpp.Text.Quoted

namespace JavaToCpp.Grammar

/-- What is wrong with a rule text, with the number of the line. -/
inductive LoadError where
  | noArrow (line : Nat)
  | badLeft (line : Nat) (got : Text)
  | emptyAlternative (line : Nat) (name : Symbol)
  | noRules (lines : Nat)
  | lineTooLong
deriving DecidableEq, Repr

namespace LoadError

/-- The line of the error; none when the text could not be read to its end. -/
def line? : LoadError → Option Nat
  | noArrow n | badLeft n _ | emptyAlternative n _ | noRules n => some n
  | lineTooLong => none

def reason : LoadError → Text
  | noArrow _ => "missing '->'"
  | badLeft _ got => "left-hand side must be one symbol, got " ++ Text.quoted got
  | emptyAlternative _ name => "empty alternative for " ++ name
  | noRules _ => "no rules"
  | lineTooLong => "failed to read grammar: bufio.Scanner: token too long"

def message (e : LoadError) : Text :=
  match e.line? with
  | some n => "grammar line " ++ Text.decimal n ++ ": " ++ e.reason
  | none => e.reason

end LoadError

def maxLine : Nat := 65535

/-- The lines of a text; a line feed ends a line and nothing follows the last one. -/
def lines (text : Text) : List Text :=
  match (text.splitOn Text.newline).reverse with
  | [] :: rest => rest.reverse
  | all => all.reverse

def parseLine (n : Nat) (line : Text) : Except LoadError (List (Symbol × List Symbol)) := do
  let line := Text.strip line
  if line.isEmpty || line.head? == some 35 then return []
  match Text.cut? "->" line with
  | none => throw (.noArrow n)
  | some (left, right) =>
    match Text.fields left with
    | [name] =>
      (right.splitOn (Text.byte '|')).mapM fun alternative =>
        match Text.fields alternative with
        | [] => throw (.emptyAlternative n name)
        | symbols => return (name, symbols)
    | _ => throw (.badLeft n (Text.strip left))

def parseLines : (n : Nat) → List Text → Except LoadError (List (Symbol × List Symbol))
  | _, [] => return []
  | n, line :: rest => do
    if maxLine < line.length then throw .lineTooLong
    let found ← parseLine n line
    return found ++ (← parseLines (n + 1) rest)

def ofAlternatives (alternatives : List (Symbol × List Symbol)) : Grammar :=
  ⟨alternatives.zipIdx.map fun ((lhs, rhs), i) => ⟨i + 1, lhs, rhs⟩⟩

def load (text : Text) : Except LoadError Grammar := do
  let ls := lines text
  let alternatives ← parseLines 1 ls
  if alternatives.isEmpty then throw (.noRules ls.length)
  return ofAlternatives alternatives

end JavaToCpp.Grammar
