/-
  The C++ text of a program.

  Every function becomes a section: its header, then the tokens of its body written one after
  the other.  Most tokens are written as they stand; brackets, separators and the built-in
  functions are not, and two constructs change what separators do.  The parentheses of a print
  become the operators of an output stream, and semicolons in the header of a for do not end a
  line.
-/
import JavaToCpp.Cpp.Page
import JavaToCpp.Java.Grammar
import JavaToCpp.Tree.Basic

namespace JavaToCpp.Cpp

open JavaToCpp.Tree (Missing)

inductive Role where
  | openBrace
  | closeBrace
  | semicolon
  | openParen
  | closeParen
  | comma
  | print
  | max
  | min
  | typeHint
  | void
  /-- written between blanks -/
  | operator
  | for_
  /-- written with a blank after it -/
  | word
  /-- written as it stands -/
  | plain
deriving DecidableEq, Repr

def roles : List (String × Role) := [
  ("lbracket_curly", .openBrace), ("rbracket_curly", .closeBrace), ("semicolon", .semicolon),
  ("lbracket", .openParen), ("rbracket", .closeParen), ("comma", .comma),
  ("print", .print), ("max", .max), ("min", .min),
  ("type_hint", .typeHint), ("void", .void),
  ("math_operator", .operator), ("compare", .operator), ("boolean_operator", .operator),
  ("assign", .operator), ("op_assign", .operator),
  ("for", .for_),
  ("if", .word), ("while", .word), ("return", .word), ("else", .word), ("do", .word)]

def roleOf (category : Text) : Role :=
  ((roles.find? fun (name, _) => Text.ofString name == category).map Prod.snd).getD .plain

def typeName (keyword : Text) : Text :=
  if keyword == Text.ofString "boolean" then "bool" else keyword

structure Emitter where
  page : Page
  /-- how many parentheses are open -/
  parens : Int := 0
  /-- the parentheses open outside each open print, the innermost print first -/
  prints : List Int := []
  /-- a print waits for its parenthesis -/
  awaitingPrint : Bool := false
  /-- the parentheses open outside the header of a for that is being written -/
  header : Option Int := none
  /-- a for waits for its parenthesis -/
  awaitingFor : Bool := false
deriving DecidableEq, Repr, Inhabited

namespace Emitter

def write (e : Emitter) (t : Text) : Emitter := { e with page := e.page.write t }

/-- Whether the next token belongs to the arguments of the innermost print and to no inner
    parenthesis. -/
def inPrint (e : Emitter) : Bool := e.prints.head?.any fun outside => e.parens == outside + 1

def openParen (e : Emitter) : Emitter :=
  let e :=
    if e.awaitingPrint then
      { e.write " << " with awaitingPrint := false, prints := e.parens :: e.prints }
    else if e.awaitingFor then
      { e.write "(" with
          awaitingFor := false, header := if 0 ≤ e.parens then some e.parens else none }
    else e.write "("
  { e with parens := e.parens + 1 }

def closeParen (e : Emitter) : Emitter :=
  let e := { e with parens := e.parens - 1, page := e.page.trim }
  if e.prints.head? = some e.parens then { e.write " << \"\\n\"" with prints := e.prints.drop 1 }
  else if e.header = some e.parens then { e.write ")" with header := none }
  else e.write ")"

def semicolon (e : Emitter) : Emitter :=
  let page := e.page.trim
  if e.header.isSome then { e with page := page.write "; " }
  else { e with page := (page.write ";").endLine }

def emit (e : Emitter) (t : Token) : Emitter :=
  match roleOf t.category with
  | .openBrace => { e with page := e.page.openBrace }
  | .closeBrace => { e with page := e.page.closeBrace }
  | .semicolon => e.semicolon
  | .openParen => e.openParen
  | .closeParen => e.closeParen
  | .comma => if e.inPrint then e.write " << " else e.write ", "
  | .print => { e.write "std::cout" with awaitingPrint := true }
  | .max => e.write "std::max"
  | .min => e.write "std::min"
  | .typeHint => e.write (typeName t.text ++ " ")
  | .void => e.write "void "
  | .operator => e.write (" " ++ t.text ++ " ")
  | .for_ => { e.write "for " with awaitingFor := true }
  | .word => e.write (t.text ++ " ")
  | .plain => e.write t.text

end Emitter

def section_ (header : Text) (body : List Token) : Text :=
  (body.foldl Emitter.emit { page := Page.write {} header }).page.text

def entryHeader : Text := "void main(int argc, char *argv[])"

def paramText (p : Tree) : Except Missing Text := do
  let type ← p.find Java.Label.type
  let id ← p.find Java.Label.id
  return typeName type.text ++ " " ++ id.text

def headerOf (f : Tree) : Except Missing Text := do
  let returns ← f.find Java.Label.funcReturnType
  let name ← f.find Java.Label.name
  let list ← f.find Java.Label.funcParams
  let params ← (← list.flatten Java.Label.param).mapM paramText
  return typeName returns.text ++ " " ++ name.text ++ "(" ++ Text.join ", " params ++ ")"

inductive Part where
  | function (text : Text)
  | entry (text : Text)
  | nothing
deriving DecidableEq, Repr

def partOf (m : Tree) : Except Missing Part := do
  let f := m.child 0
  let l ← f.label
  if l == Java.Label.mainFunc then
    return .entry (section_ entryHeader (← f.find Java.Label.codeBlock).tokens)
  else if l == Java.Label.funcDeclaration then
    return .function (section_ (← headerOf f) (← f.find Java.Label.codeBlock).tokens)
  else return .nothing

def Part.function? : Part → Option Text
  | function t => some t
  | _ => none

def Part.entry? : Part → Option Text
  | entry t => some t
  | _ => none

def sections (parts : List Part) : List Text :=
  parts.filterMap Part.function? ++ (parts.filterMap Part.entry?).getLast?.toList

def usesAlgorithm (root : Tree) : Bool :=
  root.tokens.any fun t => roleOf t.category == .max || roleOf t.category == .min

inductive Failure where
  | notProgram
  | missing
deriving DecidableEq, Repr

def generate (root : Tree) : Except Failure Text :=
  if !root.hasLabel Java.Label.program then .error .notProgram
  else
    match (do
      let body ← root.find Java.Label.classBody
      (← body.flatten Java.Label.member).mapM partOf : Except Missing (List Part)) with
    | .error _ => .error .missing
    | .ok parts =>
      let algorithm : Text := if usesAlgorithm root then "#include <algorithm>\n" else []
      .ok ("#include <iostream>\n" ++ algorithm ++ "\n" ++ Text.join "\n" (sections parts))

end JavaToCpp.Cpp
