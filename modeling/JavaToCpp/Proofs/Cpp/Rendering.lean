/-
  The C++ text of a program, read off its syntax.

  Every construct has its text by recursion over the syntax, and nothing but the construct itself
  decides about it: what stands on one line (`Phrase.text`), the lines of a statement
  (`Stmt.lines`), the functions of a program (`Routine`) and the text of the whole program
  (`Decl.rendering`).

  Blanks at the end of a line, of what is in parentheses and of a part of a for header are not
  written (`Page.trimmed`).
-/
import JavaToCpp.Cpp.Generate
import JavaToCpp.Proofs.Java.Concrete

namespace JavaToCpp.Java

open JavaToCpp.Cpp (typeName entryHeader)
open JavaToCpp.Cpp.Page (trimmed indented)

/-! ## What stands on one line -/

def enclosed (t : Text) : Text := "(" ++ trimmed t ++ ")"

def spaced (op : Text) : Text := " " ++ op ++ " "

namespace Phrase

mutual

def text : {s : Nonterminal} → Phrase s → Text
  | _, expr d => d.text
  | _, disjunction r => r.text
  | _, logic r op d => r.text ++ spaced op.text ++ d.text
  | _, relation m => m.text
  | _, comparison l op r => l.text ++ spaced op.text ++ r.text
  | _, mathExpr t => t.text
  | _, math t op m => t.text ++ spaced op.text ++ m.text
  | _, term o => o.text
  | _, negation op t => op.text ++ t.text
  | _, group _ e _ => enclosed e.text
  | _, number w => w.text
  | _, charLiteral w => w.text
  | _, booleanValue w => w.text
  | _, var w => w.text
  | _, value c => c.text
  | _, call f _ args _ => f.text ++ enclosed (Text.join ", " args.argTexts)
  | _, callEmpty f _ _ => f.text ++ enclosed []
  | _, print _ _ args _ =>
    "std::cout" ++ trimmed (args.argTexts.flatMap fun t => " << " ++ t) ++ " << \"\\n\""
  | _, max _ _ args _ => "std::max" ++ enclosed (Text.join ", " args.argTexts)
  | _, min _ _ args _ => "std::min" ++ enclosed (Text.join ", " args.argTexts)
  | _, lastArg e => e.text
  | _, arg e _ rest => e.text ++ ", " ++ rest.text
  | _, declare type id => typeName type.text ++ " " ++ id.text
  | _, initialise type id op e =>
    typeName type.text ++ " " ++ id.text ++ spaced op.text ++ e.text
  | _, set id op e => id.text ++ spaced op.text ++ e.text
  | _, combine id op e => id.text ++ spaced op.text ++ e.text
  | _, stepAfter id op => id.text ++ op.text
  | _, stepBefore op id => op.text ++ id.text
  | _, returnValue w e => w.text ++ " " ++ e.text
  | _, returnNothing w => w.text ++ " "
  | _, initVar v => v.text
  | _, initSet a => a.text
  | _, step a => a.text

def argTexts : {s : Nonterminal} → Phrase s → List Text
  | _, lastArg e => [e.text]
  | _, arg e _ rest => e.text :: rest.argTexts
  | _, _ => []

end

end Phrase

/-! ## Lines -/

/-- The line with a text at a depth of braces; an empty one is left out. -/
def line (depth : Nat) (t : Text) : List Text :=
  if trimmed t = [] then [] else [indented depth (trimmed t)]

/-- The header of a for, its three parts on one line. -/
def forHeader (init test step : Text) : Text :=
  "for (" ++ trimmed init ++ trimmed ("; " ++ test) ++ trimmed ("; " ++ step) ++ ")"

/-- The lines of a statement at a depth of braces, with the text `lead` in front of it on its
    first line. -/
def Stmt.lines (depth : Nat) (lead : Text) : {s : Nonterminal} → Stmt s → List Text
  | _, block _ body _ =>
    line depth lead ++ [indented depth "\x7b"] ++ body.lines (depth + 1) [] ++
      [indented depth "\x7d"]
  | _, blockEmpty _ _ => line depth lead ++ [indented depth "\x7b"] ++ [indented depth "\x7d"]
  | _, last i => i.lines depth lead
  | _, more i rest => i.lines depth lead ++ rest.lines depth []
  | _, simple _ p _ => [indented depth (trimmed (lead ++ p.text) ++ ";")]
  | _, compound _ x => x.lines depth lead
  | _, ifThen w _ test _ yes => yes.lines depth (lead ++ w.text ++ " " ++ enclosed test.text)
  | _, ifElse w _ test _ yes el no =>
    yes.lines depth (lead ++ w.text ++ " " ++ enclosed test.text) ++
      no.lines depth (el.text ++ " ")
  | _, ifElseIf w _ test _ yes el no =>
    yes.lines depth (lead ++ w.text ++ " " ++ enclosed test.text) ++
      no.lines depth (el.text ++ " ")
  | _, forLoop _ _ init _ test _ step _ body =>
    body.lines depth (lead ++ forHeader init.text test.text step.text)
  | _, whileLoop w _ test _ body => body.lines depth (lead ++ w.text ++ " " ++ enclosed test.text)
  | _, doWhile w body wh _ test _ _ =>
    body.lines depth (lead ++ w.text ++ " ") ++
      [indented depth (wh.text ++ " " ++ enclosed test.text ++ ";")]

/-! ## Programs -/

/-- A function or an entry point: its header in C++ and its body. -/
structure Routine where
  header : Text
  body : Stmt .codeBlock

/-- The section of a routine: its header and the lines of its body, each ended by a line feed. -/
def Routine.text (r : Routine) : Text :=
  (r.body.lines 0 r.header).flatMap fun l => l ++ [Text.newline]

namespace Decl

def paramTexts : {s : Nonterminal} → Decl s → List Text
  | _, param type id => [typeName type.text ++ " " ++ id.text]
  | _, lastParam p => p.paramTexts
  | _, moreParams p _ rest => p.paramTexts ++ rest.paramTexts
  | _, _ => []

def functions : {s : Nonterminal} → Decl s → List Routine
  | _, function _ _ returns name _ params _ body =>
    [⟨typeName returns.text ++ " " ++ name.text ++ "(" ++ Text.join ", " params.paramTexts ++ ")",
      body⟩]
  | _, functionEmpty _ _ returns name _ _ body =>
    [⟨typeName returns.text ++ " " ++ name.text ++ "(" ++ ")", body⟩]
  | _, ofFunction f => f.functions
  | _, lastMember m => m.functions
  | _, moreMembers m rest => m.functions ++ rest.functions
  | _, program _ _ _ _ body _ => body.functions
  | _, _ => []

def entries : {s : Nonterminal} → Decl s → List Routine
  | _, main _ _ _ _ _ _ _ body => [⟨entryHeader, body⟩]
  | _, ofMain f => f.entries
  | _, lastMember m => m.entries
  | _, moreMembers m rest => m.entries ++ rest.entries
  | _, program _ _ _ _ body _ => body.entries
  | _, _ => []

def routines {s : Nonterminal} (p : Decl s) : List Routine := p.functions ++ p.entries

/-- Whether the largest or the smallest of two numbers is asked for. -/
def comparesNumbers {s : Nonterminal} (p : Decl s) : Prop :=
  ∃ t ∈ p.tree.tokens, t.category = Text.ofString "max" ∨ t.category = Text.ofString "min"

instance {s : Nonterminal} (p : Decl s) : Decidable p.comparesNumbers := by
  unfold comparesNumbers; infer_instance

def includes {s : Nonterminal} (p : Decl s) : Text :=
  "#include <iostream>\n" ++ if p.comparesNumbers then Text.ofString "#include <algorithm>\n" else []

def rendering {s : Nonterminal} (p : Decl s) : Text :=
  p.includes ++ "\n" ++ Text.join "\n" (p.routines.map Routine.text)

end Decl

end JavaToCpp.Java
