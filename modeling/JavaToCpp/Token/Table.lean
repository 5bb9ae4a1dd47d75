/-
  Tables of rules.

  `Table.compile` joins the patterns of a table into one, an alternative for each rule in the
  order of the table, each a group of its own.  The rule of a match is the one whose group took
  part in it.  A table is refused when a pattern is malformed, names a group of its own or
  matches the empty text.
-/
import JavaToCpp.Pattern.Match
import JavaToCpp.Pattern.Reader
import JavaToCpp.Token.Basic

namespace JavaToCpp.Token

structure Table where
  rules : List Rule
  program : Pattern.Program
  /-- the number of each rule's group, with the index of the rule -/
  groups : List (Nat × Nat)
deriving Repr

inductive Table.Error where
  | noRules
  | badPattern (category : Text) (cause : Pattern.Error)
  | namedGroup (category name : Text)
  | matchesEmpty (category : Text)
  | badTable (cause : Pattern.Error)
deriving DecidableEq, Repr

def Table.Error.message : Table.Error → Text
  | noRules => "lexer: empty rule table"
  | badPattern category cause => "lexer: rule " ++ category ++ ": " ++ cause.message
  | namedGroup category name =>
    "lexer: rule " ++ category ++ ": named group " ++ Text.quoted name ++ " is not allowed"
  | matchesEmpty category => "lexer: rule " ++ category ++ " matches the empty string"
  | badTable cause => "lexer: combined pattern: " ++ cause.message

/-- The pattern text, bound to the beginning of the text it is matched with. -/
def anchored (pattern : Text) : Text := "^(?:" ++ pattern ++ ")"

def Rule.check (r : Rule) : Except Table.Error Unit := do
  match Pattern.parse (anchored r.pattern) with
  | .error e => throw (.badPattern r.category e)
  | .ok p =>
    if let (_, name) :: _ := p.names then throw (.namedGroup r.category name)
    if (p.regex.program.match? []).isSome then throw (.matchesEmpty r.category)

def groupName (i : Nat) : Text := "r" ++ Text.decimal i

def indexOf? (rules : List Rule) (name : Text) : Option Nat :=
  (List.range rules.length).find? fun i => groupName i == name

def alternatives (rules : List Rule) : Text :=
  Text.join "|" (rules.zipIdx.map fun (r, i) =>
    "(?P<" ++ groupName i ++ ">" ++ r.pattern ++ ")")

def Table.compile (rules : List Rule) : Except Table.Error Table := do
  if rules.isEmpty then throw .noRules
  rules.forM Rule.check
  match Pattern.parse (anchored (alternatives rules)) with
  | .error e => throw (.badTable e)
  | .ok p =>
    let groups := p.names.filterMap fun (g, name) => (indexOf? rules name).map fun i => (g, i)
    return ⟨rules, p.regex.program, groups⟩

/-- The rule whose group took part in a match; the last rule if there is none. -/
def Table.ruleOf? (t : Table) (entered : List Nat) : Option Rule :=
  match t.groups.find? fun (g, _) => entered.contains g with
  | some (_, i) => t.rules[i]?
  | none => t.rules.getLast?

def Table.match? (t : Table) (source : Text) : Option (Rule × Nat) := do
  let m ← t.program.match? source
  let r ← t.ruleOf? m.entered
  return (r, m.taken)

end JavaToCpp.Token
