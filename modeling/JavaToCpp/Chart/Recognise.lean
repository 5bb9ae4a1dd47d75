/-
  Recognition.

  The states of a column are worked through in the order in which they arrive.  A complete state
  moves every state on that waited for its nonterminal where it began; a nonterminal after the
  dot brings in its rules; a tag after the dot reads the next token if it accepts it.
-/
import JavaToCpp.Chart.Basic

namespace JavaToCpp.Chart

open Grammar (Rule)

def top : Symbol := "<START>"

def topRule (g : Grammar) : Rule := ⟨0, top, [g.start]⟩

structure Entry where
  symbol : Symbol
  isTag : Bool
  rules : List Rule
deriving Repr

def entries (g : Grammar) : List Entry :=
  g.nonterminals.map fun s => ⟨s, g.isTag s, g.rulesOf s⟩

def lookup? (es : List Entry) (s : Symbol) : Option Entry := es.find? fun e => e.symbol == s

/-- The states that a state brings into its own column, the one at place `i` after those of
    `earlier`. -/
def followers (es : List Entry) (earlier : Array Column) (i : Nat) (s : State) : List State :=
  match s.next? with
  | none =>
    match earlier[s.origin]? with
    | some c => (c.waiting.getD s.rule.lhs #[]).toList.map fun w => w.advance i s.tree
    | none => []
  | some symbol =>
    match lookup? es symbol with
    | some e => if e.isTag then [] else e.rules.map (State.begin i)
    | none => []

/-- Works through the states of a column from the `n`th one on.  The fuel is the number of states
    that a column can hold. -/
def close (es : List Entry) (earlier : Array Column) (i : Nat) :
    (fuel n : Nat) → Column → Column
  | 0, _, c => c
  | fuel + 1, n, c =>
    match c.states[n]? with
    | none => c
    | some s => close es earlier i fuel (n + 1) ((followers es earlier i s).foldl Column.insert c)

/-- The number of states that the column at place `i` can hold. -/
def capacity (g : Grammar) (i : Nat) : Nat :=
  total ((topRule g :: g.rules).map fun r => r.rhs.length + 1) * (i + 1)

/-- The rule of a tag for a category: the last one, if it has several. -/
def tagRule? (rules : List Rule) (category : Symbol) : Option Rule :=
  rules.reverse.find? fun r => r.rhs == [category]

def scanRule? (es : List Entry) (tag : Symbol) (t : Token) : Option Rule := do
  let e ← lookup? es tag
  if e.isTag then tagRule? e.rules t.category else none

/-- The state that reading the token at place `i` gives. -/
def scanState? (es : List Entry) (i : Nat) (t : Token) (s : State) : Option State := do
  let tag ← s.next?
  let rule ← scanRule? es tag t
  return State.scanned i rule t

/-- The column that starts with the states to be read after the token at place `i`. -/
def scan (es : List Entry) (i : Nat) (t : Token) (c : Column) : Column :=
  (c.states.toList.filterMap (scanState? es i t)).foldl Column.insert .empty

/-- The columns from place `i` on, after those of `earlier`; the first of them starts with `seeds`.
    Where a column is empty, so are the ones after it. -/
def fill (g : Grammar) (es : List Entry) :
    (i : Nat) → (earlier : Array Column) → (seeds : Column) → List Token → Array Column
  | i, earlier, seeds, [] => earlier.push (close es earlier i (capacity g i) 0 seeds)
  | i, earlier, seeds, t :: ts =>
    let c := close es earlier i (capacity g i) 0 seeds
    fill g es (i + 1) (earlier.push c) (scan es i t c) ts

def ofTokens (g : Grammar) (tokens : List Token) : Chart :=
  let seeds := Column.empty.insert (State.begin 0 (topRule g))
  ⟨tokens, (fill g (entries g) 0 #[] seeds tokens).toList.map fun c => c.states.toList⟩

def accepting (n : Nat) (s : State) : Bool :=
  s.rule.number == 0 && s.isComplete && s.origin == 0 && s.index == n

def accepted? (c : Chart) : Option State :=
  (c.sets.getLast?.getD []).find? (accepting c.tokens.length)

def tree? (c : Chart) : Option Tree := do
  let s ← c.accepted?
  s.children.head?

inductive Rejection where
  | noTokens
  | unexpected (token : Token)
  | endOfInput (last : Token)
deriving DecidableEq, Repr

namespace Rejection

def token? : Rejection → Option Token
  | noTokens => none
  | unexpected t => some t
  | endOfInput t => some t

def line (r : Rejection) : Int := (r.token?.map Token.line).getD 1

def message : Rejection → Text
  | noTokens => "empty program"
  | unexpected t => "unexpected " ++ t.category ++ " " ++ Text.quoted t.text
  | endOfInput _ => "unexpected end of input"

def describe (r : Rejection) : Text :=
  "syntax error in line " ++ Text.ofInt r.line ++ ": " ++ r.message

end Rejection

/-- The rejection for the first empty set, or for the end when no state accepts. -/
def rejection? (c : Chart) : Option Rejection :=
  match c.tokens.getLast? with
  | none => if c.accepted?.isSome then none else some .noTokens
  | some last =>
    match c.sets.findIdx? List.isEmpty with
    | some k => some (.unexpected (c.tokens[k - 1]?.getD last))
    | none => if c.accepted?.isSome then none else some (.endOfInput last)

def parse (g : Grammar) (tokens : List Token) : Except Rejection Tree :=
  let c := ofTokens g tokens
  match c.rejection?, c.tree? with
  | none, some t => .ok t
  | some r, _ => .error r
  | none, none => .error .noTokens

end JavaToCpp.Chart
