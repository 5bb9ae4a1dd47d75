/-
  Charts.

  A state is a rule with a dot, the place where it began and the place it has come to, and the
  trees of the symbols before the dot.  A chart has a column of states for each place between two
  tokens.  Of two states with the same rule, dot and beginning a column keeps the earlier one.

  A column also holds the keys of its states and the states that wait for each symbol, so that both
  are found without a walk through all states; `mem_keys` and `waiting_eq` say what they are.
-/
import JavaToCpp.Grammar.Basic
import JavaToCpp.Number.Total
import JavaToCpp.Tree.Basic
import Std.Data.HashMap
import Std.Data.HashSet

namespace JavaToCpp.Chart

open Grammar (Rule)

structure State where
  rule : Rule
  /-- how many symbols of the rule stand before the dot -/
  dot : Nat
  /-- the place where the rule began -/
  origin : Nat
  /-- the place of the dot -/
  index : Nat
  /-- the trees of the symbols before the dot -/
  children : List Tree
  /-- the token that a tag has read -/
  token : Option Token
deriving Repr, Inhabited

namespace State

def isComplete (s : State) : Bool := s.rule.rhs.length ≤ s.dot

def next? (s : State) : Option Symbol := s.rule.rhs[s.dot]?

/-- The number of the rule, the dot and the beginning: states with the same key count as one. -/
def key (s : State) : Nat × Nat × Nat := (s.rule.number, s.dot, s.origin)

def tree (s : State) : Tree :=
  match s.token with
  | some t => .branch s.rule.lhs [.leaf t]
  | none => .branch s.rule.lhs s.children

def advance (s : State) (index : Nat) (child : Tree) : State :=
  { s with dot := s.dot + 1, index, children := s.children ++ [child] }

def begin (index : Nat) (rule : Rule) : State := ⟨rule, 0, index, index, [], none⟩

def scanned (origin : Nat) (rule : Rule) (token : Token) : State :=
  ⟨rule, 1, origin, origin + 1, [], some token⟩

def describe (s : State) : Text :=
  let symbols := s.rule.rhs.take s.dot ++ [Text.ofString "."] ++ s.rule.rhs.drop s.dot
  s.rule.lhs ++ " -> " ++ Text.join " " symbols ++ " [" ++ Text.decimal s.origin ++ "]"

def describeLine (s : State) : Text := "  " ++ s.describe ++ "\n"

end State

structure Column where
  states : Array State
  /-- the keys of the states -/
  keys : Std.HashSet (Nat × Nat × Nat)
  /-- the states with each symbol after the dot -/
  waiting : Std.HashMap Symbol (Array State)
  mem_keys : ∀ k, k ∈ keys ↔ ∃ s ∈ states, s.key = k
  waiting_eq : ∀ a, waiting.getD a #[] = states.filter fun s => s.next? == some a

namespace Column

def empty : Column := ⟨#[], ∅, ∅, by simp, by simp⟩

def push (c : Column) (s : State) : Column where
  states := c.states.push s
  keys := c.keys.insert s.key
  waiting := match s.next? with
    | none => c.waiting
    | some a => c.waiting.insert a ((c.waiting.getD a #[]).push s)
  mem_keys k := by
    rw [Std.HashSet.mem_insert, c.mem_keys, beq_iff_eq]
    constructor
    · rintro (rfl | ⟨t, ht, hk⟩)
      · exact ⟨s, Array.mem_push_self, rfl⟩
      · exact ⟨t, Array.mem_push_of_mem s ht, hk⟩
    · rintro ⟨t, ht, hk⟩
      rcases Array.mem_push.1 ht with ht | rfl
      · exact .inr ⟨t, ht, hk⟩
      · exact .inl hk
  waiting_eq a := by
    rw [Array.filter_push]
    cases h : s.next? with
    | none => simp [c.waiting_eq]
    | some b => by_cases hb : b = a <;> simp [Std.HashMap.getD_insert, c.waiting_eq, hb]

/-- Adds a state unless the column has one that counts as the same. -/
def insert (c : Column) (s : State) : Column := if s.key ∈ c.keys then c else c.push s

end Column

end JavaToCpp.Chart

namespace JavaToCpp

/-- The sets of states of a run of the recogniser over the tokens. -/
structure Chart where
  tokens : List Token
  sets : List (List Chart.State)
deriving Repr

namespace Chart

def size (c : Chart) : Nat := total (c.sets.map List.length)

def describeSet (tokens : List Token) (i : Nat) (set : List State) : Text :=
  let head := match tokens[i]? with
    | some t => "next " ++ t.describe
    | none => Text.ofString "end of input"
  "== " ++ Text.decimal i ++ ": " ++ head ++ "\n" ++
    set.flatMap State.describeLine

def describe (c : Chart) : Text :=
  c.sets.zipIdx.flatMap fun (set, i) => describeSet c.tokens i set

end Chart

end JavaToCpp
