/-
  Parse trees.

  A leaf holds a token and is labelled with its category; a branch is labelled with a
  nonterminal.  A tree handed in from outside may be incomplete: a `hole` stands where a node is
  missing.  What needs the label of a missing node fails with `Missing`.
-/
import JavaToCpp.Token.Basic

namespace JavaToCpp

inductive Tree where
  | leaf (token : Token)
  | branch (label : Text) (children : List Tree)
  | hole
deriving Repr, Inhabited

namespace Tree

inductive Missing where
  | node
deriving DecidableEq, Repr

def label : Tree → Except Missing Text
  | leaf t => .ok t.category
  | branch l _ => .ok l
  | hole => .error .node

def hasLabel (l : Text) : Tree → Bool
  | leaf t => t.category == l
  | branch l' _ => l' == l
  | hole => false

def isHole : Tree → Bool
  | hole => true
  | _ => false

def isLeaf : Tree → Bool
  | leaf _ => true
  | _ => false

def children : Tree → List Tree
  | branch _ cs => cs
  | _ => []

def child (t : Tree) (i : Nat) : Tree := t.children[i]?.getD hole

def lastChild (t : Tree) : Tree := t.children.getLast?.getD hole

def findIn (l : Text) : List Tree → Except Missing Tree
  | [] => .ok hole
  | c :: cs => do
    if (← c.label) == l then return c else findIn l cs

def find (t : Tree) (l : Text) : Except Missing Tree := findIn l t.children

def labels (t : Tree) : Except Missing (List Text) :=
  match t with
  | hole => .error .node
  | t => t.children.mapM label

mutual

def tokens : Tree → List Token
  | leaf t => [t]
  | branch _ cs => tokensOf cs
  | hole => []

def tokensOf : List Tree → List Token
  | [] => []
  | c :: cs => c.tokens ++ tokensOf cs

end

/-- The token of the leaf reached through first children. -/
def first? : Tree → Option Token
  | leaf t => some t
  | branch _ (c :: _) => first? c
  | branch _ [] => none
  | hole => none

def line (t : Tree) : Int := (t.first?.map Token.line).getD 0

def text (t : Tree) : Text := (t.first?.map Token.text).getD []

def lastWith? (l : Text) (ts : List Tree) : Option Tree := ts.reverse.find? (hasLabel l)

theorem mem_of_lastWith? {l : Text} {ts : List Tree} {t : Tree} (h : lastWith? l ts = some t) :
    t ∈ ts :=
  List.mem_reverse.1 (List.mem_of_find?_eq_some h)

/-- Unrolls a list such as `list -> item separator list`: the children labelled `item` of the
    node, of its child with the node's own label, and so on. -/
def flatten (item : Text) : Tree → Except Missing (List Tree)
  | branch l cs =>
    if cs.any isHole then .error .node
    else if l == item then .ok (cs.filter (hasLabel item))
    else
      match _h : lastWith? l cs with
      | some next => (flatten item next).map (cs.filter (hasLabel item) ++ ·)
      | none => .ok (cs.filter (hasLabel item))
  | leaf _ => .ok []
  | hole => .ok []
termination_by t => sizeOf t
decreasing_by
  have := List.sizeOf_lt_of_mem (mem_of_lastWith? _h)
  simp only [branch.sizeOf_spec]
  omega

mutual

/-- The labels in the order of a walk that goes no deeper at nodes labelled `stop`. -/
def walk (stop : Text) : Tree → List Text
  | leaf t => [t.category]
  | branch l cs => l :: if l == stop then [] else walkAll stop cs
  | hole => []

def walkAll (stop : Text) : List Tree → List Text
  | [] => []
  | c :: cs => c.walk stop ++ walkAll stop cs

end

mutual

/-- The tree as text, a line for each node, two blanks deeper for each level. -/
def outlineAt (depth : Nat) : Tree → Except Missing Text
  | leaf t => .ok (Text.times depth "  " ++ t.category ++ " " ++ t.text ++ "\n")
  | branch l cs => do
    return Text.times depth "  " ++ l ++ "\n" ++ (← outlineAll (depth + 1) cs)
  | hole => .error .node

def outlineAll (depth : Nat) : List Tree → Except Missing Text
  | [] => .ok []
  | c :: cs => do
    let head ← c.outlineAt depth
    return head ++ (← outlineAll depth cs)

end

def outline (t : Tree) : Except Missing Text := t.outlineAt 0

end Tree

end JavaToCpp
