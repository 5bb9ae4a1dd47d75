/-
  Trees without places.

  `plain` drops the positions and the lines of the tokens.  Labels, texts and the ways through a tree
  do not depend on them: every step down commutes with `plain`, and all lines of a plain tree are 0.
-/
import JavaToCpp.Proofs.Tree.Nodes

namespace JavaToCpp

open List

def Token.plain (k : Token) : Token := { k with pos := 0, line := 0 }

theorem Token.plain_eq_plain {k k' : Token} :
    k.plain = k'.plain ↔ k.category = k'.category ∧ k.text = k'.text := by
  simp [Token.plain]

namespace Tree

mutual

def plain : Tree → Tree
  | leaf k => leaf k.plain
  | branch l cs => branch l (plainAll cs)
  | hole => hole

def plainAll : List Tree → List Tree
  | [] => []
  | c :: cs => c.plain :: plainAll cs

end

theorem plainAll_eq (cs : List Tree) : plainAll cs = cs.map plain := by
  induction cs with
  | nil => rfl
  | cons c cs ih => rw [plainAll, ih, map_cons]

variable {l item : Text}

@[simp] theorem plain_leaf (k : Token) : (leaf k).plain = leaf k.plain := by rw [plain]

@[simp] theorem plain_branch (l : Text) (cs : List Tree) :
    (branch l cs).plain = branch l (cs.map plain) := by
  rw [plain, plainAll_eq]

@[simp] theorem plain_hole : hole.plain = hole := by rw [plain]

@[simp] theorem label_plain (t : Tree) : t.plain.label = t.label := by
  cases t <;> simp [label, Token.plain]

@[simp] theorem hasLabel_plain (t : Tree) : t.plain.hasLabel l = t.hasLabel l := by
  cases t <;> simp [hasLabel, Token.plain]

@[simp] theorem isHole_plain (t : Tree) : t.plain.isHole = t.isHole := by
  cases t <;> simp [isHole]

@[simp] theorem children_plain (t : Tree) : t.plain.children = t.children.map plain := by
  cases t <;> simp [children]

@[simp] theorem child_plain (t : Tree) (i : Nat) : t.plain.child i = (t.child i).plain := by
  rw [child, child, children_plain, getElem?_map]
  cases t.children[i]? <;> simp

@[simp] theorem lastChild_plain (t : Tree) : t.plain.lastChild = t.lastChild.plain := by
  rw [lastChild, lastChild, children_plain, getLast?_map]
  cases t.children.getLast? <;> simp

theorem findIn_plain (cs : List Tree) : findIn l (cs.map plain) = (findIn l cs).map plain := by
  induction cs with
  | nil => simp [findIn, Except.map]
  | cons c cs ih =>
    rw [map_cons, findIn, findIn, label_plain, ih]
    cases c.label with
    | error e => rfl
    | ok l' =>
      change (if l' == l then _ else _) = Except.map plain (if l' == l then _ else _)
      split <;> rfl

@[simp] theorem find_plain (t : Tree) (l : Text) : t.plain.find l = (t.find l).map plain := by
  rw [find, find, children_plain, findIn_plain]

theorem lastWith?_plain (cs : List Tree) :
    lastWith? l (cs.map plain) = (lastWith? l cs).map plain := by
  rw [lastWith?, lastWith?, ← map_reverse, find?_map]
  congr 2
  exact funext fun t => hasLabel_plain t

theorem filter_plain (cs : List Tree) :
    (cs.map plain).filter (hasLabel item) = (cs.filter (hasLabel item)).map plain := by
  rw [filter_map]
  congr 2
  exact funext fun t => hasLabel_plain t

@[simp] theorem flatten_plain (t : Tree) :
    t.plain.flatten item = (t.flatten item).map (map plain) := by
  induction t using sizeInduction with
  | step t ih =>
    cases t with
    | leaf k | hole => simp [flatten, Except.map]
    | branch l cs =>
      have hholes : (cs.map plain).any isHole = cs.any isHole := by
        rw [any_map]
        congr 1
        exact funext fun t => isHole_plain t
      rw [plain_branch, flatten_branch, flatten_branch, hholes, lastWith?_plain, filter_plain]
      split_ifs
      · rfl
      · rfl
      · cases hnext : lastWith? l cs with
        | none => rfl
        | some next =>
          have hsize : sizeOf next < sizeOf (branch l cs) :=
            sizeOf_of_mem_children (mem_of_lastWith? hnext)
          simp only [Option.map_some, ih next hsize]
          cases flatten item next <;> simp [Except.map]

theorem find_flatten_plain (t : Tree) (l item : Text) :
    t.plain.find l >>= flatten item = (t.find l >>= flatten item).map (map plain) := by
  rw [find_plain]
  cases t.find l with
  | error e => rfl
  | ok list => exact flatten_plain list

mutual

theorem tokens_plain : ∀ t : Tree, t.plain.tokens = t.tokens.map Token.plain
  | leaf k | hole => by simp [tokens]
  | branch l cs => by rw [plain, tokens, tokens, tokensOf_plainAll]

theorem tokensOf_plainAll : ∀ cs : List Tree, tokensOf (plainAll cs) = (tokensOf cs).map Token.plain
  | [] => by simp [plainAll, tokensOf]
  | c :: cs => by rw [plainAll, tokensOf, tokensOf, tokens_plain c, tokensOf_plainAll cs, map_append]

end

theorem first?_plain (t : Tree) : t.plain.first? = t.first?.map Token.plain := by
  fun_induction first? t with
  | case1 k | case3 | case4 => simp [first?]
  | case2 l c cs ih => simpa [first?] using ih

@[simp] theorem text_plain (t : Tree) : t.plain.text = t.text := by
  rw [text, text, first?_plain]
  cases t.first? <;> rfl

@[simp] theorem line_plain (t : Tree) : t.plain.line = 0 := by
  rw [line, first?_plain]
  cases t.first? <;> rfl

end Tree

end JavaToCpp
