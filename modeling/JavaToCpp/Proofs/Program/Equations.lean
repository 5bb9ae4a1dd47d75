/-
  What the readers of parse trees do, one step at a time.

  The readers recurse along the size of the tree and carry what their recursion needs.  Their
  equations here are free of that, so that a proof can follow a reader by cases on a label and on
  the trees found.
-/
import JavaToCpp.Program.OfTree
import JavaToCpp.Proofs.Tree.Nodes

namespace JavaToCpp.Program

open Java Label JavaToCpp.Tree

variable {t : Tree} {l : Text}

/-! ## Expressions -/

theorem exprOf_of_label (h : t.label = .ok l) : exprOf t =
    if l == expr then exprOf (t.child 0)
    else if l == disjunction then
      if t.children.length = 1 then exprOf (t.child 0)
      else .logic (exprOf (t.child 0)) (t.child 0).line (exprOf (t.child 2)) (t.child 2).line
    else if l == relation then
      if t.children.length = 1 then exprOf (t.child 0)
      else
        .compare (isEquality (t.child 1).text) (exprOf (t.child 0)) (siteOf (t.child 0))
          (exprOf (t.child 2)) (siteOf (t.child 2))
    else if l == mathExpr then
      if t.children.length = 1 then exprOf (t.child 0)
      else .math (exprOf (t.child 0)) (siteOf (t.child 0)) (exprOf (t.child 2)) (siteOf (t.child 2))
    else if l == term then
      match (t.child 0).label with
      | .error _ => .missing
      | .ok first =>
        if first == booleanNot then .negation (exprOf (t.child 1)) (t.child 1).line
        else if first == operand then exprOf (t.child 0)
        else (testOf t expr).1
    else if l == operand then operandOf (t.child 0)
    else .untyped := by
  rw [exprOf, testOf]
  split
  · simp_all
  · rename_i l' hl
    obtain rfl : l' = l := by simpa [h] using hl.symm
    congr 5
    cases (t.child 0).label with
    | error e => rfl
    | ok first => cases t.find expr <;> rfl

theorem exprOf_hole : exprOf .hole = .missing := by
  rw [exprOf]
  rfl

theorem operandOf_of_label (h : t.label = .ok l) : operandOf t =
    if l == Label.id then .var t.text t.line
    else if l == funcCall then callOf t
    else .literal (ValueType.ofLiteral ((t.first?.map Token.category).getD [])) := by
  rw [operandOf, h]

theorem callOf_def (t : Tree) : callOf t =
    match (t.child 0).label, t.find callArgs >>= flatten expr with
    | .ok l, .ok args => .call (calleeOf l) (calleeName (calleeOf l) (t.child 0).text) t.line
        (args.map exprOf)
    | _, _ => .missing := by
  rw [callOf]
  cases (t.child 0).label with
  | error e => rfl
  | ok l =>
    simp only
    split
    · simp [*, bind, Except.bind]
    · split
      · simp [*, bind, Except.bind]
      · rename_i args ha
        simp [*, bind, Except.bind, List.attach_map_val (l := args) (f := exprOf)]

theorem callOf_of_list {list : Tree} {args : List Tree} (h : (t.child 0).label = .ok l)
    (hl : t.find callArgs = .ok list) (ha : list.flatten expr = .ok args) :
    callOf t = .call (calleeOf l) (calleeName (calleeOf l) (t.child 0).text) t.line
      (args.map exprOf) := by
  have hargs : t.find callArgs >>= flatten expr = .ok args := bind_eq_ok.2 ⟨_, hl, ha⟩
  rw [callOf_def, h, hargs]

/-! ## Statements -/

/-- The assignment that a for statement ends each round with. -/
def stepOf (t : Tree) : Assignment :=
  match t.find forStep with
  | .error _ => .missing
  | .ok step => assignmentOf (step.child 0)

def forLoopOf (t : Tree) : Statement :=
  match t.find forInit with
  | .error _ => .missing
  | .ok init =>
    .forLoop (statementOf (init.child 0)) (testOf t expr).1 (testOf t expr).2
      (stepOf t) (innerBlockOf t)

def alternativeOf (t : Tree) : Alternative :=
  match t.find else_ with
  | .error _ => .missing
  | .ok e =>
    if e.isHole then .none
    else if t.isHole then .missing
    else
      match t.lastChild.label with
      | .error _ => .missing
      | .ok l =>
        if l == ifStatement then .chain (conditionalOf t.lastChild)
        else .block (blockOf t.lastChild)

theorem statementOf_of_label (h : t.label = .ok l) : statementOf t =
    if l == varDecl then varDeclOf t
    else if l == assignment then .assign (assignmentOf t)
    else if l == funcCall then .call (callOf t)
    else if l == funcReturn then returnOf t
    else if l == ifStatement then .cond (conditionalOf t)
    else if l == forLoop then forLoopOf t
    else if l == whileLoop then
      .whileLoop (testOf t expr).1 (testOf t expr).2 (innerBlockOf t)
    else if l == doWhile then
      .doWhile (innerBlockOf t) (testOf t expr).1 (testOf t expr).2
    else if l == codeBlock then .block (blockOf t)
    else .other := by
  rw [statementOf]
  split
  · simp_all
  · rename_i l' hl
    obtain rfl : l' = l := by simpa [h] using hl.symm
    rw [forLoopOf]
    congr 6
    cases t.find forInit <;> rfl

theorem statementOf_hole : statementOf .hole = .missing := by
  rw [statementOf]
  rfl

theorem conditionalOf_def (t : Tree) : conditionalOf t =
    .branch (testOf t expr).1 (testOf t expr).2 (innerBlockOf t) (alternativeOf t) := by
  rw [conditionalOf, alternativeOf]
  rfl

theorem blockOf_def (t : Tree) : blockOf t =
    match t.find instructions >>= flatten instruction with
    | .ok items => items.foldr (fun i rest => .cons i.line (statementOf (i.child 0)) rest) .nil
    | .error _ => .missing := by
  rw [blockOf]
  split
  · simp [*, bind, Except.bind]
  · split
    · simp [*, bind, Except.bind]
    · rename_i items hi
      simp only [*, bind, Except.bind]
      exact List.foldr_attach (l := items)
        (f := fun i rest => Block.cons i.line (statementOf (i.child 0)) rest)

theorem blockOf_of_list {list : Tree} {items : List Tree}
    (hl : t.find instructions = .ok list)
    (hi : list.flatten instruction = .ok items) : blockOf t =
      items.foldr (fun i rest => .cons i.line (statementOf (i.child 0)) rest) .nil := by
  have hitems : t.find instructions >>= flatten instruction = .ok items :=
    bind_eq_ok.2 ⟨_, hl, hi⟩
  rw [blockOf_def, hitems]

theorem blockOf_hole : blockOf .hole = .nil := by
  have hflatten : hole.flatten instruction = .ok [] := by rw [flatten]
  exact blockOf_of_list rfl hflatten

theorem innerBlockOf_def (t : Tree) : innerBlockOf t =
    match t.find codeBlock with
    | .ok b => blockOf b
    | .error _ => .missing := by
  rw [innerBlockOf]
  split
  · simp [*]
  · rename_i b hb
    split
    · rename_i hhole
      obtain rfl := eq_hole_of_isHole hhole
      obtain rfl : hole = b := by simpa [find, children, findIn] using hb
      simp only [hb, blockOf_hole]
    · simp only [hb]

theorem innerBlockOf_of_find {b : Tree} (hb : t.find codeBlock = .ok b) :
    innerBlockOf t = blockOf b := by
  rw [innerBlockOf_def, hb]

end JavaToCpp.Program
