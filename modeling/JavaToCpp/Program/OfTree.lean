/-
  From parse trees to programs.

  Each part of a program is read off the node that holds it: a list of members, parameters,
  instructions or arguments is unrolled, and a chain of nodes with one child each stands for the
  expression at its end.
-/
import JavaToCpp.Java.Grammar
import JavaToCpp.Program.Basic
import JavaToCpp.Tree.Size

namespace JavaToCpp.Program

open JavaToCpp.Tree (Missing)

/-- The variable that a node comes to through nodes with one child each. -/
def bare? : Tree → Option (Text × Int)
  | .hole => none
  | .leaf t => if t.category == Java.Label.id then some (t.text, t.line) else none
  | .branch l cs =>
    if l == Java.Label.id then some ((Tree.branch l cs).text, (Tree.branch l cs).line)
    else
      match cs with
      | [c] => bare? c
      | _ => none

def siteOf (t : Tree) : Site := ⟨t.line, bare? t⟩

def calleeOf (label : Text) : Callee :=
  if label == Java.Label.print then .print
  else if label == Java.Label.max then .max
  else if label == Java.Label.min then .min
  else .user

def calleeName (callee : Callee) (written : Text) : Text :=
  match callee with
  | .print => "System.out.println"
  | .max => "Math.max"
  | .min => "Math.min"
  | .user => written

def isEquality (operator : Text) : Bool :=
  operator == Text.ofString "==" || operator == Text.ofString "!="

mutual

def exprOf (t : Tree) : Expr :=
  match _h : t.label with
  | .error _ => .missing
  | .ok l =>
    if l == Java.Label.expr then exprOf (t.child 0)
    else if l == Java.Label.disjunction then
      if t.children.length = 1 then exprOf (t.child 0)
      else .logic (exprOf (t.child 0)) (t.child 0).line (exprOf (t.child 2)) (t.child 2).line
    else if l == Java.Label.relation then
      if t.children.length = 1 then exprOf (t.child 0)
      else
        .compare (isEquality (t.child 1).text) (exprOf (t.child 0)) (siteOf (t.child 0))
          (exprOf (t.child 2)) (siteOf (t.child 2))
    else if l == Java.Label.mathExpr then
      if t.children.length = 1 then exprOf (t.child 0)
      else .math (exprOf (t.child 0)) (siteOf (t.child 0)) (exprOf (t.child 2)) (siteOf (t.child 2))
    else if l == Java.Label.term then
      match (t.child 0).label with
      | .error _ => .missing
      | .ok first =>
        if first == Java.Label.booleanNot then .negation (exprOf (t.child 1)) (t.child 1).line
        else if first == Java.Label.operand then exprOf (t.child 0)
        else
          match _hf : t.find Java.Label.expr with
          | .error _ => .missing
          | .ok inner => exprOf inner
    else if l == Java.Label.operand then operandOf (t.child 0)
    else .untyped
termination_by 2 * sizeOf t + 1
decreasing_by
  all_goals
    have hole := Tree.isHole_eq_false _h
    have h0 := Tree.sizeOf_child hole 0
    have h1 := Tree.sizeOf_child hole 1
    have h2 := Tree.sizeOf_child hole 2
    first
      | omega
      | (have hf := Tree.sizeOf_find hole _hf; omega)

def operandOf (t : Tree) : Expr :=
  match t.label with
  | .error _ => .missing
  | .ok l =>
    if l == Java.Label.id then .var t.text t.line
    else if l == Java.Label.funcCall then callOf t
    else .literal (ValueType.ofLiteral ((t.first?.map Token.category).getD []))
termination_by 2 * sizeOf t + 1

def callOf (t : Tree) : Expr :=
  match (t.child 0).label with
  | .error _ => .missing
  | .ok first =>
    match _hl : t.find Java.Label.callArgs with
    | .error _ => .missing
    | .ok list =>
      match _ha : list.flatten Java.Label.expr with
      | .error _ => .missing
      | .ok args =>
        let callee := calleeOf first
        .call callee (calleeName callee (t.child 0).text) t.line
          (args.attach.map fun ⟨a, _⟩ => exprOf a)
termination_by 2 * sizeOf t
decreasing_by
  have := Tree.sizeOf_of_mem_find_flatten _hl _ha (by assumption)
  omega

end

/-- The expression found under a label, with its line; a missing one if a node is lacking. -/
def testOf (t : Tree) (label : Text) : Expr × Int :=
  match t.find label with
  | .error _ => (.missing, 0)
  | .ok e => (exprOf e, e.line)

def updateOf (t : Tree) : Update :=
  match t.find Java.Label.assign with
  | .error _ => .missing
  | .ok a =>
    if !a.isHole then
      let (value, line) := testOf t Java.Label.expr
      .set value line
    else
      match t.find Java.Label.opAssign with
      | .error _ => .missing
      | .ok a =>
        if !a.isHole then
          let (value, line) := testOf t Java.Label.expr
          .combine value line
        else
          match t.find Java.Label.increment with
          | .error _ => .missing
          | .ok a => if a.isHole then .nothing else .increment

def assignmentOf (t : Tree) : Assignment :=
  match t.find Java.Label.id with
  | .error _ => .missing
  | .ok id => .to id.text id.line (updateOf t)

def valueOf (t : Tree) : Option (Expr × Int) :=
  match t.find Java.Label.expr with
  | .error _ => some (.missing, 0)
  | .ok e => if e.isHole then none else some (exprOf e, e.line)

def varDeclOf (t : Tree) : Statement :=
  match t.find Java.Label.id, t.find Java.Label.type with
  | .ok id, .ok type => .varDecl id.text id.line (ValueType.ofKeyword type.text) (valueOf t)
  | _, _ => .missing

def returnOf (t : Tree) : Statement :=
  match t.find Java.Label.expr with
  | .error _ => .missing
  | .ok _ => .ret t.line (valueOf t)

mutual

def statementOf (t : Tree) : Statement :=
  match _h : t.label with
  | .error _ => .missing
  | .ok l =>
    if l == Java.Label.varDecl then varDeclOf t
    else if l == Java.Label.assignment then .assign (assignmentOf t)
    else if l == Java.Label.funcCall then .call (callOf t)
    else if l == Java.Label.funcReturn then returnOf t
    else if l == Java.Label.ifStatement then .cond (conditionalOf t)
    else if l == Java.Label.forLoop then
      match _hi : t.find Java.Label.forInit with
      | .error _ => .missing
      | .ok init =>
        let (test, testLine) := testOf t Java.Label.expr
        let step := match t.find Java.Label.forStep with
          | .error _ => .missing
          | .ok step => assignmentOf (step.child 0)
        .forLoop (statementOf (init.child 0)) test testLine step (innerBlockOf t)
    else if l == Java.Label.whileLoop then
      let (test, testLine) := testOf t Java.Label.expr
      .whileLoop test testLine (innerBlockOf t)
    else if l == Java.Label.doWhile then
      let (test, testLine) := testOf t Java.Label.expr
      .doWhile (innerBlockOf t) test testLine
    else if l == Java.Label.codeBlock then .block (blockOf t)
    else .other
termination_by 3 * sizeOf t + 2
decreasing_by
  all_goals
    first
      | omega
      | (have h1 := Tree.sizeOf_find (Tree.isHole_eq_false _h) _hi
         have h2 := Tree.sizeOf_child_le init 0
         omega)

def conditionalOf (t : Tree) : Conditional :=
  let (test, testLine) := testOf t Java.Label.expr
  let no := match t.find Java.Label.else_ with
    | .error _ => .missing
    | .ok e =>
      if e.isHole then .none
      else if _h : t.isHole then .missing
      else
        match t.lastChild.label with
        | .error _ => .missing
        | .ok l =>
          if l == Java.Label.ifStatement then .chain (conditionalOf t.lastChild)
          else .block (blockOf t.lastChild)
  .branch test testLine (innerBlockOf t) no
termination_by 3 * sizeOf t + 1
decreasing_by
  all_goals
    first
      | omega
      | (have hl := Tree.sizeOf_lastChild (by simpa using _h : t.isHole = false)
         omega)

def innerBlockOf (t : Tree) : Block :=
  match _hb : t.find Java.Label.codeBlock with
  | .error _ => .missing
  | .ok b => if _h : t.isHole then .nil else blockOf b
termination_by 3 * sizeOf t
decreasing_by
  have := Tree.sizeOf_find (by simpa using _h : t.isHole = false) _hb
  omega

def blockOf (t : Tree) : Block :=
  match _hl : t.find Java.Label.instructions with
  | .error _ => .missing
  | .ok list =>
    match _hi : list.flatten Java.Label.instruction with
    | .error _ => .missing
    | .ok items =>
      items.attach.foldr (fun ⟨i, _⟩ rest => .cons i.line (statementOf (i.child 0)) rest) .nil
termination_by 3 * sizeOf t
decreasing_by
  have h1 := Tree.sizeOf_of_mem_find_flatten _hl _hi (by assumption)
  have h2 := Tree.sizeOf_child_le i 0
  omega

end

/-! ## Functions -/

def paramOf (t : Tree) : Except Missing Variable := do
  let id ← t.find Java.Label.id
  let type ← t.find Java.Label.type
  return ⟨id.text, ValueType.ofKeyword type.text, true, id.line⟩

def functionOf (t : Tree) : Except Missing Function := do
  let body ← t.find Java.Label.codeBlock
  if (← t.label) == Java.Label.mainFunc then
    return ⟨"main", .void, [], body, t.line, true⟩
  let name ← t.find Java.Label.name
  let returns ← t.find Java.Label.funcReturnType
  let list ← t.find Java.Label.funcParams
  let params ← (← list.flatten Java.Label.param).mapM paramOf
  return ⟨name.text, ValueType.ofKeyword returns.text, params, body, name.line, false⟩

def functionsOf (root : Tree) : Except Missing (List Function) := do
  let body ← root.find Java.Label.classBody
  let members ← body.flatten Java.Label.member
  members.mapM fun m => functionOf (m.child 0)

end JavaToCpp.Program
