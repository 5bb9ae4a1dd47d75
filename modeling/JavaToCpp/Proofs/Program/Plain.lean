/-
  Programs without lines.

  `plain` drops the lines of the parts of a program.  What is read off a tree without places is the
  program without lines: the readers commute with `plain`.
-/
import JavaToCpp.Proofs.Program.Equations
import JavaToCpp.Proofs.Tree.Plain

namespace JavaToCpp

def Variable.plain (v : Variable) : Variable := { v with line := 0 }

namespace Program

open Java List Label JavaToCpp.Tree

/-! ## Programs -/

def Site.plain (s : Site) : Site := ⟨0, s.bare.map fun v => (v.1, 0)⟩

namespace Expr

mutual

def plain : Expr → Expr
  | missing => missing
  | untyped => untyped
  | literal type => literal type
  | var name _ => var name 0
  | call callee name _ args => call callee name 0 (plainAll args)
  | negation arg _ => negation arg.plain 0
  | logic left _ right _ => logic left.plain 0 right.plain 0
  | compare equality left leftSite right rightSite =>
    compare equality left.plain leftSite.plain right.plain rightSite.plain
  | math left leftSite right rightSite => math left.plain leftSite.plain right.plain rightSite.plain

def plainAll : List Expr → List Expr
  | [] => []
  | e :: es => e.plain :: plainAll es

end

theorem plainAll_eq (es : List Expr) : plainAll es = es.map plain := by
  induction es with
  | nil => rfl
  | cons e es ih => rw [plainAll, ih, map_cons]

end Expr

def plainValue (v : Expr × Int) : Expr × Int := (v.1.plain, 0)

def Update.plain : Update → Update
  | missing => missing
  | nothing => nothing
  | set value _ => set value.plain 0
  | combine value _ => combine value.plain 0
  | increment => increment

def Assignment.plain : Assignment → Assignment
  | missing => missing
  | .to name _ update => .to name 0 update.plain

mutual

def Statement.plain : Statement → Statement
  | .missing => .missing
  | .other => .other
  | .varDecl name _ type init => .varDecl name 0 type (init.map plainValue)
  | .assign a => .assign a.plain
  | .call c => .call c.plain
  | .ret _ value => .ret 0 (value.map plainValue)
  | .cond c => .cond c.plain
  | .forLoop init test _ step body => .forLoop init.plain test.plain 0 step.plain body.plain
  | .whileLoop test _ body => .whileLoop test.plain 0 body.plain
  | .doWhile body test _ => .doWhile body.plain test.plain 0
  | .block b => .block b.plain

def Block.plain : Block → Block
  | .missing => .missing
  | .nil => .nil
  | .cons _ s rest => .cons 0 s.plain rest.plain

def Conditional.plain : Conditional → Conditional
  | .branch test _ yes no => .branch test.plain 0 yes.plain no.plain

def Alternative.plain : Alternative → Alternative
  | .none => .none
  | .missing => .missing
  | .block b => .block b.plain
  | .chain c => .chain c.plain

end

def Function.plain (f : Function) : Function :=
  { f with params := f.params.map Variable.plain, body := f.body.plain, line := 0 }

variable {t : Tree}

/-! ## Reading expressions -/

theorem bare?_plain (t : Tree) : bare? t.plain = (bare? t).map fun v => (v.1, 0) := by
  fun_induction bare? t with
  | case1 => simp [bare?]
  | case2 k h | case3 k h => simpa [bare?, Token.plain] using h
  | case4 l cs h =>
    rw [plain_branch, bare?.eq_def]
    simp only [if_pos h, ← plain_branch, text_plain, line_plain, Option.map_some]
  | case5 l h c ih => simpa [bare?, h] using ih
  | case6 l cs h hcs =>
    have hcs' : ∀ c : Tree, cs.map plain = [c] → False := by
      intro c hc
      obtain ⟨c', rfl, -⟩ := map_eq_singleton_iff.1 hc
      exact hcs c' rfl
    simp [bare?, h]

theorem siteOf_plain (t : Tree) : siteOf t.plain = (siteOf t).plain := by
  rw [siteOf, siteOf, Site.plain, bare?_plain, line_plain]

theorem callOf_plain_of (ih : ∀ e : Tree, sizeOf e < sizeOf t → exprOf e.plain = (exprOf e).plain) :
    callOf t.plain = (callOf t).plain := by
  rw [callOf_def, callOf_def, find_flatten_plain, child_plain, label_plain]
  cases (t.child 0).label with
  | error e => rfl
  | ok l =>
    cases hargs : t.find callArgs >>= flatten expr with
    | error e => rfl
    | ok args =>
      obtain ⟨list, hlist, hargs⟩ := bind_eq_ok.1 hargs
      have hmap : (args.map plain).map exprOf = (args.map exprOf).map Expr.plain := by
        rw [map_map, map_map]
        exact map_congr_left fun e he => ih e (sizeOf_of_mem_find_flatten hlist hargs he)
      simp only [Except.map, Expr.plain, Expr.plainAll_eq, hmap, text_plain, line_plain]

theorem operandOf_plain_of
    (ih : ∀ e : Tree, sizeOf e < sizeOf t → exprOf e.plain = (exprOf e).plain) :
    operandOf t.plain = (operandOf t).plain := by
  have hcategory : (t.plain.first?.map Token.category).getD [] =
      (t.first?.map Token.category).getD [] := by
    rw [first?_plain, Option.map_map]
    rfl
  rw [operandOf, operandOf, label_plain]
  cases t.label with
  | error e => rfl
  | ok l =>
    simp only [text_plain, line_plain, hcategory, callOf_plain_of ih, apply_ite Expr.plain]
    rfl

/-- **The expression of a plain tree** is the expression without lines. -/
theorem exprOf_plain (t : Tree) : exprOf t.plain = (exprOf t).plain := by
  induction t using sizeInduction with
  | step t ih =>
    cases hl : t.label with
    | error e =>
      obtain rfl := eq_hole_of_label hl
      rw [plain_hole, exprOf_hole]
      rfl
    | ok l =>
      have hhole := isHole_eq_false hl
      have hchild (i : Nat) : exprOf (t.child i).plain = (exprOf (t.child i)).plain :=
        ih _ (sizeOf_child hhole i)
      have htest : (testOf t.plain expr).1 = (testOf t expr).1.plain := by
        rw [testOf, testOf, find_plain]
        cases he : t.find expr with
        | error e => rfl
        | ok e => exact ih e (sizeOf_find hhole he)
      have hoperand : operandOf (t.child 0).plain = (operandOf (t.child 0)).plain :=
        operandOf_plain_of fun e he => ih e (Nat.lt_trans he (sizeOf_child hhole 0))
      rw [exprOf_of_label hl, exprOf_of_label ((label_plain t).trans hl)]
      simp only [children_plain, length_map, child_plain, label_plain,
        text_plain, line_plain, siteOf_plain, hchild, htest, hoperand]
      cases (t.child 0).label with
      | error e | ok first =>
        simp only [apply_ite Expr.plain]
        rfl

theorem callOf_plain (t : Tree) : callOf t.plain = (callOf t).plain :=
  callOf_plain_of fun e _ => exprOf_plain e

theorem testOf_plain (t : Tree) (l : Text) : testOf t.plain l = plainValue (testOf t l) := by
  rw [testOf, testOf, find_plain]
  cases t.find l with
  | error e => rfl
  | ok e => exact Prod.ext (exprOf_plain e) (line_plain e)

/-! ## Reading statements -/

theorem updateOf_plain (t : Tree) : updateOf t.plain = (updateOf t).plain := by
  rw [updateOf, updateOf]
  simp only [find_plain, testOf_plain]
  cases t.find assign with
  | error e => rfl
  | ok a =>
    cases t.find opAssign with
    | error e => 
      simp only [Except.map, isHole_plain]
      split_ifs <;> rfl
    | ok b =>
      cases t.find increment <;> simp only [Except.map, isHole_plain] <;> split_ifs <;> rfl

theorem assignmentOf_plain (t : Tree) : assignmentOf t.plain = (assignmentOf t).plain := by
  rw [assignmentOf, assignmentOf, find_plain]
  cases t.find id with
  | error e => rfl
  | ok id => simp only [Except.map, Assignment.plain, text_plain, line_plain, updateOf_plain]

theorem valueOf_plain (t : Tree) : valueOf t.plain = (valueOf t).map plainValue := by
  rw [valueOf, valueOf, find_plain]
  cases t.find expr with
  | error e => rfl
  | ok e =>
    simp only [Except.map, isHole_plain, exprOf_plain, line_plain]
    split_ifs <;> rfl

theorem varDeclOf_plain (t : Tree) : varDeclOf t.plain = (varDeclOf t).plain := by
  rw [varDeclOf, varDeclOf, find_plain, find_plain, valueOf_plain]
  cases t.find id with
  | error e => rfl
  | ok id =>
    cases t.find type with
    | error e => rfl
    | ok type =>
      simp only [Except.map, Statement.plain, text_plain, line_plain]

theorem returnOf_plain (t : Tree) : returnOf t.plain = (returnOf t).plain := by
  rw [returnOf, returnOf, find_plain, valueOf_plain]
  cases t.find expr with
  | error e => rfl
  | ok e => simp only [Except.map, Statement.plain, line_plain]

theorem stepOf_plain (t : Tree) : stepOf t.plain = (stepOf t).plain := by
  rw [stepOf, stepOf, find_plain]
  cases t.find forStep with
  | error e => rfl
  | ok step => simp only [Except.map, child_plain, assignmentOf_plain]

section
variable (ih : ∀ s : Tree, sizeOf s < sizeOf t → statementOf s.plain = (statementOf s).plain)
include ih

theorem blockOf_plain_of : blockOf t.plain = (blockOf t).plain := by
  rw [blockOf_def, blockOf_def, find_flatten_plain]
  cases hitems : t.find instructions >>= flatten instruction with
  | error e => rfl
  | ok items =>
    obtain ⟨list, hlist, hflatten⟩ := bind_eq_ok.1 hitems
    have hsmall (i : Tree) (hi : i ∈ items) : sizeOf (i.child 0) < sizeOf t :=
      Nat.lt_of_le_of_lt (sizeOf_child_le i 0)
        (sizeOf_of_mem_find_flatten hlist hflatten hi)
    clear hflatten hitems
    simp only [Except.map]
    induction items with
    | nil => rfl
    | cons i items hrest =>
      rw [map_cons, foldr_cons, foldr_cons, Block.plain, line_plain,
        child_plain, ih _ (hsmall i mem_cons_self),
        hrest fun i hi => hsmall i (mem_cons_of_mem _ hi)]

theorem innerBlockOf_plain_of (hhole : t.isHole = false) :
    innerBlockOf t.plain = (innerBlockOf t).plain := by
  rw [innerBlockOf_def, innerBlockOf_def, find_plain]
  cases hb : t.find codeBlock with
  | error e => rfl
  | ok b => exact blockOf_plain_of fun s hs => ih s (Nat.lt_trans hs (sizeOf_find hhole hb))

end

theorem conditionalOf_plain_of
    (ih : ∀ s : Tree, sizeOf s < sizeOf t → statementOf s.plain = (statementOf s).plain)
    (hhole : t.isHole = false) : conditionalOf t.plain = (conditionalOf t).plain := by
  induction t using sizeInduction with
  | step t hlater =>
    have hlast := sizeOf_lastChild hhole
    have hstatement (s : Tree) (hs : sizeOf s < sizeOf t.lastChild) :
        statementOf s.plain = (statementOf s).plain := ih s (Nat.lt_trans hs hlast)
    have halternative : alternativeOf t.plain = (alternativeOf t).plain := by
      rw [alternativeOf, alternativeOf, find_plain, lastChild_plain, label_plain,
        isHole_plain]
      cases t.find else_ with
      | error e => rfl
      | ok e =>
        cases hl : t.lastChild.label with
        | error e =>
          simp only [Except.map, isHole_plain]
          split_ifs <;> rfl
        | ok l =>
          simp only [Except.map, isHole_plain, blockOf_plain_of hstatement,
            hlater _ hlast hstatement (isHole_eq_false hl)]
          split_ifs <;> rfl
    rw [conditionalOf_def, conditionalOf_def, testOf_plain, innerBlockOf_plain_of ih hhole,
      halternative]
    rfl

theorem forLoopOf_plain_of
    (ih : ∀ s : Tree, sizeOf s < sizeOf t → statementOf s.plain = (statementOf s).plain)
    (hhole : t.isHole = false) : forLoopOf t.plain = (forLoopOf t).plain := by
  rw [forLoopOf, forLoopOf, find_plain, testOf_plain, stepOf_plain,
    innerBlockOf_plain_of ih hhole]
  cases hinit : t.find forInit with
  | error e => rfl
  | ok init =>
    have hsmall : sizeOf (init.child 0) < sizeOf t :=
      Nat.lt_of_le_of_lt (sizeOf_child_le init 0) (sizeOf_find hhole hinit)
    simp only [Except.map, child_plain, ih _ hsmall]
    rfl

theorem statementOf_plain (t : Tree) : statementOf t.plain = (statementOf t).plain := by
  induction t using sizeInduction with
  | step t ih =>
    cases hl : t.label with
    | error e =>
      obtain rfl := eq_hole_of_label hl
      rw [plain_hole, statementOf_hole]
      rfl
    | ok l =>
      have hhole := isHole_eq_false hl
      rw [statementOf_of_label hl, statementOf_of_label ((label_plain t).trans hl),
        varDeclOf_plain, assignmentOf_plain, callOf_plain, returnOf_plain, testOf_plain,
        innerBlockOf_plain_of ih hhole, blockOf_plain_of ih, conditionalOf_plain_of ih hhole,
        forLoopOf_plain_of ih hhole]
      simp only [apply_ite Statement.plain]
      rfl

theorem blockOf_plain (t : Tree) : blockOf t.plain = (blockOf t).plain :=
  blockOf_plain_of fun s _ => statementOf_plain s

/-! ## Reading functions -/

theorem paramOf_plain (t : Tree) : paramOf t.plain = (paramOf t).map Variable.plain := by
  rw [paramOf, paramOf, find_plain, find_plain]
  cases t.find id with
  | error e => rfl
  | ok id =>
    cases t.find type with
    | error e => rfl
    | ok type =>
      simp only [Except.map, bind, Except.bind, pure, Except.pure, text_plain, line_plain,
        Variable.plain]

theorem functionOf_plain (t : Tree) : functionOf t.plain = (functionOf t).map Function.plain := by
  rw [functionOf, functionOf, label_plain]
  simp only [find_plain]
  cases t.find codeBlock with
  | error e => rfl
  | ok body =>
    cases t.label with
    | error e => rfl
    | ok l =>
      change (if l == mainFunc then _ else _) =
        Except.map Function.plain (if l == mainFunc then _ else _)
      rw [apply_ite (Except.map Function.plain)]
      congr 1
      · rw [line_plain]
        rfl
      · cases t.find name with
        | error e => rfl
        | ok name =>
          cases t.find funcReturnType with
          | error e => rfl
          | ok returns =>
            cases t.find funcParams with
            | error e => rfl
            | ok list =>
              simp only [Except.map, bind, Except.bind, flatten_plain, text_plain,
                line_plain]
              cases list.flatten param with
              | error e => rfl
              | ok ps =>
                simp only [mapM_comm paramOf_plain]
                cases ps.mapM paramOf <;> rfl

theorem functionsOf_plain (t : Tree) :
    functionsOf t.plain = (functionsOf t).map (map Function.plain) := by
  have hmembers := find_flatten_plain t classBody member
  rw [functionsOf, functionsOf, ← bind_assoc, ← bind_assoc, hmembers]
  cases t.find classBody >>= flatten member with
  | error e => rfl
  | ok ms =>
    refine mapM_comm (fun m => ?_) ms
    rw [child_plain, functionOf_plain]

end Program

end JavaToCpp
