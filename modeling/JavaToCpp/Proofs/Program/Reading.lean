/-
  The parts of a program, as they are read off its concrete syntax.
-/
import JavaToCpp.Program.OfTree
import JavaToCpp.Proofs.Java.Concrete

namespace JavaToCpp.Program

open Java JavaToCpp.Tree Phrase
open Java.Nonterminal (node findIn_cons findIn_nil)

attribute [local simp] tree Stmt.tree Decl.tree find child Nonterminal.labels
  findIn_cons findIn_nil

theorem statementOf_eq {t : Tree} {k : Nonterminal} (hk : t.label = .ok k.label)
    (hfor : k ≠ .forLoop) : statementOf t = match k with
      | .varDecl => varDeclOf t
      | .assignment => .assign (assignmentOf t)
      | .funcCall => .call (callOf t)
      | .funcReturn => returnOf t
      | .ifStatement => .cond (conditionalOf t)
      | .whileLoop => .whileLoop (testOf t Label.expr).1 (testOf t Label.expr).2 (innerBlockOf t)
      | .doWhile => .doWhile (innerBlockOf t) (testOf t Label.expr).1 (testOf t Label.expr).2
      | .codeBlock => .block (blockOf t)
      | _ => .other := by
  rw [statementOf]
  split
  · simp_all
  · rename_i l hl
    rw [hk] at hl
    cases hl
    simp only [Nonterminal.labels, beq_iff_eq, Nonterminal.label_inj, hfor, if_false]
    cases k <;> rfl

/-! ## Phrases -/

section Phrases

variable (type : Word .type) (id : Word .id) (e : Phrase .expr)

theorem statementOf_declare : statementOf (declare type id).tree =
    .varDecl id.text id.tree.line (.ofKeyword type.text) none := by
  rw [statementOf_eq (k := .varDecl) rfl (by decide)]
  simp [varDeclOf, valueOf]

theorem statementOf_initialise (op : Word .assign) :
    statementOf (initialise type id op e).tree =
      .varDecl id.text id.tree.line (.ofKeyword type.text) (some (exprOf e.tree, e.tree.line)) := by
  rw [statementOf_eq (k := .varDecl) rfl (by decide)]
  simp [varDeclOf, valueOf]

theorem statementOf_assignment (a : Phrase .assignment) :
    statementOf a.tree = .assign (assignmentOf a.tree) :=
  statementOf_eq a.label_tree (by decide)

theorem assignmentOf_set (op : Word .assign) : assignmentOf (set id op e).tree =
    .to id.text id.tree.line (.set (exprOf e.tree) e.tree.line) := by
  simp [assignmentOf, updateOf, testOf]

theorem assignmentOf_combine (op : Word .opAssign) :
    assignmentOf (combine id op e).tree =
      .to id.text id.tree.line (.combine (exprOf e.tree) e.tree.line) := by
  simp [assignmentOf, updateOf, testOf]

theorem assignmentOf_stepAfter (op : Word .increment) :
    assignmentOf (stepAfter id op).tree = .to id.text id.tree.line .increment := by
  simp [assignmentOf, updateOf]

theorem assignmentOf_stepBefore (op : Word .increment) :
    assignmentOf (stepBefore op id).tree = .to id.text id.tree.line .increment := by
  simp [assignmentOf, updateOf]

theorem statementOf_funcCall (p : Phrase .funcCall) : statementOf p.tree = .call (callOf p.tree) :=
  statementOf_eq p.label_tree (by decide)

theorem statementOf_returnValue (w : Word .return_) :
    statementOf (returnValue w e).tree =
      .ret (returnValue w e).tree.line (some (exprOf e.tree, e.tree.line)) := by
  rw [statementOf_eq (k := .funcReturn) rfl (by decide)]
  simp [returnOf, valueOf]

theorem statementOf_returnNothing (w : Word .return_) :
    statementOf (returnNothing w).tree = .ret (returnNothing w).tree.line none := by
  rw [statementOf_eq (k := .funcReturn) rfl (by decide)]
  simp [returnOf, valueOf]

end Phrases

/-! ## Blocks -/

def blockIn (is : List (Stmt .instruction)) : Block :=
  is.foldr (fun i rest => .cons i.tree.line (statementOf (i.tree.child 0)) rest) .nil

theorem blockOf_eq {t list : Tree} {is : List (Stmt .instruction)}
    (hlist : t.find Label.instructions = .ok list)
    (his : list.flatten Label.instruction = .ok (is.map Stmt.tree)) : blockOf t = blockIn is := by
  rw [blockOf]
  split
  · simp_all
  · rename_i l hl
    rw [hlist] at hl
    cases hl
    split
    · simp_all
    · rename_i items hitems
      rw [his] at hitems
      cases hitems
      exact (List.foldr_attach (l := is.map Stmt.tree)
        (f := fun i rest => Block.cons i.line (statementOf (i.child 0)) rest)).trans List.foldr_map

theorem blockOf_block (lb : Word .lbracketCurly) (body : Stmt .instructions)
    (rb : Word .rbracketCurly) : blockOf (Stmt.block lb body rb).tree = blockIn body.items := by
  have hlist : (Stmt.block lb body rb).tree.find Label.instructions = .ok body.tree := by
    simp
  exact blockOf_eq hlist (flatten_items body)

theorem blockOf_blockEmpty (lb : Word .lbracketCurly) (rb : Word .rbracketCurly) :
    blockOf (Stmt.blockEmpty lb rb).tree = blockIn [] := by
  have hlist : (Stmt.blockEmpty lb rb).tree.find Label.instructions = .ok .hole := by
    simp
  exact blockOf_eq hlist (by rw [flatten]; rfl)

theorem innerBlockOf_eq {t : Tree} {b : Stmt .codeBlock} (ht : t.isHole = false)
    (hb : t.find Label.codeBlock = .ok b.tree) : innerBlockOf t = blockOf b.tree := by
  rw [innerBlockOf]
  split
  · simp_all
  · rename_i b' hb'
    rw [hb] at hb'
    cases hb'
    simp [ht]

/-! ## Statements made of blocks -/

section Statements

variable (w : Word .if_) (lp : Word .lbracket) (test : Phrase .expr) (rp : Word .rbracket)
  (yes : Stmt .codeBlock) (el : Word .else_)

theorem statementOf_codeBlock (b : Stmt .codeBlock) :
    statementOf b.tree = .block (blockOf b.tree) :=
  statementOf_eq b.label_tree (by decide)

theorem statementOf_ifStatement (x : Stmt .ifStatement) :
    statementOf x.tree = .cond (conditionalOf x.tree) :=
  statementOf_eq x.label_tree (by decide)

theorem conditionalOf_ifThen : conditionalOf (Stmt.ifThen w lp test rp yes).tree =
    .branch (exprOf test.tree) test.tree.line (blockOf yes.tree) .none := by
  have hyes : innerBlockOf (Stmt.ifThen w lp test rp yes).tree = blockOf yes.tree :=
    innerBlockOf_eq rfl (by simp)
  rw [conditionalOf, hyes]
  simp [testOf]

theorem conditionalOf_ifElse (no : Stmt .codeBlock) :
    conditionalOf (Stmt.ifElse w lp test rp yes el no).tree =
      .branch (exprOf test.tree) test.tree.line (blockOf yes.tree) (.block (blockOf no.tree)) := by
  have hyes : innerBlockOf (Stmt.ifElse w lp test rp yes el no).tree = blockOf yes.tree :=
    innerBlockOf_eq rfl (by simp)
  have hlast : (Stmt.ifElse w lp test rp yes el no).tree.lastChild = no.tree := rfl
  rw [conditionalOf, hyes, hlast]
  simp [testOf]

theorem conditionalOf_ifElseIf (no : Stmt .ifStatement) :
    conditionalOf (Stmt.ifElseIf w lp test rp yes el no).tree =
      .branch (exprOf test.tree) test.tree.line (blockOf yes.tree)
        (.chain (conditionalOf no.tree)) := by
  have hyes : innerBlockOf (Stmt.ifElseIf w lp test rp yes el no).tree = blockOf yes.tree :=
    innerBlockOf_eq rfl (by simp)
  have hlast : (Stmt.ifElseIf w lp test rp yes el no).tree.lastChild = no.tree := rfl
  rw [conditionalOf, hyes, hlast]
  simp [testOf]

theorem statementOf_whileLoop (w : Word .while_) (body : Stmt .codeBlock) :
    statementOf (Stmt.whileLoop w lp test rp body).tree =
      .whileLoop (exprOf test.tree) test.tree.line (blockOf body.tree) := by
  have hbody : innerBlockOf (Stmt.whileLoop w lp test rp body).tree = blockOf body.tree :=
    innerBlockOf_eq rfl (by simp)
  rw [statementOf_eq (k := .whileLoop) rfl (by decide), hbody]
  simp [testOf]

theorem statementOf_doWhile (w : Word .do_) (body : Stmt .codeBlock) (wh : Word .while_)
    (e : Word .semicolon) : statementOf (Stmt.doWhile w body wh lp test rp e).tree =
      .doWhile (blockOf body.tree) (exprOf test.tree) test.tree.line := by
  have hbody : innerBlockOf (Stmt.doWhile w body wh lp test rp e).tree = blockOf body.tree :=
    innerBlockOf_eq rfl (by simp)
  rw [statementOf_eq (k := .doWhile) rfl (by decide), hbody]
  simp [testOf]

theorem statementOf_forLoop (w : Word .for_) (init : Phrase .forInit) (e : Word .semicolon)
    (e' : Word .semicolon) (step : Phrase .forStep) (body : Stmt .codeBlock) :
    statementOf (Stmt.forLoop w lp init e test e' step rp body).tree =
      .forLoop (statementOf (init.tree.child 0)) (exprOf test.tree) test.tree.line
        (assignmentOf (step.tree.child 0)) (blockOf body.tree) := by
  have hbody : innerBlockOf (Stmt.forLoop w lp init e test e' step rp body).tree =
      blockOf body.tree :=
    innerBlockOf_eq rfl (by simp)
  have hinit : (Stmt.forLoop w lp init e test e' step rp body).tree.find Label.forInit =
      .ok init.tree := by
    simp
  have hlabel : (Stmt.forLoop w lp init e test e' step rp body).tree.label =
      .ok Nonterminal.forLoop.label := rfl
  rw [statementOf, hbody]
  split
  · simp_all
  · rename_i l hl
    rw [hlabel] at hl
    cases hl
    simp only [Nonterminal.labels, beq_iff_eq, Nonterminal.label_inj, reduceCtorEq, if_false, if_true]
    split
    · simp_all
    · rename_i init' hinit'
      rw [hinit] at hinit'
      cases hinit'
      simp [testOf]

end Statements

/-! ## Functions -/

def paramIn : Decl .param → Variable
  | .param type id => ⟨id.text, .ofKeyword type.text, true, id.tree.line⟩

def functionIn : {s : Nonterminal} → Decl s → Function
  | _, .function _ _ returns name _ params _ body =>
    ⟨name.text, .ofKeyword returns.text, params.params.map paramIn, body.tree, name.tree.line, false⟩
  | _, .functionEmpty _ _ returns name _ _ body =>
    ⟨name.text, .ofKeyword returns.text, [], body.tree, name.tree.line, false⟩
  | _, .main pub st v name lp args rp body =>
    ⟨"main", .void, [], body.tree, (Decl.main pub st v name lp args rp body).tree.line, true⟩
  | _, .ofFunction f => functionIn f
  | _, .ofMain f => functionIn f
  | _, _ => default

theorem paramOf_param : ∀ p : Decl .param, paramOf p.tree = .ok (paramIn p)
  | .param type id => by
    simp [paramOf, paramIn]
    rfl

theorem functionOf_member : ∀ m : Decl .member, functionOf (m.tree.child 0) = .ok (functionIn m)
  | .ofFunction (.function pub st returns name lp params rp body) => by
    have hparams : (params.params.map Decl.tree).mapM paramOf =
        .ok (params.params.map paramIn) := mapM_map_eq_ok paramOf_param _
    simp [functionOf, functionIn, bind, Except.bind, flatten_params, hparams]
    rfl
  | .ofFunction (.functionEmpty pub st returns name lp rp body) => by
    simp [functionOf, functionIn, bind, Except.bind, flatten]
    rfl
  | .ofMain (.main pub st v name lp args rp body) => by
    simp [functionOf, functionIn, bind, Except.bind]
    rfl

theorem functionsOf_program (pub : Word .public_) (cl : Word .class_) (name : Word .name)
    (lb : Word .lbracketCurly) (body : Decl .classBody) (rb : Word .rbracketCurly) :
    functionsOf (Decl.program pub cl name lb body rb).tree = .ok (body.members.map functionIn) := by
  have hbody : (Decl.program pub cl name lb body rb).tree.find Label.classBody = .ok body.tree := by
    simp
  have hmembers : body.tree.flatten Label.member = .ok (body.members.map Decl.tree) :=
    flatten_members body
  rw [functionsOf, hbody]
  simp only [bind, Except.bind, hmembers]
  exact mapM_map_eq_ok (f := fun m => functionOf (child m 0)) functionOf_member body.members

end JavaToCpp.Program
