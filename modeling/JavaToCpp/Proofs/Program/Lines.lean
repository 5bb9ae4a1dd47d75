/-
  The lines of a program.

  The parts of a program carry the lines that violations are reported in.  All of them are lines of
  the tokens that the parts were read off.
-/
import JavaToCpp.Proofs.Typing.Expression
import JavaToCpp.Proofs.Program.Reading

namespace JavaToCpp

open Java List Nonterminal Decl

/-! ## Trees -/

namespace Tree

def lines (t : Tree) : List Int := t.tokens.map Token.line

theorem mem_tokens_of_first? {t : Tree} {k : Token} (h : t.first? = some k) : k ∈ t.tokens := by
  fun_induction first? t with
  | case1 k' =>
    cases h
    simp [tokens]
  | case2 l c cs ih => simp [tokens, tokensOf, ih h]
  | case3 | case4 => cases h

theorem line_mem_lines {t : Tree} (h : t.first?.isSome) : t.line ∈ t.lines := by
  obtain ⟨k, hk⟩ := Option.isSome_iff_exists.1 h
  rw [line, hk]
  exact mem_map_of_mem (mem_tokens_of_first? hk)

end Tree

namespace Java

namespace Nonterminal

variable (s : Nonterminal) (c : Tree) (cs : List Tree)

@[simp, grind =] theorem lines_node_nil : (s.node []).lines = [] := rfl

@[simp, grind =] theorem lines_node_cons : (s.node (c :: cs)).lines = c.lines ++ (s.node cs).lines := by
  rw [Tree.lines, tokens_node, Tree.tokensOf, map_append]
  rfl

@[simp] theorem first?_node : (s.node (c :: cs)).first? = c.first? := by
  rw [node, Tree.first?]

@[simp, grind =] theorem line_node : (s.node (c :: cs)).line = c.line := by
  rw [Tree.line, Tree.line, first?_node]

end Nonterminal

variable {s : Nonterminal}

@[simp] theorem Word.first?_tree (w : Word s) : w.tree.first? = some w.token := by
  simp [Word.tree, Tree.first?]

@[simp, grind .] theorem Word.line_mem_lines (w : Word s) : w.tree.line ∈ w.tree.lines :=
  Tree.line_mem_lines (by simp)

@[simp, grind .] theorem Phrase.line_mem_lines (p : Phrase s) : p.tree.line ∈ p.tree.lines := by
  refine Tree.line_mem_lines ?_
  induction p <;> simp [Phrase.tree, *]

@[simp, grind .] theorem Stmt.line_mem_lines (x : Stmt s) : x.tree.line ∈ x.tree.lines := by
  induction x <;> simp [Stmt.tree, *]

@[simp, grind .] theorem Decl.line_mem_lines (d : Decl s) : d.tree.line ∈ d.tree.lines := by
  induction d <;> simp [tree, *]

end Java

namespace Program

/-! ## Programs -/

def Site.lines (s : Site) : List Int := s.line :: (s.bare.map Prod.snd).toList

mutual

def Expr.lines : Expr → List Int
  | .missing | .untyped | .literal _ => []
  | .var _ line => [line]
  | .call _ _ line args => line :: Expr.linesOf args
  | .negation arg line => line :: arg.lines
  | .logic left leftLine right rightLine => leftLine :: rightLine :: (left.lines ++ right.lines)
  | .compare _ left leftSite right rightSite | .math left leftSite right rightSite =>
    leftSite.lines ++ rightSite.lines ++ (left.lines ++ right.lines)

def Expr.linesOf : List Expr → List Int
  | [] => []
  | e :: es => e.lines ++ Expr.linesOf es

end

def valueLines : Option (Expr × Int) → List Int
  | none => []
  | some value => value.2 :: value.1.lines

def Update.lines : Update → List Int
  | .missing | .nothing | .increment => []
  | .set value line | .combine value line => line :: value.lines

def Assignment.lines : Assignment → List Int
  | .missing => []
  | .to _ line update => line :: update.lines

mutual

def Statement.lines : Statement → List Int
  | .missing | .other => []
  | .varDecl _ line _ init => line :: valueLines init
  | .assign a => a.lines
  | .call call => call.lines
  | .ret line value => line :: valueLines value
  | .cond i => i.lines
  | .forLoop init test testLine step body =>
    testLine :: (init.lines ++ test.lines ++ step.lines ++ body.lines)
  | .whileLoop test testLine body => testLine :: (test.lines ++ body.lines)
  | .doWhile body test testLine => testLine :: (test.lines ++ body.lines)
  | .block b => b.lines

def Block.lines : Block → List Int
  | .missing | .nil => []
  | .cons line s rest => line :: (s.lines ++ rest.lines)

def Conditional.lines : Conditional → List Int
  | .branch test testLine yes no => testLine :: (test.lines ++ yes.lines ++ no.lines)

def Alternative.lines : Alternative → List Int
  | .none | .missing => []
  | .block b => b.lines
  | .chain i => i.lines

end

def Function.lines (f : Function) : List Int :=
  f.line :: (f.params.map Variable.line ++ (blockOf f.body).lines)

/-! ## Reading expressions -/

theorem line_of_bare? {t : Tree} {v : Text × Int} (h : bare? t = some v) : v.2 = t.line := by
  -- along the chain of nodes with one child each
  induction t using Tree.sizeInduction with
  | step t ih =>
    cases t with
    | hole => cases h
    | leaf k =>
      rw [bare?] at h
      obtain ⟨-, hv⟩ := Option.ite_none_right_eq_some.1 h
      rw [← Option.some.inj hv]
      rfl
    | branch l cs =>
      by_cases hl : l == Label.id
      · rw [bare?.eq_def] at h
        simp only [hl, if_true, Option.some.injEq] at h
        rw [← h]
      · rcases cs with - | ⟨c, - | ⟨d, ds⟩⟩
        · simp [bare?, hl] at h
        · have hc : bare? c = some v := by simpa [bare?, hl] using h
          have hsize : sizeOf c < sizeOf (Tree.branch l [c]) :=
            Tree.sizeOf_of_mem_children (mem_singleton_self c)
          rw [ih c hsize hc, Tree.line, Tree.line, Tree.first?]
        · simp [bare?, hl] at h

theorem lines_siteOf {s : Nonterminal} (p : Phrase s) : (siteOf p.tree).lines ⊆ p.tree.lines := by
  refine cons_subset.2 ⟨p.line_mem_lines, fun l hl => ?_⟩
  obtain ⟨v, hv, rfl⟩ := Option.map_eq_some_iff.1 (Option.mem_toList.1 hl)
  exact line_of_bare? hv ▸ p.line_mem_lines

section

attribute [local simp] Phrase.tree Tree.child labels

theorem exprOf_logic (r : Phrase .relation) (op : Word .booleanOperator) (d : Phrase .disjunction) :
    exprOf (Phrase.logic r op d).tree =
      .logic (exprOf r.tree) r.tree.line (exprOf d.tree) d.tree.line := by
  rw [exprOf]
  simp

theorem exprOf_comparison (l : Phrase .mathExpr) (op : Word .compare) (r : Phrase .mathExpr) :
    exprOf (Phrase.comparison l op r).tree = .compare (isEquality op.text) (exprOf l.tree)
      (siteOf l.tree) (exprOf r.tree) (siteOf r.tree) := by
  rw [exprOf]
  simp

theorem exprOf_math (t : Phrase .term) (op : Word .mathOperator) (m : Phrase .mathExpr) :
    exprOf (Phrase.math t op m).tree =
      .math (exprOf t.tree) (siteOf t.tree) (exprOf m.tree) (siteOf m.tree) := by
  rw [exprOf]
  simp

theorem exprOf_negation (op : Word .booleanNot) (t : Phrase .term) :
    exprOf (Phrase.negation op t).tree = .negation (exprOf t.tree) t.tree.line := by
  rw [exprOf]
  simp

theorem exprOf_group (lp : Word .lbracket) (e : Phrase .expr) (rp : Word .rbracket) :
    exprOf (Phrase.group lp e rp).tree = exprOf e.tree := by
  refine Typing.exprOf_term rfl rfl ?_
  simp [Tree.find, findIn_cons]

theorem exprOf_var (w : Word .id) : exprOf (Phrase.var w).tree = .var w.text w.tree.line := by
  rw [exprOf]
  simp [operandOf]

theorem exprOf_value (c : Phrase .funcCall) : exprOf (Phrase.value c).tree = callOf c.tree := by
  rw [exprOf]
  simp [operandOf]

end

variable {s : Nonterminal}

theorem lines_phrase (p : Phrase s) : (s ∈ Typing.expressions → (exprOf p.tree).lines ⊆ p.tree.lines) ∧
    (s = .funcCall → (callOf p.tree).lines ⊆ p.tree.lines) ∧
    (s = .callArgs → Expr.linesOf (p.args.map fun e => exprOf e.tree) ⊆ p.tree.lines) := by
  induction p with
  | expr d ih | disjunction d ih | relation d ih | mathExpr d ih | term d ih =>
    refine ⟨fun _ => ?_, by rintro ⟨⟩, by rintro ⟨⟩⟩
    rw [exprOf]
    simpa [Phrase.tree, labels, Tree.child] using ih.1 (by decide)
  | logic l op r ihl ihr | comparison l op r ihl ihr | math l op r ihl ihr =>
    refine ⟨fun _ => ?_, by rintro ⟨⟩, by rintro ⟨⟩⟩
    have hl := ihl.1 (by decide)
    have hr := ihr.1 (by decide)
    have hsites := And.intro (lines_siteOf l) (lines_siteOf r)
    simp only [exprOf_logic, exprOf_comparison, exprOf_math, Expr.lines]
    rw [Phrase.tree]
    grind
  | negation op e ih | group lp e rp ih =>
    refine ⟨fun _ => ?_, by rintro ⟨⟩, by rintro ⟨⟩⟩
    have he := ih.1 (by decide)
    simp only [exprOf_negation, exprOf_group, Expr.lines]
    rw [Phrase.tree]
    grind
  | number w | charLiteral w | booleanValue w =>
    refine ⟨fun _ => ?_, by rintro ⟨⟩, by rintro ⟨⟩⟩
    rw [exprOf]
    simp [Phrase.tree, labels, Tree.child, Typing.operandOf_word, Expr.lines]
  | var w =>
    refine ⟨fun _ => ?_, by rintro ⟨⟩, by rintro ⟨⟩⟩
    rw [exprOf_var, Expr.lines, Phrase.tree]
    grind
  | value c ih =>
    refine ⟨fun _ => ?_, by rintro ⟨⟩, by rintro ⟨⟩⟩
    have hc := ih.2.1 rfl
    rw [exprOf_value, Phrase.tree]
    grind
  | call f lp args rp ih | print f lp args rp ih | max f lp args rp ih | min f lp args rp ih =>
    refine ⟨fun h => absurd h (by decide), fun _ => ?_, by rintro ⟨⟩⟩
    have hargs := ih.2.2 rfl
    rw [Typing.callOf_tree, Typing.arguments, Expr.lines, Phrase.tree]
    grind
  | callEmpty f lp rp =>
    refine ⟨fun h => absurd h (by decide), fun _ => ?_, by rintro ⟨⟩⟩
    rw [Typing.callOf_tree, Typing.arguments, Expr.lines, map_nil, Expr.linesOf, Phrase.tree]
    grind
  | lastArg e ih =>
    refine ⟨fun h => absurd h (by decide), by rintro ⟨⟩, fun _ => ?_⟩
    have he := ih.1 (by decide)
    rw [Phrase.args, map_singleton, Expr.linesOf, Expr.linesOf, Phrase.tree]
    grind
  | arg e c rest ihe ih =>
    refine ⟨fun h => absurd h (by decide), by rintro ⟨⟩, fun _ => ?_⟩
    have he := ihe.1 (by decide)
    have hrest := ih.2.2 rfl
    rw [Phrase.args, map_cons, Expr.linesOf, Phrase.tree]
    grind
  | _ => exact ⟨fun h => absurd h (by decide), by rintro ⟨⟩, by rintro ⟨⟩⟩

theorem lines_exprOf (e : Phrase .expr) : (exprOf e.tree).lines ⊆ e.tree.lines :=
  (lines_phrase e).1 (by decide)

/-! ## Reading statements -/

theorem lines_assignmentOf (a : Phrase .assignment) : (assignmentOf a.tree).lines ⊆ a.tree.lines := by
  cases a with
  | set id op e | combine id op e =>
    have he := lines_exprOf e
    simp only [assignmentOf_set, assignmentOf_combine, Assignment.lines, Update.lines]
    rw [Phrase.tree]
    grind
  | stepAfter | stepBefore =>
    simp only [assignmentOf_stepAfter, assignmentOf_stepBefore, Assignment.lines, Update.lines]
    rw [Phrase.tree]
    grind

theorem lines_varDecl (v : Phrase .varDecl) : (statementOf v.tree).lines ⊆ v.tree.lines := by
  cases v with
  | declare type id =>
    rw [statementOf_declare, Statement.lines, valueLines, Phrase.tree]
    grind
  | initialise type id op e =>
    have he := lines_exprOf e
    rw [statementOf_initialise, Statement.lines, valueLines, Phrase.tree]
    grind

theorem lines_funcReturn (r : Phrase .funcReturn) : (statementOf r.tree).lines ⊆ r.tree.lines := by
  cases r with
  | returnValue w e =>
    have he := lines_exprOf e
    rw [statementOf_returnValue, Statement.lines, valueLines, Phrase.tree]
    grind
  | returnNothing w =>
    rw [statementOf_returnNothing, Statement.lines, valueLines, Phrase.tree]
    grind

theorem lines_simple {k : Nonterminal} (hk : k ∈ simple) (p : Phrase k) :
    (statementOf p.tree).lines ⊆ p.tree.lines := by
  simp only [simple, mem_cons, not_mem_nil, or_false] at hk
  rcases hk with rfl | rfl | rfl | rfl
  · exact lines_varDecl p
  · rw [statementOf_assignment, Statement.lines]
    exact lines_assignmentOf p
  · rw [statementOf_funcCall, Statement.lines]
    exact (lines_phrase p).2.1 rfl
  · exact lines_funcReturn p

theorem lines_forInit (init : Phrase .forInit) :
    (statementOf (init.tree.child 0)).lines ⊆ init.tree.lines := by
  cases init with
  | initVar v => simpa [Phrase.tree, Tree.child] using lines_simple (by decide) v
  | initSet a => simpa [Phrase.tree, Tree.child] using lines_simple (by decide) a

theorem lines_forStep (step : Phrase .forStep) :
    (assignmentOf (step.tree.child 0)).lines ⊆ step.tree.lines := by
  cases step with
  | step a => simpa [Phrase.tree, Tree.child] using lines_assignmentOf a

def readLines {s : Nonterminal} (x : Stmt s) : List Int :=
  match s with
  | .codeBlock => (blockOf x.tree).lines
  | .instructions => (blockIn x.items).lines
  | .instruction => x.tree.line :: (statementOf (x.tree.child 0)).lines
  | .ifStatement => (conditionalOf x.tree).lines
  | _ => (statementOf x.tree).lines

theorem readLines_compound {k : Nonterminal} (hk : k ∈ compound) (x : Stmt k) :
    (statementOf x.tree).lines = readLines x := by
  simp only [compound, mem_cons, not_mem_nil, or_false] at hk
  rcases hk with rfl | rfl | rfl | rfl | rfl
  · rw [statementOf_ifStatement, Statement.lines, readLines]
  · rfl
  · rfl
  · rfl
  · rw [statementOf_codeBlock, Statement.lines, readLines]

/-- **The lines of what a statement is read as** are lines of its tokens. -/
theorem lines_stmt (x : Stmt s) : readLines x ⊆ x.tree.lines := by
  induction x with
  | block lb body rb ih =>
    simp only [readLines] at ih ⊢
    rw [blockOf_block, Stmt.tree]
    grind
  | blockEmpty lb rb =>
    simp only [readLines]
    rw [blockOf_blockEmpty]
    exact nil_subset _
  | last i ih =>
    simp only [readLines] at ih ⊢
    rw [Stmt.tree]
    simpa [Stmt.items, blockIn, Block.lines] using ih
  | more i rest ihi ih =>
    simp only [readLines] at ihi ih ⊢
    rw [Stmt.items, blockIn, foldr_cons, ← blockIn, Block.lines, Stmt.tree]
    grind
  | @simple k hk p e =>
    have hp := lines_simple hk p
    have hchild : (Stmt.simple hk p e).tree.child 0 = p.tree := rfl
    simp only [readLines]
    rw [hchild, Stmt.tree]
    grind
  | @compound k hk x ih =>
    have hchild : (Stmt.compound hk x).tree.child 0 = x.tree := rfl
    simp only [readLines]
    rw [hchild, readLines_compound hk, Stmt.tree]
    grind
  | ifThen w lp test rp yes ih =>
    have htest := lines_exprOf test
    simp only [readLines] at ih ⊢
    rw [conditionalOf_ifThen, Conditional.lines, Alternative.lines, Stmt.tree]
    grind
  | ifElse w lp test rp yes el no ihyes ihno | ifElseIf w lp test rp yes el no ihyes ihno =>
    have htest := lines_exprOf test
    simp only [readLines, conditionalOf_ifElse, conditionalOf_ifElseIf, Conditional.lines,
      Alternative.lines] at ihyes ihno ⊢
    rw [Stmt.tree]
    grind
  | forLoop w lp init e test e' step rp body ih =>
    have htest := lines_exprOf test
    have hinit := lines_forInit init
    have hstep := lines_forStep step
    simp only [readLines] at ih ⊢
    rw [statementOf_forLoop, Statement.lines, Stmt.tree]
    intro l hl
    simp only [lines_node_cons, mem_cons, mem_append] at hl ⊢
    grind
  | whileLoop w lp test rp body ih | doWhile w body wh lp test rp e ih =>
    have htest := lines_exprOf test
    simp only [readLines, statementOf_whileLoop, statementOf_doWhile, Statement.lines] at ih ⊢
    rw [Stmt.tree]
    grind

theorem lines_blockOf (b : Stmt .codeBlock) : (blockOf b.tree).lines ⊆ b.tree.lines :=
  lines_stmt b

/-! ## Reading functions -/

theorem lines_params (ps : Decl s) : (ps.params.map paramIn).map Variable.line ⊆ ps.tree.lines := by
  have hparam (p : Decl .param) : (paramIn p).line ∈ p.tree.lines := by
    cases p with
    | param type id =>
      rw [paramIn, tree]
      grind
  induction ps with
  | lastParam p ih | moreParams p c rest ihp ih =>
    rw [params, tree]
    grind
  | _ => exact nil_subset _

theorem lines_functionIn (m : Decl .member) : (functionIn m).lines ⊆ m.tree.lines := by
  cases m with
  | ofFunction f =>
    cases f with
    | function pub st returns name lp params rp body =>
      have hparams := lines_params params
      have hbody := lines_blockOf body
      rw [functionIn, functionIn, Function.lines, tree, tree]
      intro l hl
      simp only [lines_node_cons, mem_cons, mem_append] at hl ⊢
      grind
    | functionEmpty pub st returns name lp rp body =>
      have hbody := lines_blockOf body
      rw [functionIn, functionIn, Function.lines, tree, tree]
      intro l hl
      simp only [lines_node_cons, mem_cons, mem_append] at hl ⊢
      grind
  | ofMain f =>
    cases f with
    | main pub st v name lp args rp body =>
      have hbody := lines_blockOf body
      simp only [functionIn, Function.lines, tree]
      intro l hl
      simp only [lines_node_cons, mem_cons, mem_append] at hl ⊢
      grind

/-- **The lines of the functions of a program** are lines of its tokens. -/
theorem lines_of_functionsOf {p : Decl .program} {all : List Function}
    (hall : functionsOf p.tree = .ok all) : ∀ f ∈ all, f.lines ⊆ p.tree.lines := by
  have hmembers {s : Nonterminal} (d : Decl s) : ∀ m ∈ d.members, m.tree.lines ⊆ d.tree.lines := by
    induction d with
    | lastMember m ih | moreMembers m rest ihm ih =>
      rw [members, tree]
      grind
    | _ => simp [members]
  cases p with
  | program pub cl name lb body rb =>
    rw [functionsOf_program] at hall
    cases hall
    intro f hf
    obtain ⟨m, hm, rfl⟩ := mem_map.1 hf
    have hbody := hmembers body m hm
    have hfunction := lines_functionIn m
    rw [tree]
    grind

end Program

end JavaToCpp
