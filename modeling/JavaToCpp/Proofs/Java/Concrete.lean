/-
  The concrete syntax of the Java subset.

  The derivation trees of the grammar as types, with a constructor for every alternative, so that
  functions on programs can be defined and properties proved alternative by alternative.
-/
import JavaToCpp.Proofs.Java.Nonterminal

namespace JavaToCpp.Java

open List JavaToCpp.Tree
open Nonterminal (node)

/-- The phrases of a nonterminal. -/
inductive Phrase : Nonterminal → Type
  | expr (d : Phrase .disjunction) : Phrase .expr
  | disjunction (r : Phrase .relation) : Phrase .disjunction
  | logic (r : Phrase .relation) (op : Word .booleanOperator) (d : Phrase .disjunction) :
      Phrase .disjunction
  | relation (m : Phrase .mathExpr) : Phrase .relation
  | comparison (l : Phrase .mathExpr) (op : Word .compare) (r : Phrase .mathExpr) :
      Phrase .relation
  | mathExpr (t : Phrase .term) : Phrase .mathExpr
  | math (t : Phrase .term) (op : Word .mathOperator) (m : Phrase .mathExpr) : Phrase .mathExpr
  | term (o : Phrase .operand) : Phrase .term
  | negation (op : Word .booleanNot) (t : Phrase .term) : Phrase .term
  | group (lp : Word .lbracket) (e : Phrase .expr) (rp : Word .rbracket) : Phrase .term
  | number (w : Word .number) : Phrase .operand
  | charLiteral (w : Word .charLiteral) : Phrase .operand
  | booleanValue (w : Word .booleanValue) : Phrase .operand
  | var (w : Word .id) : Phrase .operand
  | value (c : Phrase .funcCall) : Phrase .operand
  | call (f : Word .name) (lp : Word .lbracket) (args : Phrase .callArgs) (rp : Word .rbracket) :
      Phrase .funcCall
  | callEmpty (f : Word .name) (lp : Word .lbracket) (rp : Word .rbracket) : Phrase .funcCall
  | print (f : Word .print) (lp : Word .lbracket) (args : Phrase .callArgs) (rp : Word .rbracket) :
      Phrase .funcCall
  | max (f : Word .max) (lp : Word .lbracket) (args : Phrase .callArgs) (rp : Word .rbracket) :
      Phrase .funcCall
  | min (f : Word .min) (lp : Word .lbracket) (args : Phrase .callArgs) (rp : Word .rbracket) :
      Phrase .funcCall
  | lastArg (e : Phrase .expr) : Phrase .callArgs
  | arg (e : Phrase .expr) (c : Word .comma) (rest : Phrase .callArgs) : Phrase .callArgs
  | declare (type : Word .type) (id : Word .id) : Phrase .varDecl
  | initialise (type : Word .type) (id : Word .id) (op : Word .assign) (e : Phrase .expr) :
      Phrase .varDecl
  | set (id : Word .id) (op : Word .assign) (e : Phrase .expr) : Phrase .assignment
  | combine (id : Word .id) (op : Word .opAssign) (e : Phrase .expr) : Phrase .assignment
  | stepAfter (id : Word .id) (op : Word .increment) : Phrase .assignment
  | stepBefore (op : Word .increment) (id : Word .id) : Phrase .assignment
  | returnValue (w : Word .return_) (e : Phrase .expr) : Phrase .funcReturn
  | returnNothing (w : Word .return_) : Phrase .funcReturn
  | initVar (v : Phrase .varDecl) : Phrase .forInit
  | initSet (a : Phrase .assignment) : Phrase .forInit
  | step (a : Phrase .assignment) : Phrase .forStep

namespace Phrase

variable {s : Nonterminal}

def tree : {s : Nonterminal} → Phrase s → Tree
  | _, expr d => node .expr [d.tree]
  | _, disjunction r => node .disjunction [r.tree]
  | _, logic r op d => node .disjunction [r.tree, op.tree, d.tree]
  | _, relation m => node .relation [m.tree]
  | _, comparison l op r => node .relation [l.tree, op.tree, r.tree]
  | _, mathExpr t => node .mathExpr [t.tree]
  | _, math t op m => node .mathExpr [t.tree, op.tree, m.tree]
  | _, term o => node .term [o.tree]
  | _, negation op t => node .term [op.tree, t.tree]
  | _, group lp e rp => node .term [lp.tree, e.tree, rp.tree]
  | _, number w => node .operand [w.tree]
  | _, charLiteral w => node .operand [w.tree]
  | _, booleanValue w => node .operand [w.tree]
  | _, var w => node .operand [w.tree]
  | _, value c => node .operand [c.tree]
  | _, call f lp args rp => node .funcCall [f.tree, lp.tree, args.tree, rp.tree]
  | _, callEmpty f lp rp => node .funcCall [f.tree, lp.tree, rp.tree]
  | _, print f lp args rp => node .funcCall [f.tree, lp.tree, args.tree, rp.tree]
  | _, max f lp args rp => node .funcCall [f.tree, lp.tree, args.tree, rp.tree]
  | _, min f lp args rp => node .funcCall [f.tree, lp.tree, args.tree, rp.tree]
  | _, lastArg e => node .callArgs [e.tree]
  | _, arg e c rest => node .callArgs [e.tree, c.tree, rest.tree]
  | _, declare type id => node .varDecl [type.tree, id.tree]
  | _, initialise type id op e => node .varDecl [type.tree, id.tree, op.tree, e.tree]
  | _, set id op e => node .assignment [id.tree, op.tree, e.tree]
  | _, combine id op e => node .assignment [id.tree, op.tree, e.tree]
  | _, stepAfter id op => node .assignment [id.tree, op.tree]
  | _, stepBefore op id => node .assignment [op.tree, id.tree]
  | _, returnValue w e => node .funcReturn [w.tree, e.tree]
  | _, returnNothing w => node .funcReturn [w.tree]
  | _, initVar v => node .forInit [v.tree]
  | _, initSet a => node .forInit [a.tree]
  | _, step a => node .forStep [a.tree]

@[simp] theorem label_tree (p : Phrase s) : p.tree.label = .ok s.label := by
  cases p <;> rfl

@[simp] theorem isHole_tree (p : Phrase s) : p.tree.isHole = false :=
  isHole_eq_false p.label_tree

theorem parses (p : Phrase s) : grammar.Parses s.label p.tree := by
  induction p <;> exact Nonterminal.parses_node (by simp [Nonterminal.sides, Word.parses, *])

end Phrase

namespace Nonterminal

/-- The phrases that are a statement with a semicolon after them. -/
def simple : List Nonterminal := [varDecl, assignment, funcCall, funcReturn]

theorem varDecl_mem_simple : varDecl ∈ simple := by decide

theorem assignment_mem_simple : assignment ∈ simple := by decide

theorem funcCall_mem_simple : funcCall ∈ simple := by decide

theorem funcReturn_mem_simple : funcReturn ∈ simple := by decide

/-- The statements that need no semicolon after them. -/
def compound : List Nonterminal := [ifStatement, forLoop, whileLoop, doWhile, codeBlock]

theorem ifStatement_mem_compound : ifStatement ∈ compound := by decide

theorem whileLoop_mem_compound : whileLoop ∈ compound := by decide

end Nonterminal

/-! ## Statements -/

inductive Stmt : Nonterminal → Type
  | block (lb : Word .lbracketCurly) (body : Stmt .instructions) (rb : Word .rbracketCurly) :
      Stmt .codeBlock
  | blockEmpty (lb : Word .lbracketCurly) (rb : Word .rbracketCurly) : Stmt .codeBlock
  | last (i : Stmt .instruction) : Stmt .instructions
  | more (i : Stmt .instruction) (rest : Stmt .instructions) : Stmt .instructions
  | simple {k : Nonterminal} (hk : k ∈ Nonterminal.simple) (p : Phrase k) (e : Word .semicolon) :
      Stmt .instruction
  | compound {k : Nonterminal} (hk : k ∈ Nonterminal.compound) (x : Stmt k) : Stmt .instruction
  | ifThen (w : Word .if_) (lp : Word .lbracket) (test : Phrase .expr) (rp : Word .rbracket)
      (yes : Stmt .codeBlock) : Stmt .ifStatement
  | ifElse (w : Word .if_) (lp : Word .lbracket) (test : Phrase .expr) (rp : Word .rbracket)
      (yes : Stmt .codeBlock) (el : Word .else_) (no : Stmt .codeBlock) : Stmt .ifStatement
  | ifElseIf (w : Word .if_) (lp : Word .lbracket) (test : Phrase .expr) (rp : Word .rbracket)
      (yes : Stmt .codeBlock) (el : Word .else_) (no : Stmt .ifStatement) : Stmt .ifStatement
  | forLoop (w : Word .for_) (lp : Word .lbracket) (init : Phrase .forInit) (e : Word .semicolon)
      (test : Phrase .expr) (e' : Word .semicolon) (step : Phrase .forStep) (rp : Word .rbracket)
      (body : Stmt .codeBlock) : Stmt .forLoop
  | whileLoop (w : Word .while_) (lp : Word .lbracket) (test : Phrase .expr) (rp : Word .rbracket)
      (body : Stmt .codeBlock) : Stmt .whileLoop
  | doWhile (w : Word .do_) (body : Stmt .codeBlock) (wh : Word .while_) (lp : Word .lbracket)
      (test : Phrase .expr) (rp : Word .rbracket) (e : Word .semicolon) : Stmt .doWhile

namespace Stmt

variable {s : Nonterminal}

def tree : {s : Nonterminal} → Stmt s → Tree
  | _, block lb body rb => node .codeBlock [lb.tree, body.tree, rb.tree]
  | _, blockEmpty lb rb => node .codeBlock [lb.tree, rb.tree]
  | _, last i => node .instructions [i.tree]
  | _, more i rest => node .instructions [i.tree, rest.tree]
  | _, simple _ p e => node .instruction [p.tree, e.tree]
  | _, compound _ x => node .instruction [x.tree]
  | _, ifThen w lp test rp yes => node .ifStatement [w.tree, lp.tree, test.tree, rp.tree, yes.tree]
  | _, ifElse w lp test rp yes el no =>
    node .ifStatement [w.tree, lp.tree, test.tree, rp.tree, yes.tree, el.tree, no.tree]
  | _, ifElseIf w lp test rp yes el no =>
    node .ifStatement [w.tree, lp.tree, test.tree, rp.tree, yes.tree, el.tree, no.tree]
  | _, forLoop w lp init e test e' step rp body =>
    node .forLoop [w.tree, lp.tree, init.tree, e.tree, test.tree, e'.tree, step.tree, rp.tree,
      body.tree]
  | _, whileLoop w lp test rp body =>
    node .whileLoop [w.tree, lp.tree, test.tree, rp.tree, body.tree]
  | _, doWhile w body wh lp test rp e =>
    node .doWhile [w.tree, body.tree, wh.tree, lp.tree, test.tree, rp.tree, e.tree]

@[simp] theorem label_tree (x : Stmt s) : x.tree.label = .ok s.label := by
  cases x <;> rfl

@[simp] theorem isHole_tree (x : Stmt s) : x.tree.isHole = false :=
  isHole_eq_false x.label_tree

theorem parses (x : Stmt s) : grammar.Parses s.label x.tree := by
  induction x with
  | @simple k hk p e =>
    have hside : ∀ k ∈ Nonterminal.simple, [k, .semicolon] ∈ Nonterminal.instruction.sides := by
      decide
    exact Nonterminal.parses_side (hside k hk) (.cons p.parses (.cons e.parses .nil))
  | @compound k hk x ih =>
    have hside : ∀ k ∈ Nonterminal.compound, [k] ∈ Nonterminal.instruction.sides := by decide
    exact Nonterminal.parses_side (hside k hk) (.cons ih .nil)
  | _ =>
    exact Nonterminal.parses_node (by simp [Nonterminal.sides, Word.parses, Phrase.parses, *])

end Stmt

/-! ## Declarations -/

inductive Decl : Nonterminal → Type
  | param (type : Word .type) (id : Word .id) : Decl .param
  | lastParam (p : Decl .param) : Decl .funcParams
  | moreParams (p : Decl .param) (c : Word .comma) (rest : Decl .funcParams) : Decl .funcParams
  | function (pub : Word .public_) (st : Word .static_) (returns : Word .funcReturnType)
      (name : Word .name) (lp : Word .lbracket) (params : Decl .funcParams) (rp : Word .rbracket)
      (body : Stmt .codeBlock) : Decl .funcDeclaration
  | functionEmpty (pub : Word .public_) (st : Word .static_) (returns : Word .funcReturnType)
      (name : Word .name) (lp : Word .lbracket) (rp : Word .rbracket) (body : Stmt .codeBlock) :
      Decl .funcDeclaration
  | main (pub : Word .public_) (st : Word .static_) (v : Word .void) (name : Word .main)
      (lp : Word .lbracket) (args : Word .mainArgs) (rp : Word .rbracket) (body : Stmt .codeBlock) :
      Decl .mainFunc
  | ofFunction (f : Decl .funcDeclaration) : Decl .member
  | ofMain (f : Decl .mainFunc) : Decl .member
  | lastMember (m : Decl .member) : Decl .classBody
  | moreMembers (m : Decl .member) (rest : Decl .classBody) : Decl .classBody
  | program (pub : Word .public_) (cl : Word .class_) (name : Word .name) (lb : Word .lbracketCurly)
      (body : Decl .classBody) (rb : Word .rbracketCurly) : Decl .program

namespace Decl

variable {s : Nonterminal}

def tree : {s : Nonterminal} → Decl s → Tree
  | _, param type id => node .param [type.tree, id.tree]
  | _, lastParam p => node .funcParams [p.tree]
  | _, moreParams p c rest => node .funcParams [p.tree, c.tree, rest.tree]
  | _, function pub st returns name lp params rp body =>
    node .funcDeclaration [pub.tree, st.tree, returns.tree, name.tree, lp.tree, params.tree,
      rp.tree, body.tree]
  | _, functionEmpty pub st returns name lp rp body =>
    node .funcDeclaration [pub.tree, st.tree, returns.tree, name.tree, lp.tree, rp.tree, body.tree]
  | _, main pub st v name lp args rp body =>
    node .mainFunc [pub.tree, st.tree, v.tree, name.tree, lp.tree, args.tree, rp.tree, body.tree]
  | _, ofFunction f => node .member [f.tree]
  | _, ofMain f => node .member [f.tree]
  | _, lastMember m => node .classBody [m.tree]
  | _, moreMembers m rest => node .classBody [m.tree, rest.tree]
  | _, program pub cl name lb body rb =>
    node .program [pub.tree, cl.tree, name.tree, lb.tree, body.tree, rb.tree]

@[simp] theorem label_tree (x : Decl s) : x.tree.label = .ok s.label := by
  cases x <;> rfl

theorem parses (x : Decl s) : grammar.Parses s.label x.tree := by
  induction x <;> exact Nonterminal.parses_node
    (by simp [Nonterminal.sides, Word.parses, Stmt.parses, *])

end Decl

/-! ## All derivation trees -/

/-- What the derivation trees of a nonterminal are. -/
inductive Level where
  | word
  | phrase
  | statement
  | declaration
deriving DecidableEq, Repr

def Nonterminal.level : Nonterminal → Level
  | expr | disjunction | relation | mathExpr | term | operand | funcCall | callArgs
  | varDecl | assignment | funcReturn | forInit | forStep => .phrase
  | codeBlock | instructions | instruction | ifStatement | forLoop | whileLoop | doWhile =>
    .statement
  | param | funcParams | funcDeclaration | mainFunc | member | classBody | program => .declaration
  | _ => .word

/-- The words, phrases, statements or declarations of a nonterminal. -/
def Piece (s : Nonterminal) : Level → Type
  | .word => Word s
  | .phrase => Phrase s
  | .statement => Stmt s
  | .declaration => Decl s

def Piece.tree {s : Nonterminal} : {l : Level} → Piece s l → Tree
  | .word, w => Word.tree w
  | .phrase, p => Phrase.tree p
  | .statement, x => Stmt.tree x
  | .declaration, d => Decl.tree d

def Read (s : Nonterminal) (t : Tree) : Prop := ∃ p : Piece s s.level, p.tree = t

/-- Behind the trees `us`, any pieces of the nonterminals make up a piece of `s`. -/
def Assembles (s : Nonterminal) : List Nonterminal → (us : List Tree) → Prop
  | [], us => Read s (s.node us)
  | x :: xs, us => ∀ p : Piece x x.level, Assembles s xs (us ++ [p.tree])

theorem read_of_assembles {s : Nonterminal} {xs : List Nonterminal} {ts : List Tree}
    (h : Forall₂ Read xs ts) : ∀ {us : List Tree}, Assembles s xs us → Read s (s.node (us ++ ts)) := by
  induction h with
  | nil =>
    intro us hs
    rwa [append_nil]
  | cons h _ ih =>
    intro us hs
    obtain ⟨p, rfl⟩ := h
    simpa using ih (hs p)

variable {s : Nonterminal} {t : Tree}

theorem Nonterminal.level_eq_word (h : s.categories ≠ []) : s.level = .word := by
  cases s <;> first | rfl | exact absurd rfl h

theorem level_phrase (p : Phrase s) : s.level = .phrase := by
  cases p <;> rfl

theorem level_stmt (x : Stmt s) : s.level = .statement := by
  cases x <;> rfl

theorem level_decl (d : Decl s) : s.level = .declaration := by
  cases d <;> rfl

theorem level_word (w : Word s) : s.level = .word :=
  Nonterminal.level_eq_word (ne_nil_of_mem w.accepted)

theorem assembles (s : Nonterminal) : ∀ side ∈ s.sides, Assembles s side [] := by
  cases s <;> simp only [Nonterminal.sides, forall_mem_cons, not_mem_nil, false_imp_iff,
    implies_true, and_true]
  case expr => exact fun d => ⟨Phrase.expr d, rfl⟩
  case disjunction =>
    exact ⟨fun r => ⟨Phrase.disjunction r, rfl⟩, fun r op d => ⟨Phrase.logic r op d, rfl⟩⟩
  case relation =>
    exact ⟨fun m => ⟨Phrase.relation m, rfl⟩, fun l op r => ⟨Phrase.comparison l op r, rfl⟩⟩
  case mathExpr =>
    exact ⟨fun t => ⟨Phrase.mathExpr t, rfl⟩, fun t op m => ⟨Phrase.math t op m, rfl⟩⟩
  case term =>
    exact ⟨fun o => ⟨Phrase.term o, rfl⟩, fun op t => ⟨Phrase.negation op t, rfl⟩,
      fun lp e rp => ⟨Phrase.group lp e rp, rfl⟩⟩
  case operand =>
    exact ⟨fun w => ⟨Phrase.number w, rfl⟩, fun w => ⟨Phrase.charLiteral w, rfl⟩,
      fun w => ⟨Phrase.booleanValue w, rfl⟩, fun w => ⟨Phrase.var w, rfl⟩,
      fun c => ⟨Phrase.value c, rfl⟩⟩
  case funcCall =>
    exact ⟨fun f lp args rp => ⟨Phrase.call f lp args rp, rfl⟩,
      fun f lp rp => ⟨Phrase.callEmpty f lp rp, rfl⟩,
      fun f lp args rp => ⟨Phrase.print f lp args rp, rfl⟩,
      fun f lp args rp => ⟨Phrase.max f lp args rp, rfl⟩,
      fun f lp args rp => ⟨Phrase.min f lp args rp, rfl⟩⟩
  case callArgs =>
    exact ⟨fun e => ⟨Phrase.lastArg e, rfl⟩, fun e c rest => ⟨Phrase.arg e c rest, rfl⟩⟩
  case varDecl =>
    exact ⟨fun type id => ⟨Phrase.declare type id, rfl⟩,
      fun type id op e => ⟨Phrase.initialise type id op e, rfl⟩⟩
  case assignment =>
    exact ⟨fun id op e => ⟨Phrase.set id op e, rfl⟩, fun id op e => ⟨Phrase.combine id op e, rfl⟩,
      fun id op => ⟨Phrase.stepAfter id op, rfl⟩, fun op id => ⟨Phrase.stepBefore op id, rfl⟩⟩
  case funcReturn =>
    exact ⟨fun w e => ⟨Phrase.returnValue w e, rfl⟩, fun w => ⟨Phrase.returnNothing w, rfl⟩⟩
  case forInit => exact ⟨fun v => ⟨Phrase.initVar v, rfl⟩, fun a => ⟨Phrase.initSet a, rfl⟩⟩
  case forStep => exact fun a => ⟨Phrase.step a, rfl⟩
  case codeBlock =>
    exact ⟨fun lb body rb => ⟨Stmt.block lb body rb, rfl⟩, fun lb rb => ⟨Stmt.blockEmpty lb rb, rfl⟩⟩
  case instructions => exact ⟨fun i => ⟨Stmt.last i, rfl⟩, fun i rest => ⟨Stmt.more i rest, rfl⟩⟩
  case instruction =>
    refine ⟨?_, ?_, ?_, ?_, ?_, ?_, ?_, ?_, ?_⟩
    iterate 4
      · exact fun p e => ⟨Stmt.simple (by decide) p e, rfl⟩
    all_goals exact fun x => ⟨Stmt.compound (by decide) x, rfl⟩
  case ifStatement =>
    exact ⟨fun w lp test rp yes => ⟨Stmt.ifThen w lp test rp yes, rfl⟩,
      fun w lp test rp yes el no => ⟨Stmt.ifElse w lp test rp yes el no, rfl⟩,
      fun w lp test rp yes el no => ⟨Stmt.ifElseIf w lp test rp yes el no, rfl⟩⟩
  case forLoop =>
    exact fun w lp init e test e' step rp body =>
      ⟨Stmt.forLoop w lp init e test e' step rp body, rfl⟩
  case whileLoop => exact fun w lp test rp body => ⟨Stmt.whileLoop w lp test rp body, rfl⟩
  case doWhile => exact fun w body wh lp test rp e => ⟨Stmt.doWhile w body wh lp test rp e, rfl⟩
  case param => exact fun type id => ⟨Decl.param type id, rfl⟩
  case funcParams =>
    exact ⟨fun p => ⟨Decl.lastParam p, rfl⟩, fun p c rest => ⟨Decl.moreParams p c rest, rfl⟩⟩
  case funcDeclaration =>
    exact ⟨fun pub st returns name lp params rp body =>
        ⟨Decl.function pub st returns name lp params rp body, rfl⟩,
      fun pub st returns name lp rp body =>
        ⟨Decl.functionEmpty pub st returns name lp rp body, rfl⟩⟩
  case mainFunc =>
    exact fun pub st v name lp args rp body => ⟨Decl.main pub st v name lp args rp body, rfl⟩
  case member => exact ⟨fun f => ⟨Decl.ofFunction f, rfl⟩, fun f => ⟨Decl.ofMain f, rfl⟩⟩
  case classBody =>
    exact ⟨fun m => ⟨Decl.lastMember m, rfl⟩, fun m rest => ⟨Decl.moreMembers m rest, rfl⟩⟩
  case program => exact fun pub cl name lb body rb => ⟨Decl.program pub cl name lb body rb, rfl⟩

/-- **Every derivation tree is the tree of a word, a phrase, a statement or a declaration.** -/
theorem read_of_parses (h : grammar.Parses s.label t) : Read s t := by
  induction h using Nonterminal.parses_induction with
  | @word s k hk =>
    rw [Read, Nonterminal.level_eq_word (ne_nil_of_mem hk)]
    exact ⟨⟨k, hk⟩, rfl⟩
  | side hside _ ih => exact read_of_assembles (ih.imp fun x t h => h.2) (assembles _ _ hside)

theorem exists_phrase (h : grammar.Parses s.label t)
    (hs : s.level = .phrase) : ∃ p : Phrase s, p.tree = t := by
  have hread := read_of_parses h
  rw [Read, hs] at hread
  exact hread

theorem exists_decl (h : grammar.Parses s.label t)
    (hs : s.level = .declaration) : ∃ d : Decl s, d.tree = t := by
  have hread := read_of_parses h
  rw [Read, hs] at hread
  exact hread

/-! ## Lists -/

namespace Nonterminal

variable {s k item : Nonterminal} {t rest : Tree}

theorem hasLabel_iff (h : t.label = .ok k.label) : t.hasLabel s.label = decide (k = s) := by
  rw [hasLabel_of_label h, Bool.eq_iff_iff]
  simp

theorem findIn_nil (l : Text) : findIn l [] = .ok .hole := rfl

theorem findIn_cons (h : t.label = .ok k.label) (ts : List Tree) :
    findIn s.label (t :: ts) = if k = s then .ok t else findIn s.label ts := by
  simp only [findIn, h, bind, Except.bind, beq_iff_eq, label_inj]
  rfl

theorem flatten_last (hne : item ≠ s) (h : t.label = .ok item.label) :
    flatten item.label (s.node [t]) = .ok [t] := by
  have hlast : lastWith? s.label [t] = none := by
    simp [lastWith?, hasLabel_iff h, hne]
  rw [node, flatten_branch]
  simp [hlast, hasLabel_iff h, hne.symm, isHole_eq_false h]

theorem flatten_more (k : Nonterminal) (ts : List Tree) {us : List Tree} (hne : item ≠ s)
    (h : t.label = .ok item.label) (hk : k ≠ item) (hts : ∀ u ∈ ts, u.label = .ok k.label)
    (hrest : rest.label = .ok s.label) (hus : flatten item.label rest = .ok us) :
    flatten item.label (s.node (t :: (ts ++ [rest]))) = .ok (t :: us) := by
  have hlast : lastWith? s.label (t :: (ts ++ [rest])) = some rest := by
    simp [lastWith?, hasLabel_iff hrest]
  have hitems : (t :: (ts ++ [rest])).filter (hasLabel item.label) = [t] := by
    have hnone : ts.filter (hasLabel item.label) = [] :=
      filter_eq_nil_iff.2 fun u hu => by simp [hasLabel_iff (hts u hu), hk]
    simp [hasLabel_iff h, hasLabel_iff hrest, hne.symm, hnone]
  have hholes : (t :: (ts ++ [rest])).any isHole = false := by
    have hnone : ts.any isHole = false :=
      any_eq_false.2 fun u hu => by simp [isHole_eq_false (hts u hu)]
    simp [isHole_eq_false h, isHole_eq_false hrest, hnone]
  rw [node, flatten_branch, hitems, hholes, hlast]
  simp [hne.symm, hus, Except.map]

end Nonterminal

def Phrase.args : {s : Nonterminal} → Phrase s → List (Phrase .expr)
  | _, lastArg e => [e]
  | _, arg e _ rest => e :: rest.args
  | _, _ => []

def Stmt.items : {s : Nonterminal} → Stmt s → List (Stmt .instruction)
  | _, last i => [i]
  | _, more i rest => i :: rest.items
  | _, _ => []

def Decl.params : {s : Nonterminal} → Decl s → List (Decl .param)
  | _, lastParam p => [p]
  | _, moreParams p _ rest => p :: rest.params
  | _, _ => []

def Decl.members : {s : Nonterminal} → Decl s → List (Decl .member)
  | _, lastMember m => [m]
  | _, moreMembers m rest => m :: rest.members
  | _, _ => []

theorem flatten_args : ∀ as : Phrase .callArgs,
    as.tree.flatten Nonterminal.expr.label = .ok (as.args.map Phrase.tree)
  | .lastArg e => Nonterminal.flatten_last (by decide) e.label_tree
  | .arg e c rest => Nonterminal.flatten_more .comma [c.tree] (by decide) e.label_tree (by decide)
    (by simp) rest.label_tree (flatten_args rest)

theorem flatten_items : ∀ is : Stmt .instructions,
    is.tree.flatten Nonterminal.instruction.label = .ok (is.items.map Stmt.tree)
  | .last i => Nonterminal.flatten_last (by decide) i.label_tree
  | .more i rest => Nonterminal.flatten_more .comma [] (by decide) i.label_tree (by decide)
    (by simp) rest.label_tree (flatten_items rest)

theorem flatten_params : ∀ ps : Decl .funcParams,
    ps.tree.flatten Nonterminal.param.label = .ok (ps.params.map Decl.tree)
  | .lastParam p => Nonterminal.flatten_last (by decide) p.label_tree
  | .moreParams p c rest => Nonterminal.flatten_more .comma [c.tree] (by decide) p.label_tree
    (by decide) (by simp) rest.label_tree (flatten_params rest)

theorem flatten_members : ∀ ms : Decl .classBody,
    ms.tree.flatten Nonterminal.member.label = .ok (ms.members.map Decl.tree)
  | .lastMember m => Nonterminal.flatten_last (by decide) m.label_tree
  | .moreMembers m rest => Nonterminal.flatten_more .comma [] (by decide) m.label_tree (by decide)
    (by simp) rest.label_tree (flatten_members rest)

/-! ## A program -/

abbrev Phrase.ofTerm (t : Phrase .term) : Phrase .expr :=
  .expr (.disjunction (.relation (.mathExpr t)))

def Phrase.ofVar (x : Text) : Phrase .expr := .ofTerm (.term (.var (.ofText x)))

abbrev Stmt.ofPrint (e : Phrase .expr) : Stmt .instruction :=
  .simple Nonterminal.funcCall_mem_simple
    (.print (.ofText "System.out.println") (.ofText "(") (.lastArg e) (.ofText ")")) (.ofText ";")

abbrev Stmt.ofReturn (e : Phrase .expr) : Stmt .instruction :=
  .simple Nonterminal.funcReturn_mem_simple (.returnValue (.ofText "return") e) (.ofText ";")

abbrev Stmt.braced (is : Stmt .instructions) : Stmt .codeBlock :=
  .block (.ofText "\x7b") is (.ofText "\x7d")

/-- The entry point, behind the other members of its class. -/
abbrev Decl.entry (body : Stmt .codeBlock) : Decl .classBody :=
  .lastMember (.ofMain (.main (.ofText "public") (.ofText "static") (.ofText "void")
    (.ofText "main") (.ofText "(") (.ofText "String[] args") (.ofText ")") body))

abbrev Decl.ofMembers (ms : Decl .classBody) : Decl .program :=
  .program (.ofText "public") (.ofText "class") (.ofText "Main") (.ofText "\x7b") ms (.ofText "\x7d")

/-- The loop `for (int i = 0; i < 3; i++) { System.out.println(twice(i)); }`. -/
def printLoop : Stmt .forLoop :=
  .forLoop (.ofText "for") (.ofText "(")
    (.initVar (.initialise (.ofText "int") (.ofText "i") (.ofText "=")
      (.ofTerm (.term (.number (.ofText "0"))))))
    (.ofText ";")
    (.expr (.disjunction (.comparison (.mathExpr (.term (.var (.ofText "i")))) (.ofText "<")
      (.mathExpr (.term (.number (.ofText "3")))))))
    (.ofText ";") (.step (.stepAfter (.ofText "i") (.ofText "++"))) (.ofText ")")
    (.braced (.last (.ofPrint (.ofTerm (.term (.value
      (.call (.ofText "twice") (.ofText "(") (.lastArg (.ofVar "i")) (.ofText ")"))))))))

/-- A class with the function `int twice(int a) { return a + a; }` and an entry point that runs
    `printLoop`. -/
def printTwice : Decl .program :=
  .ofMembers
    (.moreMembers
      (.ofFunction (.function (.ofText "public") (.ofText "static") (.ofText "int")
        (.ofText "twice") (.ofText "(") (.lastParam (.param (.ofText "int") (.ofText "a")))
        (.ofText ")")
        (.braced (.last (.ofReturn
          (.expr (.disjunction (.relation (.math (.term (.var (.ofText "a"))) (.ofText "+")
            (.mathExpr (.term (.var (.ofText "a")))))))))))))
      (.entry (.braced (.last (.compound (by decide) printLoop)))))

end JavaToCpp.Java
