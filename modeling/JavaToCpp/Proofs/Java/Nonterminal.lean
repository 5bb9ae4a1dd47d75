/-
  The nonterminals of the Java subset.

  The grammar is read from rule text, its symbols are texts.  Here every nonterminal has a name of
  its own, with its label, and the rules are written down once more over these names, so that the
  cases of a derivation tree can be told apart without comparing texts.
-/
import JavaToCpp.Proofs.Java.Syntax

namespace JavaToCpp.Java

open List Grammar

/-- The nonterminals: those with rules over nonterminals, then the tags. -/
inductive Nonterminal where
  | program | classBody | member | mainFunc | funcDeclaration | funcParams | param
  | codeBlock | instructions | instruction | varDecl | assignment | funcReturn | ifStatement
  | forLoop | forInit | forStep | whileLoop | doWhile
  | expr | disjunction | relation | mathExpr | term | operand | funcCall | callArgs
  | public_ | static_ | class_ | main | mainArgs | name | type | void | funcReturnType | id
  | number | charLiteral | booleanValue
  | lbracket | rbracket | lbracketCurly | rbracketCurly | semicolon | comma
  | assign | opAssign | increment | mathOperator | compare | booleanOperator | booleanNot
  | if_ | else_ | for_ | while_ | do_ | return_ | print | max | min
deriving DecidableEq, Repr

namespace Nonterminal

def written : Nonterminal → String
  | program => "<program>"
  | classBody => "<class_body>"
  | member => "<member>"
  | mainFunc => "<main_func>"
  | funcDeclaration => "<func_declaration>"
  | funcParams => "<func_params>"
  | param => "<param>"
  | codeBlock => "<code_block>"
  | instructions => "<instructions>"
  | instruction => "<instruction>"
  | varDecl => "<var_decl>"
  | assignment => "<assignment>"
  | funcReturn => "<func_return>"
  | ifStatement => "<if_statement>"
  | forLoop => "<for_loop>"
  | forInit => "<for_init>"
  | forStep => "<for_step>"
  | whileLoop => "<while_loop>"
  | doWhile => "<do_while>"
  | expr => "<expr>"
  | disjunction => "<disjunction>"
  | relation => "<relation>"
  | mathExpr => "<math_expr>"
  | term => "<term>"
  | operand => "<operand>"
  | funcCall => "<func_call>"
  | callArgs => "<call_args>"
  | public_ => "<public>"
  | static_ => "<static>"
  | class_ => "<class>"
  | main => "<main>"
  | mainArgs => "<main_args>"
  | name => "<name>"
  | type => "<type>"
  | void => "<void>"
  | funcReturnType => "<func_return_type>"
  | id => "<id>"
  | number => "<number>"
  | charLiteral => "<char_literal>"
  | booleanValue => "<boolean_value>"
  | lbracket => "<lbracket>"
  | rbracket => "<rbracket>"
  | lbracketCurly => "<lbracket_curly>"
  | rbracketCurly => "<rbracket_curly>"
  | semicolon => "<semicolon>"
  | comma => "<comma>"
  | assign => "<assign>"
  | opAssign => "<op_assign>"
  | increment => "<increment>"
  | mathOperator => "<math_operator>"
  | compare => "<compare>"
  | booleanOperator => "<boolean_operator>"
  | booleanNot => "<boolean_not>"
  | if_ => "<if>"
  | else_ => "<else>"
  | for_ => "<for>"
  | while_ => "<while>"
  | do_ => "<do>"
  | return_ => "<return>"
  | print => "<print>"
  | max => "<max>"
  | min => "<min>"

def label (s : Nonterminal) : Symbol := s.written

/-- The nonterminals that are no tags, in the order of the grammar. -/
def composed : List Nonterminal := [
  program, classBody, member, mainFunc, funcDeclaration, funcParams, param,
  codeBlock, instructions, instruction, varDecl, assignment, funcReturn, ifStatement,
  forLoop, forInit, forStep, whileLoop, doWhile,
  expr, disjunction, relation, mathExpr, term, operand, funcCall, callArgs]

/-- The tags, in the order of the grammar. -/
def tagged : List Nonterminal := [
  public_, static_, class_, main, mainArgs, name, type, void, funcReturnType, id,
  number, charLiteral, booleanValue,
  lbracket, rbracket, lbracketCurly, rbracketCurly, semicolon, comma,
  assign, opAssign, increment, mathOperator, compare, booleanOperator, booleanNot,
  if_, else_, for_, while_, do_, return_, print, max, min]

theorem mem_composed_or_tagged (s : Nonterminal) : s ∈ composed ++ tagged := by
  cases s <;> decide

theorem forall_iff {P : Nonterminal → Prop} : (∀ s ∈ composed ++ tagged, P s) ↔ ∀ s, P s :=
  forall_congr' fun s => imp_iff_right (mem_composed_or_tagged s)

instance {P : Nonterminal → Prop} [DecidablePred P] : Decidable (∀ s, P s) :=
  decidable_of_iff _ forall_iff

theorem label_injective : Function.Injective label := by
  have hnodup : ((composed ++ tagged).map label).Nodup := by decide +kernel
  exact fun a b h => inj_on_of_nodup_map hnodup (mem_composed_or_tagged a)
    (mem_composed_or_tagged b) h

@[simp] theorem label_inj {a b : Nonterminal} : a.label = b.label ↔ a = b :=
  label_injective.eq_iff

theorem labels : Label.program = label program ∧ Label.classBody = label classBody ∧
    Label.member = label member ∧ Label.mainFunc = label mainFunc ∧
    Label.funcDeclaration = label funcDeclaration ∧ Label.funcParams = label funcParams ∧
    Label.param = label param ∧ Label.codeBlock = label codeBlock ∧
    Label.instructions = label instructions ∧ Label.instruction = label instruction ∧
    Label.varDecl = label varDecl ∧ Label.assignment = label assignment ∧
    Label.funcReturn = label funcReturn ∧ Label.ifStatement = label ifStatement ∧
    Label.forLoop = label forLoop ∧ Label.forInit = label forInit ∧ Label.forStep = label forStep ∧
    Label.whileLoop = label whileLoop ∧ Label.doWhile = label doWhile ∧ Label.expr = label expr ∧
    Label.disjunction = label disjunction ∧ Label.relation = label relation ∧
    Label.mathExpr = label mathExpr ∧ Label.term = label term ∧ Label.operand = label operand ∧
    Label.funcCall = label funcCall ∧ Label.callArgs = label callArgs ∧ Label.name = label name ∧
    Label.type = label type ∧ Label.funcReturnType = label funcReturnType ∧ Label.id = label id ∧
    Label.assign = label assign ∧ Label.opAssign = label opAssign ∧
    Label.increment = label increment ∧ Label.booleanNot = label booleanNot ∧
    Label.else_ = label else_ ∧ Label.print = label print ∧ Label.max = label max ∧
    Label.min = label min := by
  repeat' constructor

/-! ## The rules -/

/-- The right-hand sides over nonterminals. -/
def sides : Nonterminal → List (List Nonterminal)
  | program => [[public_, class_, name, lbracketCurly, classBody, rbracketCurly]]
  | classBody => [[member], [member, classBody]]
  | member => [[funcDeclaration], [mainFunc]]
  | mainFunc => [[public_, static_, void, main, lbracket, mainArgs, rbracket, codeBlock]]
  | funcDeclaration => [
      [public_, static_, funcReturnType, name, lbracket, funcParams, rbracket, codeBlock],
      [public_, static_, funcReturnType, name, lbracket, rbracket, codeBlock]]
  | funcParams => [[param], [param, comma, funcParams]]
  | param => [[type, id]]
  | codeBlock => [[lbracketCurly, instructions, rbracketCurly], [lbracketCurly, rbracketCurly]]
  | instructions => [[instruction], [instruction, instructions]]
  | instruction => [
      [varDecl, semicolon], [assignment, semicolon], [funcCall, semicolon],
      [funcReturn, semicolon], [ifStatement], [forLoop], [whileLoop], [doWhile], [codeBlock]]
  | varDecl => [[type, id], [type, id, assign, expr]]
  | assignment => [[id, assign, expr], [id, opAssign, expr], [id, increment], [increment, id]]
  | funcReturn => [[return_, expr], [return_]]
  | ifStatement => [
      [if_, lbracket, expr, rbracket, codeBlock],
      [if_, lbracket, expr, rbracket, codeBlock, else_, codeBlock],
      [if_, lbracket, expr, rbracket, codeBlock, else_, ifStatement]]
  | forLoop => [[for_, lbracket, forInit, semicolon, expr, semicolon, forStep, rbracket, codeBlock]]
  | forInit => [[varDecl], [assignment]]
  | forStep => [[assignment]]
  | whileLoop => [[while_, lbracket, expr, rbracket, codeBlock]]
  | doWhile => [[do_, codeBlock, while_, lbracket, expr, rbracket, semicolon]]
  | expr => [[disjunction]]
  | disjunction => [[relation], [relation, booleanOperator, disjunction]]
  | relation => [[mathExpr], [mathExpr, compare, mathExpr]]
  | mathExpr => [[term], [term, mathOperator, mathExpr]]
  | term => [[operand], [booleanNot, term], [lbracket, expr, rbracket]]
  | operand => [[number], [charLiteral], [booleanValue], [id], [funcCall]]
  | funcCall => [
      [name, lbracket, callArgs, rbracket], [name, lbracket, rbracket],
      [print, lbracket, callArgs, rbracket], [max, lbracket, callArgs, rbracket],
      [min, lbracket, callArgs, rbracket]]
  | callArgs => [[expr], [expr, comma, callArgs]]
  | _ => []

/-- The categories that are a right-hand side by themselves. -/
def categories : Nonterminal → List Text
  | public_ => ["public"]
  | static_ => ["static"]
  | class_ => ["class"]
  | main => ["main"]
  | mainArgs => ["main_args"]
  | name => ["id", "main"]
  | type => ["type_hint"]
  | void => ["void"]
  | funcReturnType => ["type_hint", "void"]
  | id => ["id"]
  | number => ["number_int", "number_float"]
  | charLiteral => ["char_literal"]
  | booleanValue => ["boolean_value"]
  | lbracket => ["lbracket"]
  | rbracket => ["rbracket"]
  | lbracketCurly => ["lbracket_curly"]
  | rbracketCurly => ["rbracket_curly"]
  | semicolon => ["semicolon"]
  | comma => ["comma"]
  | assign => ["assign"]
  | opAssign => ["op_assign"]
  | increment => ["increment"]
  | mathOperator => ["math_operator"]
  | compare => ["compare"]
  | booleanOperator => ["boolean_operator"]
  | booleanNot => ["boolean_not"]
  | if_ => ["if"]
  | else_ => ["else"]
  | for_ => ["for"]
  | while_ => ["while"]
  | do_ => ["do"]
  | return_ => ["return"]
  | print => ["print"]
  | max => ["max"]
  | min => ["min"]
  | _ => []

def rights (s : Nonterminal) : List (List Symbol) :=
  s.sides.map (map label) ++ s.categories.map fun c => [c]

theorem alternatives_eq :
    alternatives = (composed ++ tagged).flatMap fun s => s.rights.map fun rhs => (s.label, rhs) := by
  decide +kernel

variable {s : Nonterminal}

theorem mem_alternatives {rhs : List Symbol} : (s.label, rhs) ∈ alternatives ↔ rhs ∈ s.rights := by
  rw [alternatives_eq]
  simp only [mem_flatMap, mem_map, Prod.mk.injEq]
  constructor
  · rintro ⟨s', -, rhs', h, hs, rfl⟩
    rwa [← label_injective hs]
  · exact fun h => ⟨s, mem_composed_or_tagged s, rhs, h, rfl, rfl⟩

theorem mem_rights {rhs : List Symbol} :
    rhs ∈ s.rights ↔ ∃ r ∈ grammar.rules, r.lhs = s.label ∧ r.rhs = rhs := by
  rw [← mem_alternatives, grammar_eq]
  constructor
  · intro h
    obtain ⟨i, hi⟩ := mem_iff_getElem?.1 h
    refine ⟨⟨i + 1, s.label, rhs⟩, mem_map.2 ⟨((s.label, rhs), i), ?_, rfl⟩, rfl, rfl⟩
    exact mk_mem_zipIdx_iff_getElem?.2 hi
  · rintro ⟨r, hr, hs, rfl⟩
    exact hs ▸ (mem_ofAlternatives hr).1

theorem isTag_label (s : Nonterminal) : grammar.isTag s.label = s.sides.isEmpty := by
  have hall : ∀ s : Nonterminal, syntaxRules.isTag s.label = s.sides.isEmpty := by decide +kernel
  rw [grammar_eq]
  exact hall s

theorem sides_eq_nil (h : s.categories ≠ []) : s.sides = [] := by
  cases s <;> first | rfl | exact absurd rfl h

theorem accepts_label {c : Text} : grammar.accepts s.label c ↔ c ∈ s.categories := by
  rw [accepts_iff, isTag_label, List.isEmpty_iff]
  have hrule : (∃ r ∈ grammar.rulesOf s.label, r.rhs = [c]) ↔ [c] ∈ s.rights := by
    simp only [mem_rights, mem_rulesOf, and_assoc]
  rw [hrule]
  constructor
  · rintro ⟨hs, h⟩
    simpa [rights, hs] using h
  · intro h
    exact ⟨sides_eq_nil (ne_nil_of_mem h), mem_append_right _ (mem_map.2 ⟨c, h, rfl⟩)⟩

/-! ## Derivation trees -/

/-- The tree of a nonterminal over the trees of its parts. -/
def node (s : Nonterminal) (ts : List Tree) : Tree := .branch s.label ts

@[simp] theorem label_node (s : Nonterminal) (ts : List Tree) : (s.node ts).label = .ok s.label :=
  rfl

@[simp] theorem isHole_node (s : Nonterminal) (ts : List Tree) : (s.node ts).isHole = false :=
  rfl

@[simp] theorem children_node (s : Nonterminal) (ts : List Tree) : (s.node ts).children = ts :=
  rfl

@[simp] theorem tokens_node (s : Nonterminal) (ts : List Tree) :
    (s.node ts).tokens = Tree.tokensOf ts := rfl

theorem parses_word {k : Token} (h : k.category ∈ s.categories) :
    grammar.Parses s.label (s.node [.leaf k]) :=
  .tag (accepts_label.2 h)

theorem parses_side {side : List Nonterminal} {ts : List Tree}
    (hside : side ∈ s.sides) (h : Forall₂ (fun x t => grammar.Parses x.label t) side ts) :
    grammar.Parses s.label (s.node ts) := by
  obtain ⟨r, hr, hs, hrhs⟩ :=
    mem_rights.1 (mem_append_left _ (mem_map.2 ⟨side, hside, rfl⟩))
  have htag : grammar.isTag r.lhs = false := by
    rw [hs, isTag_label, isEmpty_eq_false_iff]
    exact ne_nil_of_mem hside
  rw [node, ← hs]
  exact .rule hr htag (hrhs ▸ forall₂_map_left_iff.2 h)

theorem parses_node {ts : List Tree}
    (h : ∃ side ∈ s.sides, Forall₂ (fun x t => grammar.Parses x.label t) side ts) :
    grammar.Parses s.label (s.node ts) := by
  obtain ⟨side, hside, h⟩ := h
  exact parses_side hside h

/-- **Induction over derivation trees**, a case for tags over tokens and one for the sides of the
    other nonterminals. -/
@[elab_as_elim]
theorem parses_induction {motive : ∀ s t, grammar.Parses (label s) t → Prop}
    (word : ∀ {s : Nonterminal} {k : Token} (h : k.category ∈ s.categories),
      motive s (s.node [.leaf k]) (parses_word h))
    (side : ∀ {s : Nonterminal} {side : List Nonterminal} {ts : List Tree} (hside : side ∈ s.sides)
      (h : Forall₂ (fun x t => grammar.Parses (label x) t) side ts),
      Forall₂ (fun x t => ∃ h, motive x t h) side ts →
      motive s (s.node ts) (parses_side hside h)) {t : Tree} (h : grammar.Parses s.label t) : motive s t h := by
  suffices hall : ∀ {l : Symbol} {t : Tree}, grammar.Parses l t →
      ∀ (s : Nonterminal) (h : grammar.Parses s.label t), s.label = l → motive s t h from
    hall h s h rfl
  intro l t h
  induction h using Parses.induction with
  | tag h =>
    rintro s - rfl
    exact word (accepts_label.1 h)
  | @rule r ts hr ht _ ih =>
    rintro s - hl
    have hright : r.rhs ∈ s.rights := mem_rights.2 ⟨r, hr, hl.symm, rfl⟩
    rw [← hl, isTag_label] at ht
    rcases mem_append.1 hright with hside | hcategory
    · obtain ⟨xs, hxs, hrhs⟩ := mem_map.1 hside
      rw [← hrhs, forall₂_map_left_iff] at ih
      have ih' : Forall₂ (fun x t => ∃ h, motive x t h) xs ts :=
        ih.imp fun x t ⟨h, hx⟩ => ⟨h, hx x h rfl⟩
      simp only [← hl]
      exact side hxs (ih'.imp fun x t h => h.1) ih'
    · obtain ⟨c, hc, -⟩ := mem_map.1 hcategory
      simp [sides_eq_nil (ne_nil_of_mem hc)] at ht

end Nonterminal

/-! ## Words -/

/-- A token that a tag accepts. -/
structure Word (s : Nonterminal) where
  token : Token
  accepted : token.category ∈ s.categories

namespace Word

variable {s : Nonterminal}

/-- A word with a text, of the first category of its tag. -/
def ofText (t : Text) (h : s.categories.isEmpty = false := by exact Eq.refl false) : Word s :=
  have hne := isEmpty_eq_false_iff.1 h
  ⟨⟨s.categories.head hne, t, 0, 0⟩, head_mem hne⟩

def tree (w : Word s) : Tree := s.node [.leaf w.token]

def text (w : Word s) : Text := w.token.text

@[simp] theorem label_tree (w : Word s) : w.tree.label = .ok s.label := rfl

@[simp] theorem isHole_tree (w : Word s) : w.tree.isHole = false := rfl

@[simp] theorem tokens_tree (w : Word s) : w.tree.tokens = [w.token] := by
  simp [tree, Tree.tokensOf, Tree.tokens]

@[simp] theorem text_tree (w : Word s) : w.tree.text = w.text := rfl

theorem parses (w : Word s) : grammar.Parses s.label w.tree := Nonterminal.parses_word w.accepted

end Word

end JavaToCpp.Java
