/-
  Paths through statements.

  A path is what a run of a statement does to its variables, in order, if every condition is free to
  hold or not and every loop runs as many rounds as it likes.
-/
import JavaToCpp.Proofs.Java.Concrete

namespace JavaToCpp.Java

/-- What happens on a path. -/
inductive Event where
  /-- a variable is declared, and has no value yet -/
  | declare (x : Text)
  /-- a variable is given a value -/
  | give (x : Text)
  | read (x : Text)
  /-- the path passes by a part of the text in which the variables `xs` are assigned, and does not
      run it -/
  | skip (xs : List Text)
deriving DecidableEq, Repr

/-- How a path leaves a statement. -/
inductive Exit where
  | falls
  /-- by a return, with a value or without one -/
  | returns (value : Bool)
deriving DecidableEq, Repr

/-! ## Phrases -/

namespace Phrase

/-- The variables that an expression or a call reads, in the order of evaluation. -/
def reads : {s : Nonterminal} → Phrase s → List Text
  | _, expr d => d.reads
  | _, disjunction r => r.reads
  | _, logic r _ d => r.reads ++ d.reads
  | _, relation m => m.reads
  | _, comparison l _ r => l.reads ++ r.reads
  | _, mathExpr t => t.reads
  | _, math t _ m => t.reads ++ m.reads
  | _, term o => o.reads
  | _, negation _ t => t.reads
  | _, group _ e _ => e.reads
  | _, var w => [w.text]
  | _, value c => c.reads
  | _, call _ _ args _ => args.reads
  | _, print _ _ args _ => args.reads
  | _, max _ _ args _ => args.reads
  | _, min _ _ args _ => args.reads
  | _, lastArg e => e.reads
  | _, arg e _ rest => e.reads ++ rest.reads
  | _, _ => []

/-- What happens where a phrase is run. -/
def events : {s : Nonterminal} → Phrase s → List Event
  | _, declare _ id => [.declare id.text]
  | _, initialise _ id _ e => .declare id.text :: e.reads.map .read ++ [.give id.text]
  | _, set id _ e => e.reads.map .read ++ [.give id.text]
  | _, combine id _ e => .read id.text :: e.reads.map .read ++ [.give id.text]
  | _, stepAfter id _ => [.read id.text, .give id.text]
  | _, stepBefore _ id => [.read id.text, .give id.text]
  | _, returnValue _ e => e.reads.map .read
  | _, initVar v => v.events
  | _, initSet a => a.events
  | _, step a => a.events
  | _, p => p.reads.map .read

section Events

variable {type : Word .type} {id : Word .id} {e : Phrase .expr}

@[simp] theorem events_declare : (declare type id).events = [.declare id.text] := rfl

@[simp] theorem events_initialise {op : Word .assign} : (initialise type id op e).events =
    .declare id.text :: e.reads.map .read ++ [.give id.text] := rfl

@[simp] theorem events_set {op : Word .assign} :
    (set id op e).events = e.reads.map .read ++ [.give id.text] := rfl

@[simp] theorem events_combine {op : Word .opAssign} :
    (combine id op e).events = .read id.text :: e.reads.map .read ++ [.give id.text] := rfl

@[simp] theorem events_stepAfter {op : Word .increment} :
    (stepAfter id op).events = [.read id.text, .give id.text] := rfl

@[simp] theorem events_stepBefore {op : Word .increment} :
    (stepBefore op id).events = [.read id.text, .give id.text] := rfl

@[simp] theorem events_returnValue {w : Word .return_} :
    (returnValue w e).events = e.reads.map .read := rfl

@[simp] theorem events_returnNothing {w : Word .return_} : (returnNothing w).events = [] := rfl

@[simp] theorem events_step (a : Phrase .assignment) : (step a).events = a.events := rfl

@[simp] theorem events_expr (e : Phrase .expr) : e.events = e.reads.map .read := by
  cases e
  rfl

@[simp] theorem events_funcCall (p : Phrase .funcCall) : p.events = p.reads.map .read := by
  cases p <;> rfl

end Events

/-- Where a path goes on behind a phrase. -/
def exit : {s : Nonterminal} → Phrase s → Exit
  | _, returnValue _ _ => .returns true
  | _, returnNothing _ => .returns false
  | _, _ => .falls

/-- The variable that a phrase assigns a value of its own. -/
def assigned : {s : Nonterminal} → Phrase s → List Text
  | _, set id _ _ => [id.text]
  | _, initSet a => a.assigned
  | _, step a => a.assigned
  | _, _ => []

end Phrase

/-! ## Statements -/

namespace Stmt

/-- The variables that are assigned somewhere in a statement. -/
def assigned : {s : Nonterminal} → Stmt s → List Text
  | _, block _ body _ => body.assigned
  | _, blockEmpty _ _ => []
  | _, last i => i.assigned
  | _, more i rest => i.assigned ++ rest.assigned
  | _, simple _ p _ => p.assigned
  | _, compound _ x => x.assigned
  | _, ifThen _ _ _ _ yes => yes.assigned
  | _, ifElse _ _ _ _ yes _ no => yes.assigned ++ no.assigned
  | _, ifElseIf _ _ _ _ yes _ no => yes.assigned ++ no.assigned
  | _, forLoop _ _ init _ _ _ step _ body => init.assigned ++ (step.assigned ++ body.assigned)
  | _, whileLoop _ _ _ _ body => body.assigned
  | _, doWhile _ body _ _ _ _ _ => body.assigned

/-- Whether a statement is a return, or made of blocks so that every way through it has one. -/
def alwaysReturns : {s : Nonterminal} → Stmt s → Bool
  | _, block _ body _ => body.alwaysReturns
  | _, last i => i.alwaysReturns
  | _, more i rest => i.alwaysReturns || rest.alwaysReturns
  | _, simple _ p _ => p.exit != .falls
  | _, compound _ x => x.alwaysReturns
  | _, ifElse _ _ _ _ yes _ no => yes.alwaysReturns && no.alwaysReturns
  | _, ifElseIf _ _ _ _ yes _ no => yes.alwaysReturns && no.alwaysReturns
  | _, _ => false

end Stmt

/-- The paths through a statement. -/
inductive Runs (once : Bool) : {s : Nonterminal} → Stmt s → List Event → Exit → Prop
  | block {lb body rb es e} : Runs once body es e → Runs once (.block lb body rb) es e
  | blockEmpty {lb rb} : Runs once (.blockEmpty lb rb) [] .falls
  | last {i es e} : Runs once i es e → Runs once (.last i) es e
  | moreFalls {i rest es es' e} : Runs once i es .falls → Runs once rest es' e →
      Runs once (.more i rest) (es ++ es') e
  | moreReturns {i rest es v} : Runs once i es (.returns v) → Runs once (.more i rest) es (.returns v)
  | simple {k hk p e} : Runs once (.simple (k := k) hk p e) p.events p.exit
  | compound {k hk x es e} : Runs once x es e → Runs once (.compound (k := k) hk x) es e
  | thenYes {w lp test rp yes es e} : Runs once yes es e →
      Runs once (.ifThen w lp test rp yes) (test.events ++ es) e
  | thenNo {w lp test rp yes} :
      Runs once (.ifThen w lp test rp yes) (test.events ++ [.skip yes.assigned]) .falls
  | elseYes {w lp test rp yes el no es e} : Runs once yes es e →
      Runs once (.ifElse w lp test rp yes el no) (test.events ++ (es ++ [.skip no.assigned])) e
  | elseNo {w lp test rp yes el no es e} : Runs once no es e →
      Runs once (.ifElse w lp test rp yes el no) (test.events ++ .skip yes.assigned :: es) e
  | chainYes {w lp test rp yes el no es e} : Runs once yes es e →
      Runs once (.ifElseIf w lp test rp yes el no) (test.events ++ (es ++ [.skip no.assigned])) e
  | chainNo {w lp test rp yes el no es e} : Runs once no es e →
      Runs once (.ifElseIf w lp test rp yes el no) (test.events ++ .skip yes.assigned :: es) e
  | whileNone {w lp test rp body} :
      Runs once (.whileLoop w lp test rp body) (test.events ++ [.skip body.assigned]) .falls
  | whileRounds {w lp test rp body} {rounds : List (List Event)} : rounds ≠ [] →
      (∀ es ∈ rounds, Runs once body es .falls) →
      Runs once (.whileLoop w lp test rp body)
        (test.events ++ rounds.flatMap fun es => es ++ test.events) .falls
  | whileReturns {w lp test rp body es v} {rounds : List (List Event)} :
      (∀ es ∈ rounds, Runs once body es .falls) → Runs once body es (.returns v) →
      Runs once (.whileLoop w lp test rp body)
        (test.events ++ ((rounds.flatMap fun es => es ++ test.events) ++ es)) (.returns v)
  /-- the step stands in front of the body and is run behind it -/
  | forNone {w lp init e test e' step rp body} :
      Runs once (.forLoop w lp init e test e' step rp body)
        (init.events ++ (test.events ++ [.skip (step.assigned ++ body.assigned)])) .falls
  | forRounds {w lp init e test e' step rp body} {rounds : List (List Event)} : rounds ≠ [] →
      (∀ es ∈ rounds, Runs once body es .falls) →
      Runs once (.forLoop w lp init e test e' step rp body)
        (init.events ++ (test.events ++ .skip step.assigned ::
          rounds.flatMap fun es => es ++ (step.events ++ test.events))) .falls
  | forReturns {w lp init e test e' step rp body es v} {rounds : List (List Event)} :
      (∀ es ∈ rounds, Runs once body es .falls) → Runs once body es (.returns v) →
      Runs once (.forLoop w lp init e test e' step rp body)
        (init.events ++ (test.events ++ .skip step.assigned ::
          ((rounds.flatMap fun es => es ++ (step.events ++ test.events)) ++ es))) (.returns v)
  | doNone {w body wh lp test rp e} : once = false →
      Runs once (.doWhile w body wh lp test rp e) (.skip body.assigned :: test.events) .falls
  | doRounds {w body wh lp test rp e} {rounds : List (List Event)} : rounds ≠ [] →
      (∀ es ∈ rounds, Runs once body es .falls) →
      Runs once (.doWhile w body wh lp test rp e) (rounds.flatMap fun es => es ++ test.events) .falls
  | doReturns {w body wh lp test rp e es v} {rounds : List (List Event)} :
      (∀ es ∈ rounds, Runs once body es .falls) → Runs once body es (.returns v) →
      Runs once (.doWhile w body wh lp test rp e)
        ((rounds.flatMap fun es => es ++ test.events) ++ es) (.returns v)

section Falls

variable {once : Bool} {s : Nonterminal} {x : Stmt s} {es : List Event} {e : Exit}

theorem ne_falls_of_alwaysReturns (h : Runs once x es e) (hx : x.alwaysReturns) : e ≠ .falls := by
  induction h with
  | block _ ih | last _ ih | compound _ ih => exact ih hx
  | moreFalls _ _ ihi ih =>
    rcases Bool.or_eq_true_iff.1 hx with hi | hrest
    · exact absurd rfl (ihi hi)
    · exact ih hrest
  | simple => simpa [Stmt.alwaysReturns] using hx
  | elseYes _ ih | chainYes _ ih => exact ih (Bool.and_eq_true_iff.1 hx).1
  | elseNo _ ih | chainNo _ ih => exact ih (Bool.and_eq_true_iff.1 hx).2
  | moreReturns | whileReturns | forReturns | doReturns => rintro ⟨⟩
  | blockEmpty | thenYes | thenNo | whileNone | whileRounds | forNone | forRounds | doNone | doRounds =>
    cases hx

end Falls

/-! ## Parts -/

/-- A statement is another one or stands in it. -/
inductive Part {k : Nonterminal} (y : Stmt k) : {s : Nonterminal} → Stmt s → Prop
  | refl : Part y y
  | block {lb body rb} : Part y body → Part y (.block lb body rb)
  | last {i} : Part y i → Part y (.last i)
  | first {i rest} : Part y i → Part y (.more i rest)
  | rest {i rest} : Part y rest → Part y (.more i rest)
  | compound {k hk x} : Part y x → Part y (.compound (k := k) hk x)
  | thenYes {w lp test rp yes} : Part y yes → Part y (.ifThen w lp test rp yes)
  | elseYes {w lp test rp yes el no} : Part y yes → Part y (.ifElse w lp test rp yes el no)
  | elseNo {w lp test rp yes el no} : Part y no → Part y (.ifElse w lp test rp yes el no)
  | chainYes {w lp test rp yes el no} : Part y yes → Part y (.ifElseIf w lp test rp yes el no)
  | chainNo {w lp test rp yes el no} : Part y no → Part y (.ifElseIf w lp test rp yes el no)
  | forLoop {w lp init e test e' step rp body} : Part y body →
      Part y (.forLoop w lp init e test e' step rp body)
  | whileLoop {w lp test rp body} : Part y body → Part y (.whileLoop w lp test rp body)
  | doWhile {w body wh lp test rp e} : Part y body → Part y (.doWhile w body wh lp test rp e)

/-- There is a return in the statement, with a value or without one. -/
def Stmt.HasReturn (value : Bool) {s : Nonterminal} (x : Stmt s) : Prop :=
  ∃ (k : Nonterminal) (hk : k ∈ Nonterminal.simple) (p : Phrase k) (e : Word .semicolon),
    p.exit = .returns value ∧ Part (.simple hk p e) x

theorem hasReturn_of_runs {once : Bool} {s : Nonterminal} {x : Stmt s} {es : List Event} {e : Exit}
    (h : Runs once x es e) {v : Bool} (he : e = .returns v) : x.HasReturn v := by
  have himp {s s' : Nonterminal} {x : Stmt s} {x' : Stmt s'}
      (hx : ∀ {k : Nonterminal} {y : Stmt k}, Part y x → Part y x') (h : x.HasReturn v) :
      x'.HasReturn v := by
    obtain ⟨k, hk, p, e, hp, hpart⟩ := h
    exact ⟨k, hk, p, e, hp, hx hpart⟩
  induction h with
  | block _ ih => exact himp .block (ih he)
  | last _ ih => exact himp .last (ih he)
  | moreFalls _ _ _ ih => exact himp .rest (ih he)
  | moreReturns _ ih => exact himp .first (ih he)
  | @simple k hk p e => exact ⟨k, hk, p, e, he, .refl⟩
  | compound _ ih => exact himp .compound (ih he)
  | thenYes _ ih => exact himp .thenYes (ih he)
  | elseYes _ ih => exact himp .elseYes (ih he)
  | elseNo _ ih => exact himp .elseNo (ih he)
  | chainYes _ ih => exact himp .chainYes (ih he)
  | chainNo _ ih => exact himp .chainNo (ih he)
  | whileReturns _ _ _ ih => exact himp .whileLoop (ih he)
  | forReturns _ _ _ ih => exact himp .forLoop (ih he)
  | doReturns _ _ _ ih => exact himp .doWhile (ih he)
  | blockEmpty | thenNo | whileNone | whileRounds | forNone | forRounds | doNone | doRounds => cases he

end JavaToCpp.Java
