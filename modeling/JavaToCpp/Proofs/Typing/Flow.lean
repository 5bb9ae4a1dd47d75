/-
  What statements that pass do to the open scopes, step by step.
-/
import JavaToCpp.Proofs.Java.Paths
import JavaToCpp.Proofs.Typing.Programs

namespace JavaToCpp

namespace Scopes

/-- A variable of the name is open and has been given a value. -/
def Valued (sc : Scopes) (x : Text) : Prop :=
  ∃ f ∈ sc, ∃ v ∈ f.declared, v.name = x ∧ v.initialized

variable {sc sc' : Scopes} {r : Bool}

theorem valued_of_lookup? {x : Text} {v : Variable} (h : sc.lookup? x = some v)
    (hv : v.initialized) : sc.Valued x := by
  obtain ⟨f, hf, hfind⟩ := List.exists_of_findSome?_eq_some h
  have hx : v.name = x := by simpa using List.find?_some hfind
  exact ⟨f, hf, v, List.mem_of_find?_eq_some hfind, hx, hv⟩

/-- Which of the open blocks have returned, the innermost first. -/
def flags (sc : Scopes) : List Bool := sc.map Frame.returned

/-- The flags if the innermost block returns or not. -/
def mark (r : Bool) : List Bool → List Bool
  | [] => []
  | b :: bs => (b || r) :: bs

@[simp] theorem mark_false (bs : List Bool) : mark false bs = bs := by
  cases bs <;> simp [mark]

theorem mark_mark (r r' : Bool) (bs : List Bool) : mark r' (mark r bs) = mark (r || r') bs := by
  cases bs <;> simp [mark, Bool.or_assoc]

variable (sc : Scopes)

@[simp] theorem flags_push : sc.push.flags = false :: sc.flags := rfl

@[simp] theorem flags_declare (v : Variable) : (sc.declare v).flags = sc.flags := by
  cases sc <;> rfl

@[simp] theorem flags_markReturned : sc.markReturned.flags = mark true sc.flags := by
  cases sc <;> simp [markReturned, flags, mark]

@[simp] theorem flags_setInitialized (x : Text) : (setInitialized x sc).flags = sc.flags := by
  induction sc with
  | nil => rfl
  | cons f sc ih =>
    rw [setInitialized]
    split
    · rfl
    · exact congrArg (f.returned :: ·) ih

@[simp] theorem flags_drop : Scopes.flags (sc.drop 1) = sc.flags.drop 1 := List.map_drop

theorem returned_eq : sc.returned = sc.flags.head?.any id := by
  cases sc <;> rfl

theorem flags_leave {sc : Scopes} (h : sc'.flags = mark r sc.push.flags) :
    Scopes.flags (sc'.drop 1) = sc.flags := by
  rw [flags_drop, h]
  rfl

theorem returned_of_flags {sc : Scopes} (h : sc'.flags = mark r sc.push.flags) : sc'.returned = r := by
  rw [returned_eq, h]
  simp [mark]

theorem ne_nil_of_flags {sc : Scopes} (h : sc'.flags = mark r sc.flags) (hne : sc ≠ []) : sc' ≠ [] := by
  obtain ⟨f, sc, rfl⟩ := List.exists_cons_of_ne_nil hne
  rintro rfl
  cases h

end Scopes

namespace Typing

open Program Java Scopes List

variable {c : Context} {sc sc' : Scopes} {fs : List Function}

/-! ## Expressions -/

/-- Every variable that an expression or a call reads has a value. -/
def Held (sc : Scopes) {s : Nonterminal} (p : Phrase s) : Prop := ∀ x ∈ p.reads, sc.Valued x

theorem held_of_eq {s s' : Nonterminal} {p : Phrase s} {r : Phrase s'} (hp : Held sc p)
    (h : r.reads = p.reads) : Held sc r := by
  intro x hx
  exact hp x (h ▸ hx)

theorem held_append {s s' s'' : Nonterminal} {p : Phrase s} {q : Phrase s'} {r : Phrase s''}
    (hp : Held sc p) (hq : Held sc q) (h : r.reads = p.reads ++ q.reads) : Held sc r := by
  intro x hx
  rw [h] at hx
  exact (mem_append.1 hx).elim (hp x) (hq x)

mutual

theorem held_of_hasType {s : Nonterminal} {p : Phrase s} {τ : ValueType} :
    HasType fs (Holds sc) p τ → Held sc p
  | .expr h | .disjunction h | .relation h | .mathExpr h | .term h | .negation h | .group h
  | .value h _ => held_of_eq (held_of_hasType h) rfl
  | .logic h h' | .equality _ h h' _ | .order _ h h' _ _ | .math h h' _ _ =>
    held_append (held_of_hasType h) (held_of_hasType h') rfl
  | .number | .charLiteral | .booleanValue | .callEmpty _ => by
    intro x hx
    cases hx
  | .var h => by
    obtain ⟨v, hv, hinit, -⟩ := h
    intro x hx
    cases mem_singleton.1 hx
    exact valued_of_lookup? hv hinit
  | .call h _ | .print h | .max h _ _ | .min h _ _ => held_of_eq (held_of_haveTypes h) rfl

theorem held_of_haveTypes {s : Nonterminal} {p : Phrase s} {τs : List ValueType} :
    HaveTypes fs (Holds sc) p τs → Held sc p
  | .lastArg h => held_of_eq (held_of_hasType h) rfl
  | .arg h h' => held_append (held_of_hasType h) (held_of_haveTypes h') rfl

end

variable {s : Nonterminal} {line : Int}

theorem held_of_exprType (hs : s ∈ expressions) {p : Phrase s} {τ : ValueType}
    (h : exprType fs sc (exprOf p.tree) = .ok τ) : Held sc p :=
  held_of_hasType ((exprType_eq_ok hs p).1 h)

theorem held_of_checkValue {e : Phrase .expr} {σ : ValueType}
    (h : checkValue c sc (exprOf e.tree) line σ = .ok ()) : Held sc e := by
  obtain ⟨τ, hτ, -⟩ := checkValue_eq_ok.1 h
  exact held_of_exprType (by decide) hτ

theorem held_of_checkTest {e : Phrase .expr}
    (h : checkTest c sc (exprOf e.tree) line = .ok ()) : Held sc e :=
  held_of_exprType (by decide) (checkTest_eq_ok.1 h)

/-! ## Simple statements -/

/-- What a phrase that passes does to the scopes. -/
inductive Does (c : Context) : {s : Nonterminal} → Phrase s → Scopes → Scopes → Prop
  | declare {type id v sc} : sc.lookup? id.text = none → v.name = id.text → v.initialized = false →
      Does c (.declare type id) sc (sc.declare v)
  | initialise {type id op e v sc} : sc.lookup? id.text = none → v.name = id.text →
      v.initialized = false → Held (sc.declare v) e →
      Does c (.initialise type id op e) sc ((sc.declare v).setInitialized id.text)
  | set {id op e sc} : Held sc e → Does c (.set id op e) sc (sc.setInitialized id.text)
  | combine {id op e sc} : sc.Valued id.text → Held sc e → Does c (.combine id op e) sc sc
  | stepAfter {id op sc} : sc.Valued id.text → Does c (.stepAfter id op) sc sc
  | stepBefore {op id sc} : sc.Valued id.text → Does c (.stepBefore op id) sc sc
  | call {p : Phrase .funcCall} {sc} : Held sc p → Does c p sc sc
  | returnValue {w e sc} : c.current.returns ≠ .void → Held sc e →
      Does c (.returnValue w e) sc sc.markReturned
  | returnNothing {w sc} : c.current.returns = .void → Does c (.returnNothing w) sc sc.markReturned
  | initVar {v sc sc'} : Does c v sc sc' → Does c (.initVar v) sc sc'
  | initSet {a sc sc'} : Does c a sc sc' → Does c (.initSet a) sc sc'
  | step {a sc sc'} : Does c a sc sc' → Does c (.step a) sc sc'

theorem does_assignment (a : Phrase .assignment)
    (h : checkAssignment c sc (assignmentOf a.tree) = .ok sc') : Does c a sc sc' := by
  have hto {name : Text} {line : Int} {u : Update}
      (h : checkAssignment c sc (.to name line u) = .ok sc') : ∃ v, sc.lookup? name = some v := by
    rw [checkAssignment] at h
    cases hv : sc.lookup? name with
    | none => simp [hv, fail] at h
    | some v => exact ⟨v, rfl⟩
  have hincrement {name : Text} {line : Int}
      (h : checkAssignment c sc (.to name line .increment) = .ok sc') : sc' = sc ∧ sc.Valued name := by
    obtain ⟨v, hv⟩ := hto h
    simp only [checkAssignment, hv] at h
    split at h
    · cases h
    · split at h
      · cases h
      · rename_i hinit
        cases h
        exact ⟨rfl, valued_of_lookup? hv (by simpa using hinit)⟩
  cases a with
  | set id op e =>
    rw [assignmentOf_set] at h
    obtain ⟨v, hv⟩ := hto h
    simp only [checkAssignment, hv] at h
    obtain ⟨_, hvalue, h⟩ := bind_eq_ok.1 h
    cases h
    exact .set (held_of_checkValue hvalue)
  | combine id op e =>
    rw [assignmentOf_combine] at h
    obtain ⟨v, hv⟩ := hto h
    simp only [checkAssignment, hv] at h
    split at h
    · cases h
    · rename_i hinit
      split at h
      · cases h
      · obtain ⟨τ, hτ, h⟩ := bind_eq_ok.1 h
        split at h
        · cases h
        · split at h
          · cases h
            exact .combine (valued_of_lookup? hv (by simpa using hinit))
              (held_of_exprType (by decide) hτ)
          · cases h
  | stepAfter id op =>
    rw [assignmentOf_stepAfter] at h
    obtain ⟨rfl, hvalued⟩ := hincrement h
    exact .stepAfter hvalued
  | stepBefore op id =>
    rw [assignmentOf_stepBefore] at h
    obtain ⟨rfl, hvalued⟩ := hincrement h
    exact .stepBefore hvalued

theorem does_varDecl (v : Phrase .varDecl)
    (h : checkStatement c (statementOf v.tree) sc = .ok sc') : Does c v sc sc' := by
  match v with
  | .declare type id =>
    rw [statementOf_declare] at h
    obtain ⟨-, -, hnew, -⟩ := checkVarDecl_ok h
    simp only [checkStatement, checkVarDecl, hnew] at h
    split at h
    · cases h
    · cases h
      exact .declare hnew rfl rfl
  | .initialise type id op e =>
    rw [statementOf_initialise] at h
    obtain ⟨-, -, hnew, -⟩ := checkVarDecl_ok h
    simp only [checkStatement, checkVarDecl, hnew] at h
    split at h
    · cases h
    · obtain ⟨_, hvalue, h⟩ := bind_eq_ok.1 h
      cases h
      exact .initialise hnew rfl rfl (held_of_checkValue hvalue)

theorem does_funcReturn (r : Phrase .funcReturn)
    (h : checkStatement c (statementOf r.tree) sc = .ok sc') : Does c r sc sc' := by
  match r with
  | .returnValue w e =>
    rw [statementOf_returnValue] at h
    simp only [checkStatement, checkReturn] at h
    split at h
    · cases h
    · obtain ⟨_, hvalue, h⟩ := bind_eq_ok.1 h
      cases h
      exact .returnValue ‹_› (held_of_checkValue hvalue)
  | .returnNothing w =>
    rw [statementOf_returnNothing] at h
    simp only [checkStatement, checkReturn] at h
    split at h
    · cases h
      exact .returnNothing ‹_›
    · cases h

theorem does_simple {k : Nonterminal} (hk : k ∈ Nonterminal.simple) (p : Phrase k)
    (h : checkStatement c (statementOf p.tree) sc = .ok sc') : Does c p sc sc' := by
  simp only [Nonterminal.simple, mem_cons, not_mem_nil, or_false] at hk
  rcases hk with rfl | rfl | rfl | rfl
  · exact does_varDecl p h
  · rw [statementOf_assignment] at h
    exact does_assignment p h
  · rw [statementOf_funcCall] at h
    obtain ⟨rfl, τ, hτ⟩ := checkStatement_call.1 h
    exact .call (held_of_hasType ((callType_eq_ok _).1 hτ))
  · exact does_funcReturn p h

theorem does_forInit (init : Phrase .forInit)
    (h : checkStatement c (statementOf (init.tree.child 0)) sc = .ok sc') : Does c init sc sc' := by
  match init with
  | .initVar v => exact .initVar (does_varDecl v h)
  | .initSet a =>
    rw [show (Phrase.initSet a).tree.child 0 = a.tree from rfl, statementOf_assignment] at h
    exact .initSet (does_assignment a h)

theorem does_forStep (step : Phrase .forStep)
    (h : checkAssignment c sc (assignmentOf (step.tree.child 0)) = .ok sc') : Does c step sc sc' := by
  match step with
  | .step a => exact .step (does_assignment a h)

/-! ## Statements made of blocks -/

/-- What a statement that passes does to the scopes. -/
inductive Admits (c : Context) : {s : Nonterminal} → Stmt s → Scopes → Scopes → Prop
  | block {lb body rb sc sc'} : Admits c body sc sc' → Admits c (.block lb body rb) sc sc'
  | blockEmpty {lb rb sc} : Admits c (.blockEmpty lb rb) sc sc
  | last {i sc sc'} : sc.returned = false → Admits c i sc sc' → Admits c (.last i) sc sc'
  | more {i rest sc sc₁ sc'} : sc.returned = false → Admits c i sc sc₁ → Admits c rest sc₁ sc' →
      Admits c (.more i rest) sc sc'
  | simple {k hk p e sc sc'} : Does c p sc sc' → Admits c (.simple (k := k) hk p e) sc sc'
  | nested {hk b sc sc'} : Admits c b sc.push sc' →
      Admits c (.compound (k := .codeBlock) hk b) sc (noteReturned b.alwaysReturns (sc'.drop 1))
  | compound {k hk x sc sc'} : k ≠ .codeBlock → Admits c x sc sc' →
      Admits c (.compound (k := k) hk x) sc (noteReturned x.alwaysReturns sc')
  | ifThen {w lp test rp yes sc sc'} : Held sc test → Admits c yes sc.push sc' →
      Admits c (.ifThen w lp test rp yes) sc (sc'.drop 1)
  /-- the second branch is checked in the scopes that the first one leaves -/
  | ifElse {w lp test rp yes el no sc sc₁ sc'} : Held sc test → Admits c yes sc.push sc₁ →
      Admits c no (Scopes.push (sc₁.drop 1)) sc' →
      Admits c (.ifElse w lp test rp yes el no) sc (sc'.drop 1)
  | ifElseIf {w lp test rp yes el no sc sc₁ sc'} : Held sc test → Admits c yes sc.push sc₁ →
      Admits c no (sc₁.drop 1) sc' → Admits c (.ifElseIf w lp test rp yes el no) sc sc'
  /-- the step is checked before the body -/
  | forLoop {w lp init e test e' step rp body sc sc₁ sc₂ sc'} : Does c init sc.push sc₁ →
      Held sc₁ test → Does c step sc₁ sc₂ → Admits c body sc₂.push sc' →
      Admits c (.forLoop w lp init e test e' step rp body) sc ((sc'.drop 1).drop 1)
  | whileLoop {w lp test rp body sc sc'} : Held sc test → Admits c body sc.push sc' →
      Admits c (.whileLoop w lp test rp body) sc (sc'.drop 1)
  | doWhile {w body wh lp test rp e sc sc'} : Admits c body sc.push sc' → Held (sc'.drop 1) test →
      Admits c (.doWhile w body wh lp test rp e) sc (sc'.drop 1)

/-! ## Whether the innermost block has returned -/

theorem flags_noteReturned (r : Bool) (sc : Scopes) : (noteReturned r sc).flags = mark r sc.flags := by
  cases r
  · exact (mark_false _).symm
  · exact flags_markReturned sc

theorem Does.flags {p : Phrase s} (h : Does c p sc sc') : sc'.flags = mark (p.exit != .falls) sc.flags := by
  induction h with
  | declare | initialise | set | combine | stepAfter | stepBefore => simp [Phrase.exit]
  | @call p => cases p <;> exact (mark_false _).symm
  | returnValue | returnNothing => exact flags_markReturned _
  | @initVar v _ _ _ ih => cases v <;> exact ih
  | @initSet a _ _ _ ih | @step a _ _ _ ih => cases a <;> exact ih

/-- **The flags that a statement leaves**: the innermost block has returned if it had before or if
    the statement always returns; an if tells this to the statement around it. -/
theorem Admits.flags {x : Stmt s} (h : Admits c x sc sc') :
    sc'.flags = mark (decide (s ≠ .ifStatement) && x.alwaysReturns) sc.flags := by
  induction h with
  | block _ ih | last _ _ ih => exact ih
  | blockEmpty => exact (mark_false _).symm
  | more _ _ _ ihi ih => rw [ih, ihi, mark_mark]; rfl
  | simple h => exact h.flags
  | nested _ ih =>
    rw [flags_noteReturned, flags_leave ih]
    rfl
  | @compound k hk x sc sc' _ _ ih =>
    rw [flags_noteReturned, ih, mark_mark]
    congr 1
    by_cases hs : k = .ifStatement <;> simp [hs, Stmt.alwaysReturns]
  | ifThen _ _ ih | whileLoop _ _ ih | doWhile _ _ ih => simpa [Stmt.alwaysReturns] using flags_leave ih
  | ifElse _ _ _ ihyes ihno => simpa using (flags_leave ihno).trans (flags_leave ihyes)
  | ifElseIf _ _ _ ihyes ihno => simpa using (by simpa using ihno : _ = _).trans (flags_leave ihyes)
  | @forLoop w lp init e test e' step rp body sc sc₁ sc₂ sc' hinit _ hstep _ ih =>
    have hinit' : sc₁.flags = sc.push.flags := by
      cases init <;> exact hinit.flags.trans (mark_false _)
    have hstep' : sc₂.flags = sc₁.flags := by
      cases step
      exact hstep.flags.trans (mark_false _)
    have hbody : Scopes.flags (sc'.drop 1) = sc.push.flags :=
      (flags_leave ih).trans (hstep'.trans hinit')
    rw [flags_drop, hbody]
    exact (mark_false _).symm

/-! ## Programs that pass -/

theorem checkBlock_ok {s : Statement} {rest : Block}
    (h : checkBlock c (.cons line s rest) sc = .ok sc') : sc.returned = false ∧
      ∃ sc₁, checkStatement c s sc = .ok sc₁ ∧ checkBlock c rest sc₁ = .ok sc' := by
  refine ⟨?_, checkBlock_cons h⟩
  rw [checkBlock] at h
  split at h
  · cases h
  · exact Bool.eq_false_iff.2 ‹_›

def Admitted (c : Context) (sc : Scopes) {s : Nonterminal} (x : Stmt s) : Prop :=
  match s with
  | .codeBlock => ∀ sc', checkBlock c (blockOf x.tree) sc = .ok sc' → Admits c x sc sc'
  | .instructions => ∀ sc', checkBlock c (blockIn x.items) sc = .ok sc' → Admits c x sc sc'
  | .instruction =>
    ∀ sc', checkStatement c (statementOf (x.tree.child 0)) sc = .ok sc' → Admits c x sc sc'
  | .ifStatement => ∀ r sc', checkConditional c (conditionalOf x.tree) sc = .ok (r, sc') →
      Admits c x sc sc' ∧ r = x.alwaysReturns
  | _ => ∀ sc', checkStatement c (statementOf x.tree) sc = .ok sc' → Admits c x sc sc'

theorem returned_of_admits {x : Stmt .codeBlock} (h : Admits c x sc.push sc') :
    sc'.returned = x.alwaysReturns :=
  returned_of_flags h.flags

theorem admitted (x : Stmt s) (sc : Scopes) : Admitted c sc x := by
  induction x generalizing sc with
  | block lb body rb ih =>
    intro sc' h
    rw [blockOf_block] at h
    exact .block (ih sc sc' h)
  | blockEmpty lb rb =>
    intro sc' h
    rw [blockOf_blockEmpty] at h
    cases h
    exact .blockEmpty
  | last i ih =>
    intro sc' h
    obtain ⟨hreturned, sc₁, hi, h⟩ := checkBlock_ok h
    cases h
    exact .last hreturned (ih sc _ hi)
  | more i rest ihi ih =>
    intro sc' h
    obtain ⟨hreturned, sc₁, hi, h⟩ := checkBlock_ok h
    exact .more hreturned (ihi sc sc₁ hi) (ih sc₁ sc' h)
  | simple hk p e =>
    intro sc' h
    exact .simple (does_simple hk p h)
  | @compound k hk x ih =>
    intro sc' h
    replace h : checkStatement c (statementOf x.tree) sc = .ok sc' := h
    by_cases hblock : k = .codeBlock
    · subst hblock
      rw [statementOf_codeBlock] at h
      obtain ⟨sc₁, hx, h⟩ := bind_eq_ok.1 h
      have hadmits := ih sc.push sc₁ hx
      cases h
      show Admits c _ sc (noteReturned sc₁.returned (sc₁.drop 1))
      rw [returned_of_admits hadmits]
      exact .nested hadmits
    by_cases hif : k = .ifStatement
    · subst hif
      rw [statementOf_ifStatement] at h
      obtain ⟨⟨r, sc₁⟩, hx, h⟩ := bind_eq_ok.1 h
      obtain ⟨hadmits, rfl⟩ := ih sc r sc₁ hx
      cases h
      exact .compound hblock hadmits
    · have hloop : k = .forLoop ∨ k = .whileLoop ∨ k = .doWhile := by
        simpa [Nonterminal.compound, hblock, hif] using hk
      have hx : Admits c x sc sc' ∧ x.alwaysReturns = false := by
        rcases hloop with rfl | rfl | rfl <;> exact ⟨ih sc sc' h, by cases x; rfl⟩
      have hadmits : Admits c (.compound hk x) sc (noteReturned x.alwaysReturns sc') :=
        .compound hblock hx.1
      rwa [hx.2] at hadmits
  | ifThen w lp test rp yes ih =>
    intro r sc' h
    rw [conditionalOf_ifThen] at h
    obtain ⟨_, htest, h⟩ := bind_eq_ok.1 h
    obtain ⟨sc₁, hyes, h⟩ := bind_eq_ok.1 h
    cases h
    exact ⟨.ifThen (held_of_checkTest htest) (ih sc.push sc₁ hyes), Bool.and_false _⟩
  | ifElse w lp test rp yes el no ihyes ihno =>
    intro r sc' h
    rw [conditionalOf_ifElse] at h
    obtain ⟨_, htest, h⟩ := bind_eq_ok.1 h
    obtain ⟨sc₁, hyes, h⟩ := bind_eq_ok.1 h
    obtain ⟨⟨r', sc₂⟩, hno, h⟩ := bind_eq_ok.1 h
    obtain ⟨sc₃, hno, hleave⟩ := bind_eq_ok.1 hno
    have hyes' := ihyes sc.push sc₁ hyes
    have hno' := ihno _ sc₃ hno
    cases hleave
    cases h
    refine ⟨.ifElse (held_of_checkTest htest) hyes' hno', ?_⟩
    rw [returned_of_admits hyes', returned_of_admits hno']
    rfl
  | ifElseIf w lp test rp yes el no ihyes ihno =>
    intro r sc' h
    rw [conditionalOf_ifElseIf] at h
    obtain ⟨_, htest, h⟩ := bind_eq_ok.1 h
    obtain ⟨sc₁, hyes, h⟩ := bind_eq_ok.1 h
    obtain ⟨⟨r', sc₂⟩, hno, h⟩ := bind_eq_ok.1 h
    have hyes' := ihyes sc.push sc₁ hyes
    obtain ⟨hno', rfl⟩ := ihno _ r' sc₂ hno
    cases h
    refine ⟨.ifElseIf (held_of_checkTest htest) hyes' hno', ?_⟩
    rw [returned_of_admits hyes']
    rfl
  | forLoop w lp init e test e' step rp body ih =>
    intro sc' h
    rw [statementOf_forLoop] at h
    obtain ⟨sc₁, hinit, h⟩ := bind_eq_ok.1 h
    obtain ⟨_, htest, h⟩ := bind_eq_ok.1 h
    obtain ⟨sc₂, hstep, h⟩ := bind_eq_ok.1 h
    obtain ⟨sc₃, hbody, h⟩ := bind_eq_ok.1 h
    cases h
    exact .forLoop (does_forInit init hinit) (held_of_checkTest htest) (does_forStep step hstep)
      (ih sc₂.push sc₃ hbody)
  | whileLoop w lp test rp body ih =>
    intro sc' h
    rw [statementOf_whileLoop] at h
    obtain ⟨_, htest, h⟩ := bind_eq_ok.1 h
    obtain ⟨sc₁, hbody, h⟩ := bind_eq_ok.1 h
    cases h
    exact .whileLoop (held_of_checkTest htest) (ih sc.push sc₁ hbody)
  | doWhile w body wh lp test rp e ih =>
    intro sc' h
    rw [statementOf_doWhile] at h
    obtain ⟨sc₁, hbody, h⟩ := bind_eq_ok.1 h
    obtain ⟨_, htest, h⟩ := bind_eq_ok.1 h
    cases h
    exact .doWhile (ih sc.push sc₁ hbody) (held_of_checkTest htest)

theorem Admits.part {k : Nonterminal} {x : Stmt s} {y : Stmt k} (hpart : Part y x)
    (h : Admits c x sc sc') (hne : sc ≠ []) : ∃ sc₁ sc₂, sc₁ ≠ [] ∧ Admits c y sc₁ sc₂ := by
  induction hpart generalizing sc sc' with
  | refl => exact ⟨sc, sc', hne, h⟩
  | block _ ih => cases h with | block h => exact ih h hne
  | last _ ih => cases h with | last _ h => exact ih h hne
  | first _ ih => cases h with | more _ hi _ => exact ih hi hne
  | rest _ ih =>
    cases h with
    | more _ hi hrest => exact ih hrest (ne_nil_of_flags hi.flags hne)
  | compound _ ih =>
    cases h with
    | nested h => exact ih h (cons_ne_nil _ _)
    | compound _ h => exact ih h hne
  | thenYes _ ih => cases h with | ifThen _ h => exact ih h (cons_ne_nil _ _)
  | elseYes _ ih => cases h with | ifElse _ h _ => exact ih h (cons_ne_nil _ _)
  | elseNo _ ih => cases h with | ifElse _ _ h => exact ih h (cons_ne_nil _ _)
  | chainYes _ ih => cases h with | ifElseIf _ h _ => exact ih h (cons_ne_nil _ _)
  | chainNo _ ih =>
    cases h with
    | ifElseIf _ hyes hno =>
      exact ih hno (ne_nil_of_flags ((flags_leave hyes.flags).trans (mark_false _).symm) hne)
  | forLoop _ ih => cases h with | forLoop _ _ _ h => exact ih h (cons_ne_nil _ _)
  | whileLoop _ ih => cases h with | whileLoop _ h => exact ih h (cons_ne_nil _ _)
  | doWhile _ ih => cases h with | doWhile h _ => exact ih h (cons_ne_nil _ _)

theorem flags_declareParams : ∀ {ps : List Variable} {sc sc' : Scopes},
    declareParams ps sc = .ok sc' → sc'.flags = sc.flags
  | [], sc, sc', h => by
    cases h
    rfl
  | p :: ps, sc, sc', h => by
    rw [declareParams] at h
    split at h
    · cases h
    · rw [flags_declareParams h, flags_declare]

theorem admits_of_checkFunction {f : Function} (h : checkFunction fs f = .ok ())
    {body : Stmt .codeBlock} (hbody : body.tree = f.body) :
    ∃ sc sc', declareParams f.params (Scopes.push []) = .ok sc ∧ Admits ⟨fs, f⟩ body sc sc' ∧
      (f.returns ≠ .void → body.alwaysReturns) := by
  obtain ⟨sc, hsc, h⟩ := bind_eq_ok.1 h
  obtain ⟨sc', hsc', h⟩ := bind_eq_ok.1 h
  rw [← hbody] at hsc'
  have hadmits := admitted body sc sc' hsc'
  refine ⟨sc, sc', hsc, hadmits, fun hreturns => ?_⟩
  have hflags : sc'.flags = mark body.alwaysReturns (Scopes.push []).flags := by
    rw [hadmits.flags, flags_declareParams hsc]
    rfl
  rw [← returned_of_flags hflags]
  by_contra hreturned
  rw [Bool.not_eq_true] at hreturned
  simp [hreturns, hreturned, fail] at h

theorem exists_body : ∀ m : Decl .member, ∃ body : Stmt .codeBlock, body.tree = (functionIn m).body
  | .ofFunction (.function _ _ _ _ _ _ _ body) => ⟨body, rfl⟩
  | .ofFunction (.functionEmpty _ _ _ _ _ _ body) => ⟨body, rfl⟩
  | .ofMain (.main _ _ _ _ _ _ _ body) => ⟨body, rfl⟩

theorem functions_of_check {root : Tree} (hparse : grammar.Parses Label.program root)
    (hcheck : check root = .ok ()) : ∃ all, functionsOf root = .ok all ∧ ∀ f ∈ all,
      checkFunction (callables all) f = .ok () ∧ ∃ body : Stmt .codeBlock, body.tree = f.body := by
  obtain ⟨all, hall, -, hfunctions⟩ := check_ok hcheck
  obtain ⟨d, rfl⟩ := exists_decl (s := .program) hparse rfl
  match d with
  | .program pub cl name lb body rb =>
    refine ⟨all, hall, fun f hf => ⟨hfunctions f hf, ?_⟩⟩
    rw [functionsOf_program] at hall
    cases hall
    obtain ⟨m, -, rfl⟩ := mem_map.1 hf
    exact exists_body m

end Typing

end JavaToCpp
