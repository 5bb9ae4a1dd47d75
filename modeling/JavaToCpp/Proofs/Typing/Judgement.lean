/-
  The type system of the Java subset.
-/
import JavaToCpp.Proofs.Java.Place
import JavaToCpp.Typing.Check

namespace JavaToCpp.Typing

open Program Java Phrase

/-! ## Expressions -/

/-- Whether the function can be called by the name with arguments of the types. -/
def callable (name : Text) (args : List ValueType) (f : Function) : Bool :=
  f.name == name && f.params.length == args.length &&
    (args.zip f.params).all fun (a, p) => a.fits p.type

mutual

/-- The types of expressions and calls. -/
inductive HasType (fs : List Function) (Γ : Text → ValueType → Prop) :
    {s : Nonterminal} → Phrase s → ValueType → Prop
  | expr {d τ} : HasType fs Γ d τ → HasType fs Γ (.expr d) τ
  | disjunction {r τ} : HasType fs Γ r τ → HasType fs Γ (.disjunction r) τ
  | logic {r op d} : HasType fs Γ r .boolean → HasType fs Γ d .boolean →
      HasType fs Γ (.logic r op d) .boolean
  | relation {m τ} : HasType fs Γ m τ → HasType fs Γ (.relation m) τ
  | equality {l op r σ τ} : isEquality op.text → HasType fs Γ l σ → HasType fs Γ r τ →
      (σ = .boolean ↔ τ = .boolean) → HasType fs Γ (.comparison l op r) .boolean
  | order {l op r σ τ} : isEquality op.text = false → HasType fs Γ l σ → HasType fs Γ r τ →
      σ ≠ .boolean → τ ≠ .boolean → HasType fs Γ (.comparison l op r) .boolean
  | mathExpr {t τ} : HasType fs Γ t τ → HasType fs Γ (.mathExpr t) τ
  | math {t op m σ τ} : HasType fs Γ t σ → HasType fs Γ m τ → σ ≠ .boolean → τ ≠ .boolean →
      HasType fs Γ (.math t op m) (σ.widest τ)
  | term {o τ} : HasType fs Γ o τ → HasType fs Γ (.term o) τ
  | negation {op t} : HasType fs Γ t .boolean → HasType fs Γ (.negation op t) .boolean
  | group {lp e rp τ} : HasType fs Γ e τ → HasType fs Γ (.group lp e rp) τ
  | number {w} : HasType fs Γ (.number w) (.ofLiteral w.token.category)
  | charLiteral {w} : HasType fs Γ (.charLiteral w) .char
  | booleanValue {w} : HasType fs Γ (.booleanValue w) .boolean
  | var {w τ} : Γ w.text τ → HasType fs Γ (.var w) τ
  /-- a call without a value is no operand -/
  | value {c τ} : HasType fs Γ c τ → τ ≠ .void → HasType fs Γ (.value c) τ
  | call {f lp args rp τs g} : HaveTypes fs Γ args τs → fs.filter (callable f.text τs) = [g] →
      HasType fs Γ (.call f lp args rp) g.returns
  | callEmpty {f lp rp g} : fs.filter (callable f.text []) = [g] →
      HasType fs Γ (.callEmpty f lp rp) g.returns
  | print {f lp args rp τ} : HaveTypes fs Γ args [τ] → HasType fs Γ (.print f lp args rp) .void
  | max {f lp args rp σ τ} : HaveTypes fs Γ args [σ, τ] → σ.isNumeric → τ.isNumeric →
      HasType fs Γ (.max f lp args rp) (σ.widest τ)
  | min {f lp args rp σ τ} : HaveTypes fs Γ args [σ, τ] → σ.isNumeric → τ.isNumeric →
      HasType fs Γ (.min f lp args rp) (σ.widest τ)

/-- The types of the arguments of a call. -/
inductive HaveTypes (fs : List Function) (Γ : Text → ValueType → Prop) :
    {s : Nonterminal} → Phrase s → List ValueType → Prop
  | lastArg {e τ} : HasType fs Γ e τ → HaveTypes fs Γ (.lastArg e) [τ]
  | arg {e c rest τ τs} : HasType fs Γ e τ → HaveTypes fs Γ rest τs →
      HaveTypes fs Γ (.arg e c rest) (τ :: τs)

end

variable {fs : List Function} {Γ Δ : Text → ValueType → Prop}

section Inversion

variable {s : Nonterminal} {τ : ValueType} {τs : List ValueType}

@[simp] theorem hasType_expr {d} : HasType fs Γ (.expr d) τ ↔ HasType fs Γ d τ :=
  ⟨fun | .expr h => h, .expr⟩

@[simp] theorem hasType_disjunction {r} : HasType fs Γ (.disjunction r) τ ↔ HasType fs Γ r τ :=
  ⟨fun | .disjunction h => h, .disjunction⟩

@[simp] theorem hasType_logic {r op d} : HasType fs Γ (.logic r op d) τ ↔
    HasType fs Γ r .boolean ∧ HasType fs Γ d .boolean ∧ τ = .boolean :=
  ⟨fun | .logic hr hd => ⟨hr, hd, rfl⟩, fun ⟨hr, hd, h⟩ => h ▸ .logic hr hd⟩

@[simp] theorem hasType_relation {m} : HasType fs Γ (.relation m) τ ↔ HasType fs Γ m τ :=
  ⟨fun | .relation h => h, .relation⟩

@[simp] theorem hasType_comparison {l op r} : HasType fs Γ (.comparison l op r) τ ↔
    ∃ σ σ', HasType fs Γ l σ ∧ HasType fs Γ r σ' ∧ τ = .boolean ∧
      if isEquality op.text then (σ = .boolean ↔ σ' = .boolean)
      else σ ≠ .boolean ∧ σ' ≠ .boolean := by
  constructor
  · intro h
    cases h with
    | equality heq hl hr hiff => exact ⟨_, _, hl, hr, rfl, by rwa [if_pos heq]⟩
    | order heq hl hr hσ hσ' =>
      exact ⟨_, _, hl, hr, rfl, by rw [if_neg (by simp [heq])]; exact ⟨hσ, hσ'⟩⟩
  · rintro ⟨σ, σ', hl, hr, rfl, h⟩
    split at h
    · exact .equality ‹_› hl hr h
    · exact .order (Bool.eq_false_iff.2 ‹_›) hl hr h.1 h.2

@[simp] theorem hasType_mathExpr {t} : HasType fs Γ (.mathExpr t) τ ↔ HasType fs Γ t τ :=
  ⟨fun | .mathExpr h => h, .mathExpr⟩

@[simp] theorem hasType_math {t op m} : HasType fs Γ (.math t op m) τ ↔
    ∃ σ σ', HasType fs Γ t σ ∧ HasType fs Γ m σ' ∧ σ ≠ .boolean ∧ σ' ≠ .boolean ∧
      τ = σ.widest σ' :=
  ⟨fun | .math ht hm hσ hσ' => ⟨_, _, ht, hm, hσ, hσ', rfl⟩,
    fun ⟨_, _, ht, hm, hσ, hσ', h⟩ => h ▸ .math ht hm hσ hσ'⟩

@[simp] theorem hasType_term {o} : HasType fs Γ (.term o) τ ↔ HasType fs Γ o τ :=
  ⟨fun | .term h => h, .term⟩

@[simp] theorem hasType_negation {op t} : HasType fs Γ (.negation op t) τ ↔
    HasType fs Γ t .boolean ∧ τ = .boolean :=
  ⟨fun | .negation h => ⟨h, rfl⟩, fun ⟨ht, h⟩ => h ▸ .negation ht⟩

@[simp] theorem hasType_group {lp e rp} : HasType fs Γ (.group lp e rp) τ ↔ HasType fs Γ e τ :=
  ⟨fun | .group h => h, .group⟩

@[simp] theorem hasType_number {w} : HasType fs Γ (.number w) τ ↔ τ = .ofLiteral w.token.category :=
  ⟨fun | .number => rfl, fun h => h ▸ .number⟩

@[simp] theorem hasType_charLiteral {w} : HasType fs Γ (.charLiteral w) τ ↔ τ = .char :=
  ⟨fun | .charLiteral => rfl, fun h => h ▸ .charLiteral⟩

@[simp] theorem hasType_booleanValue {w} : HasType fs Γ (.booleanValue w) τ ↔ τ = .boolean :=
  ⟨fun | .booleanValue => rfl, fun h => h ▸ .booleanValue⟩

@[simp] theorem hasType_var {w} : HasType fs Γ (.var w) τ ↔ Γ w.text τ :=
  ⟨fun | .var h => h, .var⟩

@[simp] theorem hasType_value {c} : HasType fs Γ (.value c) τ ↔ HasType fs Γ c τ ∧ τ ≠ .void :=
  ⟨fun | .value h hτ => ⟨h, hτ⟩, fun h => .value h.1 h.2⟩

@[simp] theorem hasType_call {f lp args rp} : HasType fs Γ (.call f lp args rp) τ ↔
    ∃ τs g, HaveTypes fs Γ args τs ∧ fs.filter (callable f.text τs) = [g] ∧ τ = g.returns :=
  ⟨fun | .call hargs hg => ⟨_, _, hargs, hg, rfl⟩, fun ⟨_, _, hargs, hg, h⟩ => h ▸ .call hargs hg⟩

@[simp] theorem hasType_callEmpty {f lp rp} : HasType fs Γ (.callEmpty f lp rp) τ ↔
    ∃ g, fs.filter (callable f.text []) = [g] ∧ τ = g.returns :=
  ⟨fun | .callEmpty hg => ⟨_, hg, rfl⟩, fun ⟨_, hg, h⟩ => h ▸ .callEmpty hg⟩

@[simp] theorem hasType_print {f lp args rp} : HasType fs Γ (.print f lp args rp) τ ↔
    (∃ σ, HaveTypes fs Γ args [σ]) ∧ τ = .void :=
  ⟨fun | .print h => ⟨⟨_, h⟩, rfl⟩, fun ⟨⟨_, h⟩, hτ⟩ => hτ ▸ .print h⟩

@[simp] theorem hasType_max {f lp args rp} : HasType fs Γ (.max f lp args rp) τ ↔
    ∃ σ σ', HaveTypes fs Γ args [σ, σ'] ∧ σ.isNumeric ∧ σ'.isNumeric ∧ τ = σ.widest σ' :=
  ⟨fun | .max h hσ hσ' => ⟨_, _, h, hσ, hσ', rfl⟩, fun ⟨_, _, h, hσ, hσ', hτ⟩ => hτ ▸ .max h hσ hσ'⟩

@[simp] theorem hasType_min {f lp args rp} : HasType fs Γ (.min f lp args rp) τ ↔
    ∃ σ σ', HaveTypes fs Γ args [σ, σ'] ∧ σ.isNumeric ∧ σ'.isNumeric ∧ τ = σ.widest σ' :=
  ⟨fun | .min h hσ hσ' => ⟨_, _, h, hσ, hσ', rfl⟩, fun ⟨_, _, h, hσ, hσ', hτ⟩ => hτ ▸ .min h hσ hσ'⟩

@[simp] theorem haveTypes_lastArg {e} : HaveTypes fs Γ (.lastArg e) τs ↔
    ∃ τ, HasType fs Γ e τ ∧ τs = [τ] :=
  ⟨fun | .lastArg h => ⟨_, h, rfl⟩, fun ⟨_, h, hτ⟩ => hτ ▸ .lastArg h⟩

@[simp] theorem haveTypes_arg {e c rest} : HaveTypes fs Γ (.arg e c rest) τs ↔
    ∃ σ σs, HasType fs Γ e σ ∧ HaveTypes fs Γ rest σs ∧ τs = σ :: σs :=
  ⟨fun | .arg h hrest => ⟨_, _, h, hrest, rfl⟩, fun ⟨_, _, h, hrest, hτ⟩ => hτ ▸ .arg h hrest⟩

end Inversion

mutual

theorem HasType.mono (h : ∀ x τ, Γ x τ → Δ x τ) {s : Nonterminal} {p : Phrase s} {τ : ValueType} :
    HasType fs Γ p τ → HasType fs Δ p τ
  | .expr hd => .expr (hd.mono h)
  | .disjunction hr => .disjunction (hr.mono h)
  | .logic hr hd => .logic (hr.mono h) (hd.mono h)
  | .relation hm => .relation (hm.mono h)
  | .equality heq hl hr hiff => .equality heq (hl.mono h) (hr.mono h) hiff
  | .order heq hl hr hσ hτ => .order heq (hl.mono h) (hr.mono h) hσ hτ
  | .mathExpr ht => .mathExpr (ht.mono h)
  | .math ht hm hσ hτ => .math (ht.mono h) (hm.mono h) hσ hτ
  | .term ho => .term (ho.mono h)
  | .negation ht => .negation (ht.mono h)
  | .group he => .group (he.mono h)
  | .number => .number
  | .charLiteral => .charLiteral
  | .booleanValue => .booleanValue
  | .var hx => .var (h _ _ hx)
  | .value hc hτ => .value (hc.mono h) hτ
  | .call hargs hg => .call (hargs.mono h) hg
  | .callEmpty hg => .callEmpty hg
  | .print hargs => .print (hargs.mono h)
  | .max hargs hσ hτ => .max (hargs.mono h) hσ hτ
  | .min hargs hσ hτ => .min (hargs.mono h) hσ hτ

theorem HaveTypes.mono (h : ∀ x τ, Γ x τ → Δ x τ) {s : Nonterminal} {p : Phrase s}
    {τs : List ValueType} :
    HaveTypes fs Γ p τs → HaveTypes fs Δ p τs
  | .lastArg he => .lastArg (he.mono h)
  | .arg he hrest => .arg (he.mono h) (hrest.mono h)

end

def expressions : List Nonterminal := [.expr, .disjunction, .relation, .mathExpr, .term, .operand]

theorem widest_eq (σ τ : ValueType) : σ.widest τ = σ ∨ σ.widest τ = τ := by
  unfold ValueType.widest
  split <;> simp

theorem HasType.ne_void (hΓ : ∀ x τ, Γ x τ → τ ≠ .void) {s : Nonterminal} (hs : s ∈ expressions)
    {p : Phrase s} {τ : ValueType} (h : HasType fs Γ p τ) : τ ≠ .void := by
  induction p generalizing τ with
  | expr _ ih | disjunction _ ih | relation _ ih | mathExpr _ ih | term _ ih | group _ _ _ ih =>
    simp only [hasType_expr, hasType_disjunction, hasType_relation, hasType_mathExpr, hasType_term,
      hasType_group] at h
    exact ih (by decide) h
  | math t op m iht ihm =>
    obtain ⟨σ, σ', hσ, hσ', -, -, rfl⟩ := hasType_math.1 h
    rcases widest_eq σ σ' with h | h <;> rw [h]
    · exact iht (by decide) hσ
    · exact ihm (by decide) hσ'
  | number w =>
    rw [hasType_number.1 h]
    rcases List.mem_pair.1 w.accepted with h | h <;> rw [h] <;> decide
  | var w => exact hΓ _ _ (hasType_var.1 h)
  | value c => exact (hasType_value.1 h).2
  | logic | comparison | negation | charLiteral | booleanValue => cases h <;> decide
  | _ => exact absurd hs (by decide)

/-! ## Statements and names -/

def In (E : Env) (x : Text) (τ : ValueType) : Prop := (x, τ) ∈ E

/-- The rules that a phrase in a function which returns `ρ` keeps, where `Γ` tells what is in scope at
    the places below it. -/
inductive LawfulPhrase (fs : List Function) (ρ : ValueType) (Γ : List Nat → Env) :
    {s : Nonterminal} → Phrase s → Prop
  | expression {s : Nonterminal} {p : Phrase s} {τ : ValueType} : s ∈ expressions →
      HasType fs (In (Γ [])) p τ → LawfulPhrase fs ρ Γ p
  | call {p : Phrase .funcCall} {τ : ValueType} : HasType fs (In (Γ [])) p τ → LawfulPhrase fs ρ Γ p
  | args {p : Phrase .callArgs} {τs : List ValueType} : HaveTypes fs (In (Γ [])) p τs →
      LawfulPhrase fs ρ Γ p
  | declare {type id} : LawfulPhrase fs ρ Γ (.declare type id)
  | initialise {type id op e τ} : HasType fs (In (Γ [3])) e τ → τ.fits (.ofKeyword type.text) →
      LawfulPhrase fs ρ Γ (.initialise type id op e)
  | set {id op e σ τ} : In (Γ [0]) id.text σ → HasType fs (In (Γ [2])) e τ → τ.fits σ →
      LawfulPhrase fs ρ Γ (.set id op e)
  | combine {id op e σ τ} : In (Γ [0]) id.text σ → σ ≠ .boolean → HasType fs (In (Γ [2])) e τ →
      τ ≠ .boolean → τ.fits σ → LawfulPhrase fs ρ Γ (.combine id op e)
  | stepAfter {id op σ} : In (Γ [0]) id.text σ → σ ≠ .boolean →
      LawfulPhrase fs ρ Γ (.stepAfter id op)
  | stepBefore {op id σ} : In (Γ [1]) id.text σ → σ ≠ .boolean →
      LawfulPhrase fs ρ Γ (.stepBefore op id)
  | returnValue {w e τ} : HasType fs (In (Γ [1])) e τ → τ.fits ρ →
      LawfulPhrase fs ρ Γ (.returnValue w e)
  | returnNothing {w} : ρ = .void → LawfulPhrase fs ρ Γ (.returnNothing w)
  | header {s : Nonterminal} {p : Phrase s} : s = .forInit ∨ s = .forStep → LawfulPhrase fs ρ Γ p

/-- The rules for statements: conditions are boolean. -/
inductive LawfulStmt (fs : List Function) (Γ : List Nat → Env) : {s : Nonterminal} → Stmt s → Prop
  | ifThen {w lp test rp yes} : HasType fs (In (Γ [2])) test .boolean →
      LawfulStmt fs Γ (.ifThen w lp test rp yes)
  | ifElse {w lp test rp yes el no} : HasType fs (In (Γ [2])) test .boolean →
      LawfulStmt fs Γ (.ifElse w lp test rp yes el no)
  | ifElseIf {w lp test rp yes el no} : HasType fs (In (Γ [2])) test .boolean →
      LawfulStmt fs Γ (.ifElseIf w lp test rp yes el no)
  | forLoop {w lp init e test e' step rp body} : HasType fs (In (Γ [4])) test .boolean →
      LawfulStmt fs Γ (.forLoop w lp init e test e' step rp body)
  | whileLoop {w lp test rp body} : HasType fs (In (Γ [2])) test .boolean →
      LawfulStmt fs Γ (.whileLoop w lp test rp body)
  | doWhile {w body wh lp test rp e} : HasType fs (In (Γ [4])) test .boolean →
      LawfulStmt fs Γ (.doWhile w body wh lp test rp e)
  | sequence {s : Nonterminal} {x : Stmt s} : s = .codeBlock ∨ s = .instructions ∨ s = .instruction →
      LawfulStmt fs Γ x

/-- The rules that a node of a function which returns `ρ` keeps. -/
inductive Lawful (fs : List Function) (ρ : ValueType) (Γ : List Nat → Env) : Tree → Prop
  | leaf (k : Token) : Lawful fs ρ Γ (.leaf k)
  /-- names are no reserved words -/
  | word {s : Nonterminal} {w : Word s} : (s = .id ∨ s = .name → isReserved w.text = false) →
      Lawful fs ρ Γ w.tree
  | phrase {s : Nonterminal} {p : Phrase s} : LawfulPhrase fs ρ Γ p → Lawful fs ρ Γ p.tree
  | stmt {s : Nonterminal} {x : Stmt s} : LawfulStmt fs Γ x → Lawful fs ρ Γ x.tree
  | declaration {s : Nonterminal} {d : Decl s} : Lawful fs ρ Γ d.tree

end JavaToCpp.Typing
