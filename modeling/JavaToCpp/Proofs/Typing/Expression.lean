/-
  The checker finds the types of expressions.
-/
import JavaToCpp.Proofs.Typing.Judgement

namespace JavaToCpp.Typing

open Program Java List Label Phrase
open JavaToCpp.Tree hiding line
open Java.Nonterminal (findIn_cons findIn_nil)

/-- The variables of the open scopes that can be read. -/
def Holds (sc : Scopes) (x : Text) (τ : ValueType) : Prop :=
  ∃ v, sc.lookup? x = some v ∧ v.initialized ∧ v.type = τ

/-- The type that a call gives, `void` if it gives no value. -/
def callType (fs : List Function) (sc : Scopes) : Expr → Except Failure ValueType
  | .call callee name line args => do
    let types ← exprTypes fs sc args
    resolve fs callee name line types
  | _ => .error .missing

variable {fs : List Function} {sc : Scopes} {τ : ValueType}

/-! ## When the checker succeeds -/

variable {line : Int} {σ : ValueType} {l r : Expr} {name : Text} {args : List ValueType}
  {s : Nonterminal}

theorem arithmetic_eq_ok {site : Site} : arithmetic site σ = .ok () ↔ σ ≠ .boolean := by
  unfold arithmetic
  split
  · cases site.bare <;> simp_all [fail]
  · simp_all

theorem exprType_literal : exprType fs sc (.literal σ) = .ok τ ↔ τ = σ := by
  rw [exprType, Except.ok.injEq, eq_comm]

theorem exprType_logic {ll rl : Int} : exprType fs sc (.logic l ll r rl) = .ok τ ↔
      exprType fs sc l = .ok .boolean ∧ exprType fs sc r = .ok .boolean ∧ τ = .boolean := by
  rw [exprType]
  constructor
  · intro h
    obtain ⟨σ, hσ, h⟩ := bind_eq_ok.1 h
    split at h
    · cases h
    · obtain ⟨σ', hσ', h⟩ := bind_eq_ok.1 h
      split at h
      · cases h
        simp_all
      · cases h
  · rintro ⟨hl, hr, rfl⟩
    simp [hl, hr, bind, Except.bind, pure, Except.pure]

theorem exprType_negation {a : Expr} :
    exprType fs sc (.negation a line) = .ok τ ↔ exprType fs sc a = .ok .boolean ∧ τ = .boolean := by
  rw [exprType]
  constructor
  · intro h
    obtain ⟨σ, hσ, h⟩ := bind_eq_ok.1 h
    split at h
    · cases h
      simp_all
    · cases h
  · rintro ⟨ha, rfl⟩
    simp [ha, bind, Except.bind, pure, Except.pure]

theorem exprType_compare {eq : Bool} {ls rs : Site} : exprType fs sc (.compare eq l ls r rs) = .ok τ ↔
      ∃ σ σ', exprType fs sc l = .ok σ ∧ exprType fs sc r = .ok σ' ∧ τ = .boolean ∧
        if eq then (σ = .boolean ↔ σ' = .boolean) else σ ≠ .boolean ∧ σ' ≠ .boolean := by
  rw [exprType]
  constructor
  · intro h
    obtain ⟨σ, hσ, h⟩ := bind_eq_ok.1 h
    obtain ⟨σ', hσ', h⟩ := bind_eq_ok.1 h
    refine ⟨σ, σ', hσ, hσ', ?_⟩
    cases eq with
    | true =>
      simp only [if_true] at h ⊢
      split at h
      · cases h
        exact ⟨rfl, iff_of_eq ‹_›⟩
      · cases h
    | false =>
      simp only [Bool.false_eq_true, if_false] at h ⊢
      obtain ⟨_, hl, h⟩ := bind_eq_ok.1 h
      obtain ⟨_, hr, h⟩ := bind_eq_ok.1 h
      cases h
      exact ⟨rfl, arithmetic_eq_ok.1 hl, arithmetic_eq_ok.1 hr⟩
  · rintro ⟨σ, σ', hl, hr, rfl, h⟩
    cases eq with
    | true => simp_all [bind, Except.bind, pure, Except.pure]
    | false =>
      simp only [Bool.false_eq_true, if_false] at h
      simp [hl, hr, arithmetic_eq_ok.2 h.1, arithmetic_eq_ok.2 h.2, bind, Except.bind, pure,
        Except.pure]

theorem exprType_math {ls rs : Site} : exprType fs sc (.math l ls r rs) = .ok τ ↔
      ∃ σ σ', exprType fs sc l = .ok σ ∧ exprType fs sc r = .ok σ' ∧ σ ≠ .boolean ∧
        σ' ≠ .boolean ∧ τ = σ.widest σ' := by
  rw [exprType]
  constructor
  · intro h
    obtain ⟨σ, hσ, h⟩ := bind_eq_ok.1 h
    obtain ⟨_, hl, h⟩ := bind_eq_ok.1 h
    obtain ⟨σ', hσ', h⟩ := bind_eq_ok.1 h
    obtain ⟨_, hr, h⟩ := bind_eq_ok.1 h
    cases h
    exact ⟨σ, σ', hσ, hσ', arithmetic_eq_ok.1 hl, arithmetic_eq_ok.1 hr, rfl⟩
  · rintro ⟨σ, σ', hl, hr, hσ, hσ', rfl⟩
    simp [hl, hr, arithmetic_eq_ok.2 hσ, arithmetic_eq_ok.2 hσ', bind, Except.bind, pure,
      Except.pure]

theorem exprType_var {x : Text} : exprType fs sc (.var x line) = .ok τ ↔ Holds sc x τ := by
  rw [exprType]
  cases h : sc.lookup? x with
  | none => simp [Holds, h, fail]
  | some v =>
    by_cases hv : v.initialized <;> simp [Holds, h, hv, fail]

theorem exprType_call {callee : Callee} {args : List Expr} :
    exprType fs sc (.call callee name line args) = .ok τ ↔
      callType fs sc (.call callee name line args) = .ok τ ∧ τ ≠ .void := by
  rw [exprType, callType]
  constructor
  · intro h
    obtain ⟨σs, hσs, h⟩ := bind_eq_ok.1 h
    obtain ⟨σ, hσ, h⟩ := bind_eq_ok.1 h
    rw [bind_eq_ok]
    split at h
    · cases h
    · cases h
      exact ⟨⟨σs, hσs, hσ⟩, ‹_›⟩
  · rintro ⟨h, hτ⟩
    obtain ⟨σs, hσs, h⟩ := bind_eq_ok.1 h
    simp only [hσs, h, bind, Except.bind, pure, Except.pure]

theorem exprTypes_nil {τs : List ValueType} : exprTypes fs sc [] = .ok τs ↔ τs = [] := by
  rw [exprTypes, Except.ok.injEq, eq_comm]

theorem exprTypes_cons {e : Expr} {es : List Expr} {τs : List ValueType} :
    exprTypes fs sc (e :: es) = .ok τs ↔
      ∃ σ σs, exprType fs sc e = .ok σ ∧ exprTypes fs sc es = .ok σs ∧ τs = σ :: σs := by
  rw [exprTypes]
  constructor
  · intro h
    obtain ⟨σ, hσ, h⟩ := bind_eq_ok.1 h
    obtain ⟨σs, hσs, h⟩ := bind_eq_ok.1 h
    cases h
    exact ⟨σ, σs, hσ, hσs, rfl⟩
  · rintro ⟨σ, σs, hσ, hσs, rfl⟩
    simp [hσ, hσs, bind, Except.bind, pure, Except.pure]

theorem isNone_mismatch? (f : Function) (args : List ValueType) :
    (mismatch? f args).isNone = (args.zip f.params).all fun (a, p) => a.fits p.type := by
  rw [Bool.eq_iff_iff, Option.isNone_iff_eq_none, mismatch?, find?_eq_none, all_eq_true,
    zip_map_right]
  simp only [mem_map, Prod.exists]
  constructor
  · intro h a ha
    simpa using h _ ⟨a.1, a.2, ha, rfl⟩
  · rintro h _ ⟨a, p, hap, rfl⟩
    simpa using h (a, p) hap

theorem filter_callable (name : Text) (args : List ValueType) :
    (fs.filter fun f => f.name == name && f.params.length == args.length).filter
      (fun f => (mismatch? f args).isNone) = fs.filter (callable name args) := by
  rw [filter_filter]
  refine filter_congr fun f _ => ?_
  rw [callable, isNone_mismatch?, Bool.and_comm]

theorem resolve_user : resolve fs .user name line args = .ok τ ↔
      ∃ g, fs.filter (callable name args) = [g] ∧ τ = g.returns := by
  rw [resolve, ← filter_callable]
  generalize (fs.filter fun f => f.name == name && f.params.length == args.length) = same
  cases same with
  | nil => simp [fail]
  | cons first others =>
    simp only
    generalize (first :: others).filter (fun f => (mismatch? f args).isNone) = fitting
    match fitting with
    | [] =>
      simp only [nil_eq, reduceCtorEq, false_and, exists_false, iff_false]
      cases mismatch? first args <;> simp [fail]
    | [g] => simp [eq_comm]
    | _ :: _ :: _ => simp [fail]

theorem resolve_print : resolve fs .print name line args = .ok τ ↔ (∃ σ, args = [σ]) ∧ τ = .void := by
  match args with
  | [σ] => simp [resolve, eq_comm]
  | [] | _ :: _ :: _ => simp [resolve, fail]

theorem resolve_extremum {callee : Callee} (hc : callee = .max ∨ callee = .min) :
    resolve fs callee name line args = .ok τ ↔
      ∃ σ σ', args = [σ, σ'] ∧ σ.isNumeric ∧ σ'.isNumeric ∧ τ = σ.widest σ' := by
  have hresolve : resolve fs callee name line args = resolve fs .max name line args := by
    rcases hc with rfl | rfl <;> rfl
  rw [hresolve]
  match args with
  | [a, b] =>
    by_cases ha : a.isNumeric <;> by_cases hb : b.isNumeric <;>
      simp [resolve, ha, hb, fail, eq_comm (a := τ)]
  | [] | [_] | _ :: _ :: _ :: _ => simp [resolve, fail]

/-! ## The expressions of phrases -/

theorem exprOf_term {t e : Tree} (ht : t.label = .ok Nonterminal.term.label)
    (hfirst : (t.child 0).label = .ok Nonterminal.lbracket.label)
    (hfind : t.find expr = .ok e) : exprOf t = exprOf e := by
  rw [exprOf]
  split
  · simp_all
  · rename_i l hl
    rw [ht] at hl
    cases hl
    simp [Nonterminal.labels, hfirst]
    split
    · simp_all
    · rename_i inner h
      rw [hfind] at h
      cases h
      rfl

theorem operandOf_word {k : Nonterminal} (w : Word k) (hid : k ≠ .id) (hcall : k ≠ .funcCall) :
    operandOf w.tree = .literal (.ofLiteral w.token.category) := by
  have hfirst : w.tree.first? = some w.token := by simp [Word.tree, Nonterminal.node, first?]
  rw [operandOf]
  simp [Nonterminal.labels, hid, hcall, hfirst]

theorem callOf_eq {t list : Tree} {k : Nonterminal} {es : List Tree}
    (hk : (t.child 0).label = .ok k.label) (hlist : t.find callArgs = .ok list)
    (hes : list.flatten expr = .ok es) :
    callOf t = .call (calleeOf k.label) (calleeName (calleeOf k.label) (t.child 0).text) t.line
      (es.map exprOf) := by
  rw [callOf]
  simp only [hk]
  split
  · simp_all
  · rename_i l hl
    rw [hlist] at hl
    cases hl
    split
    · simp_all
    · rename_i es' hes'
      rw [hes] at hes'
      cases hes'
      simp

def callee : Phrase .funcCall → Callee
  | .print .. => .print
  | .max .. => .max
  | .min .. => .min
  | _ => .user

def arguments : Phrase .funcCall → List (Phrase .expr)
  | .call _ _ args _ | .print _ _ args _ | .max _ _ args _ | .min _ _ args _ => args.args
  | .callEmpty .. => []

theorem callOf_tree (c : Phrase .funcCall) :
    callOf c.tree = .call (callee c) (calleeName (callee c) (c.tree.child 0).text) c.tree.line
      ((arguments c).map fun e => exprOf e.tree) := by
  have hcallees : calleeOf Nonterminal.name.label = .user ∧
      calleeOf Nonterminal.print.label = .print ∧ calleeOf Nonterminal.max.label = .max ∧
      calleeOf Nonterminal.min.label = .min := by
    simp [calleeOf, Nonterminal.labels]
  obtain ⟨huser, hprint, hmax, hmin⟩ := hcallees
  cases c with
  | callEmpty f lp rp =>
    have hlist : (callEmpty f lp rp).tree.find callArgs = .ok .hole := by
      simp [tree, find, findIn_cons, findIn_nil, Nonterminal.labels]
    rw [callOf_eq (k := .name) rfl hlist (by rw [Tree.flatten]), huser]
    rfl
  | call f lp args rp | print f lp args rp | max f lp args rp | min f lp args rp =>
    refine (callOf_eq (by exact f.label_tree)
      (by simp [tree, find, findIn_cons, Nonterminal.labels]) (flatten_args args)).trans ?_
    simp only [huser, hprint, hmax, hmin, map_map]
    rfl

theorem types_eq_ok (p : Phrase s) :
    (s ∈ expressions → ∀ τ, exprType fs sc (exprOf p.tree) = .ok τ ↔ HasType fs (Holds sc) p τ) ∧
    (s = .funcCall → ∀ τ, callType fs sc (callOf p.tree) = .ok τ ↔ HasType fs (Holds sc) p τ) ∧
    (s = .callArgs → ∀ τs, exprTypes fs sc (p.args.map fun e => exprOf e.tree) = .ok τs ↔
      HaveTypes fs (Holds sc) p τs) := by
  induction p with
  | expr d ih | disjunction d ih | relation d ih | mathExpr d ih | term d ih =>
    refine ⟨fun _ τ => ?_, by rintro ⟨⟩, by rintro ⟨⟩⟩
    rw [exprOf]
    simp [tree, Nonterminal.labels, child, ih.1 (by decide)]
  | logic l op r ihl ihr | comparison l op r ihl ihr | math l op r ihl ihr =>
    refine ⟨fun _ τ => ?_, by rintro ⟨⟩, by rintro ⟨⟩⟩
    rw [exprOf]
    simp [tree, Nonterminal.labels, child, exprType_logic, exprType_compare, exprType_math,
      ihl.1 (by decide), ihr.1 (by decide)]
  | negation op t ih =>
    refine ⟨fun _ τ => ?_, by rintro ⟨⟩, by rintro ⟨⟩⟩
    rw [exprOf]
    simp [tree, Nonterminal.labels, child, exprType_negation, ih.1 (by decide)]
  | group lp e rp ih =>
    refine ⟨fun _ τ => ?_, by rintro ⟨⟩, by rintro ⟨⟩⟩
    have hfind : (group lp e rp).tree.find expr = .ok e.tree := by
      simp [tree, find, findIn_cons, Nonterminal.labels]
    rw [exprOf_term rfl rfl hfind]
    simp [ih.1 (by decide)]
  | number w =>
    refine ⟨fun _ τ => ?_, by rintro ⟨⟩, by rintro ⟨⟩⟩
    rw [exprOf]
    simp [tree, Nonterminal.labels, child, operandOf_word, exprType_literal]
  | charLiteral w | booleanValue w =>
    refine ⟨fun _ τ => ?_, by rintro ⟨⟩, by rintro ⟨⟩⟩
    have hcategory := mem_singleton.1 w.accepted
    have hliterals : ValueType.ofLiteral (Text.ofString "char_literal") = .char ∧
      ValueType.ofLiteral (Text.ofString "boolean_value") = .boolean := by decide
    rw [exprOf]
    simp [tree, Nonterminal.labels, child, operandOf_word, exprType_literal, hcategory, hliterals]
  | var w =>
    refine ⟨fun _ τ => ?_, by rintro ⟨⟩, by rintro ⟨⟩⟩
    rw [exprOf]
    simp [tree, Nonterminal.labels, child, operandOf, exprType_var]
  | value c ih =>
    refine ⟨fun _ τ => ?_, by rintro ⟨⟩, by rintro ⟨⟩⟩
    have hexpr : exprOf (value c).tree = callOf c.tree := by
      rw [exprOf]
      simp [tree, Nonterminal.labels, child, operandOf]
    rw [hexpr, hasType_value, ← ih.2.1 rfl, callOf_tree, exprType_call]
  | call f lp args rp ih =>
    refine ⟨fun h => absurd h (by decide), fun _ τ => ?_, by rintro ⟨⟩⟩
    simp [callOf_tree, callee, arguments, calleeName, callType, bind_eq_ok, resolve_user,
      ih.2.2 rfl]
    rfl
  | callEmpty f lp rp =>
    refine ⟨fun h => absurd h (by decide), fun _ τ => ?_, by rintro ⟨⟩⟩
    simp [callOf_tree, callee, arguments, calleeName, callType, bind_eq_ok, resolve_user,
      exprTypes_nil]
    rfl
  | print f lp args rp ih =>
    refine ⟨fun h => absurd h (by decide), fun _ τ => ?_, by rintro ⟨⟩⟩
    simp [callOf_tree, callee, arguments, callType, bind_eq_ok, resolve_print, ih.2.2 rfl]
  | max f lp args rp ih | min f lp args rp ih =>
    refine ⟨fun h => absurd h (by decide), fun _ τ => ?_, by rintro ⟨⟩⟩
    simp [callOf_tree, callee, arguments, callType, bind_eq_ok, resolve_extremum, ih.2.2 rfl]
  | lastArg e ih =>
    refine ⟨fun h => absurd h (by decide), by rintro ⟨⟩, fun _ τs => ?_⟩
    simp [args, exprTypes_cons, exprTypes_nil, ih.1 (by decide)]
  | arg e c rest ihe ih =>
    refine ⟨fun h => absurd h (by decide), by rintro ⟨⟩, fun _ τs => ?_⟩
    simp [args, exprTypes_cons, ihe.1 (by decide), ih.2.2 rfl]
  | _ => exact ⟨fun h => absurd h (by decide), by rintro ⟨⟩, by rintro ⟨⟩⟩

theorem exprType_eq_ok (hs : s ∈ expressions) (p : Phrase s) :
    exprType fs sc (exprOf p.tree) = .ok τ ↔ HasType fs (Holds sc) p τ :=
  (types_eq_ok p).1 hs τ

theorem callType_eq_ok (c : Phrase .funcCall) :
    callType fs sc (callOf c.tree) = .ok τ ↔ HasType fs (Holds sc) c τ :=
  (types_eq_ok c).2.1 rfl τ

/-! ## One type -/

/-- A block in which the variables of an environment have been given values. -/
def ofEnv (E : Env) : Scopes := [⟨E.map fun q => ⟨q.1, q.2, true, 0⟩, false⟩]

theorem holds_ofEnv : ∀ {E : Env} {x : Text} {τ : ValueType}, (E.map Prod.fst).Nodup →
    (Holds (ofEnv E) x τ ↔ In E x τ)
  | [], x, τ, _ => by simp [Holds, ofEnv, Scopes.lookup?, In]
  | (y, σ) :: E, x, τ, h => by
    obtain ⟨hy, hE⟩ := nodup_cons.1 h
    have ih := holds_ofEnv (x := x) (τ := τ) hE
    simp only [Holds, ofEnv, Scopes.lookup?, In] at ih ⊢
    by_cases hxy : y = x
    · subst hxy
      have hnot : (y, τ) ∉ E := fun hx => hy (mem_map.2 ⟨(y, τ), hx, rfl⟩)
      simp [hnot, eq_comm (a := σ)]
    · simpa [hxy, Ne.symm hxy] using ih

/-- **An expression has one type** where every variable is declared once. -/
theorem HasType.unique {E : Env} (hE : (E.map Prod.fst).Nodup)
    (hs : s ∈ expressions) {p : Phrase s} {τ : ValueType} (hσ : HasType fs (In E) p σ)
    (hτ : HasType fs (In E) p τ) : σ = τ := by
  have hof : ∀ {τ}, HasType fs (In E) p τ → exprType fs (ofEnv E) (exprOf p.tree) = .ok τ :=
    fun h => (exprType_eq_ok hs p).2 (h.mono fun _ _ => (holds_ofEnv hE).2)
  exact Except.ok.inj ((hof hσ).symm.trans (hof hτ))

end JavaToCpp.Typing
