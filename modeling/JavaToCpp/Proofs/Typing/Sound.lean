/-
  Statements that pass keep the rules everywhere.
-/
import JavaToCpp.Proofs.Program.Reading
import JavaToCpp.Proofs.Typing.Scopes

namespace JavaToCpp.Typing

open Program Java Scopes List Nonterminal Phrase

/-! ## Environments and scopes -/

/-- No name is declared twice, and none is a reserved word. -/
structure WellNamed (E : Env) : Prop where
  distinct : (E.map Prod.fst).Nodup
  free : ∀ q ∈ E, isReserved q.1 = false

/-- The open scopes hold the environment. -/
structure Tracks (sc : Scopes) (E : Env) : Prop where
  nonempty : sc ≠ []
  env_eq : sc.env = E
  named : WellNamed E

variable {fs : List Function} {ρ : ValueType} {c : Context} {sc sc' : Scopes} {E : Env}

theorem Tracks.of_shape (h : Tracks sc E) (hs : sc'.shape = sc.shape) : Tracks sc' E where
  nonempty := by
    rintro rfl
    exact h.nonempty (map_eq_nil_iff.1 hs.symm)
  env_eq := by rw [← h.env_eq, env, env, hs]
  named := h.named

theorem Tracks.push (h : Tracks sc E) : Tracks sc.push E where
  nonempty := cons_ne_nil _ _
  env_eq := by rw [← h.env_eq, env, env, shape_push]; simp
  named := h.named

variable {τ : ValueType} {s k : Nonterminal} {ts : List Tree}

theorem Tracks.declare (h : Tracks sc E) {x : Text}
    (hs : sc'.shape = extend [(x, τ)] sc.shape) (hx : isReserved x = false)
    (hnew : sc.lookup? x = none) : Tracks sc' (E ++ [(x, τ)]) := by
  obtain ⟨hne, rfl, hE⟩ := h
  obtain ⟨f, sc, rfl⟩ := exists_cons_of_ne_nil hne
  refine ⟨?_, ?_, ?_, ?_⟩
  · rintro rfl
    cases hs
  · rw [env, hs]
    simp [env, shape, extend]
  · have hnot := not_mem_env_of_lookup? hnew
    rw [map_append, nodup_append]
    refine ⟨hE.distinct, by simp, ?_⟩
    rintro a ha b hb rfl
    simp only [map_cons, map_nil, mem_singleton] at hb
    exact hnot (hb ▸ ha)
  · intro q hq
    rcases mem_append.1 hq with hq | hq
    · exact hE.free q hq
    · rw [mem_singleton.1 hq]
      exact hx

theorem Tracks.statement (h : Tracks sc E) {s : Statement} (hs : checkStatement c s sc = .ok sc') :
    Tracks sc' (E ++ declaredBy s) := by
  have hshape := shape_checkStatement s sc hs
  have hkept (hd : declaredBy s = []) : Tracks sc' (E ++ declaredBy s) := by
    rw [hd, extend_nil] at hshape
    rw [hd, append_nil]
    exact h.of_shape hshape
  cases s with
  | varDecl =>
    obtain ⟨-, hx, hnew, -⟩ := checkVarDecl_ok hs
    exact h.declare hshape hx hnew
  | _ => exact hkept rfl

theorem Tracks.hasType (h : Tracks sc E) {p : Phrase s}
    (hp : HasType fs (Holds sc) p τ) : HasType fs (In E) p τ :=
  hp.mono fun _ _ hx => h.env_eq ▸ in_env_of_holds hx

theorem lookup?_declare (hne : sc ≠ []) (v : Variable) (x : Text) :
    (sc.declare v).lookup? x = if v.name = x then some v else sc.lookup? x := by
  obtain ⟨f, sc, rfl⟩ := exists_cons_of_ne_nil hne
  by_cases h : v.name = x <;> simp [Scopes.declare, lookup?, h, findSome?_cons]

theorem Tracks.hasType_declare (h : Tracks sc E) {v : Variable} (hv : v.initialized = false)
    {p : Phrase s} (hp : HasType fs (Holds (sc.declare v)) p τ) : HasType fs (In E) p τ := by
  refine h.hasType (hp.mono fun x σ hx => ?_)
  obtain ⟨w, hw, hinit, hσ⟩ := hx
  rw [lookup?_declare h.nonempty] at hw
  split at hw
  · cases hw
    simp [hv] at hinit
  · exact ⟨w, hw, hinit, hσ⟩

/-! ## Words and expressions -/

/-- A node keeps the rules, and no name is in scope twice where it is. -/
def Kept (fs : List Function) (ρ : ValueType) (Γ : List Nat → Env) (n : Tree) : Prop :=
  ((Γ []).map Prod.fst).Nodup ∧ Lawful fs ρ Γ n

theorem everywhere_node (hE : WellNamed E) {t : Tree}
    (ht : t = s.node ts) (hn : Lawful fs ρ (fun w => E ++ envAt t w) t)
    (hts : EverywhereIn (Kept fs ρ) E ts) : Everywhere (Kept fs ρ) E t := by
  subst ht
  exact everywhere_branch ⟨by simpa using hE.distinct, hn⟩ hts

theorem everywhere_phrase (hE : WellNamed E) {p : Phrase s} (hp : p.tree = s.node ts)
    (hn : LawfulPhrase fs ρ (fun w => E ++ envAt p.tree w) p) (hts : EverywhereIn (Kept fs ρ) E ts) :
    Everywhere (Kept fs ρ) E p.tree :=
  everywhere_node hE hp (.phrase hn) hts

theorem everywhere_stmtNode (hE : WellNamed E) {x : Stmt s} (hx : x.tree = s.node ts)
    (hn : LawfulStmt fs (fun w => E ++ envAt x.tree w) x) (hts : EverywhereIn (Kept fs ρ) E ts) :
    Everywhere (Kept fs ρ) E x.tree :=
  everywhere_node hE hx (.stmt hn) hts

/-- A statement behind which no variable stays declared. -/
theorem everywhere_closed (hE : WellNamed E) {x : Stmt s} (hx : x.tree = s.node ts)
    (hnone : x.declares = []) (hn : LawfulStmt fs (fun w => E ++ envAt x.tree w) x)
    (hts : EverywhereIn (Kept fs ρ) E ts) :
    Everywhere (Kept fs ρ) E x.tree ∧ WellNamed (E ++ x.declares) :=
  ⟨everywhere_stmtNode hE hx hn hts, by rwa [hnone, append_nil]⟩

theorem everywhere_leaf (hE : WellNamed E) (k : Token) : Everywhere (Kept fs ρ) E (.leaf k) := by
  intro u n hn
  cases u with
  | nil =>
    cases hn
    exact ⟨by simpa using hE.distinct, .leaf k⟩
  | cons i u => cases hn

theorem everywhere_word (hE : WellNamed E) (w : Word s)
    (hw : s = .id ∨ s = .name → isReserved w.text = false) : Everywhere (Kept fs ρ) E w.tree :=
  everywhere_node hE rfl (.word hw) ⟨everywhere_leaf hE w.token, trivial⟩

theorem everywhere_keyword (hE : WellNamed E) (w : Word s)
    (hs : s ≠ .id ∧ s ≠ .name) : Everywhere (Kept fs ρ) E w.tree :=
  everywhere_word hE w fun h => (h.elim hs.1 hs.2).elim

/-- The nodes of the phrase keep the rules if it has a type, or its arguments have types. -/
def KeptIfTyped (fs : List Function) (ρ : ValueType) (E : Env) {s : Nonterminal} (p : Phrase s) :
    Prop :=
  (∀ τ, HasType fs (In E) p τ → Everywhere (Kept fs ρ) E p.tree) ∧
    ∀ τs, HaveTypes fs (In E) p τs → Everywhere (Kept fs ρ) E p.tree

theorem keptIfTyped_expression (hE : WellNamed E) (hs : s ∈ expressions) {p : Phrase s}
    (hp : p.tree = s.node ts) (hts : ∀ τ, HasType fs (In E) p τ → EverywhereIn (Kept fs ρ) E ts) :
    KeptIfTyped fs ρ E p := by
  refine ⟨fun τ h => everywhere_phrase hE hp (.expression hs (by simpa using h)) (hts τ h), ?_⟩
  rintro _ ⟨⟩ <;> exact absurd hs (by decide)

theorem keptIfTyped_call (hE : WellNamed E) {p : Phrase .funcCall} (hp : p.tree = funcCall.node ts)
    (hts : ∀ τ, HasType fs (In E) p τ → EverywhereIn (Kept fs ρ) E ts) : KeptIfTyped fs ρ E p :=
  ⟨fun τ h => everywhere_phrase hE hp (.call (by simpa using h)) (hts τ h), by rintro _ ⟨⟩⟩

theorem everywhere_typed (hfs : ∀ f ∈ fs, isReserved f.name = false) (hE : WellNamed E) (p : Phrase s) :
    KeptIfTyped fs ρ E p := by
  have hcallee {name : Text} {τs : List ValueType} {g : Function}
      (hg : fs.filter (callable name τs) = [g]) : isReserved name = false := by
    have hmem : g ∈ fs.filter (callable name τs) := hg ▸ mem_singleton_self g
    obtain ⟨hg, hcall⟩ := mem_filter.1 hmem
    simp only [callable, Bool.and_eq_true, beq_iff_eq] at hcall
    exact hcall.1.1 ▸ hfs g hg
  induction p with
  | expr d ih =>
    exact keptIfTyped_expression hE (by decide) rfl fun τ h =>
      ⟨ih.1 τ (hasType_expr.1 h), trivial⟩
  | disjunction r ih =>
    exact keptIfTyped_expression hE (by decide) rfl fun τ h =>
      ⟨ih.1 τ (hasType_disjunction.1 h), trivial⟩
  | logic r op d ihr ihd =>
    refine keptIfTyped_expression hE (by decide) rfl fun τ h => ?_
    obtain ⟨hr, hd, -⟩ := hasType_logic.1 h
    simp [EverywhereIn, declares_eq_nil, ihr.1 _ hr, ihd.1 _ hd, everywhere_keyword hE]
  | relation m ih =>
    exact keptIfTyped_expression hE (by decide) rfl fun τ h =>
      ⟨ih.1 τ (hasType_relation.1 h), trivial⟩
  | comparison l op r ihl ihr =>
    refine keptIfTyped_expression hE (by decide) rfl fun τ h => ?_
    obtain ⟨σ, σ', hl, hr, -⟩ := hasType_comparison.1 h
    simp [EverywhereIn, declares_eq_nil, ihl.1 _ hl, ihr.1 _ hr, everywhere_keyword hE]
  | mathExpr t ih =>
    exact keptIfTyped_expression hE (by decide) rfl fun τ h =>
      ⟨ih.1 τ (hasType_mathExpr.1 h), trivial⟩
  | math t op m iht ihm =>
    refine keptIfTyped_expression hE (by decide) rfl fun τ h => ?_
    obtain ⟨σ, σ', ht, hm, -⟩ := hasType_math.1 h
    simp [EverywhereIn, declares_eq_nil, iht.1 _ ht, ihm.1 _ hm, everywhere_keyword hE]
  | term o ih =>
    exact keptIfTyped_expression hE (by decide) rfl fun τ h =>
      ⟨ih.1 τ (hasType_term.1 h), trivial⟩
  | negation op t ih =>
    refine keptIfTyped_expression hE (by decide) rfl fun τ h => ?_
    simp [EverywhereIn, ih.1 _ (hasType_negation.1 h).1, everywhere_keyword hE]
  | group lp e rp ih =>
    refine keptIfTyped_expression hE (by decide) rfl fun τ h => ?_
    simp [EverywhereIn, declares_eq_nil, ih.1 _ (hasType_group.1 h), everywhere_keyword hE]
  | number w | charLiteral w | booleanValue w =>
    exact keptIfTyped_expression hE (by decide) rfl fun _ _ =>
      ⟨everywhere_keyword hE w (by decide), trivial⟩
  | var w =>
    exact keptIfTyped_expression hE (by decide) rfl fun τ h =>
      ⟨everywhere_word hE w fun _ => hE.free _ (hasType_var.1 h), trivial⟩
  | value c ih =>
    exact keptIfTyped_expression hE (by decide) rfl fun τ h =>
      ⟨ih.1 τ (hasType_value.1 h).1, trivial⟩
  | call f lp args rp ih =>
    refine keptIfTyped_call hE rfl fun τ h => ?_
    obtain ⟨τs, g, hargs, hg, -⟩ := hasType_call.1 h
    simp [EverywhereIn, declares_eq_nil, ih.2 _ hargs, everywhere_keyword hE,
      everywhere_word hE f fun _ => hcallee hg]
  | callEmpty f lp rp =>
    refine keptIfTyped_call hE rfl fun τ h => ?_
    obtain ⟨g, hg, -⟩ := hasType_callEmpty.1 h
    simp [EverywhereIn, everywhere_keyword hE, everywhere_word hE f fun _ => hcallee hg]
  | print f lp args rp ih =>
    refine keptIfTyped_call hE rfl fun τ h => ?_
    obtain ⟨⟨σ, hargs⟩, -⟩ := hasType_print.1 h
    simp [EverywhereIn, declares_eq_nil, ih.2 _ hargs, everywhere_keyword hE]
  | max f lp args rp ih =>
    refine keptIfTyped_call hE rfl fun τ h => ?_
    obtain ⟨σ, σ', hargs, -⟩ := hasType_max.1 h
    simp [EverywhereIn, declares_eq_nil, ih.2 _ hargs, everywhere_keyword hE]
  | min f lp args rp ih =>
    refine keptIfTyped_call hE rfl fun τ h => ?_
    obtain ⟨σ, σ', hargs, -⟩ := hasType_min.1 h
    simp [EverywhereIn, declares_eq_nil, ih.2 _ hargs, everywhere_keyword hE]
  | lastArg e ih =>
    refine ⟨by rintro _ ⟨⟩, fun τs h => ?_⟩
    obtain ⟨τ, he, -⟩ := haveTypes_lastArg.1 h
    exact everywhere_phrase hE rfl (.args (by simpa using h)) ⟨ih.1 τ he, trivial⟩
  | arg e c rest ihe ih =>
    refine ⟨by rintro _ ⟨⟩, fun τs h => ?_⟩
    obtain ⟨σ, σs, he, hrest, -⟩ := haveTypes_arg.1 h
    refine everywhere_phrase hE rfl (.args (by simpa using h)) ?_
    simp [EverywhereIn, declares_eq_nil, ihe.1 _ he, ih.2 _ hrest, everywhere_keyword hE]
  | _ => exact ⟨by rintro _ ⟨⟩, by rintro _ ⟨⟩⟩

/-! ## Statements -/

variable (hfs : ∀ f ∈ c.functions, isReserved f.name = false)
include hfs

theorem Tracks.everywhere (ht : Tracks sc E) (hs : s ∈ expressions) {p : Phrase s}
    (h : exprType c.functions sc (exprOf p.tree) = .ok τ) : HasType c.functions (In E) p τ ∧
      Everywhere (Kept c.functions c.current.returns) E p.tree := by
  have hp := ht.hasType ((exprType_eq_ok hs p).1 h)
  exact ⟨hp, (everywhere_typed hfs ht.named p).1 τ hp⟩

theorem everywhere_simple (ht : Tracks sc E) (hk : k ∈ simple)
    (p : Phrase k) (h : checkStatement c (statementOf p.tree) sc = .ok sc') :
    Everywhere (Kept c.functions c.current.returns) E p.tree := by
  have hE := ht.named
  cases p with
  | declare type id =>
    rw [statementOf_declare] at h
    obtain ⟨-, hid, -⟩ := checkVarDecl_ok h
    refine everywhere_phrase hE rfl .declare ?_
    simp [EverywhereIn, everywhere_keyword hE, everywhere_word hE id fun _ => hid]
  | initialise type id op e =>
    rw [statementOf_initialise] at h
    obtain ⟨-, hid, -, hinit⟩ := checkVarDecl_ok h
    obtain ⟨τ, hτ, hfits⟩ := hinit _ rfl
    have he := ht.hasType_declare rfl ((exprType_eq_ok (by decide) e).1 hτ)
    refine everywhere_phrase hE rfl (.initialise (by simpa [tree, envAt_cons] using he) hfits) ?_
    simp [EverywhereIn, everywhere_keyword hE, everywhere_word hE id fun _ => hid,
      (everywhere_typed hfs hE e).1 τ he]
  | set id op e =>
    rw [statementOf_assignment, assignmentOf_set] at h
    obtain ⟨-, σ, hσ, τ, hτ, hfits⟩ := checkAssignment_ok h
    rw [ht.env_eq] at hσ
    obtain ⟨he, heverywhere⟩ := ht.everywhere hfs (by decide) hτ
    refine everywhere_phrase hE rfl (.set (by simpa [tree, envAt_cons] using hσ)
      (by simpa [tree, envAt_cons] using he) hfits) ?_
    simp [EverywhereIn, everywhere_keyword hE, everywhere_word hE id fun _ => hE.free _ hσ,
      heverywhere]
  | combine id op e =>
    rw [statementOf_assignment, assignmentOf_combine] at h
    obtain ⟨-, σ, hσ, hne, τ, hτ, hne', hfits⟩ := checkAssignment_ok h
    rw [ht.env_eq] at hσ
    obtain ⟨he, heverywhere⟩ := ht.everywhere hfs (by decide) hτ
    refine everywhere_phrase hE rfl (.combine (by simpa [tree, envAt_cons] using hσ) hne
      (by simpa [tree, envAt_cons] using he) hne' hfits) ?_
    simp [EverywhereIn, everywhere_keyword hE, everywhere_word hE id fun _ => hE.free _ hσ,
      heverywhere]
  | stepAfter id op =>
    rw [statementOf_assignment, assignmentOf_stepAfter] at h
    obtain ⟨-, σ, hσ, hne⟩ := checkAssignment_ok h
    rw [ht.env_eq] at hσ
    refine everywhere_phrase hE rfl (.stepAfter (by simpa [tree, envAt_cons] using hσ) hne) ?_
    simp [EverywhereIn, everywhere_keyword hE, everywhere_word hE id fun _ => hE.free _ hσ]
  | stepBefore op id =>
    rw [statementOf_assignment, assignmentOf_stepBefore] at h
    obtain ⟨-, σ, hσ, hne⟩ := checkAssignment_ok h
    rw [ht.env_eq] at hσ
    refine everywhere_phrase hE rfl (.stepBefore (by simpa [tree, envAt_cons] using hσ) hne) ?_
    simp [EverywhereIn, everywhere_keyword hE, everywhere_word hE id fun _ => hE.free _ hσ]
  | returnValue w e =>
    rw [statementOf_returnValue] at h
    obtain ⟨-, τ, hτ, hfits⟩ := checkReturn_ok h
    obtain ⟨he, heverywhere⟩ := ht.everywhere hfs (by decide) hτ
    refine everywhere_phrase hE rfl (.returnValue (by simpa [tree, envAt_cons] using he) hfits) ?_
    simp [EverywhereIn, everywhere_keyword hE, heverywhere]
  | returnNothing w =>
    rw [statementOf_returnNothing] at h
    obtain ⟨-, hvoid⟩ := checkReturn_ok h
    refine everywhere_phrase hE rfl (.returnNothing hvoid) ?_
    simp [EverywhereIn, everywhere_keyword hE]
  | call | callEmpty | print | max | min =>
    rw [statementOf_funcCall] at h
    obtain ⟨-, τ, hτ⟩ := checkStatement_call.1 h
    exact (everywhere_typed hfs hE _).1 τ (ht.hasType ((callType_eq_ok _).1 hτ))
  | _ => exact absurd hk (by decide)

omit hfs

theorem declaredBy_simple (hk : k ∈ simple) (p : Phrase k) :
    declaredBy (statementOf p.tree) = p.declares := by
  cases p with
  | declare type id => rw [statementOf_declare]; rfl
  | initialise type id op e => rw [statementOf_initialise]; rfl
  | set | combine | stepAfter | stepBefore => rw [statementOf_assignment]; rfl
  | call | callEmpty | print | max | min => rw [statementOf_funcCall]; rfl
  | returnValue w e => rw [statementOf_returnValue]; rfl
  | returnNothing w => rw [statementOf_returnNothing]; rfl
  | _ => exact absurd hk (by decide)

theorem declaredBy_instruction (i : Stmt .instruction) :
    declaredBy (statementOf (i.tree.child 0)) = i.declares := by
  match i with
  | .simple hk p e => exact declaredBy_simple hk p
  | .compound hk x =>
    show declaredBy (statementOf x.tree) = x.declares
    cases x with
    | block | blockEmpty => rw [statementOf_codeBlock]; rfl
    | ifThen | ifElse | ifElseIf => rw [statementOf_ifStatement]; rfl
    | forLoop => rw [statementOf_forLoop]; rfl
    | whileLoop => rw [statementOf_whileLoop]; rfl
    | doWhile => rw [statementOf_doWhile]; rfl
    | _ => exact absurd hk (by decide)

/-- The checker accepts a statement over the open scopes. -/
def Passes (c : Context) (sc : Scopes) {s : Nonterminal} (x : Stmt s) : Prop :=
  match s with
  | .codeBlock => ∃ sc', checkBlock c (blockOf x.tree) sc = .ok sc'
  | .instructions => ∃ sc', checkBlock c (blockIn x.items) sc = .ok sc'
  | .instruction => ∃ sc', checkStatement c (statementOf (x.tree.child 0)) sc = .ok sc'
  | .ifStatement => ∃ r, checkConditional c (conditionalOf x.tree) sc = .ok r
  | _ => ∃ sc', checkStatement c (statementOf x.tree) sc = .ok sc'

theorem checkBlock_cons {line : Int} {s : Statement} {rest : Block}
    (h : checkBlock c (.cons line s rest) sc = .ok sc') :
    ∃ sc₁, checkStatement c s sc = .ok sc₁ ∧ checkBlock c rest sc₁ = .ok sc' := by
  rw [checkBlock] at h
  split at h
  · cases h
  · exact bind_eq_ok.1 h

theorem checkConditional_ok {test : Expr} {line : Int} {yes : Block} {no : Alternative}
    {r : Bool × Scopes} (h : checkConditional c (.branch test line yes no) sc = .ok r) :
    exprType c.functions sc test = .ok .boolean ∧ ∃ sc₁, checkBlock c yes sc.push = .ok sc₁ ∧
      ∃ r', checkAlternative c no (leave sc₁).2 = .ok r' := by
  rw [checkConditional] at h
  obtain ⟨_, htest, h⟩ := bind_eq_ok.1 h
  obtain ⟨sc₁, hyes, h⟩ := bind_eq_ok.1 h
  obtain ⟨r', hno, -⟩ := bind_eq_ok.1 h
  exact ⟨checkTest_eq_ok.1 htest, sc₁, hyes, r', hno⟩

theorem Tracks.leave (h : Tracks sc E) {b : Block} (hb : checkBlock c b sc.push = .ok sc') :
    Tracks (leave sc').2 E :=
  h.of_shape (shape_leave (shape_checkBlock b sc.push hb))

theorem exists_passes (ht : Tracks sc E) (hk : k ∈ compound)
    (x : Stmt k) (h : checkStatement c (statementOf x.tree) sc = .ok sc') :
    ∃ sc₁, Tracks sc₁ E ∧ Passes c sc₁ x := by
  simp only [compound, mem_cons, not_mem_nil, or_false] at hk
  rcases hk with rfl | rfl | rfl | rfl | rfl
  · rw [statementOf_ifStatement] at h
    obtain ⟨r, hr, -⟩ := bind_eq_ok.1 h
    exact ⟨sc, ht, r, hr⟩
  · exact ⟨sc, ht, sc', h⟩
  · exact ⟨sc, ht, sc', h⟩
  · exact ⟨sc, ht, sc', h⟩
  · rw [statementOf_codeBlock] at h
    obtain ⟨sc₁, hb, -⟩ := bind_eq_ok.1 h
    exact ⟨sc.push, ht.push, sc₁, hb⟩

include hfs

theorem everywhere_forInit (ht : Tracks sc E) (init : Phrase .forInit)
    (h : checkStatement c (statementOf (init.tree.child 0)) sc = .ok sc') :
    Everywhere (Kept c.functions c.current.returns) E init.tree ∧ Tracks sc' (E ++ init.declares) := by
  have ht' := ht.statement h
  match init with
  | .initVar v =>
    refine ⟨everywhere_phrase ht.named rfl (.header (by simp)) ⟨?_, trivial⟩, ?_⟩
    · exact everywhere_simple hfs ht (by decide) v h
    · exact declaredBy_simple (by decide) v ▸ ht'
  | .initSet a =>
    refine ⟨everywhere_phrase ht.named rfl (.header (by simp)) ⟨?_, trivial⟩, ?_⟩
    · exact everywhere_simple hfs ht (by decide) a h
    · have hnone : declaredBy (statementOf ((initSet a).tree.child 0)) = [] :=
        (declaredBy_simple (by decide) a).trans (a.declares_eq_nil (by decide) (by decide))
      rw [hnone] at ht'
      exact ht'

theorem everywhere_forStep (ht : Tracks sc E) (step : Phrase .forStep)
    (h : checkAssignment c sc (assignmentOf (step.tree.child 0)) = .ok sc') :
    Everywhere (Kept c.functions c.current.returns) E step.tree := by
  match step with
  | .step a =>
    have ha : checkStatement c (statementOf a.tree) sc = .ok sc' := by
      rw [statementOf_assignment]
      exact h
    exact everywhere_phrase ht.named rfl (.header (by simp))
      ⟨everywhere_simple hfs ht (by decide) a ha, trivial⟩

theorem everywhere_stmt (x : Stmt s) {sc : Scopes} {E : Env} (ht : Tracks sc E)
    (h : Passes c sc x) : Everywhere (Kept c.functions c.current.returns) E x.tree ∧
      WellNamed (E ++ x.declares) := by
  induction x generalizing sc E with
  | block lb body rb ih =>
    rw [Passes, blockOf_block] at h
    obtain ⟨hbody, hnamed⟩ := ih ht h
    refine everywhere_closed ht.named rfl rfl (.sequence (by simp)) ?_
    simp [EverywhereIn, everywhere_keyword ht.named, hbody, everywhere_keyword hnamed]
  | blockEmpty lb rb =>
    refine everywhere_closed ht.named rfl rfl (.sequence (by simp)) ?_
    simp [EverywhereIn, everywhere_keyword ht.named]
  | last i ih =>
    obtain ⟨sc', h⟩ := h
    obtain ⟨sc₁, hi, -⟩ := checkBlock_cons h
    obtain ⟨hi, hnamed⟩ := ih ht ⟨sc₁, hi⟩
    exact ⟨everywhere_stmtNode ht.named rfl (.sequence (by simp)) ⟨hi, trivial⟩, hnamed⟩
  | more i rest ihi ih =>
    obtain ⟨sc', h⟩ := h
    obtain ⟨sc₁, hi, hrest⟩ := checkBlock_cons h
    have ht₁ := ht.statement hi
    rw [declaredBy_instruction] at ht₁
    obtain ⟨hi, -⟩ := ihi ht ⟨sc₁, hi⟩
    obtain ⟨hrest, hnamed⟩ := ih ht₁ ⟨sc', hrest⟩
    refine ⟨everywhere_stmtNode ht.named rfl (.sequence (by simp)) ⟨hi, ?_, trivial⟩, ?_⟩
    · simpa using hrest
    · simpa [Stmt.declares] using hnamed
  | @simple k hk p e =>
    obtain ⟨sc', h⟩ := h
    have ht₁ := ht.statement h
    rw [declaredBy_instruction] at ht₁
    refine ⟨everywhere_stmtNode ht.named rfl (.sequence (by simp)) ?_, ht₁.named⟩
    refine ⟨everywhere_simple hfs ht hk p h, ?_, trivial⟩
    rw [leafEnv_phrase]
    exact everywhere_keyword ht₁.named e (by decide)
  | @compound k hk x ih =>
    obtain ⟨sc', h⟩ := h
    obtain ⟨sc₁, ht₁, hx⟩ := exists_passes ht hk x h
    obtain ⟨hx, hnamed⟩ := ih ht₁ hx
    exact ⟨everywhere_stmtNode ht.named rfl (.sequence (by simp)) ⟨hx, trivial⟩, hnamed⟩
  | ifThen w lp test rp yes ih =>
    obtain ⟨r, h⟩ := h
    rw [conditionalOf_ifThen] at h
    obtain ⟨htest, sc₁, hyes, -⟩ := checkConditional_ok h
    obtain ⟨htest, htest'⟩ := ht.everywhere hfs (by decide) htest
    obtain ⟨hyes, -⟩ := ih ht.push ⟨sc₁, hyes⟩
    refine everywhere_closed ht.named rfl rfl
      (.ifThen (by simpa [Stmt.tree, envAt_cons] using htest)) ?_
    simp [EverywhereIn, everywhere_keyword ht.named, declares_eq_nil, htest', hyes]
  | ifElse w lp test rp yes el no ihyes ihno =>
    obtain ⟨r, h⟩ := h
    rw [conditionalOf_ifElse] at h
    obtain ⟨htest, sc₁, hyes, r', hno⟩ := checkConditional_ok h
    obtain ⟨sc₂, hno, -⟩ := bind_eq_ok.1 hno
    obtain ⟨htest, htest'⟩ := ht.everywhere hfs (by decide) htest
    obtain ⟨hno, -⟩ := ihno (ht.leave hyes).push ⟨sc₂, hno⟩
    obtain ⟨hyes, -⟩ := ihyes ht.push ⟨sc₁, hyes⟩
    refine everywhere_closed ht.named rfl rfl
      (.ifElse (by simpa [Stmt.tree, envAt_cons] using htest)) ?_
    simp [EverywhereIn, everywhere_keyword ht.named, declares_eq_nil, Stmt.declares_eq_nil,
      htest', hyes, hno]
  | ifElseIf w lp test rp yes el no ihyes ihno =>
    obtain ⟨r, h⟩ := h
    rw [conditionalOf_ifElseIf] at h
    obtain ⟨htest, sc₁, hyes, r', hno⟩ := checkConditional_ok h
    obtain ⟨htest, htest'⟩ := ht.everywhere hfs (by decide) htest
    obtain ⟨hno, -⟩ := ihno (ht.leave hyes) ⟨r', hno⟩
    obtain ⟨hyes, -⟩ := ihyes ht.push ⟨sc₁, hyes⟩
    refine everywhere_closed ht.named rfl rfl
      (.ifElseIf (by simpa [Stmt.tree, envAt_cons] using htest)) ?_
    simp [EverywhereIn, everywhere_keyword ht.named, declares_eq_nil, Stmt.declares_eq_nil,
      htest', hyes, hno]
  | forLoop w lp init e test e' step rp body ih =>
    obtain ⟨sc', h⟩ := h
    rw [statementOf_forLoop] at h
    obtain ⟨sc₁, hinit, h⟩ := bind_eq_ok.1 h
    obtain ⟨_, htest, h⟩ := bind_eq_ok.1 h
    obtain ⟨sc₂, hstep, h⟩ := bind_eq_ok.1 h
    obtain ⟨sc₃, hbody, -⟩ := bind_eq_ok.1 h
    obtain ⟨hinit, ht₁⟩ := everywhere_forInit hfs ht.push init hinit
    obtain ⟨htest, htest'⟩ := ht₁.everywhere hfs (by decide) (checkTest_eq_ok.1 htest)
    have ht₂ := ht₁.of_shape (shape_checkAssignment hstep)
    obtain ⟨hbody, -⟩ := ih ht₂.push ⟨sc₃, hbody⟩
    refine everywhere_closed ht.named rfl rfl
      (.forLoop (by simpa [Stmt.tree, envAt_cons] using htest)) ?_
    simp [EverywhereIn, everywhere_keyword ht.named, everywhere_keyword ht₁.named,
      declares_eq_nil, hinit, htest', everywhere_forStep hfs ht₁ step hstep, hbody]
  | whileLoop w lp test rp body ih =>
    obtain ⟨sc', h⟩ := h
    rw [statementOf_whileLoop] at h
    obtain ⟨_, htest, h⟩ := bind_eq_ok.1 h
    obtain ⟨sc₁, hbody, -⟩ := bind_eq_ok.1 h
    obtain ⟨htest, htest'⟩ := ht.everywhere hfs (by decide) (checkTest_eq_ok.1 htest)
    obtain ⟨hbody, -⟩ := ih ht.push ⟨sc₁, hbody⟩
    refine everywhere_closed ht.named rfl rfl
      (.whileLoop (by simpa [Stmt.tree, envAt_cons] using htest)) ?_
    simp [EverywhereIn, everywhere_keyword ht.named, declares_eq_nil, htest', hbody]
  | doWhile w body wh lp test rp e ih =>
    obtain ⟨sc', h⟩ := h
    rw [statementOf_doWhile] at h
    obtain ⟨sc₁, hbody, h⟩ := bind_eq_ok.1 h
    obtain ⟨_, htest, -⟩ := bind_eq_ok.1 h
    obtain ⟨htest, htest'⟩ := (ht.leave hbody).everywhere hfs (by decide) (checkTest_eq_ok.1 htest)
    obtain ⟨hbody, -⟩ := ih ht.push ⟨sc₁, hbody⟩
    refine everywhere_closed ht.named rfl rfl
      (.doWhile (by simpa [Stmt.tree, envAt_cons, Stmt.declares_eq_nil] using htest)) ?_
    simp [EverywhereIn, everywhere_keyword ht.named, declares_eq_nil, Stmt.declares_eq_nil,
      htest', hbody]

end JavaToCpp.Typing
