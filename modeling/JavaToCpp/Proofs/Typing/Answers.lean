/-
  The check comes to an answer.

  A program passes the check or violates a rule in one of its lines; nothing else happens, unless a
  part of it is missing.
-/
import JavaToCpp.Proofs.Program.Complete
import JavaToCpp.Proofs.Program.Lines

namespace JavaToCpp.Typing

open Program List

variable {α β : Type} {c : Context} {functions : List Function} {sc : Scopes} {P : Prop}
  {S : Int → Prop}

/-- The computation succeeds or ends with a violation, or meets a missing part if `P`. -/
def Answers (P : Prop) (x : Except Failure α) : Prop :=
  (∃ a, x = .ok a) ∨ (∃ v, x = .error (.violation v)) ∨ P ∧ x = .error .missing

theorem answers_ok (a : α) : Answers P (.ok a) := .inl ⟨a, rfl⟩

theorem answers_ite {p : Prop} [Decidable p] {x y : Except Failure α} (hx : Answers P x)
    (hy : Answers P y) : Answers P (if p then x else y) := by
  split
  · exact hx
  · exact hy

/-- The computation succeeds or ends with a violation in a line of `S`, or meets a missing part
    if `P`. -/
def AnswersIn (S : Int → Prop) (P : Prop) (x : Except Failure α) : Prop :=
  (∃ a, x = .ok a) ∨ (∃ v, x = .error (.violation v) ∧ S v.line) ∨ P ∧ x = .error .missing

theorem AnswersIn.answers {x : Except Failure α} (h : AnswersIn S P x) : Answers P x :=
  h.imp_right (.imp_left (.imp fun _ hv => hv.1))

theorem answersIn_ok (a : α) : AnswersIn S P (.ok a) := .inl ⟨a, rfl⟩

theorem answersIn_fail {line : Int} (hline : S line) (cause : Violation.Cause) :
    AnswersIn S P (fail line cause : Except Failure α) := .inr (.inl ⟨_, rfl, hline⟩)

theorem answersIn_missing (h : P) : AnswersIn S P (.error .missing : Except Failure α) :=
  .inr (.inr ⟨h, rfl⟩)

theorem AnswersIn.bind {x : Except Failure α} {f : α → Except Failure β} (hx : AnswersIn S P x)
    (hf : ∀ a, AnswersIn S P (f a)) : AnswersIn S P (x >>= f) := by
  rcases hx with ⟨a, rfl⟩ | ⟨v, rfl, hv⟩ | ⟨hP, rfl⟩
  · exact hf a
  · exact answersIn_fail hv _
  · exact answersIn_missing hP

theorem answersIn_ite {p : Prop} [Decidable p] {x y : Except Failure α} (hx : AnswersIn S P x)
    (hy : AnswersIn S P y) : AnswersIn S P (if p then x else y) := by
  split
  · exact hx
  · exact hy

/-! ## Calls -/

theorem exists_mismatch {f : Function} {args : List ValueType}
    (h : (mismatch? f args).isSome) : ∃ (i : Nat) (ha : i < args.length) (hp : i < f.params.length),
      mismatch? f args = some (args[i], f.params[i].type) ∧ args[i].fits f.params[i].type = false := by
  obtain ⟨p, hp⟩ := Option.isSome_iff_exists.1 h
  obtain ⟨hunfit, i, hi, rfl, -⟩ := find?_eq_some_iff_getElem.1 hp
  have hlt : i < args.length ∧ i < f.params.length := by simpa [Nat.lt_min] using hi
  refine ⟨i, hlt.1, hlt.2, ?_, ?_⟩
  · simpa using hp
  · simpa using hunfit

def sameArity (functions : List Function) (name : Text) (args : List ValueType) : List Function :=
  functions.filter fun f => f.name == name && f.params.length == args.length

/-- **If no function takes the arguments**, the first one is named in the violation, with an
    argument and the parameter that it does not fit. -/
theorem exists_unfit {name : Text} {args : List ValueType} {first : Function}
    {others : List Function} (hsame : sameArity functions name args = first :: others)
    (hnone : ∀ f ∈ first :: others, (mismatch? f args).isSome) (line : Int) :
    ∃ (i : Nat) (ha : i < args.length) (hp : i < first.params.length),
      args[i].fits first.params[i].type = false ∧
      resolve functions .user name line args =
        fail line (.typesNotFit args[i] first.params[i].type) := by
  obtain ⟨i, ha, hp, hmismatch, hunfit⟩ := exists_mismatch (hnone first (by simp))
  refine ⟨i, ha, hp, hunfit, ?_⟩
  have hfitting : (first :: others).filter (fun f => (mismatch? f args).isNone) = [] := by
    refine filter_eq_nil_iff.2 fun f hf => ?_
    obtain ⟨p, hp⟩ := Option.isSome_iff_exists.1 (hnone f hf)
    simp [hp]
  rw [sameArity] at hsame
  rw [resolve, hsame]
  simp only [hfitting, hmismatch]

theorem answersIn_resolve (callee : Callee) (name : Text) {line : Int} (hline : S line)
    (args : List ValueType) : AnswersIn S P (resolve functions callee name line args) := by
  have hextremum : AnswersIn S P (resolve functions .max name line args) := by
    unfold resolve
    dsimp only
    split
    · exact answersIn_ite (answersIn_ok _) (answersIn_fail hline _)
    · exact answersIn_fail hline _
  cases callee with
  | print => exact answersIn_ite (answersIn_ok _) (answersIn_fail hline _)
  | max | min => exact hextremum
  | user =>
    cases hsame : sameArity functions name args with
    | nil =>
      rw [sameArity] at hsame
      rw [resolve, hsame]
      exact answersIn_fail hline _
    | cons first others =>
      cases hfitting : (first :: others).filter fun f => (mismatch? f args).isNone with
      | nil =>
        have hnone (f : Function) (hf : f ∈ first :: others) : (mismatch? f args).isSome := by
          simpa [Option.isSome_iff_ne_none] using filter_eq_nil_iff.1 hfitting f hf
        obtain ⟨i, ha, hp, -, hresolve⟩ := exists_unfit hsame hnone line
        rw [hresolve]
        exact answersIn_fail hline _
      | cons f rest =>
        rw [sameArity] at hsame
        rw [resolve, hsame]
        simp only [hfitting]
        cases rest with
        | nil => exact answersIn_ok _
        | cons => exact answersIn_fail hline _

/-! ## Expressions -/

theorem answersIn_arithmetic {site : Site} (hsite : ∀ l ∈ site.lines, S l) (τ : ValueType) :
    AnswersIn S P (arithmetic site τ) := by
  rw [Site.lines, forall_mem_cons] at hsite
  rw [arithmetic]
  split
  · split
    · rename_i x line hbare
      exact answersIn_fail (hsite.2 line (by simp [hbare])) _
    · exact answersIn_fail hsite.1 _
  · exact answersIn_ok _

mutual

/-- **A complete expression has a type or violates a rule in one of its lines.** -/
theorem answersIn_exprType : ∀ e : Expr, (¬ P → e.Complete) → (∀ l ∈ e.lines, S l) →
    AnswersIn S P (exprType functions sc e)
  | .missing, h, _ => answersIn_missing (by_contra fun hP => by cases h hP)
  | .untyped, _, _ => answersIn_ok _
  | .literal _, _, _ => answersIn_ok _
  | .var name line, _, hl => by
    have hline : S line := hl line mem_cons_self
    rw [exprType]
    cases sc.lookup? name with
    | none => exact answersIn_fail hline _
    | some v => exact answersIn_ite (answersIn_ok _) (answersIn_fail hline _)
  | .call callee name line args, h, hl => by
    rw [Expr.lines, forall_mem_cons] at hl
    rw [exprType]
    refine (answersIn_exprTypes args (fun hP => by cases h hP; assumption) hl.2).bind fun τs => ?_
    refine (answersIn_resolve _ _ hl.1 _).bind fun τ => ?_
    cases τ
    all_goals first | exact answersIn_fail hl.1 _ | exact answersIn_ok _
  | .negation a line, h, hl => by
    rw [Expr.lines, forall_mem_cons] at hl
    rw [exprType]
    refine (answersIn_exprType a (fun hP => by cases h hP; assumption) hl.2).bind fun τ => ?_
    exact answersIn_ite (answersIn_ok _) (answersIn_fail hl.1 _)
  | .logic a _ b _, h, hl => by
    have ha (hP : ¬ P) : a.Complete := by cases h hP; assumption
    have hb (hP : ¬ P) : b.Complete := by cases h hP; assumption
    simp only [Expr.lines, forall_mem_cons, forall_mem_append] at hl
    obtain ⟨hla, hlb, hal, hbl⟩ := hl
    rw [exprType]
    refine (answersIn_exprType a ha hal).bind fun τ => answersIn_ite (answersIn_fail hla _) ?_
    refine (answersIn_exprType b hb hbl).bind fun σ => ?_
    exact answersIn_ite (answersIn_ok _) (answersIn_fail hlb _)
  | .compare _ a sa b sb, h, hl => by
    have ha (hP : ¬ P) : a.Complete := by cases h hP; assumption
    have hb (hP : ¬ P) : b.Complete := by cases h hP; assumption
    simp only [Expr.lines, forall_mem_append] at hl
    obtain ⟨⟨hsa, hsb⟩, hal, hbl⟩ := hl
    rw [exprType]
    refine (answersIn_exprType a ha hal).bind fun τ => (answersIn_exprType b hb hbl).bind fun σ => ?_
    refine answersIn_ite ?_ ?_
    · exact answersIn_ite (answersIn_ok _) (answersIn_fail (hsb _ mem_cons_self) _)
    · refine (answersIn_arithmetic hsa _).bind fun _ => ?_
      exact (answersIn_arithmetic hsb _).bind fun _ => answersIn_ok _
  | .math a sa b sb, h, hl => by
    have ha (hP : ¬ P) : a.Complete := by cases h hP; assumption
    have hb (hP : ¬ P) : b.Complete := by cases h hP; assumption
    simp only [Expr.lines, forall_mem_append] at hl
    obtain ⟨⟨hsa, hsb⟩, hal, hbl⟩ := hl
    rw [exprType]
    refine (answersIn_exprType a ha hal).bind fun τ => (answersIn_arithmetic hsa _).bind fun _ => ?_
    refine (answersIn_exprType b hb hbl).bind fun σ => ?_
    exact (answersIn_arithmetic hsb _).bind fun _ => answersIn_ok _

theorem answersIn_exprTypes : ∀ es : List Expr, (¬ P → ∀ e ∈ es, e.Complete) →
    (∀ l ∈ Expr.linesOf es, S l) → AnswersIn S P (exprTypes functions sc es)
  | [], _, _ => answersIn_ok _
  | e :: es, h, hl => by
    rw [Expr.linesOf, forall_mem_append] at hl
    rw [exprTypes]
    refine (answersIn_exprType e (fun hP => h hP e mem_cons_self) hl.1).bind fun τ => ?_
    refine (answersIn_exprTypes es (fun hP e he => ?_) hl.2).bind fun τs => answersIn_ok _
    exact h hP e (mem_cons_of_mem _ he)

end

/-! ## Statements -/

theorem answersIn_checkTest {test : Expr} (h : ¬ P → test.Complete) {line : Int} (hline : S line)
    (hl : ∀ l ∈ test.lines, S l) : AnswersIn S P (checkTest c sc test line) := by
  rw [checkTest]
  refine (answersIn_exprType test h hl).bind fun τ => ?_
  exact answersIn_ite (answersIn_ok _) (answersIn_fail hline _)

theorem answersIn_checkValue {value : Expr × Int} (h : ¬ P → value.1.Complete)
    (hl : ∀ l ∈ valueLines (some value), S l) (target : ValueType) :
    AnswersIn S P (checkValue c sc value.1 value.2 target) := by
  rw [valueLines, forall_mem_cons] at hl
  rw [checkValue]
  refine (answersIn_exprType value.1 h hl.2).bind fun τ => ?_
  exact answersIn_ite (answersIn_ok _) (answersIn_fail hl.1 _)

theorem answersIn_checkCall (call : Expr) (h : ¬ P → (Statement.call call).Complete)
    (hl : ∀ l ∈ call.lines, S l) : AnswersIn S P (checkCall c sc call) := by
  cases call with
  | call callee name line args =>
    rw [Expr.lines, forall_mem_cons] at hl
    rw [checkCall]
    refine (answersIn_exprTypes args (fun hP => by cases h hP; assumption) hl.2).bind fun τs => ?_
    exact (answersIn_resolve _ _ hl.1 _).bind fun τ => answersIn_ok _
  | missing | untyped | literal _ | var _ _ | negation _ _ | logic _ _ _ _ | compare _ _ _ _ _
  | math _ _ _ _ => exact answersIn_missing (by_contra fun hP => by cases h hP)

theorem answersIn_checkVarDecl {init : Option (Expr × Int)} (h : ¬ P → ∀ p ∈ init, p.1.Complete)
    (name : Text) {line : Int} (hline : S line) (τ : ValueType) (hl : ∀ l ∈ valueLines init, S l) :
    AnswersIn S P (checkVarDecl c sc name line τ init) := by
  rw [checkVarDecl]
  refine answersIn_ite (answersIn_fail hline _) (answersIn_ite (answersIn_fail hline _) ?_)
  cases init with
  | none => exact answersIn_ok _
  | some p =>
    exact (answersIn_checkValue (fun hP => h hP p rfl) hl _).bind fun _ => answersIn_ok _

theorem answersIn_checkAssignment (a : Assignment) (h : ¬ P → a.Complete)
    (hl : ∀ l ∈ a.lines, S l) : AnswersIn S P (checkAssignment c sc a) := by
  rcases a with - | ⟨name, line, u⟩
  · exact answersIn_missing (by_contra fun hP => by cases h hP)
  · have hu (hP : ¬ P) : u.Complete := by cases h hP; assumption
    rw [Assignment.lines, forall_mem_cons] at hl
    obtain ⟨hline, hl⟩ := hl
    rw [checkAssignment]
    cases sc.lookup? name with
    | none => exact answersIn_fail hline _
    | some v =>
      cases u with
      | missing => exact answersIn_missing (by_contra fun hP => by cases hu hP)
      | nothing => exact answersIn_ok _
      | set value line' =>
        have hvalue (hP : ¬ P) : value.Complete := by cases hu hP; assumption
        have hl : ∀ l ∈ valueLines (some (value, line')), S l := hl
        exact (answersIn_checkValue hvalue hl _).bind fun _ => answersIn_ok _
      | combine value line' =>
        have hvalue (hP : ¬ P) : value.Complete := by cases hu hP; assumption
        rw [Update.lines, forall_mem_cons] at hl
        refine answersIn_ite (answersIn_fail hline _) (answersIn_ite (answersIn_fail hline _) ?_)
        refine (answersIn_exprType value hvalue hl.2).bind fun τ => ?_
        refine answersIn_ite (answersIn_fail hline _) ?_
        exact answersIn_ite (answersIn_ok _) (answersIn_fail hl.1 _)
      | increment =>
        refine answersIn_ite (answersIn_fail hline _) ?_
        exact answersIn_ite (answersIn_fail hline _) (answersIn_ok _)

theorem answersIn_checkReturn {value : Option (Expr × Int)} (h : ¬ P → ∀ p ∈ value, p.1.Complete)
    {line : Int} (hline : S line) (hl : ∀ l ∈ valueLines value, S l) :
    AnswersIn S P (checkReturn c sc line value) := by
  cases value with
  | none => exact answersIn_ite (answersIn_ok _) (answersIn_fail hline _)
  | some p =>
    refine answersIn_ite (answersIn_fail hline _) ?_
    exact (answersIn_checkValue (fun hP => h hP p rfl) hl _).bind fun _ => answersIn_ok _

mutual

/-- **A complete statement passes or violates a rule in one of its lines.** -/
theorem answersIn_checkStatement : ∀ (s : Statement) (sc : Scopes), (¬ P → s.Complete) →
    (∀ l ∈ s.lines, S l) → AnswersIn S P (checkStatement c s sc)
  | .missing, _, h, _ => answersIn_missing (by_contra fun hP => by cases h hP)
  | .other, _, _, _ => answersIn_ok _
  | .varDecl _ _ _ init, sc, h, hl => by
    rw [Statement.lines, forall_mem_cons] at hl
    rw [checkStatement]
    exact answersIn_checkVarDecl (fun hP => by cases h hP; assumption) _ hl.1 _ hl.2
  | .assign a, sc, h, hl => by
    rw [checkStatement]
    exact answersIn_checkAssignment a (fun hP => by cases h hP; assumption) hl
  | .call call, sc, h, hl => by
    rw [checkStatement]
    exact (answersIn_checkCall call h hl).bind fun _ => answersIn_ok _
  | .ret _ value, sc, h, hl => by
    rw [Statement.lines, forall_mem_cons] at hl
    rw [checkStatement]
    exact answersIn_checkReturn (fun hP => by cases h hP; assumption) hl.1 hl.2
  | .cond i, sc, h, hl => by
    rw [checkStatement]
    refine (answersIn_checkConditional i sc (fun hP => ?_) hl).bind fun _ => answersIn_ok _
    cases h hP; assumption
  | .forLoop init test _ step body, sc, h, hl => by
    have hinit (hP : ¬ P) : init.Complete := by cases h hP; assumption
    have htest (hP : ¬ P) : test.Complete := by cases h hP; assumption
    have hstep (hP : ¬ P) : step.Complete := by cases h hP; assumption
    have hbody (hP : ¬ P) : body.Complete := by cases h hP; assumption
    simp only [Statement.lines, forall_mem_cons, forall_mem_append] at hl
    obtain ⟨hline, ⟨⟨hinitl, htestl⟩, hstepl⟩, hbodyl⟩ := hl
    rw [checkStatement]
    refine (answersIn_checkStatement init _ hinit hinitl).bind fun sc => ?_
    refine (answersIn_checkTest htest hline htestl).bind fun _ => ?_
    refine (answersIn_checkAssignment step hstep hstepl).bind fun sc => ?_
    exact (answersIn_checkBlock body _ hbody hbodyl).bind fun sc => answersIn_ok _
  | .whileLoop test _ body, sc, h, hl => by
    have htest (hP : ¬ P) : test.Complete := by cases h hP; assumption
    have hbody (hP : ¬ P) : body.Complete := by cases h hP; assumption
    simp only [Statement.lines, forall_mem_cons, forall_mem_append] at hl
    obtain ⟨hline, htestl, hbodyl⟩ := hl
    rw [checkStatement]
    refine (answersIn_checkTest htest hline htestl).bind fun _ => ?_
    exact (answersIn_checkBlock body _ hbody hbodyl).bind fun sc => answersIn_ok _
  | .doWhile body test _, sc, h, hl => by
    have htest (hP : ¬ P) : test.Complete := by cases h hP; assumption
    have hbody (hP : ¬ P) : body.Complete := by cases h hP; assumption
    simp only [Statement.lines, forall_mem_cons, forall_mem_append] at hl
    obtain ⟨hline, htestl, hbodyl⟩ := hl
    rw [checkStatement]
    refine (answersIn_checkBlock body _ hbody hbodyl).bind fun sc => ?_
    exact (answersIn_checkTest htest hline htestl).bind fun _ => answersIn_ok _
  | .block b, sc, h, hl => by
    have hb (hP : ¬ P) : b.Complete := by cases h hP; assumption
    rw [checkStatement]
    exact (answersIn_checkBlock b _ hb hl).bind fun sc => answersIn_ok _

theorem answersIn_checkBlock : ∀ (b : Block) (sc : Scopes), (¬ P → b.Complete) →
    (∀ l ∈ b.lines, S l) → AnswersIn S P (checkBlock c b sc)
  | .missing, _, h, _ => answersIn_missing (by_contra fun hP => by cases h hP)
  | .nil, _, _, _ => answersIn_ok _
  | .cons _ s rest, sc, h, hl => by
    have hs (hP : ¬ P) : s.Complete := by cases h hP; assumption
    have hrest (hP : ¬ P) : rest.Complete := by cases h hP; assumption
    simp only [Block.lines, forall_mem_cons, forall_mem_append] at hl
    obtain ⟨hline, hsl, hrestl⟩ := hl
    rw [checkBlock]
    refine answersIn_ite (answersIn_fail hline _) ?_
    refine (answersIn_checkStatement s sc hs hsl).bind fun sc => ?_
    exact answersIn_checkBlock rest sc hrest hrestl

theorem answersIn_checkConditional : ∀ (i : Conditional) (sc : Scopes), (¬ P → i.Complete) →
    (∀ l ∈ i.lines, S l) → AnswersIn S P (checkConditional c i sc)
  | .branch test _ yes no, sc, h, hl => by
    have htest (hP : ¬ P) : test.Complete := by cases h hP; assumption
    have hyes (hP : ¬ P) : yes.Complete := by cases h hP; assumption
    have hno (hP : ¬ P) : no.Complete := by cases h hP; assumption
    simp only [Conditional.lines, forall_mem_cons, forall_mem_append] at hl
    obtain ⟨hline, ⟨htestl, hyesl⟩, hnol⟩ := hl
    rw [checkConditional]
    refine (answersIn_checkTest htest hline htestl).bind fun _ => ?_
    refine (answersIn_checkBlock yes _ hyes hyesl).bind fun sc => ?_
    exact (answersIn_checkAlternative no _ hno hnol).bind fun _ => answersIn_ok _

theorem answersIn_checkAlternative : ∀ (a : Alternative) (sc : Scopes), (¬ P → a.Complete) →
    (∀ l ∈ a.lines, S l) → AnswersIn S P (checkAlternative c a sc)
  | .none, _, _, _ => answersIn_ok _
  | .missing, _, h, _ => answersIn_missing (by_contra fun hP => by cases h hP)
  | .block b, sc, h, hl => by
    have hb (hP : ¬ P) : b.Complete := by cases h hP; assumption
    rw [checkAlternative]
    exact (answersIn_checkBlock b _ hb hl).bind fun sc => answersIn_ok _
  | .chain i, sc, h, hl => by
    rw [checkAlternative]
    exact answersIn_checkConditional i sc (fun hP => by cases h hP; assumption) hl

end

/-! ## Programs -/

theorem answersIn_declareParams : ∀ (ps : List Variable) (sc : Scopes),
    (∀ l ∈ ps.map Variable.line, S l) → AnswersIn S P (declareParams ps sc)
  | [], sc, _ => answersIn_ok sc
  | p :: ps, _, hl => by
    rw [map_cons, forall_mem_cons] at hl
    rw [declareParams]
    exact answersIn_ite (answersIn_fail hl.1 _) (answersIn_declareParams ps _ hl.2)

theorem answersIn_checkFunction {f : Function} (h : ¬ P → (blockOf f.body).Complete)
    (hl : ∀ l ∈ f.lines, S l) : AnswersIn S P (checkFunction functions f) := by
  simp only [Function.lines, forall_mem_cons, forall_mem_append] at hl
  obtain ⟨hline, hparams, hbody⟩ := hl
  rw [checkFunction]
  refine (answersIn_declareParams _ _ hparams).bind fun sc => ?_
  refine (answersIn_checkBlock _ sc h hbody).bind fun sc => ?_
  exact answersIn_ite (answersIn_fail hline _) (answersIn_ok _)

theorem answersIn_checkHeader (before : List Function) {f : Function} (hl : ∀ l ∈ f.lines, S l) :
    AnswersIn S P (checkHeader before f) := by
  simp only [Function.lines, forall_mem_cons, forall_mem_append, forall_mem_map] at hl
  obtain ⟨hline, hparams, -⟩ := hl
  rw [checkHeader]
  refine answersIn_ite (answersIn_ite (answersIn_fail hline _) (answersIn_ok _)) ?_
  refine answersIn_ite (answersIn_fail hline _) (answersIn_ite (answersIn_fail hline _) ?_)
  refine answersIn_ite (answersIn_fail hline _) ?_
  cases hfind : f.params.find? fun p => Java.isReserved p.name with
  | none => exact answersIn_ok _
  | some p => exact answersIn_fail (hparams p (mem_of_find?_eq_some hfind)) _

theorem answersIn_checkHeaders : ∀ (fs before : List Function), (∀ f ∈ fs, ∀ l ∈ f.lines, S l) →
    AnswersIn S P (checkHeaders before fs)
  | [], _, _ => answersIn_ok ()
  | f :: fs, before, hl => by
    rw [forall_mem_cons] at hl
    rw [checkHeaders]
    refine (answersIn_checkHeader before hl.1).bind fun _ => ?_
    exact answersIn_checkHeaders fs (before ++ [f]) hl.2

theorem answersIn_forM {f : Function → Except Failure Unit} :
    ∀ {fs : List Function}, (∀ a ∈ fs, AnswersIn S P (f a)) → AnswersIn S P (fs.forM f)
  | [], _ => answersIn_ok ()
  | a :: fs, h =>
    (h a (by simp)).bind fun _ => answersIn_forM fun b hb => h b (mem_cons_of_mem _ hb)

/-- **A program passes the check or violates a rule in one of its lines**, if its functions can be
    read and are complete. -/
theorem answersIn_check {root : Tree} (hroot : root.hasLabel Java.Label.program)
    (h : ¬ P → ∃ fs, functionsOf root = .ok fs ∧ ∀ f ∈ fs, (blockOf f.body).Complete)
    (hline : S root.line) (hl : ∀ fs, functionsOf root = .ok fs → ∀ f ∈ fs, ∀ l ∈ f.lines, S l) :
    AnswersIn S P (check root) := by
  cases hfs : functionsOf root with
  | error e =>
    rw [check, hroot, collect, hfs]
    refine answersIn_missing (by_contra fun hP => ?_)
    obtain ⟨fs, hok, -⟩ := h hP
    cases hfs.symm.trans hok
  | ok fs =>
    have hl := hl fs hfs
    have hcomplete (f : Function) (hf : f ∈ fs) (hP : ¬ P) : (blockOf f.body).Complete := by
      obtain ⟨fs', hok, hall⟩ := h hP
      cases hfs.symm.trans hok
      exact hall f hf
    have hcheck : check root = (checkHeaders [] fs >>= fun _ =>
        if fs.any Function.entry then fs.forM (checkFunction (fs.filter fun f => !f.entry))
        else fail root.line .entryPointMissing) := by
      rw [check, hroot, collect, hfs]
      simp only [Bool.not_true, Bool.false_eq_true, if_false, bind_assoc]
      congr 1
      funext _
      split <;> rfl
    rw [hcheck]
    refine (answersIn_checkHeaders fs [] hl).bind fun _ => ?_
    refine answersIn_ite ?_ (answersIn_fail hline _)
    exact answersIn_forM fun f hf => answersIn_checkFunction (hcomplete f hf) (hl f hf)

theorem answers_check {root : Tree} (hroot : root.hasLabel Java.Label.program)
    (h : ¬ P → ∃ fs, functionsOf root = .ok fs ∧ ∀ f ∈ fs, (blockOf f.body).Complete) :
    Answers P (check root) :=
  (answersIn_check (S := fun _ => True) hroot h trivial fun _ _ _ _ _ _ => trivial).answers

end JavaToCpp.Typing
