/-
  The check without lines.

  The rules never look at a line; lines only tell where a violation is.  So the check of a program
  without lines is the check of the program, up to the line of the violation.
-/
import JavaToCpp.Proofs.Program.Plain
import JavaToCpp.Typing.Check

namespace JavaToCpp

open List Scopes

/-! ## Scopes -/

def Frame.plain (f : Frame) : Frame := { f with declared := f.declared.map Variable.plain }

namespace Scopes

def plain (s : Scopes) : Scopes := s.map Frame.plain

theorem push_plain (s : Scopes) : s.plain.push = s.push.plain := rfl

theorem drop_plain (s : Scopes) (n : Nat) : s.plain.drop n = plain (s.drop n) := map_drop.symm

theorem returned_plain (s : Scopes) : s.plain.returned = s.returned := by
  cases s <;> rfl

theorem markReturned_plain (s : Scopes) : s.plain.markReturned = s.markReturned.plain := by
  cases s <;> rfl

theorem declare_plain (s : Scopes) (v : Variable) :
    s.plain.declare v.plain = (s.declare v).plain := by
  cases s <;> rfl

theorem lookup?_plain (s : Scopes) (name : Text) :
    s.plain.lookup? name = (s.lookup? name).map Variable.plain := by
  have hfind (f : Frame) : (f.plain.declared.find? fun v => v.name == name) =
      (f.declared.find? fun v => v.name == name).map Variable.plain := find?_map
  induction s with
  | nil => rfl
  | cons f s ih =>
    rw [lookup?, lookup?, plain, map_cons, findSome?_cons, findSome?_cons, hfind]
    cases f.declared.find? fun v => v.name == name with
    | some v => rfl
    | none => exact ih

theorem initializeIn_plain (name : Text) (vs : List Variable) :
    initializeIn name (vs.map Variable.plain) = (initializeIn name vs).map Variable.plain := by
  induction vs with
  | nil => rfl
  | cons v vs ih =>
    rw [map_cons, initializeIn, initializeIn, ih, apply_ite (map Variable.plain)]
    rfl

theorem setInitialized_plain (name : Text) (s : Scopes) :
    s.plain.setInitialized name = (s.setInitialized name).plain := by
  induction s with
  | nil => rfl
  | cons f s ih =>
    have hany : (f.plain.declared.any fun v => v.name == name) =
        f.declared.any fun v => v.name == name := any_map
    change setInitialized name (f.plain :: plain s) = _
    rw [setInitialized, setInitialized, hany, ih, apply_ite plain]
    congr 1
    rw [Frame.plain, initializeIn_plain]
    rfl

end Scopes

namespace Typing

open Program

variable {α β γ : Type}

/-! ## Answers -/

def Failure.plain : Failure → Failure
  | notProgram => notProgram
  | missing => missing
  | violation v => violation { v with line := 0 }

/-- The answer without the line of its violation. -/
def blind (f : α → β) : Except Failure α → Except Failure β
  | .ok a => .ok (f a)
  | .error e => .error e.plain

theorem blind_id (x : Except Failure α) : blind id x = x.mapError Failure.plain := by
  cases x <;> rfl

theorem blind_bind {δ : Type} {x : Except Failure α} {k : α → Except Failure γ}
    {k' : β → Except Failure δ} {f : α → β} {h : γ → δ} (hk : ∀ a, k' (f a) = blind h (k a)) :
    blind f x >>= k' = blind h (x >>= k) := by
  cases x with
  | error e => rfl
  | ok a => exact hk a

/-! ## Expressions -/

variable {fs : List Function} {sc : Scopes}

theorem mismatch?_plain (f : Function) (args : List ValueType) :
    mismatch? f.plain args = mismatch? f args := by
  rw [mismatch?, mismatch?, Function.plain, map_map]
  rfl

theorem filter_functions_plain (fs : List Function) {p : Function → Bool} (h : ∀ f, p f.plain = p f) :
    (fs.map Function.plain).filter p = (fs.filter p).map Function.plain := by
  rw [filter_map]
  congr 2
  exact funext h

theorem resolve_plain (callee : Callee) (name : Text) (line : Int) (args : List ValueType) :
    resolve (fs.map Function.plain) callee name 0 args = blind id (resolve fs callee name line args) := by
  have hextremum : resolve (fs.map Function.plain) .max name 0 args =
      blind id (resolve fs .max name line args) := by
    rcases args with - | ⟨a, - | ⟨b, - | ⟨c, args⟩⟩⟩
    · rfl
    · rfl
    · unfold resolve
      simp only [apply_ite (blind id)]
      rfl
    · rfl
  cases callee with
  | print =>
    unfold resolve
    simp only [apply_ite (blind id)]
    rfl
  | max | min => exact hextremum
  | user =>
    have hsame : (fs.map Function.plain).filter
          (fun f => f.name == name && f.params.length == args.length) =
        (fs.filter fun f => f.name == name && f.params.length == args.length).map Function.plain :=
      filter_functions_plain fs fun f => by simp [Function.plain]
    unfold resolve
    simp only [hsame]
    cases fs.filter fun f => f.name == name && f.params.length == args.length with
    | nil => rfl
    | cons first others =>
      have hfitting : (first.plain :: others.map Function.plain).filter
            (fun f => (mismatch? f args).isNone) =
          ((first :: others).filter fun f => (mismatch? f args).isNone).map Function.plain :=
        filter_functions_plain (first :: others) fun f => by rw [mismatch?_plain]
      simp only [map_cons, hfitting, mismatch?_plain]
      rcases (first :: others).filter fun f => (mismatch? f args).isNone with - | ⟨f, - | ⟨g, gs⟩⟩
      · cases mismatch? first args <;> rfl
      · rfl
      · rfl

theorem arithmetic_plain (site : Site) (t : ValueType) :
    arithmetic site.plain t = blind id (arithmetic site t) := by
  rw [arithmetic, arithmetic, apply_ite (blind id)]
  congr 1
  obtain ⟨line, bare⟩ := site
  cases bare <;> rfl

mutual

/-- **The type of an expression without lines.** -/
theorem exprType_plain : ∀ e : Expr,
    exprType (fs.map Function.plain) sc.plain e.plain = blind id (exprType fs sc e)
  | .missing | .untyped | .literal _ => rfl
  | .var name line => by
    rw [Expr.plain, exprType, exprType, lookup?_plain]
    cases sc.lookup? name with
    | none => rfl
    | some v =>
      simp only [Option.map_some, apply_ite (blind id)]
      rfl
  | .call callee name line args => by
    rw [Expr.plain, exprType, exprType, exprTypes_plain args]
    refine blind_bind fun types => ?_
    rw [id, resolve_plain callee name line]
    refine blind_bind fun t => ?_
    cases t <;> rfl
  | .negation arg line => by
    rw [Expr.plain, exprType, exprType, exprType_plain arg]
    refine blind_bind fun t => ?_
    rw [apply_ite (blind id)]
    rfl
  | .logic left leftLine right rightLine => by
    rw [Expr.plain, exprType, exprType, exprType_plain left, exprType_plain right]
    refine blind_bind fun l => ?_
    rw [apply_ite (blind id)]
    congr 1
    refine blind_bind fun r => ?_
    rw [apply_ite (blind id)]
    rfl
  | .compare equality left leftSite right rightSite => by
    rw [Expr.plain, exprType, exprType, exprType_plain left, exprType_plain right]
    refine blind_bind fun l => blind_bind fun r => ?_
    rw [arithmetic_plain, arithmetic_plain]
    simp only [apply_ite (blind id)]
    congr 1
    exact blind_bind fun _ => blind_bind fun _ => rfl
  | .math left leftSite right rightSite => by
    rw [Expr.plain, exprType, exprType, exprType_plain left, exprType_plain right]
    refine blind_bind fun l => ?_
    rw [arithmetic_plain]
    refine blind_bind fun _ => blind_bind fun r => ?_
    rw [arithmetic_plain]
    exact blind_bind fun _ => rfl

theorem exprTypes_plain : ∀ es : List Expr,
    exprTypes (fs.map Function.plain) sc.plain (Expr.plainAll es) = blind id (exprTypes fs sc es)
  | [] => rfl
  | e :: es => by
    rw [Expr.plainAll, exprTypes, exprTypes, exprType_plain e, exprTypes_plain es]
    exact blind_bind fun t => blind_bind fun ts => rfl

end

/-! ## Statements -/

def Context.plain (c : Context) : Context := ⟨c.functions.map Function.plain, c.current.plain⟩

variable {c : Context}

theorem checkTest_plain (test : Expr) (line : Int) :
    checkTest c.plain sc.plain test.plain 0 = blind id (checkTest c sc test line) := by
  rw [checkTest, checkTest, Context.plain, exprType_plain]
  refine blind_bind fun t => ?_
  rw [apply_ite (blind id)]
  rfl

theorem checkValue_plain (value : Expr) (line : Int) (target : ValueType) :
    checkValue c.plain sc.plain value.plain 0 target = blind id (checkValue c sc value line target) := by
  rw [checkValue, checkValue, Context.plain, exprType_plain]
  refine blind_bind fun t => ?_
  rw [apply_ite (blind id)]
  rfl

theorem checkCall_plain (call : Expr) :
    checkCall c.plain sc.plain call.plain = blind id (checkCall c sc call) := by
  cases call with
  | call callee name line args =>
    rw [Expr.plain, checkCall, checkCall, Context.plain, exprTypes_plain]
    refine blind_bind fun types => ?_
    rw [id, resolve_plain callee name line]
    exact blind_bind fun _ => rfl
  | missing | untyped | literal _ | var _ _ | negation _ _ | logic _ _ _ _ | compare _ _ _ _ _
  | math _ _ _ _ => rfl

theorem checkVarDecl_plain (name : Text) (line : Int) (type : ValueType)
    (init : Option (Expr × Int)) :
    checkVarDecl c.plain sc.plain name 0 type (init.map plainValue) =
      blind plain (checkVarDecl c sc name line type init) := by
  have hdeclare : sc.plain.declare ⟨name, type, false, 0⟩ =
      (sc.declare ⟨name, type, false, line⟩).plain :=
    declare_plain sc ⟨name, type, false, line⟩
  rw [checkVarDecl, checkVarDecl, lookup?_plain, Option.isSome_map, hdeclare]
  simp only [apply_ite (blind plain)]
  congr 2
  cases init with
  | none => rfl
  | some value =>
    simp only [Option.map_some, plainValue]
    rw [checkValue_plain value.1 value.2]
    refine blind_bind fun _ => ?_
    rw [setInitialized_plain]
    rfl

theorem checkAssignment_plain (a : Assignment) :
    checkAssignment c.plain sc.plain a.plain = blind plain (checkAssignment c sc a) := by
  rcases a with - | ⟨name, line, update⟩
  · rfl
  · rw [Assignment.plain, checkAssignment, checkAssignment, lookup?_plain]
    cases sc.lookup? name with
    | none => rfl
    | some v =>
      cases update with
      | missing => rfl
      | nothing => rfl
      | set value valueLine =>
        simp only [Option.map_some, Update.plain, setInitialized_plain]
        rw [checkValue_plain value valueLine]
        exact blind_bind fun _ => rfl
      | combine value valueLine =>
        simp only [Option.map_some, Update.plain, Context.plain, exprType_plain,
          apply_ite (blind plain)]
        congr 2
        refine blind_bind fun t => ?_
        simp only [apply_ite (blind plain)]
        rfl
      | increment =>
        simp only [Option.map_some, Update.plain, apply_ite (blind plain)]
        rfl

theorem checkReturn_plain (line : Int) (value : Option (Expr × Int)) :
    checkReturn c.plain sc.plain 0 (value.map plainValue) =
      blind plain (checkReturn c sc line value) := by
  cases value with
  | none =>
    simp only [checkReturn, Option.map_none, markReturned_plain,
      apply_ite (blind plain)]
    rfl
  | some value =>
    simp only [checkReturn, Option.map_some, plainValue, markReturned_plain,
      apply_ite (blind plain)]
    rw [checkValue_plain value.1 value.2]
    congr 1
    exact blind_bind fun _ => rfl

def plainLeft (r : Bool × Scopes) : Bool × Scopes := (r.1, r.2.plain)

theorem leave_plain (sc : Scopes) : leave sc.plain = plainLeft (leave sc) := by
  rw [leave, leave, plainLeft, returned_plain, drop_plain]

theorem noteReturned_plain (returned : Bool) (sc : Scopes) :
    noteReturned returned sc.plain = (noteReturned returned sc).plain := by
  rw [noteReturned, noteReturned, markReturned_plain, apply_ite plain]

mutual

/-- **The check of a statement without lines.** -/
theorem checkStatement_plain : ∀ (s : Statement) (sc : Scopes),
    checkStatement c.plain s.plain sc.plain = blind plain (checkStatement c s sc)
  | .missing, _ | .other, _ => rfl
  | .varDecl name line type init, sc => checkVarDecl_plain name line type init
  | .assign a, sc => checkAssignment_plain a
  | .call call, sc => by
    rw [Statement.plain, checkStatement, checkStatement, checkCall_plain]
    exact blind_bind fun _ => rfl
  | .ret line value, sc => checkReturn_plain line value
  | .cond cond, sc => by
    rw [Statement.plain, checkStatement, checkStatement, checkConditional_plain cond]
    refine blind_bind fun r => ?_
    exact congrArg Except.ok (noteReturned_plain r.1 r.2)
  | .forLoop init test testLine step body, sc => by
    rw [Statement.plain, checkStatement, checkStatement, push_plain, checkStatement_plain init]
    refine blind_bind fun sc => ?_
    rw [checkTest_plain test testLine, checkAssignment_plain]
    refine blind_bind fun _ => blind_bind fun sc => ?_
    rw [push_plain, checkBlock_plain body]
    refine blind_bind fun sc => ?_
    rw [leave_plain, plainLeft, leave_plain]
    rfl
  | .whileLoop test testLine body, sc => by
    rw [Statement.plain, checkStatement, checkStatement, checkTest_plain test testLine,
      push_plain, checkBlock_plain body]
    refine blind_bind fun _ => blind_bind fun sc => ?_
    rw [leave_plain]
    rfl
  | .doWhile body test testLine, sc => by
    rw [Statement.plain, checkStatement, checkStatement, push_plain, checkBlock_plain body]
    refine blind_bind fun sc => ?_
    simp only [leave_plain, plainLeft]
    rw [checkTest_plain test testLine]
    exact blind_bind fun _ => rfl
  | .block b, sc => by
    rw [Statement.plain, checkStatement, checkStatement, push_plain, checkBlock_plain b]
    refine blind_bind fun sc => ?_
    simp only [leave_plain, plainLeft, noteReturned_plain]
    rfl

theorem checkBlock_plain : ∀ (b : Block) (sc : Scopes),
    checkBlock c.plain b.plain sc.plain = blind plain (checkBlock c b sc)
  | .missing, _ | .nil, _ => rfl
  | .cons line s rest, sc => by
    rw [Block.plain, checkBlock, checkBlock, returned_plain, checkStatement_plain s,
      apply_ite (blind plain)]
    congr 1
    exact blind_bind fun sc => checkBlock_plain rest sc

theorem checkConditional_plain : ∀ (i : Conditional) (sc : Scopes),
    checkConditional c.plain i.plain sc.plain = blind plainLeft (checkConditional c i sc)
  | .branch test testLine yes no, sc => by
    rw [Conditional.plain, checkConditional, checkConditional, checkTest_plain test testLine,
      push_plain, checkBlock_plain yes]
    refine blind_bind fun _ => blind_bind fun sc => ?_
    simp only [leave_plain, plainLeft]
    rw [checkAlternative_plain no]
    exact blind_bind fun r => rfl

theorem checkAlternative_plain : ∀ (a : Alternative) (sc : Scopes),
    checkAlternative c.plain a.plain sc.plain = blind plainLeft (checkAlternative c a sc)
  | .none, _ | .missing, _ => rfl
  | .block b, sc => by
    rw [Alternative.plain, checkAlternative, checkAlternative, push_plain, checkBlock_plain b]
    refine blind_bind fun sc => ?_
    rw [leave_plain]
    rfl
  | .chain i, sc => by
    rw [Alternative.plain, checkAlternative, checkAlternative, checkConditional_plain i]

end

/-! ## Functions and programs -/

theorem declareParams_plain (ps : List Variable) (sc : Scopes) :
    declareParams (ps.map Variable.plain) sc.plain = blind plain (declareParams ps sc) := by
  induction ps generalizing sc with
  | nil => rfl
  | cons p ps ih =>
    have hdeclare : sc.plain.declare { p.plain with initialized := true } =
        (sc.declare { p with initialized := true }).plain :=
      declare_plain sc { p with initialized := true }
    rw [map_cons, declareParams, declareParams, lookup?_plain, Option.isSome_map, hdeclare,
      ih, apply_ite (blind plain)]
    rfl

theorem checkFunction_plain (f : Function) :
    checkFunction (fs.map Function.plain) f.plain = blind id (checkFunction fs f) := by
  have hpush : push [] = plain (push []) := rfl
  rw [checkFunction, checkFunction, hpush]
  change declareParams (f.params.map Variable.plain) _ >>= _ = _
  rw [declareParams_plain]
  refine blind_bind fun sc => ?_
  change checkBlock (Context.plain ⟨fs, f⟩) (blockOf f.body.plain) _ >>= _ = _
  rw [blockOf_plain, checkBlock_plain]
  refine blind_bind fun sc => ?_
  rw [returned_plain, apply_ite (blind id)]
  rfl

theorem any_plain (fs : List Function) {p : Function → Bool} (h : ∀ f, p f.plain = p f) :
    (fs.map Function.plain).any p = fs.any p := by
  rw [any_map]
  congr 1
  exact funext h

theorem sameParams_plain (f g : Function) : f.plain.sameParams g.plain = f.sameParams g := by
  simp only [Function.sameParams, Function.plain, map_map]
  rfl

theorem checkHeader_plain (before : List Function) (f : Function) :
    checkHeader (before.map Function.plain) f.plain = blind id (checkHeader before f) := by
  have hentry : (before.map Function.plain).any Function.entry = before.any Function.entry :=
    any_plain before fun g => rfl
  have hdeclared : (before.map Function.plain).any
        (fun g => !g.entry && g.name == f.plain.name && g.sameParams f.plain) =
      before.any fun g => !g.entry && g.name == f.name && g.sameParams f := by
    rw [any_map]
    congr 1
    exact funext fun g => congrArg (_ && ·) (sameParams_plain g f)
  have hreserved : (f.plain.params.find? fun p => Java.isReserved p.name) =
      (f.params.find? fun p => Java.isReserved p.name).map Variable.plain := find?_map
  rw [checkHeader, checkHeader, hentry, hdeclared, hreserved]
  simp only [apply_ite (blind id)]
  cases f.params.find? fun p => Java.isReserved p.name <;> rfl

theorem checkHeaders_plain (before fs : List Function) :
    checkHeaders (before.map Function.plain) (fs.map Function.plain) =
      blind id (checkHeaders before fs) := by
  induction fs generalizing before with
  | nil => rfl
  | cons f fs ih =>
    rw [map_cons, checkHeaders, checkHeaders, checkHeader_plain]
    refine blind_bind fun _ => ?_
    rw [← ih, map_append]
    rfl

theorem collect_plain (t : Tree) :
    collect t.plain = blind (map Function.plain) (collect t) := by
  rw [collect, collect, functionsOf_plain]
  cases functionsOf t with
  | error e => rfl
  | ok fs =>
    have hheaders := checkHeaders_plain [] fs
    simp only [Except.map, map_nil] at hheaders ⊢
    rw [hheaders]
    refine blind_bind fun _ => ?_
    rw [any_plain fs fun f => rfl, Tree.line_plain, apply_ite (blind (map Function.plain))]
    rfl

theorem forM_plain {k k' : Function → Except Failure Unit} (h : ∀ f, k' f.plain = blind id (k f))
    (fs : List Function) : (fs.map Function.plain).forM k' = blind id (fs.forM k) := by
  induction fs with
  | nil => rfl
  | cons f fs ih =>
    change k' f.plain >>= (fun _ => (fs.map Function.plain).forM k') =
      blind id (k f >>= fun _ => fs.forM k)
    rw [h, ih]
    exact blind_bind fun _ => rfl

/-- **The check of a plain tree** has the verdict of the tree, without the line. -/
theorem check_plain (t : Tree) : check t.plain = blind id (check t) := by
  rw [check, check, Tree.hasLabel_plain, collect_plain, apply_ite (blind id)]
  congr 1
  refine blind_bind fun fs => ?_
  rw [filter_functions_plain fs fun f => rfl]
  exact forM_plain checkFunction_plain fs

end Typing

end JavaToCpp
