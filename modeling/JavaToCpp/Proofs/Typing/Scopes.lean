/-
  What statements do to the open scopes.
-/
import JavaToCpp.Proofs.Typing.Expression

namespace JavaToCpp

open Java (Env)

/-! ## Names and types -/

/-- The variables of a block with their types, in the order of their declarations. -/
def Frame.env (f : Frame) : Env := f.declared.reverse.map fun v => (v.name, v.type)

namespace Scopes

/-- The variables of the open blocks, the innermost first. -/
def shape (sc : Scopes) : List Env := sc.map Frame.env

/-- All variables, in the order of their declarations. -/
def env (sc : Scopes) : Env := sc.shape.reverse.flatten

/-- Adds variables to the innermost block. -/
def extend (D : Env) : List Env → List Env
  | [] => []
  | E :: Es => (E ++ D) :: Es

@[simp] theorem extend_nil (Es : List Env) : extend [] Es = Es := by
  cases Es <;> simp [extend]

theorem extend_extend (D D' : Env) (Es : List Env) : extend D' (extend D Es) = extend (D ++ D') Es := by
  cases Es <;> simp [extend]

variable (sc : Scopes) (x : Text)

@[simp] theorem shape_push : sc.push.shape = [] :: sc.shape := rfl

@[simp] theorem shape_declare (v : Variable) :
    (sc.declare v).shape = extend [(v.name, v.type)] sc.shape := by
  cases sc <;> simp [declare, shape, extend, Frame.env]

@[simp] theorem shape_markReturned : sc.markReturned.shape = sc.shape := by
  cases sc <;> rfl

@[simp] theorem shape_drop : Scopes.shape (sc.drop 1) = sc.shape.drop 1 := List.map_drop

theorem map_initializeIn : ∀ vs : List Variable,
    (initializeIn x vs).map (fun v => (v.name, v.type)) = vs.map fun v => (v.name, v.type)
  | [] => rfl
  | v :: vs => by
    rw [initializeIn]
    split
    · rfl
    · rw [List.map_cons, List.map_cons, map_initializeIn vs]

@[simp] theorem shape_setInitialized : (setInitialized x sc).shape = sc.shape := by
  induction sc with
  | nil => rfl
  | cons f sc ih =>
    rw [setInitialized]
    split
    · simp [shape, Frame.env, map_initializeIn]
    · exact congrArg (f.env :: ·) ih

variable {sc x}

theorem mem_env {q : Text × ValueType} : q ∈ sc.env ↔ ∃ f ∈ sc, ∃ v ∈ f.declared, (v.name, v.type) = q := by
  simp [env, shape, Frame.env]

theorem mem_env_of_lookup? {v : Variable} (h : sc.lookup? x = some v) : (x, v.type) ∈ sc.env := by
  obtain ⟨f, hf, hv⟩ := List.exists_of_findSome?_eq_some h
  have hx : v.name = x := by simpa using List.find?_some hv
  exact mem_env.2 ⟨f, hf, v, List.mem_of_find?_eq_some hv, by rw [hx]⟩

theorem not_mem_env_of_lookup? (h : sc.lookup? x = none) : x ∉ sc.env.map Prod.fst := by
  intro hx
  obtain ⟨q, hq, rfl⟩ := List.mem_map.1 hx
  obtain ⟨f, hf, v, hv, rfl⟩ := mem_env.1 hq
  have hfind := List.findSome?_eq_none_iff.1 h f hf
  simpa using List.find?_eq_none.1 hfind v hv

end Scopes

namespace Typing

open Program Java Scopes

theorem in_env_of_holds {sc : Scopes} {x : Text} {τ : ValueType} (h : Holds sc x τ) : In sc.env x τ := by
  obtain ⟨v, hv, -, rfl⟩ := h
  exact mem_env_of_lookup? hv

/-! ## What a check that succeeds says -/

variable {c : Context} {sc sc' : Scopes} {e : Expr} {line : Int}

theorem checkValue_eq_ok {σ : ValueType} :
    checkValue c sc e line σ = .ok () ↔ ∃ τ, exprType c.functions sc e = .ok τ ∧ τ.fits σ := by
  rw [checkValue, bind_eq_ok]
  refine exists_congr fun τ => and_congr_right fun _ => ?_
  by_cases h : τ.fits σ <;> simp [h, fail, pure, Except.pure]

theorem checkTest_eq_ok : checkTest c sc e line = .ok () ↔ exprType c.functions sc e = .ok .boolean := by
  rw [checkTest, bind_eq_ok]
  constructor
  · rintro ⟨τ, hτ, h⟩
    split at h
    · simp_all
    · cases h
  · exact fun h => ⟨.boolean, h, rfl⟩

theorem checkVarDecl_ok {name : Text} {type : ValueType}
    {init : Option (Expr × Int)} (h : checkVarDecl c sc name line type init = .ok sc') :
    sc'.shape = extend [(name, type)] sc.shape ∧ isReserved name = false ∧
    sc.lookup? name = none ∧ ∀ q ∈ init, ∃ τ,
      exprType c.functions (sc.declare ⟨name, type, false, line⟩) q.1 = .ok τ ∧ τ.fits type := by
  rw [checkVarDecl] at h
  split at h
  · cases h
  · rename_i hres
    split at h
    · cases h
    · rename_i hnew
      rw [Bool.not_eq_true] at hres
      rw [Option.not_isSome_iff_eq_none] at hnew
      cases init with
      | none =>
        cases h
        exact ⟨shape_declare .., hres, hnew, nofun⟩
      | some e =>
        obtain ⟨_, hvalue, h⟩ := bind_eq_ok.1 h
        cases h
        refine ⟨by rw [shape_setInitialized, shape_declare], hres, hnew, ?_⟩
        rintro q ⟨⟩
        exact checkValue_eq_ok.1 hvalue

/-- What an assignment to a variable of type `σ` asks of its value. -/
def Fitting (fs : List Function) (sc : Scopes) (σ : ValueType) : Update → Prop
  | .set e _ => ∃ τ, exprType fs sc e = .ok τ ∧ τ.fits σ
  | .combine e _ => σ ≠ .boolean ∧ ∃ τ, exprType fs sc e = .ok τ ∧ τ ≠ .boolean ∧ τ.fits σ
  | .increment => σ ≠ .boolean
  | _ => True

theorem checkAssignment_ok {name : Text} {u : Update}
    (h : checkAssignment c sc (.to name line u) = .ok sc') :
    sc'.shape = sc.shape ∧ ∃ σ, In sc.env name σ ∧ Fitting c.functions sc σ u := by
  rw [checkAssignment] at h
  cases hv : sc.lookup? name with
  | none => simp [hv, fail] at h
  | some v =>
    rw [hv] at h
    have hin := mem_env_of_lookup? hv
    cases u with
    | missing => cases h
    | nothing =>
      cases h
      exact ⟨rfl, v.type, hin, trivial⟩
    | set e line' =>
      obtain ⟨_, hvalue, h⟩ := bind_eq_ok.1 h
      cases h
      exact ⟨shape_setInitialized .., v.type, hin, checkValue_eq_ok.1 hvalue⟩
    | combine e line' =>
      simp only at h
      split at h
      · cases h
      · split at h
        · cases h
        · obtain ⟨τ, hτ, h⟩ := bind_eq_ok.1 h
          split at h
          · cases h
          · split at h
            · cases h
              exact ⟨rfl, v.type, hin, ‹_›, τ, hτ, ‹_›, ‹_›⟩
            · cases h
    | increment =>
      simp only at h
      split at h
      · cases h
      · split at h
        · cases h
        · cases h
          exact ⟨rfl, v.type, hin, ‹_›⟩

theorem shape_checkAssignment {a : Assignment} (h : checkAssignment c sc a = .ok sc') :
    sc'.shape = sc.shape := by
  match a with
  | .missing => cases h
  | .to .. => exact (checkAssignment_ok h).1

theorem checkStatement_call :
    checkStatement c (.call e) sc = .ok sc' ↔ sc' = sc ∧ ∃ τ, callType c.functions sc e = .ok τ := by
  rw [checkStatement, bind_eq_ok]
  cases e with
  | call callee name line args =>
    simp only [checkCall, callType, bind_eq_ok, pure, Except.pure, Except.ok.injEq]
    constructor
    · rintro ⟨_, ⟨τs, hτs, τ, hτ, -⟩, rfl⟩
      exact ⟨rfl, τ, τs, hτs, hτ⟩
    · rintro ⟨rfl, τ, τs, hτs, hτ⟩
      exact ⟨(), ⟨τs, hτs, τ, hτ, trivial⟩, rfl⟩
  | _ => simp [checkCall, callType]

theorem checkReturn_ok {value : Option (Expr × Int)} (h : checkReturn c sc line value = .ok sc') :
    sc'.shape = sc.shape ∧ match value with
      | some (e, _) => ∃ τ, exprType c.functions sc e = .ok τ ∧ τ.fits c.current.returns
      | none => c.current.returns = .void := by
  cases value with
  | none =>
    rw [checkReturn] at h
    split at h
    · cases h
      exact ⟨shape_markReturned _, ‹_›⟩
    · cases h
  | some q =>
    obtain ⟨e, line'⟩ := q
    rw [checkReturn] at h
    split at h
    · cases h
    · obtain ⟨_, hvalue, h⟩ := bind_eq_ok.1 h
      cases h
      exact ⟨shape_markReturned _, checkValue_eq_ok.1 hvalue⟩

/-! ## What statements change -/

/-- What a statement declares for the statements behind it. -/
def declaredBy : Statement → Env
  | .varDecl name _ type _ => [(name, type)]
  | _ => []

def declaredIn : Block → Env
  | .cons _ s rest => declaredBy s ++ declaredIn rest
  | _ => []

theorem shape_noteReturned (returned : Bool) (sc : Scopes) :
    (noteReturned returned sc).shape = sc.shape := by
  cases returned
  · rfl
  · exact shape_markReturned sc

theorem shape_leave {D : Env} (h : sc'.shape = extend D sc.push.shape) :
    (leave sc').2.shape = sc.shape := by
  rw [show (leave sc').2 = sc'.drop 1 from rfl, shape_drop, h]
  rfl

mutual

theorem shape_checkStatement : (s : Statement) → (sc : Scopes) → {sc' : Scopes} →
    checkStatement c s sc = .ok sc' → sc'.shape = extend (declaredBy s) sc.shape
  | .missing, _, _, h => by cases h
  | .other, sc, _, h => by
    cases h
    exact (extend_nil _).symm
  | .varDecl .., sc, _, h => (checkVarDecl_ok h).1
  | .assign a, sc, _, h => (shape_checkAssignment h).trans (extend_nil _).symm
  | .call e, sc, _, h => by
    obtain ⟨_, -, h⟩ := bind_eq_ok.1 h
    cases h
    exact (extend_nil _).symm
  | .ret .., sc, _, h => (checkReturn_ok h).1.trans (extend_nil _).symm
  | .cond b, sc, _, h => by
    obtain ⟨⟨r, sc₁⟩, hb, h⟩ := bind_eq_ok.1 h
    cases h
    exact (shape_noteReturned ..).trans ((shape_checkConditional b sc hb).trans (extend_nil _).symm)
  | .forLoop init test line step body, sc, _, h => by
    obtain ⟨sc₁, hinit, h⟩ := bind_eq_ok.1 h
    obtain ⟨_, -, h⟩ := bind_eq_ok.1 h
    obtain ⟨sc₂, hstep, h⟩ := bind_eq_ok.1 h
    obtain ⟨sc₃, hbody, h⟩ := bind_eq_ok.1 h
    cases h
    have hloop : sc₂.shape = extend (declaredBy init) sc.push.shape :=
      (shape_checkAssignment hstep).trans (shape_checkStatement init sc.push hinit)
    have hinner := shape_leave (shape_checkBlock body sc₂.push hbody)
    exact (shape_leave (hinner.trans hloop)).trans (extend_nil _).symm
  | .whileLoop test line body, sc, _, h => by
    obtain ⟨_, -, h⟩ := bind_eq_ok.1 h
    obtain ⟨sc₁, hbody, h⟩ := bind_eq_ok.1 h
    cases h
    exact (shape_leave (shape_checkBlock body sc.push hbody)).trans (extend_nil _).symm
  | .doWhile body test line, sc, _, h => by
    obtain ⟨sc₁, hbody, h⟩ := bind_eq_ok.1 h
    obtain ⟨_, -, h⟩ := bind_eq_ok.1 h
    cases h
    exact (shape_leave (shape_checkBlock body sc.push hbody)).trans (extend_nil _).symm
  | .block b, sc, _, h => by
    obtain ⟨sc₁, hbody, h⟩ := bind_eq_ok.1 h
    cases h
    exact (shape_noteReturned ..).trans
      ((shape_leave (shape_checkBlock b sc.push hbody)).trans (extend_nil _).symm)

theorem shape_checkBlock : (b : Block) → (sc : Scopes) → {sc' : Scopes} →
    checkBlock c b sc = .ok sc' → sc'.shape = extend (declaredIn b) sc.shape
  | .missing, _, _, h => by cases h
  | .nil, sc, _, h => by
    cases h
    exact (extend_nil _).symm
  | .cons line s rest, sc, _, h => by
    rw [checkBlock] at h
    split at h
    · cases h
    · obtain ⟨sc₁, hs, h⟩ := bind_eq_ok.1 h
      rw [shape_checkBlock rest sc₁ h, shape_checkStatement s sc hs, extend_extend, declaredIn]

theorem shape_checkConditional : (b : Conditional) → (sc : Scopes) → {r : Bool × Scopes} →
    checkConditional c b sc = .ok r → r.2.shape = sc.shape
  | .branch test line yes no, sc, _, h => by
    obtain ⟨_, -, h⟩ := bind_eq_ok.1 h
    obtain ⟨sc₁, hyes, h⟩ := bind_eq_ok.1 h
    obtain ⟨⟨r, sc₂⟩, hno, h⟩ := bind_eq_ok.1 h
    cases h
    exact (shape_checkAlternative no _ hno).trans (shape_leave (shape_checkBlock yes sc.push hyes))

theorem shape_checkAlternative : (b : Alternative) → (sc : Scopes) → {r : Bool × Scopes} →
    checkAlternative c b sc = .ok r → r.2.shape = sc.shape
  | .none, sc, _, h => by
    cases h
    rfl
  | .missing, _, _, h => by cases h
  | .block b, sc, _, h => by
    obtain ⟨sc₁, hbody, h⟩ := bind_eq_ok.1 h
    cases h
    exact shape_leave (shape_checkBlock b sc.push hbody)
  | .chain b, sc, _, h => shape_checkConditional b sc h

end

end Typing

end JavaToCpp
