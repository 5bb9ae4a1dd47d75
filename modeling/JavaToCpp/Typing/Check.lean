/-
  The rules of the language.

  A program is checked function by function after all headers have been collected.  Expressions
  have a type in the scopes that are open, statements change the scopes.  The first violation, in
  the order of evaluation, is the answer.
-/
import JavaToCpp.Java.Lexicon
import JavaToCpp.Program.OfTree
import JavaToCpp.Typing.Violation

namespace JavaToCpp.Typing

open Program

inductive Failure where
  /-- the tree is not that of a program -/
  | notProgram
  /-- the tree lacks a node that is needed -/
  | missing
  | violation (v : Violation)
deriving DecidableEq, Repr

def fail {α : Type} (line : Int) (cause : Violation.Cause) : Except Failure α :=
  .error (.violation ⟨line, cause⟩)

/-- What a function body is checked against: the functions that can be called and the function
    that the body belongs to. -/
structure Context where
  functions : List Function
  current : Function
deriving Repr

/-! ## Expressions -/

def arithmetic (site : Site) (t : ValueType) : Except Failure Unit :=
  if t = .boolean then
    match site.bare with
    | some (name, line) => fail line (.booleanVarMathExpr name)
    | none => fail site.line .booleanMathExpr
  else .ok ()

/-- The first argument that does not fit its parameter, with the type of the parameter. -/
def mismatch? (f : Function) (args : List ValueType) : Option (ValueType × ValueType) :=
  (args.zip (f.params.map Variable.type)).find? fun (arg, param) => !arg.fits param

def resolve (functions : List Function) (callee : Callee) (name : Text) (line : Int)
    (args : List ValueType) : Except Failure ValueType :=
  match callee with
  | .print => if args.length = 1 then .ok .void else fail line (.funcParamsMismatch name)
  | .max | .min =>
    match args with
    | [a, b] =>
      if a.isNumeric && b.isNumeric then .ok (a.widest b) else fail line (.funcParamsMismatch name)
    | _ => fail line (.funcParamsMismatch name)
  | .user =>
    match functions.filter fun f => f.name == name && f.params.length == args.length with
    | [] => fail line (.funcNoDecl name)
    | first :: others =>
      match (first :: others).filter fun f => (mismatch? f args).isNone with
      | [] =>
        match mismatch? first args with
        | some (got, want) => fail line (.typesNotFit got want)
        | none => .error .missing
      | [f] => .ok f.returns
      | _ => fail line (.funcAmbiguous name)

mutual

def exprType (functions : List Function) (sc : Scopes) : Expr → Except Failure ValueType
  | .missing => .error .missing
  | .untyped => .ok .void
  | .literal t => .ok t
  | .var name line =>
    match sc.lookup? name with
    | none => fail line (.varNoDecl name)
    | some v => if v.initialized then .ok v.type else fail line (.varNoInit name)
  | .call callee name line args => do
    let types ← exprTypes functions sc args
    match ← resolve functions callee name line types with
    | .void => fail line (.voidValue name)
    | t => return t
  | .negation arg line => do
    let t ← exprType functions sc arg
    if t = .boolean then return .boolean else fail line (.typesNotFit t .boolean)
  | .logic left leftLine right rightLine => do
    let l ← exprType functions sc left
    if l ≠ .boolean then fail leftLine (.typesNotFit l .boolean)
    else
      let r ← exprType functions sc right
      if r = .boolean then return .boolean else fail rightLine (.typesNotFit r .boolean)
  | .compare equality left leftSite right rightSite => do
    let l ← exprType functions sc left
    let r ← exprType functions sc right
    if equality then
      if (l = .boolean) = (r = .boolean) then return .boolean
      else fail rightSite.line (.typesNotFit r l)
    else
      arithmetic leftSite l
      arithmetic rightSite r
      return .boolean
  | .math left leftSite right rightSite => do
    let l ← exprType functions sc left
    arithmetic leftSite l
    let r ← exprType functions sc right
    arithmetic rightSite r
    return l.widest r

def exprTypes (functions : List Function) (sc : Scopes) : List Expr → Except Failure (List ValueType)
  | [] => .ok []
  | e :: es => do
    let t ← exprType functions sc e
    return t :: (← exprTypes functions sc es)

end

def checkTest (c : Context) (sc : Scopes) (test : Expr) (line : Int) : Except Failure Unit := do
  let t ← exprType c.functions sc test
  if t = .boolean then return () else fail line (.typesNotFit t .boolean)

/-! ## Statements -/

def checkCall (c : Context) (sc : Scopes) : Expr → Except Failure Unit
  | .call callee name line args => do
    let types ← exprTypes c.functions sc args
    let _ ← resolve c.functions callee name line types
    return ()
  | _ => .error .missing

def checkValue (c : Context) (sc : Scopes) (value : Expr) (line : Int) (target : ValueType) :
    Except Failure Unit := do
  let t ← exprType c.functions sc value
  if t.fits target then return () else fail line (.typesNotFit t target)

def checkVarDecl (c : Context) (sc : Scopes) (name : Text) (line : Int) (type : ValueType)
    (init : Option (Expr × Int)) : Except Failure Scopes := do
  if Java.isReserved name then fail line (.idKeyword name)
  else if (sc.lookup? name).isSome then fail line (.varMultipleDecl name)
  else
    let sc := sc.declare ⟨name, type, false, line⟩
    match init with
    | none => return sc
    | some (value, valueLine) =>
      checkValue c sc value valueLine type
      return sc.setInitialized name

def checkAssignment (c : Context) (sc : Scopes) : Assignment → Except Failure Scopes
  | .missing => .error .missing
  | .to name line update =>
    match sc.lookup? name with
    | none => fail line (.varNoDecl name)
    | some v =>
      match update with
      | .missing => .error .missing
      | .nothing => .ok sc
      | .set value valueLine => do
        checkValue c sc value valueLine v.type
        return sc.setInitialized name
      | .combine value valueLine => do
        if !v.initialized then fail line (.varNoInit name)
        else if v.type = .boolean then fail line .booleanOpAssign
        else
          let t ← exprType c.functions sc value
          if t = .boolean then fail line .booleanOpAssign
          else if t.fits v.type then return sc
          else fail valueLine (.typesNotFit t v.type)
      | .increment =>
        if v.type = .boolean then fail line .booleanIncrement
        else if !v.initialized then fail line (.varNoInit name)
        else .ok sc

/-- Checks a return and notes that the block has returned. -/
def checkReturn (c : Context) (sc : Scopes) (line : Int) (value : Option (Expr × Int)) :
    Except Failure Scopes := do
  match value with
  | some (e, valueLine) =>
    if c.current.returns = .void then fail line (.funcVoidReturn c.current.name)
    else
      checkValue c sc e valueLine c.current.returns
      return sc.markReturned
  | none =>
    if c.current.returns = .void then return sc.markReturned
    else fail line (.returnMissingValue c.current.name)

/-- Closes a block: whether it has returned, and the scopes around it. -/
def leave (sc : Scopes) : Bool × Scopes := (sc.returned, sc.drop 1)

/-- The scopes with the innermost block returned if `returned` says so. -/
def noteReturned (returned : Bool) (sc : Scopes) : Scopes := if returned then sc.markReturned else sc

mutual

def checkStatement (c : Context) : Statement → Scopes → Except Failure Scopes
  | .missing, _ => .error .missing
  | .other, sc => .ok sc
  | .varDecl name line type init, sc => checkVarDecl c sc name line type init
  | .assign a, sc => checkAssignment c sc a
  | .call call, sc => do
    checkCall c sc call
    return sc
  | .ret line value, sc => checkReturn c sc line value
  | .cond cond, sc => do
    let (returned, sc) ← checkConditional c cond sc
    return noteReturned returned sc
  | .forLoop init test testLine step body, sc => do
    let sc ← checkStatement c init sc.push
    checkTest c sc test testLine
    let sc ← checkAssignment c sc step
    let sc ← checkBlock c body sc.push
    return (leave (leave sc).2).2
  | .whileLoop test testLine body, sc => do
    checkTest c sc test testLine
    let sc ← checkBlock c body sc.push
    return (leave sc).2
  | .doWhile body test testLine, sc => do
    let sc ← checkBlock c body sc.push
    let sc := (leave sc).2
    checkTest c sc test testLine
    return sc
  | .block b, sc => do
    let sc ← checkBlock c b sc.push
    let (returned, sc) := leave sc
    return noteReturned returned sc

def checkBlock (c : Context) : Block → Scopes → Except Failure Scopes
  | .missing, _ => .error .missing
  | .nil, sc => .ok sc
  | .cons line s rest, sc => do
    if sc.returned then fail line .unreachableCode
    else
      let sc ← checkStatement c s sc
      checkBlock c rest sc

/-- Checks an if; whether every branch returns, and the scopes after it. -/
def checkConditional (c : Context) : Conditional → Scopes → Except Failure (Bool × Scopes)
  | .branch test testLine yes no, sc => do
    checkTest c sc test testLine
    let sc ← checkBlock c yes sc.push
    let (yesReturned, sc) := leave sc
    let (noReturned, sc) ← checkAlternative c no sc
    return (yesReturned && noReturned, sc)

/-- Checks what an if does otherwise; without such a branch the if can always be left. -/
def checkAlternative (c : Context) : Alternative → Scopes → Except Failure (Bool × Scopes)
  | .none, sc => .ok (false, sc)
  | .missing, _ => .error .missing
  | .block b, sc => do
    let sc ← checkBlock c b sc.push
    return leave sc
  | .chain cond, sc => checkConditional c cond sc

end

/-! ## Functions and programs -/

def declareParams : List Variable → Scopes → Except Failure Scopes
  | [], sc => .ok sc
  | p :: ps, sc =>
    if (sc.lookup? p.name).isSome then fail p.line (.varMultipleDecl p.name)
    else declareParams ps (sc.declare { p with initialized := true })

def checkFunction (functions : List Function) (f : Function) : Except Failure Unit := do
  let sc ← declareParams f.params (Scopes.push [])
  let sc ← checkBlock ⟨functions, f⟩ (blockOf f.body) sc
  if f.returns ≠ .void && !sc.returned then fail f.line (.returnNotExists f.name)

def checkHeader (before : List Function) (f : Function) : Except Failure Unit := do
  if f.entry then
    if before.any Function.entry then fail f.line (.funcMultipleDecl f.name)
  else if Java.isReserved f.name then fail f.line (.idKeyword f.name)
  else if f.name = Text.ofString "main" then fail f.line (.funcMultipleDecl f.name)
  else if before.any fun g => !g.entry && g.name == f.name && g.sameParams f then
    fail f.line (.funcMultipleDecl f.name)
  else
    match f.params.find? fun p => Java.isReserved p.name with
    | some p => fail p.line (.idKeyword p.name)
    | none => return ()

def checkHeaders : (before : List Function) → List Function → Except Failure Unit
  | _, [] => .ok ()
  | before, f :: fs => do
    checkHeader before f
    checkHeaders (before ++ [f]) fs

def collect (root : Tree) : Except Failure (List Function) := do
  match functionsOf root with
  | .error _ => .error .missing
  | .ok functions =>
    checkHeaders [] functions
    if functions.any Function.entry then return functions
    else fail root.line .entryPointMissing

def check (root : Tree) : Except Failure Unit := do
  if !root.hasLabel Java.Label.program then .error .notProgram
  else
    let functions ← collect root
    functions.forM (checkFunction (functions.filter fun f => !f.entry))

end JavaToCpp.Typing
