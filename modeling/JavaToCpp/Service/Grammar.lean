/-
  The grammar of the service.

  An update puts a new grammar into use.  With a store it is first migrated there and takes its
  version from it; without one the version is counted.  A synchronisation installs the grammar
  that is stored if its version is not the one in use.
-/
import JavaToCpp.Service.Basic

namespace JavaToCpp.Service

inductive SourceFailure where
  | none
  | invalid (e : Grammar.LoadError)
  | failed (message : Text)
deriving Repr

inductive UpdateError where
  | empty
  | invalid (e : Grammar.LoadError)
  | noStart
  | migrate (f : Migration.Failure)
  | version (e : Store.Event)
deriving DecidableEq, Repr

def wording : Store.Wording := .bare

def UpdateError.message : UpdateError → Text
  | empty => "invalid input"
  | invalid e => "invalid grammar: " ++ e.message
  | noStart => "invalid grammar: missing start symbol " ++ Grammar.program
  | migrate f => "migrating grammar: " ++ f.message wording
  | version e => "getting grammar version: " ++ wording.describe e

structure Current where
  version : Int
  start : Symbol
  nonterminals : List Symbol
  text : Text
deriving DecidableEq, Repr

def current (s : Service) : Current :=
  ⟨s.version, s.grammar.start, s.grammar.nonterminals, s.grammar.render⟩

structure Updated where
  version : Int
  diff : Text
  changed : Bool
deriving DecidableEq, Repr

def readGrammar (text : Text) : Except UpdateError Grammar :=
  if text.isEmpty then .error .empty
  else
    match Grammar.load text with
    | .error e => .error (.invalid e)
    | .ok g => if g.start = Grammar.program then .ok g else .error .noStart

def onStore {ε α : Type} (st : Store) (a : Store.Action ε α) : Action ε α := fun s =>
  let (r, st) := a.run st
  (r, { s with store := some st })

def setGrammar (g : Grammar) : Action UpdateError Unit := modify fun s => { s with grammar := g }

def migrate (st : Store) (g : Grammar) (description : Text) : Action UpdateError (Option Text) :=
  ExceptT.adapt .migrate (onStore st (Migration.apply wording g description "api"))

/-- Takes the version from the store; the version is 0 if it cannot be read. -/
def readVersion (st : Store) : Action UpdateError Int := fun s =>
  match (ExceptT.adapt .version (onStore st Store.version) : Action UpdateError Int).run s with
  | (.ok v, s) => (.ok v, { s with version := v })
  | (.error e, s) => (.error e, { s with version := 0 })

def updateStored (st : Store) (g : Grammar) (description : Text) : Action UpdateError Updated := do
  match ← migrate st g description with
  | none => return ⟨(← get).version, Migration.noChanges, false⟩
  | some diff =>
    let v ← readVersion ((← get).store.getD st)
    setGrammar g
    return ⟨v, diff, true⟩

def updateCounted (g : Grammar) : Action UpdateError Updated := do
  let s ← get
  let diff := Grammar.Diff.between (some s.grammar) (some g)
  if diff.isEmpty then return ⟨s.version, Migration.noChanges, false⟩
  set { s with version := s.version + 1 }
  setGrammar g
  return ⟨s.version + 1, diff.describe, true⟩

def update (text description : Text) : Action UpdateError Updated := do
  let g ← readGrammar text
  match (← get).store with
  | some st => updateStored st g description
  | none => updateCounted g

inductive SyncError where
  | invalid (e : Grammar.LoadError)
  | failed (message : Text)
deriving Repr

def SyncError.message : SyncError → Text
  | invalid e => "loading stored grammar: " ++ e.message
  | failed message => "loading stored grammar: " ++ message

def install (g : Grammar) (version : Int) (s : Service) : Service :=
  if version = s.version then s else { s with grammar := g, version }

/-- Installs the grammar that the source of grammars answers with, if the service has a source. -/
def sync (active : Option (Except SourceFailure (Grammar × Int))) : Action SyncError Unit :=
  match active with
  | none => return ()
  | some (.ok (g, version)) => modify (install g version)
  | some (.error .none) => return ()
  | some (.error (.invalid e)) => throw (.invalid e)
  | some (.error (.failed message)) => throw (.failed message)

end JavaToCpp.Service
