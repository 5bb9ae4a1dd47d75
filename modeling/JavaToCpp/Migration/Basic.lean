/-
  Migrations of the stored grammar.

  A migration makes a grammar the next version in the store.  It compares the grammar with the
  stored one, does nothing if they do not differ, and else replaces the rules and adds a version in
  one transaction.  The attempt is noted in the history, which is outside of the transaction.
-/
import JavaToCpp.Grammar.Diff
import JavaToCpp.Store.Sql

namespace JavaToCpp.Migration

open Store (Action Event Wording Version Attempt)

def noChanges : Text := "No changes detected. Migration skipped."

inductive LoadFailure where
  | store (e : Event)
  | grammar (e : Grammar.LoadError)
deriving DecidableEq, Repr

def LoadFailure.message (w : Wording) : LoadFailure → Text
  | store e => w.describe e
  | grammar e => e.message

inductive ReplaceFailure where
  | clear (e : Event)
  | insert (row : Grammar.Row) (e : Event)
deriving DecidableEq, Repr

def ReplaceFailure.message (w : Wording) : ReplaceFailure → Text
  | clear e => "failed to clear rules: " ++ w.describe e
  | insert row e =>
    "failed to insert rule " ++ row.nonterminal ++ " -> " ++ row.alternative ++ ": " ++ w.describe e

inductive Failure where
  | version (e : Event)
  | load (f : LoadFailure)
  | begin (e : Event)
  | replace (f : ReplaceFailure)
  | record (e : Event)
  | commit (e : Event)
deriving DecidableEq, Repr

def Failure.message (w : Wording) : Failure → Text
  | version e => "failed to get current version: " ++ w.describe e
  | load f => "failed to load current grammar: " ++ f.message w
  | begin e => "failed to start transaction: " ++ w.describe e
  | replace f => "failed to apply grammar: " ++ f.message w
  | record e => "failed to record version: " ++ w.describe e
  | commit e => "failed to commit transaction: " ++ w.describe e

def prepare : Action Event Unit := Store.send .schema

def load : Action LoadFailure (Option Grammar) := do
  match Grammar.ofRows (← ExceptT.adapt .store Store.rules) with
  | .ok g => return g
  | .error e => throw (.grammar e)

def insertRows : List Grammar.Row → Action ReplaceFailure Unit
  | [] => return ()
  | row :: rows => do
    ExceptT.adapt (.insert row) (Store.send (.insertRule row))
    insertRows rows

def replace (g : Grammar) : Action ReplaceFailure Unit := do
  ExceptT.adapt .clear (Store.send .deleteRules)
  insertRows g.toRows

/-- Does something whatever becomes of it. -/
def ignoring {ε ε' : Type} (a : Action ε Unit) : Action ε' Unit := fun s => (.ok (), (a.run s).2)

/-- Does something; if it fails, also what is to follow a failure. -/
def onFailure {ε α : Type} (a : Action ε α) (cleanup : ε → Action ε Unit) : Action ε α :=
  tryCatch a fun e => do cleanup e; throw e

def commit (w : Wording) (g : Grammar) (v : Version) (diff : Text) : Action Failure Unit := do
  ExceptT.adapt .begin (Store.send .begin)
  ExceptT.adapt .replace <| onFailure (replace g) fun e => do
    ignoring (Store.send .rollback)
    ignoring (Store.send (.insertHistory ⟨v.number, false, e.message w, diff⟩))
  ExceptT.adapt .record <| onFailure (Store.send (.insertVersion v)) fun _ =>
    ignoring (Store.send .rollback)
  ExceptT.adapt .commit (Store.send .commit)

/-- Makes a grammar the next version; the difference as text, none if nothing has changed. -/
def apply (w : Wording) (g : Grammar) (description sourceFile : Text) :
    Action Failure (Option Text) := do
  let current ← ExceptT.adapt .version Store.version
  let old ← ExceptT.adapt .load load
  let diff := Grammar.Diff.between old (some g)
  if diff.isEmpty then return none
  commit w g ⟨current + 1, description, sourceFile⟩ diff.describe
  ignoring (Store.send (.insertHistory ⟨current + 1, true, [], diff.describe⟩))
  return some diff.describe

def answer (diff : Option Text) : Text := diff.getD noChanges

inductive ListFailure where
  | select (e : Event)
  | read (e : Event)
deriving Repr

def ListFailure.message (w : Wording) : ListFailure → Text
  | select e => "failed to query versions: " ++ w.describe e
  | read e => w.describe e

def versions : Action ListFailure (List Version) := do
  ExceptT.adapt .select (Store.send .selectHistory)
  ExceptT.adapt .read (Store.happen .readHistory)
  return (← get).tables.versions.reverse

end JavaToCpp.Migration
