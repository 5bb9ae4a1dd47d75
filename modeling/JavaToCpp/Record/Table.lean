/-
  Records in the store.

  A record is inserted in a transaction of its own.  Times are stored in microseconds.
-/
import JavaToCpp.Migration.Basic

namespace JavaToCpp.Record

open Store (Action Event Wording)

namespace Table

inductive Task where
  | prepare
  | create
  | find
  | count
  | query
deriving DecidableEq, Repr

inductive Failure where
  | store (t : Task) (e : Event)
  | missing
deriving Repr

def Task.describe : Task → Text
  | prepare => "migrate translations"
  | create => "create translation"
  | find => "find translation"
  | count => "count translations"
  | query => "query translations"

def Failure.message (w : Wording) : Failure → Text
  | store t e => "failed to " ++ t.describe ++ ": " ++ w.describe e
  | missing => "failed to find translation: not found"

def name : Text := "translations"

/-- Makes the table and its two indexes.  If it cannot be found out whether there is a table, it
    counts as missing. -/
def prepare : Action Failure Unit := ExceptT.adapt (.store .prepare) do
  Migration.ignoring (Store.send .hasTable)
  Store.send .createTable
  Store.send .createIndex
  Store.send .createIndex

def stored (r : Record) : Record := { r with created := Int.fdiv r.created 1000 * 1000 }

def create (r : Record) : Action Failure Unit := ExceptT.adapt (.store .create) do
  Store.send .begin
  Migration.onFailure (Store.send (.insertRecord (stored r))) fun _ =>
    Migration.ignoring (Store.send .rollback)
  Store.send .commit

def find (id : Uuid) : Action Failure Record := do
  ExceptT.adapt (.store .find) (Store.send .selectRecords)
  match (← get).tables.records.find? fun r => r.id == id with
  | some r => return r
  | none => throw .missing

def query (q : Query) : Action Failure (List Record × Nat) := do
  ExceptT.adapt (.store .count) (Store.send .countRecords)
  ExceptT.adapt (.store .query) (Store.send .selectRecords)
  return q.page q.offset.toNat (← get).tables.records

end Table

end JavaToCpp.Record
