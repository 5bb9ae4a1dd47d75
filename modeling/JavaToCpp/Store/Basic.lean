/-
  The database.

  A store has four tables: the rules of the current grammar, its versions, the history of
  migrations, and records of runs.  It is talked to by statements.  Inside a transaction the
  tables of rules, versions and records are remembered; a rollback brings them back, and so does
  a commit that fails.

  Statements can fail: a plan says, for an event of a kind, after how many successes the next one
  fails, once.  A failed statement changes nothing else.
-/
import JavaToCpp.Grammar.Rows
import JavaToCpp.Record.Basic

namespace JavaToCpp.Store

/-- What can fail: each kind of statement, and the end of reading rows. -/
inductive Event where
  | schema
  | selectVersion
  | selectRules
  | readRules
  | selectHistory
  | readHistory
  | begin
  | deleteRules
  | insertRule
  | insertVersion
  | insertHistory
  | commit
  | rollback
  | hasTable
  | createTable
  | createIndex
  | insertRecord
  | countRecords
  | selectRecords
deriving DecidableEq, Repr

def Event.names : List (Event × String) := [
  (.schema, "schema"), (.selectVersion, "select_version"), (.selectRules, "select_rules"),
  (.readRules, "read_rules"), (.selectHistory, "select_history"), (.readHistory, "read_history"),
  (.begin, "begin"), (.deleteRules, "delete_rules"), (.insertRule, "insert_rule"),
  (.insertVersion, "insert_version"), (.insertHistory, "insert_history"), (.commit, "commit"),
  (.rollback, "rollback"), (.hasTable, "has_table"), (.createTable, "create_table"),
  (.createIndex, "create_index"), (.insertRecord, "insert_translation"),
  (.countRecords, "count_translations"), (.selectRecords, "select_translations")]

def Event.name (e : Event) : Text :=
  ((Event.names.find? fun p => p.1 == e).map fun p => Text.ofString p.2).getD []

def Event.ofName? (name : Text) : Option Event :=
  (Event.names.find? fun p => Text.ofString p.2 == name).map Prod.fst

structure Version where
  number : Int
  description : Text
  sourceFile : Text
deriving DecidableEq, Repr

/-- When a version was applied: versions follow each other by a minute from the beginning of 2025
    on. -/
def Version.applied (v : Version) : Timestamp :=
  Timestamp.ofCivil 2025 1 1 0 0 0 0 0 + v.number * Duration.minute

structure Attempt where
  version : Int
  success : Bool
  errors : Text
  diff : Text
deriving DecidableEq, Repr

inductive Statement where
  | schema
  | selectVersion
  | selectRules
  | selectHistory
  | begin
  | deleteRules
  | insertRule (row : Grammar.Row)
  | insertVersion (v : Version)
  | insertHistory (a : Attempt)
  | commit
  | rollback
  | hasTable
  | createTable
  | createIndex
  | insertRecord (r : Record)
  | countRecords
  | selectRecords
deriving Repr

def Statement.event : Statement → Event
  | schema => .schema
  | selectVersion => .selectVersion
  | selectRules => .selectRules
  | selectHistory => .selectHistory
  | begin => .begin
  | deleteRules => .deleteRules
  | insertRule _ => .insertRule
  | insertVersion _ => .insertVersion
  | insertHistory _ => .insertHistory
  | commit => .commit
  | rollback => .rollback
  | hasTable => .hasTable
  | createTable => .createTable
  | createIndex => .createIndex
  | insertRecord _ => .insertRecord
  | countRecords => .countRecords
  | selectRecords => .selectRecords

structure Tables where
  rules : List Grammar.Row := []
  versions : List Version := []
  records : List Record := []
deriving Repr, Inhabited

/-- After how many successes of an event the next one fails. -/
abbrev Plan := List (Event × Nat)

/-- Whether an event succeeds, and the plan after it.  The first entry of its kind counts. -/
def Plan.next (e : Event) : Plan → Bool × Plan
  | [] => (true, [])
  | (e', n) :: plan =>
    if e' = e then
      match n with
      | 0 => (false, plan)
      | n + 1 => (true, (e', n) :: plan)
    else
      let (ok, plan) := Plan.next e plan
      (ok, (e', n) :: plan)

end JavaToCpp.Store

namespace JavaToCpp

open Store (Tables Plan Attempt Statement Event Version)

structure Store where
  tables : Tables := {}
  history : List Attempt := []
  /-- the tables at the beginning of the open transaction -/
  saved : Option Tables := none
  plan : Plan := []
  log : List Statement := []
deriving Repr, Inhabited

namespace Store

abbrev Action (ε α : Type) := ExceptT ε (StateM Store) α

def occurs (s : Store) (e : Event) : Bool × Store :=
  let (ok, plan) := s.plan.next e
  (ok, { s with plan })

def restored (s : Store) : Store := { s with tables := s.saved.getD s.tables, saved := none }

def after (s : Store) : Statement → Store
  | .begin => { s with saved := some s.tables }
  | .deleteRules => { s with tables := { s.tables with rules := [] } }
  | .insertRule row => { s with tables := { s.tables with rules := s.tables.rules ++ [row] } }
  | .insertVersion v => { s with tables := { s.tables with versions := s.tables.versions ++ [v] } }
  | .insertHistory a => { s with history := s.history ++ [a] }
  | .insertRecord r => { s with tables := { s.tables with records := s.tables.records ++ [r] } }
  | .commit => { s with saved := none }
  | .rollback => s.restored
  | _ => s

def afterFailed (s : Store) : Statement → Store
  | .commit => s.restored
  | .rollback => s.restored
  | _ => s

def send (st : Statement) : Action Event Unit := fun s =>
  let (ok, s) := { s with log := s.log ++ [st] }.occurs st.event
  if ok then (.ok (), s.after st) else (.error st.event, s.afterFailed st)

def happen (e : Event) : Action Event Unit := fun s =>
  let (ok, s) := s.occurs e
  (if ok then .ok () else .error e, s)

def latest (s : Store) : Int := ((s.tables.versions.map Version.number).max?).getD 0

def version : Action Event Int := do
  send .selectVersion
  return (← get).latest

def rowLe (a b : Grammar.Row) : Bool :=
  a.nonterminalPosition < b.nonterminalPosition ||
    (a.nonterminalPosition == b.nonterminalPosition && a.position ≤ b.position)

/-- The stored alternatives in the order of their positions. -/
def storedRules (s : Store) : List (Symbol × Text) :=
  (s.tables.rules.mergeSort rowLe).map fun r => (r.nonterminal, r.alternative)

def rules : Action Event (List (Symbol × Text)) := do
  send .selectRules
  happen .readRules
  return (← get).storedRules

end Store

end JavaToCpp
