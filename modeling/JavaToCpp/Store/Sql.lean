/-
  Statements as SQL.

  Tables have a common prefix.  White space is collapsed to single blanks.  The values of a
  statement stand beside its text.
-/
import JavaToCpp.Store.Basic

namespace JavaToCpp.Store

inductive Value where
  | text (t : Text)
  | int (n : Int)
  | bool (b : Bool)
deriving DecidableEq, Repr

/-- The text of a statement for tables with a prefix, none for the ends of transactions and the
    statements on records. -/
def Statement.sql? (pre : Text) : Statement → Option Text
  | schema =>
    let rules := pre ++ "grammar_rules"
    some ("CREATE TABLE IF NOT EXISTS " ++ rules ++ " ( id SERIAL PRIMARY KEY, nonterminal TEXT NOT NULL, nonterminal_position INT NOT NULL, alternative TEXT NOT NULL, position INT NOT NULL, created_at TIMESTAMPTZ NOT NULL DEFAULT NOW(), UNIQUE(nonterminal, position) ); CREATE TABLE IF NOT EXISTS " ++ pre ++ "grammar_versions ( id SERIAL PRIMARY KEY, version INT NOT NULL, description TEXT, source_file TEXT, applied_at TIMESTAMPTZ NOT NULL DEFAULT NOW() ); CREATE TABLE IF NOT EXISTS " ++ pre ++ "migration_history ( id SERIAL PRIMARY KEY, version INT NOT NULL, created_at TIMESTAMPTZ NOT NULL DEFAULT NOW(), success BOOLEAN NOT NULL, errors TEXT, diff TEXT ); CREATE INDEX IF NOT EXISTS idx_" ++ rules ++ "_order ON " ++ rules ++ "(nonterminal_position, position);")
  | selectVersion => some ("SELECT COALESCE(MAX(version), 0) FROM " ++ pre ++ "grammar_versions")
  | selectRules =>
    some ("SELECT nonterminal, alternative FROM " ++ pre ++
      "grammar_rules ORDER BY nonterminal_position, position")
  | selectHistory =>
    some ("SELECT version, COALESCE(description, ''), COALESCE(source_file, ''), applied_at FROM " ++
      pre ++ "grammar_versions ORDER BY version DESC")
  | deleteRules => some ("DELETE FROM " ++ pre ++ "grammar_rules")
  | insertRule _ =>
    some ("INSERT INTO " ++ pre ++ "grammar_rules (nonterminal, nonterminal_position, alternative, position) VALUES ($1, $2, $3, $4)")
  | insertVersion _ =>
    some ("INSERT INTO " ++ pre ++
      "grammar_versions (version, description, source_file) VALUES ($1, $2, $3)")
  | insertHistory _ =>
    some ("INSERT INTO " ++ pre ++
      "migration_history (version, success, errors, diff) VALUES ($1, $2, $3, $4)")
  | _ => none

def Statement.values : Statement → List Value
  | insertRule r =>
    [.text r.nonterminal, .int r.nonterminalPosition, .text r.alternative, .int r.position]
  | insertVersion v => [.int v.number, .text v.description, .text v.sourceFile]
  | insertHistory a => [.int a.version, .bool a.success, .text a.errors, .text a.diff]
  | _ => []

inductive Wording where
  | bare
  | tagged
  | coded
deriving DecidableEq, Repr

def Wording.describe (w : Wording) (e : Event) : Text :=
  match w with
  | bare => "store failed: " ++ e.name
  | tagged => "pq: store failed: " ++ e.name
  | coded => "ERROR: store failed: " ++ e.name ++ " (SQLSTATE XX000)"

end JavaToCpp.Store
