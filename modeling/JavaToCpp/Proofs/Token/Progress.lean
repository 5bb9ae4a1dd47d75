/-
  Matches that take nothing.

  No rule of a table matches the empty text.  In front of other text its pattern can still match
  nothing, and then the tokens of a source have no end.
-/
import JavaToCpp.Proofs.Token.Priority

namespace JavaToCpp

namespace Pattern

variable {p : Program} {t : Text}

end Pattern

namespace Token

open Pattern

variable {table : Table} {rules : List Rule}

/-- Whether the pattern of the rule asks for a word boundary. -/
def Rule.asksBoundary (r : Rule) : Bool :=
  (parse r.pattern).toOption.any fun p => p.regex.program.contains (.require .wordBoundary)

/-- Whether the alternatives of the table ask for a word boundary. -/
def Table.asksBoundary (table : Table) : Bool := table.program.contains (.require .wordBoundary)

def leaking : List Rule :=
  [⟨"a", "a)\\Q", false⟩, ⟨"z", "z[\\\\E|]\x7b0\x7d", false⟩, ⟨"c", "c)\\Q", true⟩]

/-- A quotation that a pattern leaves open runs into the next ones.  Each rule takes something, and no
    word boundary is asked for; what follows the quotation takes nothing, anywhere. -/
theorem quotation_endless : ∃ table, Table.compile leaking = .ok table ∧
    ¬ table.asksBoundary ∧ table.match? [] = some (⟨"c", "c)\\Q", true⟩, 0) ∧
    table.tokenize "b" = none := by
  have hchecks : (Table.compile leaking).toOption.any fun table => ¬ table.asksBoundary ∧
      table.match? [] = some (⟨"c", "c)\\Q", true⟩, 0) ∧ table.tokenize "b" = none := by
    decide +kernel
  obtain ⟨table, htable, hchecks⟩ := exists_of_any hchecks
  exact ⟨table, htable, of_decide_eq_true hchecks⟩

end Token

end JavaToCpp
