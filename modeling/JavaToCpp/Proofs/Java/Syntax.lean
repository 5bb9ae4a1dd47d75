/-
  The syntax of the Java subset.

  The grammar passes the checks for productive and for determinate grammars, so its syntax errors
  are reported at the first token that no program continues with, and a program has one derivation
  tree.
-/
import JavaToCpp.Java.Grammar
import JavaToCpp.Proofs.Chart.Viable

namespace JavaToCpp.Java

open List Text Label
open Chart (ofTokens Reached)

/-! ## The alternatives -/

def alternatives : List (Symbol × List Symbol) :=
  (structure_ ++ tags).flatMap fun (name, sides) =>
    sides.map fun side => (ofString name, (ofString side).splitOn blank)

/-- The grammar with these alternatives, without the text between. -/
def syntaxRules : Grammar := Grammar.ofAlternatives alternatives

theorem load_grammarText : Grammar.load grammarText = .ok syntaxRules := by
  decide +kernel

theorem grammar_eq : grammar = syntaxRules := by
  rw [grammar, load_grammarText]
  rfl

theorem grammar_wellFormed : grammar.WellFormed :=
  grammar_eq ▸ Grammar.load_wellFormed load_grammarText

/-! ## Lookahead -/

/-- The categories that an instruction begins with, and the end of a block. -/
def instructionHeads : List String :=
  ["if", "for", "while", "do", "return", "type_hint", "id", "main", "increment", "print", "max",
    "min", "lbracket_curly", "rbracket_curly"]

def expressionEnds : List String := ["rbracket", "semicolon", "comma"]

/-- The categories that may follow each nonterminal but the first. -/
def followTable : List (String × List String) := [
  ("<class_body>", ["rbracket_curly"]),
  ("<member>", ["public", "rbracket_curly"]),
  ("<main_func>", ["public", "rbracket_curly"]),
  ("<func_declaration>", ["public", "rbracket_curly"]),
  ("<func_params>", ["rbracket"]),
  ("<param>", ["rbracket", "comma"]),
  ("<code_block>", "public" :: "else" :: instructionHeads),
  ("<instructions>", ["rbracket_curly"]),
  ("<instruction>", instructionHeads),
  ("<var_decl>", ["semicolon"]),
  ("<assignment>", ["semicolon", "rbracket"]),
  ("<func_return>", ["semicolon"]),
  ("<if_statement>", instructionHeads),
  ("<for_loop>", instructionHeads),
  ("<for_init>", ["semicolon"]),
  ("<for_step>", ["rbracket"]),
  ("<while_loop>", instructionHeads),
  ("<do_while>", instructionHeads),
  ("<expr>", expressionEnds),
  ("<disjunction>", expressionEnds),
  ("<relation>", "boolean_operator" :: expressionEnds),
  ("<math_expr>", "compare" :: "boolean_operator" :: expressionEnds),
  ("<term>", "math_operator" :: "compare" :: "boolean_operator" :: expressionEnds),
  ("<operand>", "math_operator" :: "compare" :: "boolean_operator" :: expressionEnds),
  ("<func_call>", "math_operator" :: "compare" :: "boolean_operator" :: expressionEnds),
  ("<call_args>", ["rbracket"])]

def follow (s : Symbol) : List Text :=
  match followTable.find? fun entry => ofString entry.1 == s with
  | some (_, categories) => categories.map ofString
  | none => []

-- the rules are gone through once for all that is to be known of them, because that takes long
theorem syntaxRules_checks : syntaxRules.start = program ∧
    (∀ r ∈ syntaxRules.rules, ¬ (r.lhs = Chart.top ∨ Chart.top ∈ r.rhs)) ∧
    syntaxRules.yields 20 syntaxRules.start ∧
    (syntaxRules.rules.all fun r => syntaxRules.isTag r.lhs || r.rhs.all (syntaxRules.yields 20)) ∧
    syntaxRules.determinate follow 20 := by
  decide +kernel

theorem grammar_start : grammar.start = program :=
  grammar_eq ▸ syntaxRules_checks.1

theorem grammar_free : ∀ r ∈ grammar.rules, ¬ r.Mentions Chart.top :=
  grammar_eq ▸ syntaxRules_checks.2.1

theorem grammar_productive : grammar.Productive := by
  obtain ⟨-, -, hstart, hrules, -⟩ := syntaxRules_checks
  exact grammar_eq ▸ Grammar.productive_of_yields hstart hrules

theorem grammar_unambiguous : grammar.Unambiguous := by
  obtain ⟨-, -, -, -, hdet⟩ := syntaxRules_checks
  exact Grammar.unambiguous_of_determinate grammar_wellFormed (grammar_eq ▸ hdet)

/-! ## Errors and trees -/

/-- **Errors are reported as early as possible.**  With the `k`-th set the first empty one, the
    error is at the `k`-th token, and nothing that begins with the first `k` tokens is accepted.
    For the Java subset the tokens before it can be completed to a program, and so can all tokens
    when the end of the input is not expected. -/
theorem earliest_rejection :
    (∀ (text : Text) (g : Grammar) (ts : List Token) (k : Nat), Grammar.load text = .ok g →
      (ofTokens g ts).sets.findIdx? isEmpty = some k →
      0 < k ∧ (∃ t, ts[k - 1]? = some t ∧ (ofTokens g ts).rejection? = some (.unexpected t)) ∧
        ∀ more, (ofTokens g (ts.take k ++ more)).rejection? ≠ none) ∧
    (∀ (ts : List Token) (k : Nat),
      (ofTokens grammar ts).sets.findIdx? isEmpty = some k →
      ∃ more, (ofTokens grammar (ts.take (k - 1) ++ more)).rejection? = none) ∧
    ∀ (ts : List Token) (last : Token),
      (ofTokens grammar ts).rejection? = some (.endOfInput last) →
      ts.getLast? = some last ∧
        ∃ more, more ≠ [] ∧ (ofTokens grammar (ts ++ more)).rejection? = none := by
  refine ⟨fun text g ts k hload h => ?_, fun ts k h => ?_, fun ts last h => ?_⟩
  · have hg := Grammar.load_wellFormed hload
    obtain ⟨hpos, hle, hnil, -⟩ := Chart.of_findIdx?_sets hg h
    exact ⟨hpos, Chart.rejection?_of_findIdx? hg h, Chart.rejected_append hg hle hnil⟩
  · obtain ⟨-, -, -, s, hs, hi⟩ := Chart.of_findIdx?_sets grammar_wellFormed h
    rw [← hi]
    exact hs.exists_accepted grammar_free grammar_productive grammar_wellFormed
  · obtain ⟨hlast, ⟨s, hs, hi⟩, -⟩ := (Chart.rejection?_eq_endOfInput grammar_wellFormed).1 h
    obtain ⟨more, hmore⟩ := hs.exists_accepted grammar_free grammar_productive grammar_wellFormed
    rw [hi, take_length] at hmore
    refine ⟨hlast, more, ?_, hmore⟩
    rintro rfl
    rw [append_nil, h] at hmore
    cases hmore

theorem rejection_public : (ofTokens grammar (Chart.tokensFor ["public"])).rejection? =
    some (.endOfInput ⟨"public", "public", 1, 1⟩) := by
  refine (Chart.rejection?_eq_endOfInput grammar_wellFormed).2 ⟨rfl, ?_, ?_⟩
  · rw [grammar_eq]
    have hprogram := (Reached.start : Reached syntaxRules (Chart.tokensFor ["public"]) _).predict
      (r := ⟨1, program, ["<public>", "<class>", "<name>", "<lbracket_curly>",
        "<class_body>", "<rbracket_curly>"]⟩) rfl (by decide +kernel) (by decide +kernel)
    have hpublic : ∃ r, Chart.tagRule? (syntaxRules.rulesOf "<public>") "public" = some r :=
      Option.isSome_iff_exists.1 (by decide +kernel)
    obtain ⟨r, hr⟩ := hpublic
    exact ⟨_, hprogram.scan rfl (by decide +kernel) hr rfl, rfl⟩
  · -- a program has more than one token
    refine Option.not_isSome_iff_eq_none.1 fun hacc => ?_
    obtain ⟨t, -, ht, htok⟩ := Chart.parses_of_accepted grammar_wellFormed grammar_free
      ((Chart.rejection?_eq_none grammar_wellFormed).2 hacc)
    have htag : syntaxRules.isTag syntaxRules.start = false := by decide +kernel
    have hlong : ∀ r ∈ syntaxRules.rulesOf syntaxRules.start, 1 < r.rhs.length := by decide +kernel
    rw [← grammar_eq] at htag hlong
    obtain ⟨r, hr, ts, rfl, hts⟩ := ht.exists_rule htag
    have hle := Grammar.Parses.length_le grammar_wellFormed hts
    have hlt := hlong r hr
    rw [show Tree.tokensOf ts = _ from htok] at hle
    exact absurd (Nat.lt_of_lt_of_le hlt hle) (Nat.lt_irrefl 1)

theorem earliest_rejection_program :
    (∀ more, (ofTokens grammar (Chart.tokensFor ["semicolon"] ++ more)).rejection? ≠ none) ∧
    ∃ more, more ≠ [] ∧
      (ofTokens grammar (Chart.tokensFor ["public"] ++ more)).rejection? = none := by
  have hfirst : ofString "semicolon" ∉ syntaxRules.first 20 syntaxRules.start := by
    decide +kernel
  rw [← grammar_eq] at hfirst
  have hempty : (ofTokens grammar (Chart.tokensFor ["semicolon"])).sets.findIdx? isEmpty =
      some 1 :=
    Chart.findIdx?_sets_of_first grammar_wellFormed grammar_free grammar_productive hfirst
  exact ⟨(earliest_rejection.1 grammarText grammar _ 1 (grammar_eq ▸ load_grammarText) hempty).2.2,
    (earliest_rejection.2.2 _ _ rejection_public).2⟩

/-- **A program has one derivation tree**, which is the tree of its chart, and steps never lead to
    two states between which the chart would have to choose. -/
theorem only_parse (ts : List Token) :
    (∀ t u, grammar.Parses program t → grammar.Parses program u →
      t.tokens = ts → u.tokens = ts → t = u) ∧
    (∀ t, (ofTokens grammar ts).tree? = some t ↔
      grammar.Parses program t ∧ t.tokens = ts) ∧
    (∀ s s', Reached grammar ts s → Reached grammar ts s' → s.key = s'.key →
      s.index = s'.index → s = s') ∧
    ∀ s, Reached grammar ts s ↔
      ∃ set, (ofTokens grammar ts).sets[s.index]? = some set ∧ s ∈ set := by
  have hu := grammar_unambiguous
  have hg := grammar_wellFormed
  rw [← grammar_start]
  refine ⟨fun t u ht hu' htok htok' => hu t u ht hu' (htok.trans htok'.symm), fun t => ?_,
    fun s s' h h' => ?_, fun s => ?_⟩
  · exact Chart.tree?_eq_some hg grammar_free hu
  · exact h.eq_of_key grammar_free grammar_productive hg hu h'
  · exact Chart.reached_iff_mem grammar_free grammar_productive hg hu

theorem only_parse_program : ∃ ts t, (ofTokens grammar ts).tree? = some t := by
  obtain ⟨t, ht⟩ := grammar_productive.start
  exact ⟨t.tokens, t, ((only_parse t.tokens).2.1 t).2 ⟨grammar_start ▸ ht, rfl⟩⟩

end JavaToCpp.Java
