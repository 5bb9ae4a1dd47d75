/-
  The lines of errors.

  Every stage reports its errors in a line of the source.
-/
import JavaToCpp.Proofs.Pipeline.Total

namespace JavaToCpp

open Java List

/-! ## Tokens -/

theorem Token.Tiled.line_mem {table : Token.Table} {last rest before : Text}
    {pieces : List (Text × Token)} (h : Token.Tiled table last rest before pieces) :
    ∀ p ∈ pieces, 1 ≤ p.2.line ∧
      p.2.line ≤ 1 + Token.newlines (before ++ Token.weave pieces last) := by
  induction h with
  | last hgap => simp
  | @token before gap k rule pieces hgap hmatch hskip hcategory hpos hline htiled ih =>
    rw [forall_mem_cons]
    constructor
    · simp only [hline, Token.weave, Token.newlines_append]
      omega
    · intro p hp
      simpa [Token.weave] using ih p hp

theorem line_of_tokenize {source : Text} {ts : List Token} (h : tokenize source = .ok ts) :
    ∀ k ∈ ts, 1 ≤ k.line ∧ k.line ≤ 1 + Token.newlines source := by
  obtain ⟨table, htable, -⟩ := exists_lexicon
  obtain ⟨pieces, last, rfl, rfl, htiled⟩ := exists_tiled htable h
  intro k hk
  obtain ⟨p, hp, rfl⟩ := mem_map.1 hk
  exact htiled.line_mem p hp

theorem exists_errorAt_of_tokenize {source : Text} {e : Token.Error}
    (h : tokenize source = .error e) :
    ∃ table pieces last b rest, lexicon = .ok table ∧
      source = Token.weave pieces last ++ b :: rest ∧ Token.Tiled table last (b :: rest) [] pieces ∧
      table.match? (b :: rest) = none ∧ e = Token.errorAt (Token.weave pieces last) b rest := by
  obtain ⟨table, htable, hshapes, -⟩ := exists_lexicon
  have hall := tokenize_eq htable hshapes source
  rw [h] at hall
  obtain ⟨pieces, last, b, rest, hsource, htiled, rfl, hnone, -⟩ :=
    Token.tiled_of_all_eq_error [] hall
  exact ⟨table, pieces, last, b, rest, htable, hsource, htiled, hnone, rfl⟩

/-! ## Charts -/

theorem Chart.line_of_rejection? {g : Grammar} {ts : List Token} {r : Rejection}
    (h : (ofTokens g ts).rejection? = some r) :
    ts = [] ∧ r.line = 1 ∨ ∃ k ∈ ts, r.line = k.line := by
  have htokens : (ofTokens g ts).tokens = ts := rfl
  rw [rejection?, htokens] at h
  cases hlast : ts.getLast? with
  | none =>
    simp only [hlast] at h
    obtain ⟨-, hr⟩ := Option.ite_none_left_eq_some.1 h
    cases hr
    exact .inl ⟨getLast?_eq_none_iff.1 hlast, rfl⟩
  | some last =>
    have hmem := mem_of_getLast? hlast
    simp only [hlast] at h
    refine .inr ?_
    cases hindex : (ofTokens g ts).sets.findIdx? isEmpty with
    | some n =>
      simp only [hindex, Option.some.injEq] at h
      subst h
      cases htoken : ts[n - 1]? with
      | none => exact ⟨last, hmem, rfl⟩
      | some k => exact ⟨k, mem_of_getElem? htoken, rfl⟩
    | none =>
      simp only [hindex] at h
      obtain ⟨-, hr⟩ := Option.ite_none_left_eq_some.1 h
      cases hr
      exact ⟨last, hmem, rfl⟩

/-! ## Programs -/

/-- **A violation names the line of a token.** -/
theorem Typing.line_of_violation {root : Tree} (hparse : grammar.Parses Label.program root)
    {v : Violation} (h : check root = .error (.violation v)) :
    ∃ k ∈ root.tokens, v.line = k.line := by
  obtain ⟨p, rfl⟩ := exists_decl (s := .program) hparse rfl
  -- parts may be missing here: only the line matters, so nothing has to be complete
  have hanswers : AnswersIn (· ∈ p.tree.lines) True (check p.tree) :=
    answersIn_check (by cases p; rfl) (absurd trivial) p.line_mem_lines fun fs hfs f hf _ =>
      (Program.lines_of_functionsOf hfs f hf ·)
  rw [h] at hanswers
  rcases hanswers with ⟨_, hok⟩ | ⟨w, hw, hline⟩ | ⟨-, hmissing⟩
  · cases hok
  · cases hw
    obtain ⟨k, hk, hk'⟩ := mem_map.1 hline
    exact ⟨k, hk, hk'.symm⟩
  · cases hmissing

namespace Pipeline

open Chart (ofTokens)

/-- A run fails with a report; behind the tokens its line is that of a token, or the first one if
    there are no tokens. -/
theorem exists_report_of_tokenize {checked : Bool} {source : Text} {ts : List Token} {fault : Fault}
    (htokens : tokenize source = .ok ts) (h : run grammar checked source = .error fault) :
    ∃ r, fault.report? = some r ∧ r.stage ≠ .lexical ∧
      (ts = [] ∧ r.line = 1 ∨ ∃ k ∈ ts, r.line = k.line) := by
  cases hrejection : (ofTokens grammar ts).rejection? with
  | some r =>
    rw [run_of_rejection htokens hrejection] at h
    cases h
    exact ⟨_, rfl, by simp, Chart.line_of_rejection? hrejection⟩
  | none =>
    obtain ⟨t, ht⟩ := Chart.exists_tree? grammar_wellFormed hrejection
    obtain ⟨hlabel, hfollows⟩ := Chart.follows_of_tree? grammar_wellFormed ht
    rw [grammar_start] at hlabel
    have hwhole := Pipeline.whole_of_follows grammar_suffices hfollows (provides_leaf hfollows)
    obtain ⟨text, htext⟩ := exists_generate hwhole hlabel
    rw [run_of_tree htokens hrejection ht, generate, htext] at h
    cases checked with
    | false => cases h
    | true =>
      -- the check passes or finds a violation, since a derivation tree lacks no part
      rw [if_pos rfl, checkTree] at h
      rcases answers_check hlabel with ⟨_, hok⟩ | ⟨v, hv⟩ | ⟨hnot, -⟩
      · rw [hok] at h
        cases h
      · rw [hv] at h
        cases h
        obtain ⟨hparse, rfl⟩ := (Chart.tree?_eq_some grammar_wellFormed grammar_free
          grammar_unambiguous).1 ht
        rw [grammar_start] at hparse
        exact ⟨_, rfl, by simp, .inr (Typing.line_of_violation hparse hv)⟩
      · exact absurd hwhole hnot

/-- **The line of a report is a line of the source.**  A run that fails has a report, and its line is
    one of the lines of the source.  The line of a lexical error is that of the first character at
    which no rule matches behind tokens and gaps; all other errors are in the line of a token, if
    there are tokens. -/
theorem report_line {checked : Bool} {source : Text} {fault : Fault}
    (h : run grammar checked source = .error fault) :
    ∃ r, fault.report? = some r ∧ 1 ≤ r.line ∧ r.line ≤ 1 + Token.newlines source ∧
      (r.stage = .lexical → ∃ table pieces last b rest, lexicon = .ok table ∧
        source = Token.weave pieces last ++ b :: rest ∧
        Token.Tiled table last (b :: rest) [] pieces ∧ table.match? (b :: rest) = none ∧
        fault = .lexical (Token.errorAt (Token.weave pieces last) b rest) ∧
        r.line = 1 + Token.newlines (Token.weave pieces last)) ∧
      (r.stage ≠ .lexical → ∃ ts, tokenize source = .ok ts ∧
        (ts ≠ [] → ∃ k ∈ ts, r.line = k.line)) := by
  cases htokens : tokenize source with
  | error e =>
    rw [run_of_lexical htokens] at h
    cases h
    obtain ⟨table, pieces, last, b, rest, htable, hsource, htiled, hnone, rfl⟩ :=
      exists_errorAt_of_tokenize htokens
    refine ⟨_, rfl, ?_, ?_, fun _ => ?_, fun hstage => absurd rfl hstage⟩
    · simp only [Token.errorAt]
      omega
    · simp only [Token.errorAt, hsource, Token.newlines_append]
      omega
    · exact ⟨table, pieces, last, b, rest, htable, hsource, htiled, hnone, rfl, by simp [Token.errorAt]⟩
  | ok ts =>
    obtain ⟨r, hr, hstage, hline⟩ := exists_report_of_tokenize htokens h
    have hbounds := line_of_tokenize htokens
    refine ⟨r, hr, ?_, ?_, fun hlexical => absurd hlexical hstage, fun _ => ⟨ts, rfl, fun hne => ?_⟩⟩
    · rcases hline with ⟨-, hone⟩ | ⟨k, hk, hline⟩
      · omega
      · exact hline ▸ (hbounds k hk).1
    · rcases hline with ⟨-, hone⟩ | ⟨k, hk, hline⟩
      · omega
      · exact hline ▸ (hbounds k hk).2
    · exact hline.resolve_left fun hnil => hne hnil.1

theorem report_line_while : ∃ fault r,
    run grammar true (Text.ofString "\nwhile") = .error fault ∧ fault.report? = some r ∧
      r.stage = .grammatical ∧ r.line = 2 := by
  have htokens : tokenize (Text.ofString "\nwhile") = .ok [⟨"while", "while", 2, 2⟩] := by
    obtain ⟨table, htable, hshapes, -, hfirst⟩ := exists_lexicon
    obtain ⟨rule, hm, hskip, hcategory⟩ := hfirst _ mem_cons_self
    have hspaced : Token.Spaced table [] [("\n", ⟨"while", "while", 2, 2⟩)] :=
      .token ⟨[10], by decide, rfl⟩ (by decide) (by decide +kernel) hm hskip hcategory.symm
        (.last ⟨[], by simp, rfl⟩)
    have hone := Token.tokenize_of_spaced hspaced
    exact Option.some_injective _ ((tokenize_eq htable hshapes _).symm.trans hone)
  have hnot : Text.ofString "while" ∉ syntaxRules.first 20 syntaxRules.start := by decide +kernel
  rw [← grammar_eq] at hnot
  have hempty : (Chart.ofTokens grammar [⟨"while", "while", 2, 2⟩]).sets.findIdx? isEmpty =
      some 1 :=
    Chart.findIdx?_sets_of_first grammar_wellFormed grammar_free grammar_productive hnot
  obtain ⟨k, hk, hrejection⟩ := Chart.rejection?_of_findIdx? grammar_wellFormed hempty
  have hrun : run grammar true _ = _ := run_of_rejection htokens hrejection
  obtain ⟨r, hr, -, -, -, htoken⟩ := report_line hrun
  cases hr
  obtain ⟨ts, hts, hline⟩ := htoken (by simp)
  cases htokens.symm.trans hts
  obtain ⟨k', hk', hline⟩ := hline (by simp)
  rw [mem_singleton.1 hk'] at hline
  exact ⟨_, _, hrun, rfl, rfl, hline⟩

end Pipeline

end JavaToCpp
