/-
  Grammars without a difference.

  A difference compares names and alternatives.  What else the recogniser takes from a grammar is the
  start symbol, which depends on the order of the nonterminals if `<program>` is not among them.
-/
import JavaToCpp.Proofs.Chart.Renumber
import JavaToCpp.Proofs.Grammar.Difference

namespace JavaToCpp

open List Grammar

namespace Grammar

variable {a b : Grammar}

theorem Readable.rights_eq (ha : a.Readable) (s : Symbol) :
    (a.rulesOf s).map Rule.rhs = (a.alternatives s).map Text.fields := by
  rw [alternatives_eq_map, map_map]
  refine (map_id _).symm.trans (map_congr_left fun rhs hrhs => ?_)
  exact (Text.fields_join fun x hx => ((ha.right s rhs hrhs).2 x hx).word).symm

theorem rights_eq_of_isEmpty (ha : a.Readable) (hb : b.Readable)
    (hempty : (Diff.between (some a) (some b)).isEmpty) (s : Symbol) :
    (a.rulesOf s).map Rule.rhs = (b.rulesOf s).map Rule.rhs := by
  rw [ha.rights_eq, hb.rights_eq, (ha.isEmpty_between_iff hb).1 hempty]

theorem sameRules_of_isEmpty (ha : a.Readable) (hb : b.Readable)
    (hempty : (Diff.between (some a) (some b)).isEmpty) (hstart : a.start = b.start) :
    a.SameRules b :=
  ⟨hstart, rights_eq_of_isEmpty ha hb hempty⟩

theorem mem_nonterminals_of_isEmpty (hempty : (Diff.between (some a) (some b)).isEmpty) (s : Symbol) :
    s ∈ a.nonterminals ↔ s ∈ b.nonterminals := by
  have ha : s ∈ names (some a) ↔ alternativesIn (some a) s ≠ [] := mem_names
  have hb : s ∈ names (some b) ↔ alternativesIn (some b) s ≠ [] := mem_names
  rw [Ne, (isEmpty_between_iff.1 hempty s).eq_nil_iff, ← Ne, ← hb] at ha
  exact ha

/-- It is enough to compare the alternatives of the symbols that one of the grammars defines, if the
    other one defines no more. -/
theorem isEmpty_between_of_forall_mem (hmem : ∀ s ∈ b.nonterminals, s ∈ a.nonterminals)
    (hsame : ∀ s ∈ a.nonterminals, a.alternatives s = b.alternatives s) :
    (Diff.between (some a) (some b)).isEmpty := by
  refine isEmpty_between_of_eq fun s => ?_
  by_cases hs : s ∈ a.nonterminals
  · exact hsame s hs
  · have ha : s ∉ names (some a) := hs
    have hb : s ∉ names (some b) := fun h => hs (hmem s h)
    rw [mem_names, not_not] at ha hb
    rw [ha, hb]

theorem Readable.head?_nonterminals (ha : a.Readable) :
    a.nonterminals.head? = some (a.nonterminals.head?.getD []) := by
  obtain ⟨r, rules, hrules⟩ := exists_cons_of_ne_nil ha.rules_ne_nil
  rw [nonterminals, hrules, map_cons, eraseDups_cons]
  rfl

/-- **When grammars without a difference have one start symbol**: if `<program>` is defined, or if the
    same nonterminal comes first. -/
theorem start_eq_iff_of_isEmpty (ha : a.Readable) (hb : b.Readable)
    (hempty : (Diff.between (some a) (some b)).isEmpty) :
    a.start = b.start ↔ program ∈ a.nonterminals ∨ a.nonterminals.head? = b.nonterminals.head? := by
  rw [start_eq, start_eq]
  by_cases hprogram : program ∈ a.nonterminals
  · rw [if_pos hprogram, if_pos ((mem_nonterminals_of_isEmpty hempty _).1 hprogram)]
    exact ⟨fun _ => .inl hprogram, fun _ => rfl⟩
  · rw [if_neg hprogram, if_neg (mt (mem_nonterminals_of_isEmpty hempty _).2 hprogram)]
    refine ⟨fun heq => .inr ?_, fun h => congrArg (Option.getD · []) (h.resolve_left hprogram)⟩
    rw [ha.head?_nonterminals, hb.head?_nonterminals, heq]

end Grammar

namespace Chart

variable {a b : Grammar}

theorem parse_eq_of_sameRules (ha : a.WellFormed) (hb : b.WellFormed) (hab : a.SameRules b)
    (ts : List Token) : parse a ts = parse b ts := by
  obtain ⟨-, -, hrejection, htree⟩ := answers_eq ha hb hab ts
  rw [parse, parse, hrejection, htree]

/-- **When an empty difference means the same parser.**  Of two grammars that were read from texts and
    do not differ, each answers all tokens like the other and they have one start symbol, exactly if
    they define `<program>` or begin with the same nonterminal. -/
theorem parse_eq_iff_of_isEmpty {s t : Text} (ha : load s = .ok a) (hb : load t = .ok b)
    (hempty : (Diff.between (some a) (some b)).isEmpty) :
    (a.start = b.start ∧ ∀ ts, parse a ts = parse b ts) ↔
      program ∈ a.nonterminals ∨ a.nonterminals.head? = b.nonterminals.head? := by
  have hra := load_readable ha
  have hrb := load_readable hb
  rw [← start_eq_iff_of_isEmpty hra hrb hempty]
  refine ⟨And.left, fun hstart => ⟨hstart, fun ts => ?_⟩⟩
  exact parse_eq_of_sameRules (load_wellFormed ha) (load_wellFormed hb)
    (sameRules_of_isEmpty hra hrb hempty hstart) ts

def pairFirst : Grammar := .ofAlternatives
  [("<program>", ["A", "B"]), ("A", ["x"]), ("B", ["y"]), ("B", ["z"])]

def pairLater : Grammar := .ofAlternatives
  [("B", ["y"]), ("B", ["z"]), ("<program>", ["A", "B"]), ("A", ["x"])]

theorem parse_eq_of_moved : load "<program> -> A B\nA -> x\nB -> y | z\n" = .ok pairFirst ∧
    load "B -> y | z\n<program> -> A B\nA -> x\n" = .ok pairLater ∧
    (Diff.between (some pairFirst) (some pairLater)).isEmpty ∧
    pairFirst.start = pairLater.start ∧ ∀ ts, parse pairFirst ts = parse pairLater ts := by
  have hfirst : load "<program> -> A B\nA -> x\nB -> y | z\n" = .ok pairFirst := by decide +kernel
  have hlater : load "B -> y | z\n<program> -> A B\nA -> x\n" = .ok pairLater := by decide +kernel
  have hempty : (Diff.between (some pairFirst) (some pairLater)).isEmpty :=
    isEmpty_between_of_forall_mem (by decide +kernel) (by decide +kernel)
  exact ⟨hfirst, hlater, hempty,
    (parse_eq_iff_of_isEmpty hfirst hlater hempty).2 (.inl (by decide +kernel))⟩

def tags : Grammar := .ofAlternatives [("A", ["x"]), ("B", ["y"])]

def tagsSwapped : Grammar := .ofAlternatives [("B", ["y"]), ("A", ["x"])]

/-- **An empty difference can hide a change**: without `<program>` the nonterminal that comes first is
    the start symbol, so that the grammars do not accept the same. -/
theorem tags_swapped_unnoticed : load "A -> x\nB -> y\n" = .ok tags ∧
    load "B -> y\nA -> x\n" = .ok tagsSwapped ∧
    (Diff.between (some tags) (some tagsSwapped)).isEmpty ∧ tags.start ≠ tagsSwapped.start ∧
    (ofTokens tags (tokensFor ["x"])).rejection? = none ∧
    (ofTokens tagsSwapped (tokensFor ["x"])).rejection? ≠ none := by
  have htags : load "A -> x\nB -> y\n" = .ok tags := by decide +kernel
  have hswapped : load "B -> y\nA -> x\n" = .ok tagsSwapped := by decide +kernel
  have hfree : ∀ r ∈ tagsSwapped.rules, ¬ r.Mentions top := by
    unfold Rule.Mentions
    decide +kernel
  have hempty : (Diff.between (some tags) (some tagsSwapped)).isEmpty :=
    isEmpty_between_of_forall_mem (by decide +kernel) (by decide +kernel)
  have hderives : tags.Derives tags.start ((tokensFor ["x"]).map Token.category) := by
    have hstart : tags.start = Text.ofString "A" := by decide +kernel
    rw [hstart]
    exact .tag (by decide +kernel)
  refine ⟨htags, hswapped, hempty, by decide +kernel,
    accepted_of_derives (load_wellFormed htags) hderives, fun haccepted => ?_⟩
  obtain ⟨t, -, ht, htokens⟩ :=
    parses_of_accepted (load_wellFormed hswapped) hfree haccepted
  obtain ⟨k, rfl, hk⟩ := ht.exists_token (by decide +kernel)
  cases htokens
  exact absurd hk (by decide +kernel)

end Chart

end JavaToCpp
