/-
  The words of the lexicon.
-/
import JavaToCpp.Java.Lexicon
import JavaToCpp.Proofs.Java.Shape
import JavaToCpp.Proofs.Pattern.Visits

open List

namespace JavaToCpp.Token

/-- Whether the rules of a category match nothing but the words, as far as their groups tell. -/
def Table.spells (table : Table) (category : Text) (words : List Text) : Bool :=
  (table.groups.all fun (g, i) => (table.rules[i]?).all fun r =>
    r.category != category || table.program.spells g words) &&
  table.rules.getLast?.all fun r => r.category != category

variable {table : Table} {category : Text} {words : List Text}

theorem mem_of_match? (h : table.spells category words) {source : Text} {r : Rule} {n : Nat}
    (hm : table.match? source = some (r, n)) (hr : r.category = category) :
    source.take n ∈ words := by
  obtain ⟨hgroups, hlast⟩ := Bool.and_eq_true_iff.1 h
  obtain ⟨m, hmatch, hrest⟩ := Option.bind_eq_some_iff.1 hm
  obtain ⟨r', hrule, hrest⟩ := Option.bind_eq_some_iff.1 hrest
  cases hrest
  rw [Table.ruleOf?] at hrule
  split at hrule
  · rename_i g i hfind
    have hg : g ∈ m.entered := by simpa using find?_some hfind
    have hspells := all_eq_true.1 hgroups _ (mem_of_find?_eq_some hfind)
    simp only [hrule, Option.all_some, hr, bne_self_eq_false, Bool.false_or] at hspells
    exact Pattern.mem_of_spells hspells hmatch hg
  · simp [hrule, hr] at hlast

end JavaToCpp.Token

namespace JavaToCpp.Java

/-- The texts of the tokens of some categories. -/
def spellings : List (String × List String) := [
  ("type_hint", ["int", "boolean", "float", "double", "char"]),
  ("compare", ["==", "!=", "<=", ">=", "<", ">"]),
  ("boolean_operator", ["&&", "||"]),
  ("math_operator", ["+", "-", "*", "/", "%"])]

/-- The tokens of these categories have one of these texts. -/
def Spelled (ts : List Token) : Prop :=
  ∀ k ∈ ts, ∀ s ∈ spellings, k.category = Text.ofString s.1 → k.text ∈ s.2.map Text.ofString

variable {ts : List Token} {source : Text}

theorem spelled_iff : Spelled ts ↔ ∀ k ∈ ts, ∀ s ∈ spellings,
    k.category = Text.ofString s.1 → (s.2.map Text.ofString).contains k.text := by
  simp only [Spelled, contains_iff_mem]

instance (ts : List Token) : Decidable (Spelled ts) :=
  decidable_of_iff _ spelled_iff.symm

/-- A rule that gives tokens of the category matches `n` bytes of the text. -/
def finds (table : Token.Table) (t category : Text) (n : Nat) : Prop :=
  ∃ r, table.match? t = some (r, n) ∧ ¬ r.skip ∧ r.category = category

/-- The first match in each of some texts. -/
def firstMatches : List (Text × String × Nat) :=
  [("while", "while", 5), ("i<9", "id", 1), ("<9", "compare", 1), ("9", "number_int", 1),
    ([39, 255, 39], "char_literal", 3)]

theorem exists_lexicon : ∃ table, lexicon = .ok table ∧ hasShapes table (table.program.sights shapes 2) ∧
    (spellings.all fun s => table.spells (Text.ofString s.1) (s.2.map Text.ofString)) ∧
    ∀ f ∈ firstMatches, finds table f.1 (Text.ofString f.2.1) f.2.2 := by
  -- one evaluation for each part: all of them in one would take more memory than there is to spare
  have hshapes : lexicon.toOption.any fun table =>
      decide (hasShapes table (table.program.sights shapes 2)) := by
    decide +kernel
  have hspells : lexicon.toOption.any fun table =>
      spellings.all fun s => table.spells (Text.ofString s.1) (s.2.map Text.ofString) := by
    decide +kernel
  have hfirst : lexicon.toOption.any fun table => decide (∀ f ∈ firstMatches,
      ((table.program.seek f.1 0 none 0 [⟨0, []⟩] none).bind fun m =>
        (table.ruleOf? m.entered).map fun r => (r.skip, r.category, m.taken)) =
        some (false, Text.ofString f.2.1, f.2.2)) := by
    decide +kernel
  obtain ⟨table, htable, hshapes⟩ := exists_of_any hshapes
  rw [htable] at hspells hfirst
  have hshapes := of_decide_eq_true hshapes
  have hfirst := of_decide_eq_true hfirst
  refine ⟨table, htable, hshapes, hspells, fun f hf => ?_⟩
  have hfound := hfirst f hf
  rw [← Pattern.match?_eq] at hfound
  obtain ⟨m, hm, hr⟩ := Option.bind_eq_some_iff.1 hfound
  obtain ⟨r, hrule, heq⟩ := Option.map_eq_some_iff.1 hr
  rw [Prod.mk.injEq, Prod.mk.injEq] at heq
  exact ⟨r, Token.match?_eq_some_iff.2 ⟨m, hm, hrule, heq.2.2⟩, by simp [heq.1], heq.2.1⟩

theorem tokenize_eq {table : Token.Table} (htable : lexicon = .ok table)
    {sights : Pattern.Sights Shape} (hshapes : hasShapes table sights) (source : Text) :
    table.tokenize source = some (tokenize source) := by
  have hpos : ∀ t r n, table.match? t = some (r, n) → 0 < n := fun _ _ _ => pos_of_match? hshapes
  obtain ⟨r, hr⟩ := Option.ne_none_iff_exists'.1 (Token.all_ne_none hpos ⟨source, 0, 1⟩ [])
  rw [Token.Table.tokenize, hr, tokenize, htable]
  simp only [Token.Table.tokenize, hr, Option.getD_some]

theorem exists_tiled {table : Token.Table} (htable : lexicon = .ok table)
    (h : tokenize source = .ok ts) : ∃ pieces last, ts = pieces.map Prod.snd ∧
      source = Token.weave pieces last ∧ Token.Tiled table last [] [] pieces := by
  obtain ⟨table', htable', hshapes, -⟩ := exists_lexicon
  cases htable.symm.trans htable'
  have hall := tokenize_eq htable hshapes source
  rw [h] at hall
  obtain ⟨pieces, last, hts, hsource, htiled, -⟩ := Token.tiled_of_all_eq_ok [] hall
  exact ⟨pieces, last, hts, hsource, htiled⟩

/-- A rule of the table matches the token somewhere. -/
def Known (table : Token.Table) (k : Token) : Prop :=
  ∃ rule c, table.match? (k.text ++ c) = some (rule, k.text.length) ∧ ¬ rule.skip ∧
    k.category = rule.category

theorem known_of_tiled {table : Token.Table} {last rest before : Text} {pieces : List (Text × Token)}
    (h : Token.Tiled table last rest before pieces) : ∀ k ∈ pieces.map Prod.snd, Known table k := by
  induction h with
  | last => simp
  | token _ hm hskip hcategory _ _ _ ih =>
    exact forall_mem_cons.2 ⟨⟨_, _, hm, hskip, hcategory⟩, ih⟩

theorem spelled_of_tokenize (h : tokenize source = .ok ts) : Spelled ts := by
  intro k hk s hs hc
  obtain ⟨table, htable, -, hspells, -⟩ := exists_lexicon
  obtain ⟨pieces, last, rfl, -, htiled⟩ := exists_tiled htable h
  obtain ⟨r, c, hm, -, hcategory⟩ := known_of_tiled htiled k hk
  have hmem := Token.mem_of_match? (all_eq_true.1 hspells s hs) hm (hcategory.symm.trans hc)
  rwa [take_left] at hmem

theorem exists_rule_of_tokenize (h : tokenize source = .ok ts) :
    ∀ k ∈ ts, ∃ r ∈ rules, k.category = r.category := by
  intro k hk
  obtain ⟨table, htable, -⟩ := exists_lexicon
  obtain ⟨hrules, -, -⟩ := Token.compile_eq_ok htable
  obtain ⟨pieces, last, rfl, -, htiled⟩ := exists_tiled htable h
  obtain ⟨r, c, hm, -, hcategory⟩ := known_of_tiled htiled k hk
  exact ⟨r, hrules ▸ Token.mem_rules_of_match? hm, hcategory⟩

theorem tokenize_of_mem {category : String}
    (h : (source, category, source.length) ∈ firstMatches) (hne : source ≠ [])
    (hblank : Token.leadingBlank source = 0) : tokenize source = .ok [⟨category, source, 1, 1⟩] := by
  obtain ⟨table, htable, hshapes, -, hfirst⟩ := exists_lexicon
  obtain ⟨r, hm, hskip, hcategory⟩ := hfirst _ h
  have hwhite : Text.White [] := ⟨[], by simp, rfl⟩
  have hsource : source ++ Token.weave [] [] = source := append_nil source
  have hspaced : Token.Spaced table [] [([], ⟨category, source, 1, 1⟩)] :=
    .token hwhite hne (hsource.symm ▸ hblank) (hsource.symm ▸ hm) hskip hcategory.symm (.last hwhite)
  have hone := Token.tokenize_of_spaced hspaced
  rw [Token.weave, nil_append, hsource, tokenize_eq htable hshapes] at hone
  exact Option.some.inj hone

theorem tokenize_while : tokenize (Text.ofString "while") = .ok [⟨"while", "while", 1, 1⟩] :=
  tokenize_of_mem mem_cons_self (by decide) (by decide +kernel)

end JavaToCpp.Java
