/-
  Lists in parse trees.

  Members, instructions, parameters and arguments stand in lists that are nested to the right.
  Unrolled, a list has the items that stand in it and in no other of its items, from left to right.
-/
import JavaToCpp.Proofs.Chart.Follows
import JavaToCpp.Proofs.Java.Concrete

open List

namespace JavaToCpp

/-! ## Leftmost leaves -/

namespace Tree

variable {t n : Tree}

/-- No node is missing, and every branch has children. -/
def Full (t : Tree) : Prop := ∀ n ∈ t.nodes, n ≠ hole ∧ ∀ l, n ≠ branch l []

theorem Full.of_mem (h : t.Full) (hn : n ∈ t.nodes) : n.Full :=
  fun m hm => h m (nodes_subset_of_mem hn hm)

theorem Full.head_tokens (h : t.Full) : ∃ k rest, t.tokens = k :: rest ∧ t.first? = some k := by
  fun_induction first? t with
  | case1 k => exact ⟨k, [], rfl, rfl⟩
  | case2 l c cs ih =>
    obtain ⟨k, rest, htokens, hfirst⟩ := ih (h.of_mem (nodes_subset (t := branch l (c :: cs))
      mem_cons_self c.mem_nodes_self))
    exact ⟨k, rest ++ tokensOf cs, by rw [tokens, tokensOf, htokens, cons_append], hfirst⟩
  | case3 l => exact absurd rfl ((h _ (mem_nodes_self _)).2 l)
  | case4 => exact absurd rfl (h _ (mem_nodes_self _)).1

/-! ## Items -/

mutual

/-- The nodes with a label that stand below no other such node, from left to right. -/
def outermost (l : Text) : Tree → List Tree
  | leaf k => if k.category == l then [leaf k] else []
  | branch l' cs => if l' == l then [branch l' cs] else outermostOf l cs
  | hole => []

def outermostOf (l : Text) : List Tree → List Tree
  | [] => []
  | c :: cs => c.outermost l ++ outermostOf l cs

end

theorem outermost_of_label {l : Text} (h : t.label = .ok l) : t.outermost l = [t] := by
  cases t with
  | hole => cases h
  | _ => cases h; simp [outermost]

end Tree

/-- A tree that the tokens are read as, or any other derivation tree. -/
def Grammar.IsParseTree (g : Grammar) (t : Tree) : Prop :=
  (∃ ts, Chart.parse g ts = .ok t) ∨ ∃ s, g.Parses s t

namespace Chart

variable {g : Grammar} {ts : List Token} {t : Tree}

theorem tree?_of_parse (h : parse g ts = .ok t) :
    (ofTokens g ts).rejection? = none ∧ (ofTokens g ts).tree? = some t := by
  simp only [parse] at h
  split at h
  · rename_i hnone htree
    cases h
    exact ⟨hnone, htree⟩
  · cases h
  · cases h

theorem Follows.full (hg : g.WellFormed) (h : Follows g ts t) : t.Full := by
  refine fun n hn => ⟨fun hhole => h.present (hhole ▸ hn), ?_⟩
  rintro l rfl
  obtain ⟨r, hr, -, hlabels⟩ := h.rule l [] hn
  exact rhs_ne_nil hg hr (map_eq_nil_iff.1 hlabels.symm)

end Chart

namespace Grammar

variable {g : Grammar} {s : Symbol} {t : Tree}

theorem Parses.full (hg : g.WellFormed) (h : g.Parses s t) : t.Full := by
  intro n hn
  rcases h.of_mem_nodes n hn with ⟨k, rfl⟩ | ⟨l, h⟩
  · exact ⟨by simp, by simp⟩
  · have htokens := h.tokens_ne_nil hg
    refine ⟨?_, fun l => ?_⟩
    · rintro rfl
      exact htokens rfl
    · rintro rfl
      exact htokens rfl

theorem IsParseTree.full (hg : g.WellFormed) (h : g.IsParseTree t) : t.Full := by
  rcases h with ⟨ts, h⟩ | ⟨s, h⟩
  · obtain ⟨-, h⟩ := Chart.tree?_of_parse h
    exact (Chart.follows_of_tree? hg h).2.full hg
  · exact h.full hg

end Grammar

namespace Java

open Nonterminal (node)

/-- The nonterminals of lists, each with that of its items and whether commas stand between them. -/
def lists : List (Nonterminal × Nonterminal × Bool) := [(.classBody, .member, false),
  (.instructions, .instruction, false), (.funcParams, .param, true), (.callArgs, .expr, true)]

/-- What stands between two items: a comma, or nothing. -/
def Gap (commas : Bool) (ks : List Token) : Prop :=
  if commas then ∃ k : Token, ks = [k] ∧ k.category = Text.ofString "comma" else ks = []

/-- A list unrolled: its first item, and the further ones with the tokens in front of them.  They are
    all the items that stand in it and in no other item, and their tokens with those in front of
    them are the tokens of the list. -/
structure Unrolls (item : Text) (commas : Bool) (n x : Tree) (xs : List (List Token × Tree)) :
    Prop where
  flatten : n.flatten item = .ok (x :: xs.map Prod.snd)
  outermost : n.outermost item = x :: xs.map Prod.snd
  tokens : n.tokens = x.tokens ++ xs.flatMap fun y => y.1 ++ y.2.tokens
  gaps : ∀ y ∈ xs, Gap commas y.1

section
variable {s item : Nonterminal} {commas : Bool} {x t rest : Tree}

theorem sides_of_mem_lists (h : (s, item, commas) ∈ lists) : item ≠ s ∧ .comma ≠ item ∧
    Text.ofString "comma" ≠ item.label ∧
    s.sides = [[item], item :: ((if commas then [.comma] else []) ++ [s])] := by
  have hall : ∀ l ∈ lists, l.2.1 ≠ l.1 ∧ .comma ≠ l.2.1 ∧ Text.ofString "comma" ≠ l.2.1.label ∧
      l.1.sides = [[l.2.1], l.2.1 :: ((if l.2.2 then [.comma] else []) ++ [l.1])] := by decide +kernel
  exact hall _ h

theorem unrolls_last (hne : item ≠ s) (hx : x.label = .ok item.label) :
    Unrolls item.label commas (s.node [x]) x [] where
  flatten := Nonterminal.flatten_last hne hx
  outermost := by
    simp [node, Tree.outermost, Tree.outermostOf, Tree.outermost_of_label hx, hne.symm]
  tokens := by simp [Tree.tokensOf]
  gaps := by simp

theorem Unrolls.more {x' : Tree} {xs : List (List Token × Tree)}
    (h : Unrolls item.label commas rest x' xs) (us : List Tree) (hne : item ≠ s)
    (hcomma : .comma ≠ item) (hx : x.label = .ok item.label)
    (hrest : rest.label = .ok s.label) (hus : ∀ u ∈ us, u.label = .ok Nonterminal.comma.label)
    (hout : Tree.outermostOf item.label (us ++ [rest]) = rest.outermost item.label)
    (hgap : Gap commas (Tree.tokensOf us)) :
    Unrolls item.label commas (s.node (x :: (us ++ [rest]))) x ((Tree.tokensOf us, x') :: xs) where
  flatten := Nonterminal.flatten_more .comma us hne hx hcomma hus hrest h.flatten
  outermost := by
    simp [node, Tree.outermost, Tree.outermostOf, Tree.outermost_of_label hx, hne.symm, hout, h.outermost]
  tokens := by simp [Tree.tokensOf, Tree.tokensOf_append, h.tokens]
  gaps := forall_mem_cons.2 ⟨hgap, h.gaps⟩

theorem unrolls_of_parses (h : grammar.Parses s.label t) : ∀ {item : Nonterminal} {commas : Bool},
    (s, item, commas) ∈ lists → ∃ x xs, Unrolls item.label commas t x xs := by
  induction h using Nonterminal.parses_induction with
  | word hk =>
    intro item commas hs
    have hsides := (sides_of_mem_lists hs).2.2.2
    rw [Nonterminal.sides_eq_nil (ne_nil_of_mem hk)] at hsides
    cases hsides
  | @side s side ts hside h ih =>
    intro item commas hs
    obtain ⟨hne, hcomma, hcategory, hsides⟩ := sides_of_mem_lists hs
    rw [hsides] at hside
    simp only [mem_cons, not_mem_nil, or_false] at hside
    rcases hside with rfl | rfl
    · obtain _ | ⟨hx, _ | _⟩ := h
      exact ⟨_, [], unrolls_last hne hx.label⟩
    · cases commas with
      | false =>
        obtain _ | ⟨⟨hx, -⟩, _ | ⟨⟨hrest, ih⟩, _ | _⟩⟩ := ih
        obtain ⟨x', xs, hxs⟩ := ih hs
        exact ⟨_, _, hxs.more [] hne hcomma hx.label hrest.label (by simp)
          (by simp [Tree.outermostOf]) rfl⟩
      | true =>
        obtain _ | ⟨⟨hx, -⟩, _ | ⟨⟨hc, -⟩, _ | ⟨⟨hrest, ih⟩, _ | _⟩⟩⟩ := ih
        obtain ⟨x', xs, hxs⟩ := ih hs
        obtain ⟨k, rfl, hk⟩ := hc.exists_token (Nonterminal.isTag_label _)
        obtain hk : k.category = Text.ofString "comma" :=
          mem_singleton.1 (Nonterminal.accepts_label.1 hk)
        exact ⟨_, _, hxs.more [_] hne hcomma hx.label hrest.label (by simpa using hc.label)
          (by simp [Tree.outermostOf, Tree.outermost, hcomma, hk, hcategory])
          ⟨k, by simp [Tree.tokensOf, Tree.tokens], hk⟩⟩

end

theorem exists_parses {t : Tree} (h : grammar.IsParseTree t) : ∃ s, grammar.Parses s t := by
  rcases h with ⟨ts, h⟩ | h
  · obtain ⟨hnone, htree⟩ := Chart.tree?_of_parse h
    obtain ⟨t', htree', ht, -⟩ := Chart.parses_of_accepted grammar_wellFormed grammar_free hnone
    cases htree.symm.trans htree'
    exact ⟨_, ht⟩
  · exact h

/-- **Lists and first tokens.**  In every parse tree of the Java subset a list of members, of
    instructions, of parameters or of arguments unrolls to its items, with a comma between every two
    parameters or arguments and nothing between the others.  In every parse tree of any grammar that
    is read from a text, each node has tokens, and the first of them is that of its leftmost leaf. -/
theorem lists_of_parse_trees :
    (∀ t, grammar.IsParseTree t → ∀ s item commas, (s, item, commas) ∈ lists →
      ∀ cs, .branch s.label cs ∈ t.nodes → ∃ x xs, Unrolls item.label commas (s.node cs) x xs) ∧
    ∀ text g, Grammar.load text = .ok g → ∀ t, g.IsParseTree t →
      ∀ n ∈ t.nodes, ∃ k rest, n.tokens = k :: rest ∧ n.first? = some k := by
  constructor
  · intro t ht s item commas hs cs hn
    obtain ⟨s₀, ht⟩ := exists_parses ht
    rcases ht.of_mem_nodes _ hn with ⟨k, hk⟩ | ⟨l, hl⟩
    · cases hk
    · obtain rfl : s.label = l := Except.ok.inj hl.label
      exact unrolls_of_parses hl hs
  · intro text g hload t ht n hn
    exact ((ht.full (Grammar.load_wellFormed hload)).of_mem hn).head_tokens

theorem lists_of_printTwice : ∃ body x xs, printTwice.tree.child 4 = Nonterminal.classBody.node body ∧
    Unrolls Nonterminal.member.label false (Nonterminal.classBody.node body) x xs ∧
    ∃ k, printTwice.tree.first? = some k ∧ printTwice.tree.tokens.head? = some k := by
  have ht : grammar.IsParseTree printTwice.tree := .inr ⟨_, printTwice.parses⟩
  have hbody : printTwice.tree.child 4 ∈ printTwice.tree.nodes :=
    Tree.nodes_subset (mem_of_getElem? (i := 4) rfl) (Tree.mem_nodes_self _)
  obtain ⟨x, xs, hxs⟩ := lists_of_parse_trees.1 _ ht .classBody .member false (by decide) _ hbody
  obtain ⟨k, rest, htokens, hfirst⟩ := lists_of_parse_trees.2 _ _ load_grammarText _
    (grammar_eq ▸ ht) _ (Tree.mem_nodes_self _)
  exact ⟨_, x, xs, rfl, hxs, k, hfirst, by rw [htokens]; rfl⟩

end Java

end JavaToCpp
