/-
  What a chart answers.

  Tokens are accepted iff the start symbol derives their categories, and then the tree of the chart
  is a derivation tree of them.
-/
import JavaToCpp.Proofs.Chart.Fill

namespace JavaToCpp.Chart

open List Grammar

variable {g : Grammar} {ts : List Token} {s : State}

/-! ## States and columns -/

/-- The states differ in their trees and places at most. -/
def State.Same (s s' : State) : Prop :=
  s'.rule = s.rule ∧ s'.dot = s.dot ∧ s'.origin = s.origin

theorem State.Same.next? {s' : State} (h : s.Same s') : s'.next? = s.next? := by
  rw [State.next?, State.next?, h.1, h.2.1]

theorem rule_eq_of_number (hg : g.WellFormed) {r r' : Rule} (hr : r ∈ topRule g :: g.rules)
    (hr' : r' ∈ topRule g :: g.rules) (h : r.number = r'.number) : r = r' := by
  rcases mem_cons.1 hr with rfl | hr <;> rcases mem_cons.1 hr' with rfl | hr'
  · rfl
  · exact absurd h (Nat.ne_of_lt (hg.number_pos r' hr'))
  · exact absurd h (Nat.ne_of_gt (hg.number_pos r hr))
  · exact hg.eq_of_number hr hr' h

theorem exists_same (hg : g.WellFormed) {i : Nat} {c : Column} (hc : (columns g ts)[i]? = some c)
    {f : State} (hf : Reached g ts f) (hkey : f.key ∈ c.keys) : ∃ s ∈ c.states, f.Same s := by
  obtain ⟨s, hs, hk⟩ := (c.mem_keys _).1 hkey
  have hreached := ((columns_saturated hg ts).sound i c hc s hs).1
  have hk : (s.rule.number, s.dot, s.origin) = (f.rule.number, f.dot, f.origin) := hk
  rw [Prod.mk.injEq, Prod.mk.injEq] at hk
  exact ⟨s, hs, rule_eq_of_number hg hreached.rule_mem hf.rule_mem hk.1, hk.2⟩

/-- **A column has, up to the trees, every state that steps lead to.** -/
theorem Reached.exists_mem (hg : g.WellFormed) (h : Reached g ts s) :
    ∃ c, (columns g ts)[s.index]? = some c ∧ ∃ s' ∈ c.states, s.Same s' := by
  have hsat := columns_saturated hg ts
  induction h with
  | start =>
    obtain ⟨c, hc, hkey⟩ := hsat.start
    exact ⟨c, hc, exists_same hg hc .start hkey⟩
  | predict h hn ht hr ih =>
    obtain ⟨c, hc, s', hs', hsame⟩ := ih
    have hkey := hsat.closed _ c hc s' hs' _
      (mem_followers.2 (Or.inr ⟨_, hsame.next?.trans hn, ht, _, hr, rfl⟩))
    exact ⟨c, hc, exists_same hg hc (h.predict hn ht hr) hkey⟩
  | scan h hn ht hr hk ih =>
    obtain ⟨c, hc, s', hs', hsame⟩ := ih
    obtain ⟨d, hd, hkey⟩ := hsat.scanned _ c hc s' hs' _ hk _
      (scanState?_eq_some.2 ⟨_, _, hsame.next?.trans hn, ht, hr, rfl⟩)
    exact ⟨d, hd, exists_same hg hd (h.scan hn ht hr hk) hkey⟩
  | @complete s w hs hw hc hi hn ihs ihw =>
    obtain ⟨c, hget, s', hs', hsame⟩ := ihs
    obtain ⟨d, hget', w', hw', hsame'⟩ := ihw
    have hkey := hsat.closed _ c hget s' hs' (w'.advance s.index s'.tree)
      (mem_followers.2 (Or.inl ⟨hsame.next?.trans hc, d, by rw [hsame.2.2, ← hi]; exact hget',
        w', hw', by rw [hsame'.next?, hn, hsame.1], rfl⟩))
    -- the key does not depend on the trees
    have hkey' : (w'.advance s.index s'.tree).key = (w.advance s.index s.tree).key := by
      simp only [State.advance, State.key]
      rw [hsame'.1, hsame'.2.1, hsame'.2.2]
    exact ⟨c, hget, exists_same hg hget (hs.complete hw hc hi hn) (hkey' ▸ hkey)⟩

theorem Reached.exists_before (h : Reached g ts s) :
    ∀ i ≤ s.index, ∃ s', Reached g ts s' ∧ s'.index = i := by
  induction h with
  | start => exact fun i hi => ⟨_, .start, (Nat.le_zero.1 hi).symm⟩
  | predict _ _ _ _ ih => exact ih
  | scan h hn ht hr hk ih =>
    intro i hi
    rcases Nat.lt_or_eq_of_le hi with hlt | rfl
    · exact ih i (Nat.le_of_lt_succ hlt)
    · exact ⟨_, h.scan hn ht hr hk, rfl⟩
  | complete _ _ _ _ _ ihs _ => exact ihs

/-! ## Sets of a chart -/

theorem exists_column {i : Nat} (hi : i ≤ ts.length) : ∃ c, (columns g ts)[i]? = some c :=
  ⟨_, Array.getElem?_eq_getElem (by rw [size_columns]; omega)⟩

theorem getElem?_sets (i : Nat) :
    (ofTokens g ts).sets[i]? = (columns g ts)[i]?.map fun c => c.states.toList := by
  rw [sets_ofTokens, getElem?_map, Array.getElem?_toList]

theorem set_eq_nil (hg : g.WellFormed) {i : Nat} (hi : i ≤ ts.length) :
    (ofTokens g ts).sets[i]? = some [] ↔ ∀ s, Reached g ts s → s.index ≠ i := by
  obtain ⟨c, hc⟩ := exists_column (g := g) hi
  rw [getElem?_sets, hc]
  simp only [Option.map_some, Option.some.injEq, Array.toList_eq_nil_iff]
  constructor
  · rintro he s hs rfl
    obtain ⟨d, hd, s', hs', -⟩ := hs.exists_mem hg
    rw [hc] at hd
    cases hd
    simp [he] at hs'
  · intro h
    refine Array.eq_empty_iff_forall_not_mem.2 fun s hs => ?_
    obtain ⟨hreached, hindex⟩ := (columns_saturated hg ts).sound i c hc s hs
    exact h s hreached hindex

theorem length_sets (g : Grammar) (ts : List Token) :
    (ofTokens g ts).sets.length = ts.length + 1 := by
  rw [sets_ofTokens, length_map, Array.length_toList, size_columns]

/-- **No set is empty iff steps lead to the end**: behind an empty set there are empty sets
    only. -/
theorem findIdx?_sets_eq_none (hg : g.WellFormed) :
    (ofTokens g ts).sets.findIdx? isEmpty = none ↔
      ∃ s, Reached g ts s ∧ s.index = ts.length := by
  rw [findIdx?_eq_none_iff]
  constructor
  · intro h
    by_contra hex
    have hnil := (set_eq_nil hg (Nat.le_refl _)).2 fun s hs hi => hex ⟨s, hs, hi⟩
    cases h [] (mem_of_getElem? hnil)
  · rintro ⟨s, hs, hi⟩ set hset
    obtain ⟨i, hlt, hget⟩ := getElem_of_mem hset
    have hle : i ≤ ts.length := by
      rw [length_sets] at hlt
      omega
    obtain ⟨s', hs', hi'⟩ := hs.exists_before i (hi ▸ hle)
    refine Bool.eq_false_iff.2 fun hempty => (set_eq_nil hg hle).1 ?_ s' hs' hi'
    rw [getElem?_eq_getElem hlt, hget, List.isEmpty_iff.1 hempty]

/-- The state accepts all tokens. -/
structure Accepts (g : Grammar) (ts : List Token) (s : State) : Prop where
  reached : Reached g ts s
  rule : s.rule = topRule g
  complete : s.next? = none
  origin : s.origin = 0
  index : s.index = ts.length

theorem accepting_iff (hg : g.WellFormed) (h : Reached g ts s) (hi : s.index = ts.length) :
    accepting ts.length s ↔ Accepts g ts s := by
  simp only [accepting, Bool.and_eq_true, beq_iff_eq, State.isComplete, decide_eq_true_eq]
  constructor
  · rintro ⟨⟨⟨hn, hc⟩, ho⟩, -⟩
    have hr := rule_eq_of_number hg h.rule_mem mem_cons_self hn
    exact ⟨h, hr, State.next?_eq_none.2 hc, ho, hi⟩
  · rintro ⟨-, hr, hc, ho, -⟩
    exact ⟨⟨⟨by rw [hr]; rfl, State.next?_eq_none.1 hc⟩, ho⟩, hi⟩

theorem getLast?_sets {c : Column} (hc : (columns g ts)[ts.length]? = some c) :
    (ofTokens g ts).sets.getLast? = some c.states.toList := by
  rw [getLast?_eq_getElem?, length_sets, Nat.add_sub_cancel, getElem?_sets, hc]
  rfl

/-- **The accepted state of a chart accepts all tokens.** -/
theorem accepts_of_accepted? (hg : g.WellFormed) (h : (ofTokens g ts).accepted? = some s) :
    Accepts g ts s := by
  obtain ⟨c, hc⟩ := exists_column (g := g) (Nat.le_refl ts.length)
  rw [accepted?, getLast?_sets hc] at h
  have hmem := Array.mem_toList_iff.1 (mem_of_find?_eq_some h)
  obtain ⟨hreached, hi⟩ := (columns_saturated hg ts).sound _ c hc s hmem
  have hacc : accepting ts.length s = true := find?_some h
  exact (accepting_iff hg hreached hi).1 hacc

theorem accepted?_isSome (hg : g.WellFormed) :
    (ofTokens g ts).accepted?.isSome ↔ ∃ s, Accepts g ts s := by
  constructor
  · intro h
    obtain ⟨s, hs⟩ := Option.isSome_iff_exists.1 h
    exact ⟨s, accepts_of_accepted? hg hs⟩
  · rintro ⟨s, hs⟩
    obtain ⟨c, hc, s', hs', hsame⟩ := hs.reached.exists_mem hg
    rw [hs.index] at hc
    obtain ⟨hreached, hi⟩ := (columns_saturated hg ts).sound _ c hc s' hs'
    rw [accepted?, getLast?_sets hc]
    refine find?_isSome.2 ⟨s', Array.mem_toList_iff.2 hs', (accepting_iff hg hreached hi).2 ?_⟩
    exact ⟨hreached, hsame.1.trans hs.rule, hsame.next?.trans hs.complete,
      hsame.2.2.trans hs.origin, hi⟩

/-- **There is no rejection iff there is an accepted state.** -/
theorem rejection?_eq_none (hg : g.WellFormed) :
    (ofTokens g ts).rejection? = none ↔ (ofTokens g ts).accepted?.isSome := by
  unfold rejection?
  split
  · cases h : (ofTokens g ts).accepted? <;> simp
  · split
    · rename_i k hk
      refine ⟨fun h => by simp at h, fun h => ?_⟩
      obtain ⟨s, hs⟩ := (accepted?_isSome hg).1 h
      rw [(findIdx?_sets_eq_none hg).2 ⟨s, hs.reached, hs.index⟩] at hk
      cases hk
    · cases h : (ofTokens g ts).accepted? <;> simp

/-! ## Derivations -/

/-- **What the start symbol derives is accepted.** -/
theorem accepted_of_derives (hg : g.WellFormed)
    (h : g.Derives g.start (ts.map Token.category)) : (ofTokens g ts).rejection? = none := by
  obtain ⟨s, hs, hrule, hdot, ho, hi⟩ :=
    passes_of_derives h _ [] (.start : Reached g ts _) rfl (append_nil _).symm
  refine (rejection?_eq_none hg).2 ((accepted?_isSome hg).2 ⟨s, hs, hrule, ?_, ho, ?_⟩)
  · rw [State.next?_eq_none, hrule, hdot]
    exact Nat.le_refl 1
  · rw [hi, length_map]
    exact Nat.zero_add _

/-- **An accepting state has a derivation tree of the tokens.** -/
theorem Accepts.parses (hg : g.WellFormed) (hfree : ∀ r ∈ g.rules, ¬ r.Mentions top)
    (h : Accepts g ts s) : ∃ t, s.children = [t] ∧ g.Parses g.start t ∧ t.tokens = ts := by
  have hk := Reached.start.token_eq_none_of_rule hg h.reached h.rule.symm rfl
  have hch := h.reached.parses hfree hk
  rw [take_of_length_le (State.next?_eq_none.1 h.complete), h.rule] at hch
  obtain ⟨t, _, ht, hnil, hcs⟩ := forall₂_cons_left_iff.1 hch
  cases hnil
  refine ⟨t, hcs, ht, ?_⟩
  have hspan := h.reached.span_children hk
  rw [h.index, h.origin, take_length, hcs, Tree.tokensOf_singleton] at hspan
  exact hspan.symm

theorem parses_of_accepted (hg : g.WellFormed) (hfree : ∀ r ∈ g.rules, ¬ r.Mentions top)
    (h : (ofTokens g ts).rejection? = none) :
    ∃ t, (ofTokens g ts).tree? = some t ∧ g.Parses g.start t ∧ t.tokens = ts := by
  obtain ⟨s, hs⟩ := Option.isSome_iff_exists.1 ((rejection?_eq_none hg).1 h)
  obtain ⟨t, hcs, ht, htok⟩ := (accepts_of_accepted? hg hs).parses hg hfree
  refine ⟨t, ?_, ht, htok⟩
  rw [tree?, hs]
  simp [hcs]

/-- **Recognition is derivation.**  When no rule mentions the symbol above the start symbol, there
    is no rejection iff the start symbol derives the categories of the tokens. -/
theorem recognises_iff_derives {text : Text} (hload : load text = .ok g)
    (hfree : ∀ r ∈ g.rules, ¬ r.Mentions top) (ts : List Token) :
    (ofTokens g ts).rejection? = none ↔ g.Derives g.start (ts.map Token.category) := by
  have hg := load_wellFormed hload
  constructor
  · intro h
    obtain ⟨t, -, ht, htok⟩ := parses_of_accepted hg hfree h
    exact htok ▸ ht.derives
  · exact accepted_of_derives hg

/-- A grammar with left recursion, a unit cycle and more than one tree for most sums. -/
def sums : Grammar := ofAlternatives
  [("E", ["E", "P", "E"]), ("E", ["E"]), ("E", ["N"]), ("P", ["plus"]), ("N", ["num"])]

def tokensFor (cs : List Text) : List Token := cs.map fun c => ⟨c, c, 1, 1⟩

theorem load_sums : load "E -> E P E | E | N\nP -> plus\nN -> num\n" = .ok sums := by
  decide +kernel

theorem sums_free : ∀ r ∈ sums.rules, ¬ r.Mentions top := by
  unfold Rule.Mentions
  decide +kernel

theorem sums_derives : sums.Derives sums.start
    ((tokensFor ["num", "plus", "num"]).map Token.category) := by
  have hnum : sums.Derives "E" ["num"] :=
    @Derives.rule sums ⟨3, "E", ["N"]⟩ [["num"]] (by decide +kernel) (by decide +kernel)
      (by decide +kernel) (.cons (.tag (by decide +kernel)) .nil)
  have hstart : sums.start = Text.ofString "E" := by decide +kernel
  rw [hstart]
  exact @Derives.rule sums ⟨1, "E", ["E", "P", "E"]⟩ [["num"], ["plus"], ["num"]]
    (by decide +kernel) (by decide +kernel) (by decide +kernel)
    (.cons hnum (.cons (.tag (by decide +kernel)) (.cons hnum .nil)))

theorem recognises_sum : (ofTokens sums (tokensFor ["num", "plus", "num"])).rejection? = none :=
  (recognises_iff_derives load_sums sums_free _).2 sums_derives

/-- **The tree of accepted tokens.**  Its root is the start symbol, its leaves are the tokens, no
    node is missing, and every branch follows the grammar. -/
theorem tree_of_accepted {text : Text} (hload : load text = .ok g)
    (hfree : ∀ r ∈ g.rules, ¬ r.Mentions top) (h : (ofTokens g ts).rejection? = none) :
    ∃ t, (ofTokens g ts).tree? = some t ∧ t.isLeaf = false ∧ t.label = .ok g.start ∧
      t.tokens = ts ∧ ∀ n ∈ t.nodes, n ≠ .hole ∧ ∀ l cs, n = .branch l cs → g.Shaped l cs := by
  obtain ⟨t, htree, ht, htok⟩ := parses_of_accepted (load_wellFormed hload) hfree h
  exact ⟨t, htree, ht.isLeaf, ht.label, htok, ht.node⟩

theorem tree_of_sum : ∃ t, (ofTokens sums (tokensFor ["num", "plus", "num"])).tree? = some t ∧
    t.tokens = tokensFor ["num", "plus", "num"] := by
  obtain ⟨t, htree, -, -, htok, -⟩ := tree_of_accepted load_sums sums_free
    (accepted_of_derives (load_wellFormed load_sums) sums_derives)
  exact ⟨t, htree, htok⟩

end JavaToCpp.Chart
