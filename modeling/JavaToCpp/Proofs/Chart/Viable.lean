/-
  Viable prefixes.

  When every symbol has a derivation tree, the trees of a state fit into a derivation tree of the
  start symbol, whose tokens begin with those that the state has come past.  So a place that steps
  lead to is the end of a prefix of accepted tokens, and a state with two lists of trees would give
  two trees for the same tokens.
-/
import JavaToCpp.Proofs.Chart.Answer
import JavaToCpp.Proofs.Grammar.Lookahead

namespace JavaToCpp.Chart

open List Grammar

variable {g : Grammar} {ts : List Token} {s : State}

/-! ## Trees around a state -/

/-- Trees for the symbols of the rule that begin at place `i` fit into a tree of the start symbol,
    between the tokens before that place and some further ones, and can be told from that tree. -/
def Embeds (g : Grammar) (ts : List Token) (r : Rule) (i : Nat) : Prop :=
  ∃ (f : List Tree → Tree) (us : List Token),
    (∀ cs, Forall₂ g.Parses r.rhs cs →
      g.Parses g.start (f cs) ∧ (f cs).tokens = ts.take i ++ Tree.tokensOf cs ++ us) ∧
    ∀ cs ds, Forall₂ g.Parses r.rhs cs → Forall₂ g.Parses r.rhs ds → f cs = f ds → cs = ds

theorem embeds_top (g : Grammar) (ts : List Token) : Embeds g ts (topRule g) 0 := by
  have hone : ∀ cs, Forall₂ g.Parses (topRule g).rhs cs →
      ∃ t, cs = [t] ∧ g.Parses g.start t := by
    intro cs hcs
    obtain ⟨t, _, ht, hnil, rfl⟩ := forall₂_cons_left_iff.1 hcs
    cases hnil
    exact ⟨t, rfl, ht⟩
  refine ⟨fun cs => cs.headD .hole, [], fun cs hcs => ?_, fun cs ds hcs hds h => ?_⟩
  · obtain ⟨t, rfl, ht⟩ := hone cs hcs
    exact ⟨ht, by simp [Tree.tokensOf]⟩
  · obtain ⟨t, rfl, -⟩ := hone cs hcs
    obtain ⟨u, rfl, -⟩ := hone ds hds
    exact congrArg (fun t => [t]) h

theorem Reached.exists_rest (hp : g.Productive) (h : Reached g ts s) (hk : s.token = none)
    (n : Nat) : ∃ es, Forall₂ g.Parses (s.rule.rhs.drop n) es := by
  refine exists_trees fun x hx => ?_
  have hx := mem_of_mem_drop hx
  rcases h.rule_of_token hk with hr | ⟨hr, ht⟩
  · rw [hr] at hx
    rw [mem_singleton.1 hx]
    exact hp.start
  · exact hp.symbols _ hr ht x hx

theorem State.drop_eq {a : Symbol} (hn : s.next? = some a) :
    s.rule.rhs.drop s.dot = a :: s.rule.rhs.drop (s.dot + 1) := by
  obtain ⟨hlt, rfl⟩ := List.getElem?_eq_some_iff.1 hn
  exact drop_eq_getElem_cons hlt

section
variable (hfree : ∀ r ∈ g.rules, ¬ r.Mentions top)
include hfree

theorem Reached.parses_append (h : Reached g ts s) (hk : s.token = none) {es : List Tree}
    (hes : Forall₂ g.Parses (s.rule.rhs.drop s.dot) es) :
    Forall₂ g.Parses s.rule.rhs (s.children ++ es) := by
  have hall := rel_append (h.parses hfree hk) hes
  simpa only [take_append_drop] using hall

variable (hp : g.Productive)
include hp

theorem Reached.embeds (h : Reached g ts s) (hk : s.token = none) :
    Embeds g ts s.rule s.origin := by
  induction h with
  | start => exact embeds_top g ts
  | scan => cases hk
  | complete _ _ _ _ _ _ ihw => exact ihw hk
  | @predict s a r h hn ht hr ih =>
    -- the rule stands between the trees before the dot of `s` and some trees after it
    have hs := h.token_eq_none hn
    obtain ⟨f, us, hf, hinj⟩ := ih hs
    obtain ⟨es, hes⟩ := h.exists_rest hp hs (s.dot + 1)
    obtain ⟨hmem, rfl⟩ := mem_rulesOf.1 hr
    have hall : ∀ cs, Forall₂ g.Parses r.rhs cs →
        Forall₂ g.Parses s.rule.rhs (s.children ++ .branch r.lhs cs :: es) := by
      intro cs hcs
      refine h.parses_append hfree hs ?_
      rw [State.drop_eq hn]
      exact .cons (.rule hmem ht hcs) hes
    refine ⟨fun cs => f (s.children ++ .branch r.lhs cs :: es), Tree.tokensOf es ++ us,
      fun cs hcs => ?_, fun cs ds hcs hds heq => ?_⟩
    · obtain ⟨hparses, htok⟩ := hf _ (hall cs hcs)
      refine ⟨hparses, htok.trans ?_⟩
      show _ = ts.take s.index ++ Tree.tokensOf cs ++ (Tree.tokensOf es ++ us)
      rw [h.span_children hs]
      simp [Tree.tokensOf_append, Tree.tokensOf, Tree.tokens]
    · have hcons := append_cancel_left (hinj _ _ (hall cs hcs) (hall ds hds) heq)
      rw [List.cons.injEq, Tree.branch.injEq] at hcons
      exact hcons.1.2

theorem Reached.exists_tree (h : Reached g ts s) (hk : s.token = none) {es : List Tree}
    (hes : Forall₂ g.Parses (s.rule.rhs.drop s.dot) es) :
    ∃ us t, g.Parses g.start t ∧ t.tokens = ts.take s.index ++ Tree.tokensOf es ++ us := by
  obtain ⟨f, us, hf, -⟩ := h.embeds hfree hp hk
  obtain ⟨hparses, htok⟩ := hf _ (h.parses_append hfree hk hes)
  refine ⟨us, _, hparses, htok.trans ?_⟩
  rw [h.span_children hk, Tree.tokensOf_append, ← append_assoc (ts.take s.origin)]

/-- **The tokens before a state are a prefix of the tokens of a tree.** -/
theorem Reached.viable (h : Reached g ts s) :
    ∃ us t, g.Parses g.start t ∧ t.tokens = ts.take s.index ++ us := by
  cases hk : s.token with
  | none =>
    obtain ⟨es, hes⟩ := h.exists_rest hp hk s.dot
    obtain ⟨us, t, ht, htok⟩ := h.exists_tree hfree hp hk hes
    exact ⟨Tree.tokensOf es ++ us, t, ht, by rw [htok, append_assoc]⟩
  | some k =>
    cases h with
    | start => cases hk
    | predict => cases hk
    | @complete _ w _ hw _ _ hn =>
      have hk : w.token = some k := hk
      rw [hw.token_eq_none hn] at hk
      cases hk
    | @scan s a r k' h hn ht hr hts =>
      -- the tag that has read the token stands where `s` waits for it
      have hs := h.token_eq_none hn
      have hrhs : r.rhs = [k'.category] := ((h.scan hn ht hr hts).scanned rfl).2.2.2.1
      have htag : g.Parses a (.branch a [.leaf k']) :=
        .tag (accepts_iff.2 ⟨ht, r, (mem_of_tagRule? hr).1, hrhs⟩)
      obtain ⟨es, hes⟩ := h.exists_rest hp hs (s.dot + 1)
      obtain ⟨us, t, htree, htok⟩ := h.exists_tree hfree hp hs
        (State.drop_eq hn ▸ Forall₂.cons htag hes)
      refine ⟨Tree.tokensOf es ++ us, t, htree, htok.trans ?_⟩
      show _ = ts.take (s.index + 1) ++ _
      rw [take_add_one, hts]
      simp [Tree.tokensOf, Tree.tokens]

theorem Reached.exists_accepted (hg : g.WellFormed) (h : Reached g ts s) :
    ∃ more, (ofTokens g (ts.take s.index ++ more)).rejection? = none := by
  obtain ⟨us, t, ht, htok⟩ := h.viable hfree hp
  exact ⟨us, accepted_of_derives hg (htok ▸ ht.derives)⟩

theorem Reached.children_eq (hu : g.Unambiguous) {s' : State} (h : Reached g ts s)
    (h' : Reached g ts s') (hk : s.token = none) (hk' : s'.token = none) (hrule : s.rule = s'.rule)
    (hdot : s.dot = s'.dot) (ho : s.origin = s'.origin) (hi : s.index = s'.index) :
    s.children = s'.children := by
  obtain ⟨f, us, hf, hinj⟩ := h.embeds hfree hp hk
  obtain ⟨es, hes⟩ := h.exists_rest hp hk s.dot
  have hall := h.parses_append hfree hk hes
  have hall' := h'.parses_append hfree hk' (hdot ▸ hrule ▸ hes)
  rw [← hrule] at hall'
  -- the same tokens stand before the two dots
  have htok : Tree.tokensOf s.children = Tree.tokensOf s'.children := by
    have hspan := h'.span_children hk'
    rw [← hi, ← ho, h.span_children hk] at hspan
    exact append_cancel_left hspan
  have heq := hu _ _ (hf _ hall).1 (hf _ hall').1 (by
    rw [(hf _ hall).2, (hf _ hall').2, Tree.tokensOf_append, Tree.tokensOf_append, htok])
  exact append_cancel_right (hinj _ _ hall hall' heq)

/-- **Without ambiguity there is one state with a key at a place.** -/
theorem Reached.eq_of_key (hg : g.WellFormed) (hu : g.Unambiguous) {s s' : State}
    (h : Reached g ts s) (h' : Reached g ts s') (hkey : s.key = s'.key)
    (hi : s.index = s'.index) : s = s' := by
  have hkey : (s.rule.number, s.dot, s.origin) = (s'.rule.number, s'.dot, s'.origin) := hkey
  rw [Prod.mk.injEq, Prod.mk.injEq] at hkey
  obtain ⟨hn, hdot, ho⟩ := hkey
  have hrule := rule_eq_of_number hg h.rule_mem h'.rule_mem hn
  cases hk : s.token with
  | none =>
    have hk' := h.token_eq_none_of_rule hg h' hrule hk
    have hch := h.children_eq hfree hp hu h' hk hk' hrule hdot ho hi
    cases s
    cases s'
    simp_all only
  | some k =>
    obtain ⟨k', hk'⟩ : ∃ k', s'.token = some k' := by
      refine Option.ne_none_iff_exists'.1 fun hk' => ?_
      rw [h'.token_eq_none_of_rule hg h hrule.symm hk'] at hk
      cases hk
    obtain ⟨hs, -, -, -, hts⟩ := h.scanned hk
    obtain ⟨hs', -, -, -, hts'⟩ := h'.scanned hk'
    rw [ho, hts'] at hts
    cases hts
    rw [hs, hs', hrule, ho]

/-- **Without ambiguity a chart has every state that steps lead to**, so none is left out for
    another one. -/
theorem reached_iff_mem (hg : g.WellFormed) (hu : g.Unambiguous) :
    Reached g ts s ↔ ∃ set, (ofTokens g ts).sets[s.index]? = some set ∧ s ∈ set := by
  constructor
  · intro h
    obtain ⟨c, hc, s', hs', hrule, hdot, ho⟩ := h.exists_mem hg
    obtain ⟨hreached, hi⟩ := (columns_saturated hg ts).sound _ c hc s' hs'
    have hkey : s.key = s'.key := by rw [State.key, State.key, hrule, hdot, ho]
    have heq := h.eq_of_key hfree hp hg hu hreached hkey hi.symm
    rw [← heq] at hs'
    refine ⟨c.states.toList, ?_, Array.mem_toList_iff.2 hs'⟩
    rw [getElem?_sets, hc]
    rfl
  · rintro ⟨set, hset, hs⟩
    rw [getElem?_sets] at hset
    obtain ⟨c, hc, rfl⟩ := Option.map_eq_some_iff.1 hset
    exact ((columns_saturated hg ts).sound _ c hc s (Array.mem_toList_iff.1 hs)).1

end

/-- **Without ambiguity the tree of a chart is the derivation tree of the tokens.** -/
theorem tree?_eq_some (hg : g.WellFormed) (hfree : ∀ r ∈ g.rules, ¬ r.Mentions top)
    (hu : g.Unambiguous) {t : Tree} :
    (ofTokens g ts).tree? = some t ↔ g.Parses g.start t ∧ t.tokens = ts := by
  constructor
  · intro h
    have hacc : (ofTokens g ts).accepted?.isSome := by
      cases ha : (ofTokens g ts).accepted? with
      | none => simp [tree?, ha] at h
      | some => rfl
    obtain ⟨u, hu, hparses⟩ := parses_of_accepted hg hfree ((rejection?_eq_none hg).2 hacc)
    rw [h] at hu
    cases hu
    exact hparses
  · rintro ⟨ht, htok⟩
    have hacc := accepted_of_derives hg (htok ▸ ht.derives)
    obtain ⟨u, htree, hparses, htok'⟩ := parses_of_accepted hg hfree hacc
    rw [htree, hu t u ht hparses (htok.trans htok'.symm)]

/-! ## Empty sets -/

theorem sets_append (us : List Token) {i : Nat} (hi : i ≤ ts.length) :
    (ofTokens g (ts ++ us)).sets[i]? = (ofTokens g ts).sets[i]? := by
  rw [getElem?_sets, getElem?_sets, columns_append g ts us hi]

theorem sets_take {k : Nat} (hk : k ≤ ts.length) (more : List Token) :
    (ofTokens g (ts.take k ++ more)).sets[k]? = (ofTokens g ts).sets[k]? := by
  have hlen : k ≤ (ts.take k).length := Nat.le_of_eq (length_take_of_le hk).symm
  have hts := sets_append (g := g) (ts.drop k) hlen
  rw [take_append_drop] at hts
  rw [sets_append more hlen, hts]

theorem of_findIdx?_sets (hg : g.WellFormed) {k : Nat}
    (h : (ofTokens g ts).sets.findIdx? isEmpty = some k) :
    0 < k ∧ k ≤ ts.length ∧ (ofTokens g ts).sets[k]? = some [] ∧
      ∃ s, Reached g ts s ∧ s.index = k - 1 := by
  obtain ⟨hlt, hempty, hbefore⟩ := findIdx?_eq_some_iff_getElem.1 h
  have hle : k ≤ ts.length := by
    rw [length_sets] at hlt
    omega
  have hnil : (ofTokens g ts).sets[k]? = some [] := by
    rw [getElem?_eq_getElem hlt, List.isEmpty_iff.1 hempty]
  have hpos : 0 < k := by
    refine Nat.pos_of_ne_zero fun h0 => ?_
    subst h0
    exact (set_eq_nil hg hle).1 hnil _ .start rfl
  refine ⟨hpos, hle, hnil, ?_⟩
  by_contra hnone
  have hprev : (ofTokens g ts).sets[k - 1]? = some [] :=
    (set_eq_nil hg (by omega)).2 fun s hs hi => hnone ⟨s, hs, hi⟩
  obtain ⟨hlt', hget⟩ := List.getElem?_eq_some_iff.1 hprev
  exact hbefore (k - 1) (by omega) (by rw [hget]; rfl)

/-- **An empty set rejects every continuation.** -/
theorem rejected_append (hg : g.WellFormed) {k : Nat} (hk : k ≤ ts.length)
    (hnil : (ofTokens g ts).sets[k]? = some []) (more : List Token) :
    (ofTokens g (ts.take k ++ more)).rejection? ≠ none := by
  intro h
  obtain ⟨s, hs⟩ := (accepted?_isSome hg).1 ((rejection?_eq_none hg).1 h)
  have hnone := (findIdx?_sets_eq_none hg).2 ⟨s, hs.reached, hs.index⟩
  have hmem := mem_of_getElem? ((sets_take hk more).trans hnil)
  cases findIdx?_eq_none_iff.1 hnone [] hmem

theorem rejection?_of_findIdx? (hg : g.WellFormed) {k : Nat}
    (h : (ofTokens g ts).sets.findIdx? isEmpty = some k) :
    ∃ t, ts[k - 1]? = some t ∧ (ofTokens g ts).rejection? = some (.unexpected t) := by
  obtain ⟨hpos, hle, -⟩ := of_findIdx?_sets hg h
  have hlt : k - 1 < ts.length := by omega
  have hlast : ts.getLast? = some (ts.getLast (ne_nil_of_length_pos (by omega))) :=
    getLast?_eq_some_getLast _
  have htok : (ofTokens g ts).tokens = ts := rfl
  refine ⟨ts[k - 1], getElem?_eq_getElem hlt, ?_⟩
  rw [rejection?, htok, hlast]
  simp only [h, getElem?_eq_getElem hlt, Option.getD_some]

theorem rejection?_eq_endOfInput (hg : g.WellFormed) {last : Token} :
    (ofTokens g ts).rejection? = some (.endOfInput last) ↔ ts.getLast? = some last ∧
      (∃ s, Reached g ts s ∧ s.index = ts.length) ∧ (ofTokens g ts).accepted? = none := by
  have htok : (ofTokens g ts).tokens = ts := rfl
  rw [← findIdx?_sets_eq_none hg, rejection?, htok]
  cases ts.getLast? with
  | none => cases (ofTokens g ts).accepted? <;> simp
  | some l =>
    cases (ofTokens g ts).sets.findIdx? isEmpty with
    | some k => simp
    | none => cases (ofTokens g ts).accepted? <;> simp

theorem findIdx?_sets_of_first (hg : g.WellFormed) (hfree : ∀ r ∈ g.rules, ¬ r.Mentions top)
    (hp : g.Productive) {n : Nat} {k : Token} (hk : k.category ∉ g.first n g.start) :
    (ofTokens g (k :: ts)).sets.findIdx? isEmpty = some 1 := by
  have hset : (ofTokens g (k :: ts)).sets[1]? = some [] := by
    refine (set_eq_nil hg (by simp)).2 fun s hs hi => hk ?_
    obtain ⟨us, t, ht, htok⟩ := hs.viable hfree hp
    rw [hi] at htok
    exact heads_first hg n ht k (by rw [htok]; rfl)
  have hzero : (ofTokens g (k :: ts)).sets[0]? ≠ some [] := fun h =>
    (set_eq_nil hg (Nat.zero_le _)).1 h _ .start rfl
  obtain ⟨hlt, hget⟩ := List.getElem?_eq_some_iff.1 hset
  refine findIdx?_eq_some_iff_getElem.2 ⟨hlt, by rw [hget]; rfl, fun j hj he => hzero ?_⟩
  obtain rfl := Nat.lt_one_iff.1 hj
  rw [getElem?_eq_getElem (Nat.zero_lt_of_lt hlt), List.isEmpty_iff.1 he]

end JavaToCpp.Chart
