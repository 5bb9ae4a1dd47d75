/-
  The trees of a chart, whatever the grammar.

  A rule may mention the symbol above the start symbol.  Then a tree of the chart need not be a
  derivation tree, but its nodes still come from rules.
-/
import JavaToCpp.Proofs.Chart.Answer

namespace JavaToCpp.Chart

open List JavaToCpp.Tree
open Grammar (Rule)

variable {g : Grammar} {ts : List Token} {s : State} {t : Tree}

/-- The tree is made of rules of the grammar and of the tokens. -/
structure Follows (g : Grammar) (ts : List Token) (t : Tree) : Prop where
  present : hole ∉ t.nodes
  rule : ∀ l cs, branch l cs ∈ t.nodes →
    ∃ r ∈ topRule g :: g.rules, r.lhs = l ∧ cs.map label = r.rhs.map .ok
  token : ∀ k, leaf k ∈ t.nodes → k ∈ ts ∧ ∃ r ∈ g.rules, g.isTag r.lhs ∧ r.rhs = [k.category]

theorem follows_branch {r : Rule} {cs : List Tree} (hr : r ∈ topRule g :: g.rules)
    (hlabels : cs.map label = r.rhs.map .ok) (hcs : ∀ c ∈ cs, Follows g ts c) :
    Follows g ts (.branch r.lhs cs) := by
  have hnodes (n : Tree) (hn : n ∈ (branch r.lhs cs).nodes) :
      n = .branch r.lhs cs ∨ ∃ c ∈ cs, n ∈ c.nodes := by
    rw [nodes, mem_cons, mem_nodesOf] at hn
    exact hn
  refine ⟨fun hn => ?_, fun l ds hn => ?_, fun k hn => ?_⟩
  · obtain h | ⟨c, hc, hn⟩ := hnodes _ hn
    · cases h
    · exact (hcs c hc).present hn
  · obtain h | ⟨c, hc, hn⟩ := hnodes _ hn
    · cases h
      exact ⟨r, hr, rfl, hlabels⟩
    · exact (hcs c hc).rule l ds hn
  · obtain h | ⟨c, hc, hn⟩ := hnodes _ hn
    · cases h
    · exact (hcs c hc).token k hn

theorem Reached.follows_tree (h : Reached g ts s) (hc : s.next? = none)
    (hlabels : s.token = none → s.children.map label = (s.rule.rhs.take s.dot).map .ok)
    (hcs : ∀ c ∈ s.children, Follows g ts c) : Follows g ts s.tree := by
  cases hk : s.token with
  | none =>
    have hlabels := hlabels hk
    rw [take_of_length_le (State.next?_eq_none.1 hc)] at hlabels
    rw [State.tree, hk]
    exact follows_branch h.rule_mem hlabels hcs
  | some k =>
    obtain ⟨-, hr, htag, hrhs, hts⟩ := h.scanned hk
    have hleaf : Follows g ts (.leaf k) := by
      refine ⟨by simp [nodes], by simp [nodes], fun k' hk' => ?_⟩
      obtain rfl : k' = k := by simpa [nodes] using hk'
      exact ⟨mem_of_getElem? hts, s.rule, hr, htag, hrhs⟩
    rw [State.tree, hk]
    refine follows_branch (mem_cons_of_mem _ hr) (by rw [hrhs]; rfl) fun c hc => ?_
    rwa [mem_singleton.1 hc]

/-- **The trees before the dot of a state** follow the grammar, and their labels are the symbols
    before the dot. -/
theorem Reached.follows (h : Reached g ts s) :
    (s.token = none → s.children.map label = (s.rule.rhs.take s.dot).map .ok) ∧
      ∀ c ∈ s.children, Follows g ts c := by
  induction h with
  | start | predict => exact ⟨fun _ => rfl, nofun⟩
  | scan => exact ⟨nofun, nofun⟩
  | @complete s w hs hw hc hi hn ihs ihw =>
    have htree := hs.follows_tree hc ihs.1 ihs.2
    have hlabel : s.tree.label = .ok s.rule.lhs := by
      rw [State.tree]
      split <;> rfl
    refine ⟨fun hk => ?_, fun c hcs => ?_⟩
    · have hdot : w.rule.rhs[w.dot]? = some s.rule.lhs := hn
      simp [State.advance, take_add_one, hdot, hlabel, ihw.1 hk]
    · rcases mem_append.1 hcs with hcs | hcs
      · exact ihw.2 c hcs
      · rwa [mem_singleton.1 hcs]

theorem Accepts.children (hg : g.WellFormed) (h : Accepts g ts s) :
    ∃ t, s.children = [t] ∧ t.label = .ok g.start ∧ Follows g ts t := by
  have hk := Reached.start.token_eq_none_of_rule hg h.reached h.rule.symm rfl
  obtain ⟨hlabels, hcs⟩ := h.reached.follows
  have hlabels := hlabels hk
  rw [take_of_length_le (State.next?_eq_none.1 h.complete), h.rule] at hlabels
  obtain ⟨t, ht, hlabel⟩ : ∃ t, s.children = [t] ∧ t.label = .ok g.start := by
    simpa [topRule, map_eq_singleton_iff] using hlabels
  exact ⟨t, ht, hlabel, hcs t (ht ▸ mem_singleton_self t)⟩

/-- **The tree of a chart follows the grammar**, and its label is the start symbol. -/
theorem follows_of_tree? (hg : g.WellFormed) (h : (ofTokens g ts).tree? = some t) :
    t.label = .ok g.start ∧ Follows g ts t := by
  obtain ⟨s, hs, hhead⟩ := Option.bind_eq_some_iff.1 h
  obtain ⟨t', ht', hlabel, hfollows⟩ := (accepts_of_accepted? hg hs).children hg
  rw [ht'] at hhead
  cases hhead
  exact ⟨hlabel, hfollows⟩

theorem exists_tree? (hg : g.WellFormed) (h : (ofTokens g ts).rejection? = none) :
    ∃ t, (ofTokens g ts).tree? = some t := by
  obtain ⟨s, hs⟩ := Option.isSome_iff_exists.1 ((rejection?_eq_none hg).1 h)
  obtain ⟨t, ht, -⟩ := (accepts_of_accepted? hg hs).children hg
  refine ⟨t, ?_⟩
  rw [tree?, hs]
  simp [ht]

end JavaToCpp.Chart
