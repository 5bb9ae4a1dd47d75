/-
  The steps of recognition.

  A chart holds the states that three steps lead to: a nonterminal after the dot brings in its
  rules, a tag after the dot reads the next token, and a complete state moves on a state that
  waited for it.  In which order the steps are made, and which of two states with the same key is
  kept, is left open here.
-/
import JavaToCpp.Proofs.Chart.Column
import JavaToCpp.Proofs.Grammar.Derivation

namespace JavaToCpp

open List Grammar

def Grammar.Rule.Mentions (r : Rule) (s : Symbol) : Prop := r.lhs = s ∨ s ∈ r.rhs

namespace Chart

variable {g : Grammar} {ts : List Token} {s w : State}

/-! ## One step -/

theorem lookup?_map {f : Symbol → Entry} (hf : ∀ a, (f a).symbol = a) (a : Symbol) :
    ∀ l : List Symbol, lookup? (l.map f) a = if a ∈ l then some (f a) else none
  | [] => rfl
  | b :: l => by
    have ih := lookup?_map hf a l
    rw [lookup?] at ih ⊢
    by_cases hb : b = a
    · simp [hb, hf]
    · simp [hf, hb, ih, Ne.symm hb]

theorem lookup?_entries (g : Grammar) (a : Symbol) : lookup? (entries g) a =
    if g.isTerminal a = false then some ⟨a, g.isTag a, g.rulesOf a⟩ else none := by
  rw [entries, lookup?_map (fun _ => rfl)]
  simp only [mem_nonterminals]

theorem State.next?_eq_none : s.next? = none ↔ s.rule.rhs.length ≤ s.dot :=
  getElem?_eq_none_iff

theorem mem_followers {earlier : Array Column} {i : Nat} {f : State} :
    f ∈ followers (entries g) earlier i s ↔
      (s.next? = none ∧ ∃ c, earlier[s.origin]? = some c ∧
        ∃ w ∈ c.states, w.next? = some s.rule.lhs ∧ f = w.advance i s.tree) ∨
      ∃ a, s.next? = some a ∧ g.isTag a = false ∧ ∃ r ∈ g.rulesOf a, f = State.begin i r := by
  unfold followers
  cases h : s.next? with
  | none =>
    cases hc : earlier[s.origin]? with
    | none => simp
    | some c =>
      simp only [c.waiting_eq, Array.toList_filter, mem_map, mem_filter, beq_iff_eq,
        Array.mem_toList_iff, true_and, Option.some.injEq, exists_eq_left', reduceCtorEq,
        false_and, exists_false, or_false, and_assoc, eq_comm (a := f)]
  | some a =>
    simp only [lookup?_entries, reduceCtorEq, false_and, false_or, Option.some.injEq,
      exists_eq_left']
    cases ha : g.isTerminal a with
    | true => simp [rulesOf_of_isTerminal ha]
    | false => cases ht : g.isTag a <;> simp [eq_comm (a := f)]

theorem mem_of_tagRule? {rules : List Rule} {c : Symbol} {r : Rule} (h : tagRule? rules c = some r) :
    r ∈ rules ∧ r.rhs = [c] :=
  ⟨mem_reverse.1 (mem_of_find?_eq_some h), eq_of_beq (find?_some h :)⟩

theorem scanState?_eq_some {i : Nat} {k : Token} {f : State} :
    scanState? (entries g) i k s = some f ↔ ∃ a r, s.next? = some a ∧ g.isTag a ∧
      tagRule? (g.rulesOf a) k.category = some r ∧ f = State.scanned i r k := by
  simp only [scanState?, scanRule?, lookup?_entries, bind, Option.bind_eq_some_iff, pure,
    Option.some.injEq]
  constructor
  · rintro ⟨a, ha, r, ⟨e, he, hr⟩, rfl⟩
    split at he
    · cases he
      split at hr
      · exact ⟨a, r, ha, by assumption, hr, rfl⟩
      · cases hr
    · cases he
  · rintro ⟨a, r, ha, ht, hr, rfl⟩
    refine ⟨a, ha, r, ⟨⟨a, g.isTag a, g.rulesOf a⟩, ?_, ?_⟩, rfl⟩
    · rw [if_pos (isTerminal_of_isTag ht)]
    · rw [if_pos ht, hr]

/-! ## Chains of steps -/

/-- Steps over the tokens lead to the state. -/
inductive Reached (g : Grammar) (ts : List Token) : State → Prop
  | start : Reached g ts (State.begin 0 (topRule g))
  | predict {s : State} {a : Symbol} {r : Rule} : Reached g ts s → s.next? = some a →
      g.isTag a = false → r ∈ g.rulesOf a → Reached g ts (State.begin s.index r)
  | scan {s : State} {a : Symbol} {r : Rule} {k : Token} : Reached g ts s → s.next? = some a →
      g.isTag a → tagRule? (g.rulesOf a) k.category = some r →
      ts[s.index]? = some k → Reached g ts (State.scanned s.index r k)
  | complete {s w : State} : Reached g ts s → Reached g ts w → s.next? = none →
      w.index = s.origin → w.next? = some s.rule.lhs → Reached g ts (w.advance s.index s.tree)

theorem Reached.scanned (h : Reached g ts s) {k : Token} (hk : s.token = some k) :
    s = State.scanned s.origin s.rule k ∧ s.rule ∈ g.rules ∧ g.isTag s.rule.lhs ∧
      s.rule.rhs = [k.category] ∧ ts[s.origin]? = some k := by
  induction h with
  | start => cases hk
  | predict => cases hk
  | scan _ _ ht hr hts =>
    cases hk
    obtain ⟨hr, hrhs⟩ := mem_of_tagRule? hr
    obtain ⟨hmem, rfl⟩ := mem_rulesOf.1 hr
    exact ⟨rfl, hmem, ht, hrhs, hts⟩
  | @complete s w _ _ _ _ hn _ ihw =>
    -- a state that moves on is not complete, so it has no token
    obtain ⟨hw, -, -, hrhs, -⟩ := ihw hk
    rw [State.next?, hrhs, show w.dot = 1 by rw [hw]; rfl] at hn
    cases hn

theorem Reached.token_eq_none (h : Reached g ts s) {a : Symbol} (hn : s.next? = some a) :
    s.token = none := by
  cases hk : s.token with
  | none => rfl
  | some k =>
    obtain ⟨hs, -, -, hrhs, -⟩ := h.scanned hk
    rw [State.next?, hrhs, show s.dot = 1 by rw [hs]; rfl] at hn
    cases hn

theorem Reached.rule_of_token (h : Reached g ts s) (hk : s.token = none) :
    s.rule = topRule g ∨ s.rule ∈ g.rules ∧ g.isTag s.rule.lhs = false := by
  induction h with
  | start => exact Or.inl rfl
  | predict _ _ ht hr =>
    obtain ⟨hmem, rfl⟩ := mem_rulesOf.1 hr
    exact Or.inr ⟨hmem, ht⟩
  | scan => cases hk
  | complete _ _ _ _ _ _ ihw => exact ihw hk

theorem Reached.rule_mem (h : Reached g ts s) : s.rule ∈ topRule g :: g.rules := by
  cases hk : s.token with
  | none =>
    rcases h.rule_of_token hk with hr | ⟨hr, -⟩
    · exact hr ▸ mem_cons_self
    · exact mem_cons_of_mem _ hr
  | some k => exact mem_cons_of_mem _ (h.scanned hk).2.1

theorem rhs_ne_nil (hg : g.WellFormed) {r : Rule} (hr : r ∈ topRule g :: g.rules) : r.rhs ≠ [] := by
  rcases mem_cons.1 hr with rfl | hr
  · simp [topRule]
  · exact hg.rhs_ne_nil r hr

theorem State.Fits.origin_lt {i : Nat} (h : s.Fits g i) (hg : g.WellFormed) (hc : s.next? = none) :
    s.origin < i := by
  have := length_pos_iff.2 (rhs_ne_nil hg h.rule)
  have := State.next?_eq_none.1 hc
  exact h.started (by omega)

theorem Reached.fits (hg : g.WellFormed) (h : Reached g ts s) : s.Fits g s.index := by
  induction h with
  | start => exact ⟨mem_cons_self, Nat.zero_le _, Nat.le_refl _, fun h => h⟩
  | predict h hn ht hr =>
    exact ⟨(h.predict hn ht hr).rule_mem, Nat.zero_le _, Nat.le_refl _,
      fun h => absurd h (Nat.lt_irrefl 0)⟩
  | scan h hn ht hr hts =>
    have hrhs := (h.scan hn ht hr hts).scanned rfl
    refine ⟨(h.scan hn ht hr hts).rule_mem, ?_, Nat.le_succ _, fun _ => Nat.lt_succ_self _⟩
    rw [hrhs.2.2.2.1]
    exact Nat.le_refl 1
  | @complete s w hs hw hc hi hn ihs ihw =>
    have hlt : w.dot < w.rule.rhs.length := (List.getElem?_eq_some_iff.1 hn).1
    have := ihs.origin_lt hg hc
    have := ihw.origin
    refine ⟨ihw.rule, hlt, ?_, fun _ => ?_⟩
    · show w.origin ≤ s.index
      omega
    · show w.origin < s.index
      omega

/-- **The tokens that a state has come past** are those of its tree. -/
theorem Reached.span (h : Reached g ts s) :
    ts.take s.index = ts.take s.origin ++ s.tree.tokens := by
  induction h with
  | start => rfl
  | predict => simp [State.begin, State.tree, Tree.tokens, Tree.tokensOf]
  | scan _ _ _ _ hts =>
    simp [State.scanned, State.tree, Tree.tokens, Tree.tokensOf, take_add_one, hts]
  | @complete s w _ hw hc hi hn ihs ihw =>
    have htree : (w.advance s.index s.tree).tree.tokens = w.tree.tokens ++ s.tree.tokens := by
      simp [State.advance, State.tree, hw.token_eq_none hn, Tree.tokens, Tree.tokensOf_append,
        Tree.tokensOf_singleton]
    show ts.take s.index = ts.take w.origin ++ (w.advance s.index s.tree).tree.tokens
    rw [htree, ← append_assoc, ← ihw, hi]
    exact ihs

theorem Reached.span_children (h : Reached g ts s) (hk : s.token = none) :
    ts.take s.index = ts.take s.origin ++ Tree.tokensOf s.children := by
  have hspan := h.span
  rw [State.tree, hk] at hspan
  exact hspan

theorem Reached.token_eq_none_of_rule (hg : g.WellFormed) {s' : State} (h : Reached g ts s)
    (h' : Reached g ts s') (hrule : s.rule = s'.rule) (hk : s.token = none) : s'.token = none := by
  cases hk' : s'.token with
  | none => rfl
  | some k =>
    obtain ⟨-, hr', ht', -⟩ := h'.scanned hk'
    rw [← hrule] at hr' ht'
    rcases h.rule_of_token hk with htop | ⟨-, ht⟩
    · have hpos := hg.number_pos _ hr'
      rw [htop] at hpos
      exact absurd hpos (Nat.lt_irrefl 0)
    · rw [ht] at ht'
      cases ht'

/-! ## The trees of a state -/

section
variable (hfree : ∀ r ∈ g.rules, ¬ r.Mentions top)
include hfree

theorem start_ne_top : g.start ≠ top := by
  unfold start
  split
  · cases hr : g.rules.head? with
    | none => decide +kernel
    | some r => exact fun h => hfree r (mem_of_head? hr) (Or.inl h)
  · decide +kernel

theorem next_ne_top {a : Symbol} (hr : s.rule ∈ topRule g :: g.rules) (hn : s.next? = some a) :
    a ≠ top := by
  have ha : a ∈ s.rule.rhs := mem_of_getElem? hn
  rcases mem_cons.1 hr with hr | hr
  · rw [hr] at ha
    rw [mem_singleton.1 ha]
    exact start_ne_top hfree
  · exact fun h => hfree _ hr (Or.inr (h ▸ ha))

omit hfree in
theorem Reached.parses_tree_of (h : Reached g ts s) (hc : s.next? = none)
    (htop : s.rule.lhs ≠ top)
    (hch : s.token = none → Forall₂ g.Parses (s.rule.rhs.take s.dot) s.children) :
    g.Parses s.rule.lhs s.tree := by
  cases hk : s.token with
  | some k =>
    obtain ⟨-, hr, ht, hrhs, -⟩ := h.scanned hk
    rw [State.tree, hk]
    exact .tag (accepts_iff.2 ⟨ht, s.rule, mem_rulesOf.2 ⟨hr, rfl⟩, hrhs⟩)
  | none =>
    rw [State.tree, hk]
    rcases h.rule_of_token hk with hr | ⟨hr, ht⟩
    · exact absurd (congrArg Rule.lhs hr) htop
    · have hcs := hch hk
      rw [take_of_length_le (State.next?_eq_none.1 hc)] at hcs
      exact .rule hr ht hcs

/-- **The trees of the symbols before the dot are derivation trees of these symbols.** -/
theorem Reached.parses (h : Reached g ts s) (hk : s.token = none) :
    Forall₂ g.Parses (s.rule.rhs.take s.dot) s.children := by
  induction h with
  | start => exact .nil
  | predict => exact .nil
  | scan => cases hk
  | @complete s w hs hw hc _ hn ihs ihw =>
    have htree := hs.parses_tree_of hc (next_ne_top hfree hw.rule_mem hn) ihs
    show Forall₂ g.Parses (w.rule.rhs.take (w.dot + 1)) (w.children ++ [s.tree])
    rw [take_add_one, show w.rule.rhs[w.dot]? = some s.rule.lhs from hn]
    exact rel_append (ihw hk) (.cons htree .nil)

end

/-! ## Getting past a word -/

theorem getElem?_of_drop {c : Text} {i : Nat} {cs : List Text}
    (h : (ts.map Token.category).drop i = c :: cs) : ∃ k, ts[i]? = some k ∧ k.category = c := by
  have hc : (ts.map Token.category)[i]? = some c := by
    rw [← head?_drop, h]
    rfl
  rw [getElem?_map, Option.map_eq_some_iff] at hc
  exact hc

theorem drop_of_drop {i : Nat} {v cs : List Text} (h : (ts.map Token.category).drop i = v ++ cs) :
    (ts.map Token.category).drop (i + v.length) = cs := by
  rw [← drop_drop, h, drop_left]

/-- Every state with the symbol after its dot gets past the word. -/
def Passes (g : Grammar) (ts : List Token) (a : Symbol) (v : List Text) : Prop :=
  ∀ (s : State) (rest : List Text), Reached g ts s → s.next? = some a →
    (ts.map Token.category).drop s.index = v ++ rest →
    ∃ s', Reached g ts s' ∧ s'.rule = s.rule ∧ s'.dot = s.dot + 1 ∧ s'.origin = s.origin ∧
      s'.index = s.index + v.length

theorem Reached.passAll {ss : List Symbol} {vs : List (List Text)}
    (h : Forall₂ (Passes g ts) ss vs) {rest : List Text} (hs : Reached g ts s)
    (hss : s.rule.rhs.drop s.dot = ss)
    (hv : (ts.map Token.category).drop s.index = vs.flatten ++ rest) :
    ∃ s', Reached g ts s' ∧ s'.rule = s.rule ∧ s'.next? = none ∧ s'.origin = s.origin ∧
      s'.index = s.index + vs.flatten.length := by
  induction h generalizing s with
  | nil => exact ⟨s, hs, rfl, State.next?_eq_none.2 (drop_eq_nil_iff.1 hss), rfl, rfl⟩
  | @cons a v ss vs h _ ih =>
    have hn : s.next? = some a := by
      rw [State.next?, ← head?_drop, hss]
      rfl
    rw [flatten_cons, append_assoc] at hv
    obtain ⟨m, hm, hrule, hdot, ho, hi⟩ := h s _ hs hn hv
    have hrest : m.rule.rhs.drop m.dot = ss := by
      rw [hrule, hdot, ← drop_drop, hss]
      rfl
    obtain ⟨e, he, hrule', hc, ho', hi'⟩ := ih hm hrest (by rw [hi]; exact drop_of_drop hv)
    refine ⟨e, he, hrule'.trans hrule, hc, ho'.trans ho, ?_⟩
    rw [hi', hi, flatten_cons, length_append]
    omega

/-- **A state gets past every word that the symbol after its dot derives.** -/
theorem passes_of_derives {a : Symbol} {v : List Text} (h : g.Derives a v) : Passes g ts a v := by
  induction h using Derives.induction with
  | @tag a c h =>
    intro s rest hs hn hv
    obtain ⟨ht, r, hr, hrhs⟩ := accepts_iff.1 h
    obtain ⟨k, hk, rfl⟩ := getElem?_of_drop hv
    obtain ⟨r', hr'⟩ := Option.isSome_iff_exists.1
      (find?_isSome.2 ⟨r, mem_reverse.2 hr, beq_iff_eq.2 hrhs⟩ :
        (tagRule? (g.rulesOf a) k.category).isSome)
    have hscan := Reached.scan hs hn ht hr' hk
    have hc : (State.scanned s.index r' k).next? = none := by
      rw [State.next?_eq_none, (hscan.scanned rfl).2.2.2.1]
      exact Nat.le_refl 1
    obtain ⟨-, rfl⟩ := mem_rulesOf.1 (mem_of_tagRule? hr').1
    exact ⟨_, .complete hscan hs hc rfl hn, rfl, rfl, rfl, rfl⟩
  | @rule r vs hr ht _ _ ih =>
    intro s rest hs hn hv
    have hbegin := Reached.predict hs hn ht (mem_rulesOf.2 ⟨hr, rfl⟩)
    obtain ⟨e, he, hrule, hc, ho, hi⟩ :=
      hbegin.passAll (ih.imp fun _ _ h => h.2) rfl hv
    have hlhs : s.next? = some e.rule.lhs := by
      rw [hrule]
      exact hn
    exact ⟨_, .complete he hs hc ho.symm hlhs, rfl, rfl, rfl, hi⟩

end Chart

end JavaToCpp
