/-
  Derivations.

  A tag derives the categories that it accepts.  Every other nonterminal derives what the symbols
  of one of its rules derive one after the other.
-/
import JavaToCpp.Proofs.Grammar.WellFormed
import JavaToCpp.Proofs.Tree.Nodes

namespace JavaToCpp.Grammar

open List JavaToCpp.Tree

/-! ## What symbols derive -/

inductive Derives (g : Grammar) : Symbol → List Text → Prop
  | tag {s : Symbol} {c : Text} : g.accepts s c → Derives g s [c]
  | rule {r : Rule} {ws : List (List Text)} : r ∈ g.rules → g.isTag r.lhs = false →
      (∀ x ∈ r.rhs, g.isTerminal x = false) → Forall₂ (Derives g) r.rhs ws →
      Derives g r.lhs ws.flatten

inductive Parses (g : Grammar) : Symbol → Tree → Prop
  | tag {s : Symbol} {k : Token} : g.accepts s k.category → Parses g s (.branch s [.leaf k])
  | rule {r : Rule} {ts : List Tree} : r ∈ g.rules → g.isTag r.lhs = false →
      Forall₂ (Parses g) r.rhs ts → Parses g r.lhs (.branch r.lhs ts)

variable {g : Grammar} {s : Symbol} {t : Tree}

theorem Derives.nonterminal {w : List Text} (h : g.Derives s w) : g.isTerminal s = false := by
  cases h with
  | tag h => exact isTerminal_of_isTag (accepts_iff.1 h).1
  | rule hr => exact isTerminal_lhs hr

variable {ss : List Symbol} {ts : List Tree}

theorem Derives.nonterminals {ws : List (List Text)}
    (h : Forall₂ g.Derives ss ws) : ∀ x ∈ ss, g.isTerminal x = false := by
  induction h with
  | nil => simp
  | cons h _ ih => exact forall_mem_cons.2 ⟨h.nonterminal, ih⟩

@[elab_as_elim]
theorem Derives.induction {motive : ∀ s w, g.Derives s w → Prop}
    (tag : ∀ {s : Symbol} {c : Text} (h : g.accepts s c), motive s [c] (.tag h))
    (rule : ∀ {r : Rule} {ws : List (List Text)} (hr : r ∈ g.rules) (ht : g.isTag r.lhs = false)
      (hn : ∀ x ∈ r.rhs, g.isTerminal x = false) (h : Forall₂ g.Derives r.rhs ws),
      Forall₂ (fun s w => ∃ h, motive s w h) r.rhs ws →
      motive r.lhs ws.flatten (.rule hr ht hn h))
    {s : Symbol} {w : List Text} (h : g.Derives s w) : motive s w h :=
  @Derives.rec g motive (fun ss ws _ => Forall₂ (fun s w => ∃ h, motive s w h) ss ws)
    tag (fun hr ht hn h ih => rule hr ht hn h ih) .nil (fun h _ ih ihs => .cons ⟨h, ih⟩ ihs) s w h

@[elab_as_elim]
theorem Parses.induction {motive : ∀ s t, g.Parses s t → Prop}
    (tag : ∀ {s : Symbol} {k : Token} (h : g.accepts s k.category),
      motive s (.branch s [.leaf k]) (.tag h))
    (rule : ∀ {r : Rule} {ts : List Tree} (hr : r ∈ g.rules) (ht : g.isTag r.lhs = false)
      (h : Forall₂ g.Parses r.rhs ts),
      Forall₂ (fun s t => ∃ h, motive s t h) r.rhs ts →
      motive r.lhs (.branch r.lhs ts) (.rule hr ht h))
    {s : Symbol} {t : Tree} (h : g.Parses s t) : motive s t h :=
  @Parses.rec g motive (fun ss ts _ => Forall₂ (fun s t => ∃ h, motive s t h) ss ts)
    tag (fun hr ht h ih => rule hr ht h ih) .nil (fun h _ ih ihs => .cons ⟨h, ih⟩ ihs) s t h

theorem derivesAll_of (h : Forall₂ (fun s t => g.Derives s (t.tokens.map Token.category)) ss ts) :
    ∃ ws, Forall₂ g.Derives ss ws ∧ (tokensOf ts).map Token.category = ws.flatten := by
  induction h with
  | nil => exact ⟨[], .nil, rfl⟩
  | cons h _ ih =>
    obtain ⟨ws, hws, hw⟩ := ih
    exact ⟨_ :: ws, .cons h hws, by simp [tokensOf, hw]⟩

theorem Parses.derives (h : g.Parses s t) : g.Derives s (t.tokens.map Token.category) := by
  induction h using Parses.induction with
  | tag h => exact .tag h
  | rule hr ht _ ih =>
    obtain ⟨ws, hws, hw⟩ := derivesAll_of (ih.imp fun _ _ h => h.2)
    rw [tokens, hw]
    exact .rule hr ht (Derives.nonterminals hws) hws

/-! ## Derivation trees -/

theorem Parses.label (h : g.Parses s t) : t.label = .ok s := by
  cases h <;> rfl

theorem Parses.isLeaf (h : g.Parses s t) : t.isLeaf = false := by
  cases h <;> rfl

theorem Parses.labels (h : Forall₂ g.Parses ss ts) : ts.map Tree.label = ss.map .ok := by
  induction h with
  | nil => rfl
  | cons h _ ih => simp [h.label, ih]

theorem Parses.nonterminal (h : g.Parses s t) : g.isTerminal s = false :=
  h.derives.nonterminal

theorem Parses.exists_rule (h : g.Parses s t) (hs : g.isTag s = false) :
    ∃ r ∈ g.rulesOf s, ∃ ts, t = .branch s ts ∧ Forall₂ g.Parses r.rhs ts := by
  cases h with
  | tag h => simp [(accepts_iff.1 h).1] at hs
  | rule hr _ h => exact ⟨_, mem_rulesOf.2 ⟨hr, rfl⟩, _, rfl, h⟩

theorem Parses.exists_token (h : g.Parses s t) (hs : g.isTag s) :
    ∃ k : Token, t = .branch s [.leaf k] ∧ g.accepts s k.category := by
  cases h with
  | tag h => exact ⟨_, rfl, h⟩
  | rule _ ht => simp [ht] at hs

theorem tokensOf_ne_nil (hs : ss ≠ [])
    (h : Forall₂ (fun _ t => t.tokens ≠ []) ss ts) : tokensOf ts ≠ [] := by
  cases h with
  | nil => exact absurd rfl hs
  | cons h _ => exact append_ne_nil_of_left_ne_nil h _

theorem Parses.tokens_ne_nil (hg : g.WellFormed) (h : g.Parses s t) : t.tokens ≠ [] := by
  induction h using Parses.induction with
  | tag => simp [tokens, tokensOf]
  | rule hr _ _ ih => exact tokensOf_ne_nil (hg.rhs_ne_nil _ hr) (ih.imp fun _ _ h => h.2)

theorem Parses.length_le (hg : g.WellFormed)
    (h : Forall₂ g.Parses ss ts) : ss.length ≤ (tokensOf ts).length := by
  induction h with
  | nil => exact Nat.le_refl _
  | cons h _ ih =>
    have := length_pos_iff.2 (h.tokens_ne_nil hg)
    rw [tokensOf, length_cons, length_append]
    omega

/-- What a branch of a derivation tree looks like: below a tag stands one leaf with a category that
    the tag accepts, and the labels below any other nonterminal are the right-hand side of a rule
    of it. -/
structure Shaped (g : Grammar) (l : Symbol) (cs : List Tree) : Prop where
  tag : g.isTag l → ∃ k : Token, cs = [.leaf k] ∧ g.accepts l k.category
  rule : g.isTag l = false → ∃ r ∈ g.rulesOf l, cs.map Tree.label = r.rhs.map .ok

theorem nodesOf_induction {P : Tree → Prop}
    (h : Forall₂ (fun _ t => ∀ n ∈ t.nodes, P n) ss ts) : ∀ n ∈ nodesOf ts, P n := by
  induction h with
  | nil => simp [nodesOf]
  | cons h _ ih =>
    intro n hn
    rcases mem_append.1 hn with hn | hn
    · exact h n hn
    · exact ih n hn

/-- **A node of a derivation tree** is a leaf or a derivation tree itself. -/
theorem Parses.of_mem_nodes (h : g.Parses s t) :
    ∀ n ∈ t.nodes, (∃ k, n = .leaf k) ∨ ∃ l, g.Parses l n := by
  induction h using Parses.induction with
  | @tag s k h =>
    intro n hn
    rcases mem_cons.1 hn with rfl | hn
    · exact .inr ⟨s, .tag h⟩
    · exact .inl ⟨k, by simpa [nodesOf, nodes] using hn⟩
  | rule hr ht h ih =>
    intro n hn
    rcases mem_cons.1 hn with rfl | hn
    · exact .inr ⟨_, .rule hr ht h⟩
    · exact nodesOf_induction (ih.imp fun _ _ h => h.2) n hn

/-- **Every branch of a derivation tree follows the grammar**, and no node is missing. -/
theorem Parses.node (h : g.Parses s t) :
    ∀ n ∈ t.nodes, n ≠ .hole ∧ ∀ l cs, n = .branch l cs → g.Shaped l cs := by
  intro n hn
  rcases h.of_mem_nodes n hn with ⟨k, rfl⟩ | ⟨l, h⟩
  · exact ⟨by simp, fun _ _ hl => by cases hl⟩
  · cases h with
    | tag h =>
      refine ⟨by simp, fun l cs hl => ?_⟩
      cases hl
      exact ⟨fun _ => ⟨_, rfl, h⟩, fun h' => by simp [(accepts_iff.1 h).1] at h'⟩
    | rule hr ht h =>
      refine ⟨by simp, fun l cs hl => ?_⟩
      cases hl
      exact ⟨fun h' => by simp [ht] at h', fun _ => ⟨_, mem_rulesOf.2 ⟨hr, rfl⟩, Parses.labels h⟩⟩

end JavaToCpp.Grammar
