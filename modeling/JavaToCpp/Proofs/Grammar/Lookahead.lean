/-
  Grammars that one token of lookahead decides.

  Two checks of a grammar and what they are good for.  The first finds derivation trees; the second
  compares the rules of each nonterminal symbol by symbol, by the categories that trees begin with
  and that may follow a nonterminal.
-/
import JavaToCpp.Proofs.Grammar.Derivation

namespace JavaToCpp.Grammar

open List JavaToCpp.Tree

variable {g : Grammar} {s : Symbol} {t : Tree}

/-! ## Symbols with trees -/

/-- The start symbol and all symbols on the right of rules that are not tags' have derivation
    trees. -/
structure Productive (g : Grammar) : Prop where
  start : ∃ t, g.Parses g.start t
  symbols : ∀ r ∈ g.rules, g.isTag r.lhs = false → ∀ x ∈ r.rhs, ∃ t, g.Parses x t

theorem exists_trees : ∀ {ss : List Symbol}, (∀ x ∈ ss, ∃ t, g.Parses x t) →
    ∃ ts, Forall₂ g.Parses ss ts
  | [], _ => ⟨[], .nil⟩
  | s :: ss, h => by
    obtain ⟨t, ht⟩ := h s mem_cons_self
    obtain ⟨ts, hts⟩ := exists_trees fun x hx => h x (mem_cons_of_mem _ hx)
    exact ⟨t :: ts, .cons ht hts⟩

/-- Whether the symbol has a derivation tree of at most the given height. -/
def yields (g : Grammar) : Nat → Symbol → Bool
  | 0, _ => false
  | n + 1, s =>
    if g.isTag s then (g.rulesOf s).any fun r => r.rhs.length == 1
    else (g.rulesOf s).any fun r => r.rhs.all (g.yields n)

theorem exists_of_yields : ∀ {n : Nat} {s : Symbol}, g.yields n s = true → ∃ t, g.Parses s t
  | 0, _, h => by simp [yields] at h
  | n + 1, s, h => by
    rw [yields] at h
    split at h
    · rename_i ht
      obtain ⟨r, hr, hlen⟩ := any_eq_true.1 h
      obtain ⟨c, hc⟩ := length_eq_one_iff.1 (eq_of_beq hlen)
      exact ⟨_, .tag (k := ⟨c, c, 1, 1⟩) (accepts_iff.2 ⟨ht, r, hr, hc⟩)⟩
    · rename_i ht
      obtain ⟨r, hr, hall⟩ := any_eq_true.1 h
      obtain ⟨hmem, rfl⟩ := mem_rulesOf.1 hr
      obtain ⟨ts, hts⟩ := exists_trees fun x hx => exists_of_yields (all_eq_true.1 hall x hx)
      exact ⟨_, .rule hmem (Bool.eq_false_iff.2 ht) hts⟩

theorem productive_of_yields {n : Nat} (hstart : g.yields n g.start = true)
    (h : (g.rules.all fun r => g.isTag r.lhs || r.rhs.all (g.yields n)) = true) :
    g.Productive := by
  refine ⟨exists_of_yields hstart, fun r hr ht x hx => exists_of_yields (n := n) ?_⟩
  have hall := all_eq_true.1 h r hr
  rw [ht, Bool.false_or] at hall
  exact all_eq_true.1 hall x hx

/-! ## First tokens -/

/-- Tokens that are none or begin with one of the categories. -/
def Heads (e : List Text) (ks : List Token) : Prop := ∀ k ∈ ks.head?, k.category ∈ e

theorem heads_nil (e : List Text) : Heads e [] := by simp [Heads]

theorem Heads.append {e : List Text} {ks : List Token} (h : Heads e ks) (hne : ks ≠ [])
    (ls : List Token) : Heads e (ks ++ ls) := by
  obtain ⟨k, ks, rfl⟩ := exists_cons_of_ne_nil hne
  exact h

/-- The categories that trees of the symbol may begin with.  When the depth does not suffice these
    are all that occur. -/
def first (g : Grammar) : Nat → Symbol → List Text
  | 0, _ => g.rules.flatMap Rule.rhs
  | n + 1, s =>
    if g.isTag s then (g.rulesOf s).flatMap Rule.rhs
    else (g.rulesOf s).flatMap fun r => r.rhs.head?.elim [] (g.first n)

theorem heads_first (hg : g.WellFormed) (n : Nat) (h : g.Parses s t) : Heads (g.first n s) t.tokens := by
  induction h using Parses.induction generalizing n with
  | @tag s k h =>
    obtain ⟨ht, r, hr, hc⟩ := accepts_iff.1 h
    have hk : k.category ∈ r.rhs := hc ▸ mem_singleton_self _
    rintro _ ⟨⟩
    cases n with
    | zero => exact mem_flatMap.2 ⟨r, (mem_rulesOf.1 hr).1, hk⟩
    | succ n =>
      rw [first, if_pos ht]
      exact mem_flatMap.2 ⟨r, hr, hk⟩
  | @rule r ts hr ht h ih =>
    obtain ⟨x, xs, hx⟩ := exists_cons_of_ne_nil (hg.rhs_ne_nil r hr)
    rw [hx] at ih
    cases ih with
    | @cons _ t _ ts hhead _ =>
      obtain ⟨hparses, ih⟩ := hhead
      rw [tokens, tokensOf]
      refine Heads.append (fun k hk => ?_) (hparses.tokens_ne_nil hg) _
      cases n with
      | zero => exact ih 0 k hk
      | succ n =>
        rw [first, if_neg (by simp [ht])]
        refine mem_flatMap.2 ⟨r, mem_rulesOf.2 ⟨hr, rfl⟩, ?_⟩
        rw [hx]
        exact ih n k hk

/-! ## Comparing rules -/

def apart (a b : List Text) : Bool := a.all fun k => !b.contains k

theorem ne_of_apart {a b : List Text} (h : apart a b = true) {ks ls : List Token}
    (hks : Heads a ks) (hls : Heads b ls) (hne : ks ≠ [] ∨ ls ≠ []) : ks ≠ ls := by
  rintro rfl
  obtain ⟨k, ks, rfl⟩ := exists_cons_of_ne_nil (or_self_iff.1 hne)
  have hk := all_eq_true.1 h k.category (hks k rfl)
  simp [hls k rfl] at hk

section
variable (g : Grammar) (follow : Symbol → List Text) (n : Nat)

/-- The categories that trees of the symbols and what follows them may begin with. -/
def firstOf (e : List Text) : List Symbol → List Text
  | [] => e
  | x :: _ => g.first n x

/-- Whether what comes after the symbol, up to the categories `e`, may follow it.  A tag has one
    token whatever follows. -/
def settled (e : List Text) (x : Symbol) (α : List Symbol) : Bool :=
  g.isTag x || (g.firstOf n e α).all (follow x).contains

/-- Whether trees for the two lists of symbols, each followed by one of the categories `e` or by
    nothing, always have different tokens.  Equal symbols are passed, tags are passed two at a time,
    and any other symbol is replaced by each of its rules. -/
def differ (e : List Text) : Nat → List Symbol → List Symbol → Bool
  | 0, _, _ => false
  | _ + 1, [], [] => false
  | _ + 1, [], y :: _ => apart e (g.first n y)
  | _ + 1, x :: _, [] => apart (g.first n x) e
  | m + 1, x :: α, y :: β =>
    apart (g.first n x) (g.first n y) ||
    if x = y then g.settled follow n e x α && g.settled follow n e x β && differ e m α β
    else if g.isTag x then
      if g.isTag y then differ e m α β
      else (g.rulesOf y).all fun r => differ e m (x :: α) (r.rhs ++ β)
    else (g.rulesOf x).all fun r => differ e m (r.rhs ++ α) (y :: β)

/-- Whether every symbol is followed by what may follow it. -/
def linear (e : List Text) : List Symbol → Bool
  | [] => true
  | x :: α => g.settled follow n e x α && linear e α

/-- Whether the tokens tell the rules of every nonterminal apart and divide between the symbols of
    each rule in one way. -/
def determinate : Bool :=
  g.nonterminals.all fun s => g.isTag s || (g.rulesOf s).all fun r =>
    g.linear follow n (follow s) r.rhs &&
      (g.rulesOf s).all fun r' => r = r' || g.differ follow n (follow s) n r.rhs r'.rhs

/-- No other tree of the same symbol has the tokens of the tree, as far as these can be told from
    what follows. -/
def Sole (t : Tree) : Prop :=
  ∀ s u ks ls, g.Parses s t → g.Parses s u → Heads (follow s) ks → Heads (follow s) ls →
    t.tokens ++ ks = u.tokens ++ ls → t = u

end

variable {follow : Symbol → List Text} {n : Nat} {e : List Text} {ks ls : List Token}

theorem eq_of_isTag {s s' : Symbol} {t u : Tree} (hs : g.isTag s) (hs' : g.isTag s')
    (ht : g.Parses s t) (hu : g.Parses s' u) (h : t.tokens ++ ks = u.tokens ++ ls) :
    ks = ls ∧ (s = s' → t = u) := by
  obtain ⟨k, rfl, -⟩ := ht.exists_token hs
  obtain ⟨l, rfl, -⟩ := hu.exists_token hs'
  simp only [tokens, tokensOf_singleton, singleton_append, List.cons.injEq] at h
  exact ⟨h.2, fun hs => by rw [hs, h.1]⟩

variable {cs : List Tree} {α : List Symbol}

theorem tokensOf_cons_ne_nil (hg : g.WellFormed) (h : g.Parses s t) :
    tokensOf (t :: cs) ++ ks ≠ [] := by
  simp [tokensOf, h.tokens_ne_nil hg]

theorem exists_opened (hs : g.isTag s = false)
    (h : g.Parses s t) (hcs : Forall₂ g.Parses α cs) : ∃ r ∈ g.rulesOf s, ∃ ts,
      t = .branch s ts ∧ Forall₂ g.Parses (r.rhs ++ α) (ts ++ cs) ∧
        tokensOf (t :: cs) = tokensOf (ts ++ cs) := by
  obtain ⟨r, hr, ts, rfl, hts⟩ := h.exists_rule hs
  refine ⟨r, hr, ts, rfl, rel_append hts hcs, ?_⟩
  rw [tokensOf_append, tokensOf, tokens]

theorem heads_firstOf (hg : g.WellFormed) (n : Nat) (h : Forall₂ g.Parses α cs) (hks : Heads e ks) :
    Heads (g.firstOf n e α) (tokensOf cs ++ ks) := by
  cases h with
  | nil => exact hks
  | cons h _ =>
    rw [tokensOf, append_assoc]
    exact (heads_first hg n h).append (h.tokens_ne_nil hg) _

theorem heads_of_settled (hg : g.WellFormed) {x : Symbol}
    (hx : g.isTag x = false) (h : g.settled follow n e x α = true)
    (hα : Forall₂ g.Parses α cs) (hks : Heads e ks) :
    Heads (follow x) (tokensOf cs ++ ks) := by
  intro k hk
  rw [settled, hx, Bool.false_or] at h
  have := all_eq_true.1 h _ (heads_firstOf hg n hα hks k hk)
  simpa using this

section
variable (hg : g.WellFormed) {N : Nat} (hsole : ∀ t, sizeOf t < N → g.Sole follow t)
  (hks : Heads e ks) (hls : Heads e ls)
include hg hsole hks hls

theorem eq_of_settled {x : Symbol} {α β : List Symbol} {t u : Tree} {cs ds : List Tree}
    (hα : g.settled follow n e x α = true) (hβ : g.settled follow n e x β = true)
    (hN : sizeOf t < N) (ht : g.Parses x t) (hu : g.Parses x u)
    (hcs : Forall₂ g.Parses α cs) (hds : Forall₂ g.Parses β ds)
    (h : tokensOf (t :: cs) ++ ks = tokensOf (u :: ds) ++ ls) :
    t = u ∧ tokensOf cs ++ ks = tokensOf ds ++ ls := by
  rw [tokensOf, tokensOf, append_assoc, append_assoc] at h
  cases hx : g.isTag x with
  | true =>
    obtain ⟨hrest, heq⟩ := eq_of_isTag hx hx ht hu h
    exact ⟨heq rfl, hrest⟩
  | false =>
    have heq := hsole t hN x u _ _ ht hu (heads_of_settled hg hx hα hcs hks)
      (heads_of_settled hg hx hβ hds hls) h
    rw [heq] at h
    exact ⟨heq, append_cancel_left h⟩

/-- **Lists of symbols that differ have no tokens in common.** -/
theorem differ_sound : ∀ (m : Nat) {α β : List Symbol} {cs ds : List Tree},
    g.differ follow n e m α β = true → (∀ c ∈ cs, sizeOf c < N) →
    Forall₂ g.Parses α cs → Forall₂ g.Parses β ds →
    tokensOf cs ++ ks ≠ tokensOf ds ++ ls
  | 0, _, _, _, _, h, _, _, _ => by simp [differ] at h
  | m + 1, _, _, _, _, h, hN, hcs, hds => by
    have hheads := heads_firstOf hg n hcs hks
    have hheads' := heads_firstOf hg n hds hls
    cases hcs with
    | nil =>
      cases hds with
      | nil => simp [differ] at h
      | cons hu hds => exact ne_of_apart h hheads hheads' (Or.inr (tokensOf_cons_ne_nil hg hu))
    | @cons x t α cs ht hcs =>
      have hne : tokensOf (t :: cs) ++ ks ≠ [] := tokensOf_cons_ne_nil hg ht
      cases hds with
      | nil => exact ne_of_apart h hheads hheads' (Or.inl hne)
      | @cons y u β ds hu hds =>
        intro heq
        obtain ⟨hNt, hNcs⟩ := forall_mem_cons.1 hN
        rw [differ, Bool.or_eq_true] at h
        rcases h with h | h
        · exact ne_of_apart h hheads hheads' (Or.inl hne) heq
        split at h
        · -- the two lists begin with one symbol
          rename_i hxy
          subst hxy
          simp only [Bool.and_eq_true] at h
          obtain ⟨⟨hα, hβ⟩, h⟩ := h
          have hrest := (eq_of_settled hg hsole hks hls hα hβ hNt ht hu hcs hds heq).2
          exact differ_sound m h hNcs hcs hds hrest
        · split at h
          · rename_i hx
            split at h
            · rename_i hy
              rw [tokensOf, tokensOf, append_assoc, append_assoc] at heq
              exact differ_sound m h hNcs hcs hds (eq_of_isTag hx hy ht hu heq).1
            · rename_i hy
              obtain ⟨r, hr, us, -, hall, htok⟩ := exists_opened (Bool.eq_false_iff.2 hy) hu hds
              have h := all_eq_true.1 h r hr
              rw [htok] at heq
              exact differ_sound m h hN (.cons ht hcs) hall heq
          · rename_i hx
            obtain ⟨r, hr, ts, rfl, hall, htok⟩ := exists_opened (Bool.eq_false_iff.2 hx) ht hcs
            have h := all_eq_true.1 h r hr
            rw [htok] at heq
            refine differ_sound m h (fun c hc => ?_) hall (.cons hu hds) heq
            rcases mem_append.1 hc with hc | hc
            · exact Nat.lt_trans (sizeOf_of_mem_children (t := .branch x ts) hc) hNt
            · exact hNcs c hc

theorem linear_sound {α : List Symbol} {cs ds : List Tree}
    (h : g.linear follow n e α = true) (hN : ∀ c ∈ cs, sizeOf c < N)
    (hcs : Forall₂ g.Parses α cs) (hds : Forall₂ g.Parses α ds)
    (heq : tokensOf cs ++ ks = tokensOf ds ++ ls) : cs = ds := by
  induction hcs generalizing ds with
  | nil =>
    cases hds
    rfl
  | @cons x t α cs ht hcs ih =>
    cases hds with
    | @cons _ u _ ds hu hds =>
      rw [linear, Bool.and_eq_true] at h
      obtain ⟨hNt, hNcs⟩ := forall_mem_cons.1 hN
      obtain ⟨rfl, hrest⟩ :=
        eq_of_settled hg hsole hks hls h.1 h.1 hNt ht hu hcs hds heq
      rw [ih h.2 hNcs hds hrest]

end

/-- **In a determinate grammar every tree is the only one of its tokens**, by induction on its
    size. -/
theorem sole_of_determinate (hg : g.WellFormed) (h : g.determinate follow n = true) :
    ∀ (N : Nat) (t : Tree), sizeOf t < N → g.Sole follow t
  | 0, _, hN => absurd hN (Nat.not_lt_zero _)
  | N + 1, t, hN => by
    intro s u ks ls ht hu hks hls heq
    have hsole := sole_of_determinate hg h N
    cases hs : g.isTag s with
    | true => exact (eq_of_isTag hs hs ht hu heq).2 rfl
    | false =>
      have hmem := mem_nonterminals.2 ht.nonterminal
      obtain ⟨r, hr, ts, rfl, hts⟩ := ht.exists_rule hs
      obtain ⟨r', hr', us, rfl, hus⟩ := hu.exists_rule hs
      have hN : ∀ c ∈ ts, sizeOf c < N := fun c hc =>
        Nat.lt_of_lt_of_le (sizeOf_of_mem_children (t := .branch s ts) hc)
          (Nat.le_of_lt_succ hN)
      have hdet := all_eq_true.1 h s hmem
      rw [hs, Bool.false_or] at hdet
      have hdet := all_eq_true.1 hdet r hr
      rw [Bool.and_eq_true] at hdet
      have hdiff := all_eq_true.1 hdet.2 r' hr'
      rw [Bool.or_eq_true, decide_eq_true_eq] at hdiff
      rcases hdiff with rfl | hdiff
      · rw [linear_sound hg hsole hks hls hdet.1 hN hts hus heq]
      · exact absurd heq (differ_sound hg hsole hks hls n hdiff hN hts hus)

/-- Tokens have at most one derivation tree. -/
def Unambiguous (g : Grammar) : Prop :=
  ∀ t u, g.Parses g.start t → g.Parses g.start u → t.tokens = u.tokens → t = u

theorem unambiguous_of_determinate (hg : g.WellFormed) (h : g.determinate follow n = true) :
    g.Unambiguous := by
  intro t u ht hu heq
  exact sole_of_determinate hg h _ t (Nat.lt_succ_self _) _ u [] [] ht hu (heads_nil _)
    (heads_nil _) (by rw [heq])

end JavaToCpp.Grammar
