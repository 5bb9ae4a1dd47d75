/-
  What the views of a grammar say, and what holds of every grammar that is read from a text.
-/
import JavaToCpp.Grammar.Load
import JavaToCpp.Proofs.Outcome
import Mathlib.Data.List.Nodup

namespace JavaToCpp.Grammar

open List

variable {g : Grammar}

/-! ## Views -/

variable {r : Rule} {s : Symbol}

theorem mem_rulesOf : r ∈ g.rulesOf s ↔ r ∈ g.rules ∧ r.lhs = s := by
  simp [rulesOf]

theorem isTerminal_eq_false : g.isTerminal s = false ↔ ∃ r ∈ g.rules, r.lhs = s := by
  simp [isTerminal]

theorem isTerminal_lhs (hr : r ∈ g.rules) : g.isTerminal r.lhs = false :=
  isTerminal_eq_false.2 ⟨r, hr, rfl⟩

theorem rulesOf_of_isTerminal (h : g.isTerminal s) : g.rulesOf s = [] := by
  refine eq_nil_iff_forall_not_mem.2 fun r hr => ?_
  obtain ⟨hmem, rfl⟩ := mem_rulesOf.1 hr
  simp [isTerminal_lhs hmem] at h

theorem isTerminal_of_isTag (h : g.isTag s) : g.isTerminal s = false := by
  simp only [isTag, Bool.and_eq_true, Bool.not_eq_true'] at h
  exact h.1

theorem accepts_iff {c : Text} : g.accepts s c ↔ g.isTag s ∧ ∃ r ∈ g.rulesOf s, r.rhs = [c] := by
  simp [accepts]

theorem mem_nonterminals : s ∈ g.nonterminals ↔ g.isTerminal s = false := by
  simp [nonterminals, isTerminal_eq_false]

/-! ## Grammars that are read from a text -/

/-- The numbers of the rules are positive and tell the rules apart, and every rule has symbols on
    its right. -/
structure WellFormed (g : Grammar) : Prop where
  numbers : (g.rules.map Rule.number).Nodup
  number_pos : ∀ r ∈ g.rules, 0 < r.number
  rhs_ne_nil : ∀ r ∈ g.rules, r.rhs ≠ []

theorem WellFormed.eq_of_number (hg : g.WellFormed) {r' : Rule} (hr : r ∈ g.rules)
    (hr' : r' ∈ g.rules) (h : r.number = r'.number) : r = r' :=
  inj_on_of_nodup_map hg.numbers hr hr' h

theorem parseLine_rhs {n : Nat} {line : Text} {found : List (Symbol × List Symbol)}
    (h : parseLine n line = .ok found) : ∀ a ∈ found, a.2 ≠ [] := by
  unfold parseLine at h
  simp only at h
  split at h
  · cases h; simp
  · split at h
    · cases h
    · split at h
      · -- every alternative with fields is kept as it is
        intro a ha
        obtain ⟨x, -, hx⟩ := exists_of_mem_mapM h ha
        split at hx
        · cases hx
        · cases hx; assumption
      · cases h

theorem parseLines_rhs : ∀ {ls : List Text} {n : Nat} {found : List (Symbol × List Symbol)},
    parseLines n ls = .ok found → ∀ a ∈ found, a.2 ≠ []
  | [], _, _, h => by cases h; simp
  | line :: rest, n, found, h => by
    unfold parseLines at h
    split at h
    · cases h
    · obtain ⟨here, hhere, h⟩ := bind_eq_ok.1 h
      obtain ⟨later, hlater, h⟩ := bind_eq_ok.1 h
      cases h
      intro a ha
      rcases mem_append.1 ha with ha | ha
      · exact parseLine_rhs hhere a ha
      · exact parseLines_rhs hlater a ha

theorem numbers_ofAlternatives (as : List (Symbol × List Symbol)) :
    (ofAlternatives as).rules.map Rule.number = range' 1 as.length := by
  simp only [ofAlternatives, map_map]
  rw [show Rule.number ∘ (fun x : (Symbol × List Symbol) × Nat => Rule.mk (x.2 + 1) x.1.1 x.1.2)
    = (· + 1) ∘ Prod.snd from rfl, ← map_map, zipIdx_map_snd]
  simp [range'_eq_map_range, Nat.add_comm]

theorem mem_ofAlternatives {as : List (Symbol × List Symbol)}
    (hr : r ∈ (ofAlternatives as).rules) : (r.lhs, r.rhs) ∈ as ∧ 0 < r.number := by
  simp only [ofAlternatives, mem_map] at hr
  obtain ⟨x, hx, rfl⟩ := hr
  exact ⟨fst_mem_of_mem_zipIdx hx, Nat.succ_pos _⟩

theorem wellFormed_ofAlternatives {as : List (Symbol × List Symbol)} (h : ∀ a ∈ as, a.2 ≠ []) :
    (ofAlternatives as).WellFormed where
  numbers := numbers_ofAlternatives as ▸ nodup_range'
  number_pos _ hr := (mem_ofAlternatives hr).2
  rhs_ne_nil _ hr := h _ (mem_ofAlternatives hr).1

theorem load_wellFormed {text : Text} (h : load text = .ok g) : g.WellFormed := by
  obtain ⟨as, has, h⟩ := bind_eq_ok.1 h
  split at h
  · cases h
  · cases h
    exact wellFormed_ofAlternatives (parseLines_rhs has)

end JavaToCpp.Grammar
