/-
  Differences of grammars.
-/
import JavaToCpp.Grammar.Diff
import JavaToCpp.Proofs.Grammar.Alike

namespace JavaToCpp.Grammar

open List
open Text (byte join)

/-! ## Alternatives -/

/-- The same alternatives, and the same text with bars between them. -/
structure SameTexts (as bs : List Text) : Prop where
  mem : ∀ a, a ∈ as ↔ a ∈ bs
  joined : join "|" as = join "|" bs

variable {g h : Grammar} {old new : Option Grammar} {as bs : List Text}

theorem SameTexts.refl (as : List Text) : SameTexts as as := ⟨fun _ => Iff.rfl, rfl⟩

theorem SameTexts.symm (h : SameTexts as bs) : SameTexts bs as :=
  ⟨fun a => (h.mem a).symm, h.joined.symm⟩

theorem SameTexts.trans {cs : List Text} (h : SameTexts as bs) (h' : SameTexts bs cs) : SameTexts as cs :=
  ⟨fun a => (h.mem a).trans (h'.mem a), h.joined.trans h'.joined⟩

theorem SameTexts.eq_nil_iff (h : SameTexts as bs) : as = [] ↔ bs = [] := by
  simp only [eq_nil_iff_forall_not_mem, h.mem]

/-- Bars between alternatives can be told if the alternatives have none. -/
theorem join_bar_inj (has : ∀ a ∈ as, byte '|' ∉ a) (hbs : ∀ b ∈ bs, byte '|' ∉ b) (ha : as ≠ [])
    (hb : bs ≠ []) : join "|" as = join "|" bs ↔ as = bs := by
  constructor
  · intro h
    rw [← splitOn_intercalate (byte '|') has ha, ← splitOn_intercalate (byte '|') hbs hb]
    exact congrArg (splitOn _) h
  · rintro rfl
    rfl

theorem SameTexts.eq (h : SameTexts as bs) (has : ∀ a ∈ as, byte '|' ∉ a)
    (hbs : ∀ b ∈ bs, byte '|' ∉ b) : as = bs := by
  by_cases ha : as = []
  · rw [ha, h.eq_nil_iff.1 ha]
  · exact (join_bar_inj has hbs ha (mt h.eq_nil_iff.2 ha)).1 h.joined

theorem Readable.bar_not_mem (hg : g.Readable) (s : Symbol) : ∀ a ∈ g.alternatives s, byte '|' ∉ a := by
  rw [alternatives_eq_map]
  refine forall_mem_map.2 fun rhs hrhs => ?_
  exact not_mem_join (by decide) fun x hx => ((hg.right s rhs hrhs).2 x hx).bar

/-! ## Differences -/

theorem RuleDiff.isEmpty_between {name : Symbol} :
    (RuleDiff.between name as bs).isEmpty ↔ SameTexts as bs := by
  constructor
  · intro hempty
    simp only [isEmpty, between, Bool.and_eq_true] at hempty
    obtain ⟨⟨hadded, hremoved⟩, hreordered⟩ := hempty
    rw [hadded, hremoved] at hreordered
    simp only [List.isEmpty_iff, filter_eq_nil_iff, Bool.not_eq_true', Bool.not_eq_false,
      contains_iff_mem] at hadded hremoved
    exact ⟨fun a => ⟨hremoved a, hadded a⟩, by simpa using hreordered⟩
  · intro h
    simp [isEmpty, between, h.mem, h.joined]

theorem mem_names {s : Symbol} : s ∈ names old ↔ alternativesIn old s ≠ [] := by
  cases old with
  | none => simp [names, alternativesIn]
  | some g =>
    have hterminal : g.isTerminal s = false ↔ g.rulesOf s ≠ [] := by
      rw [isTerminal_eq_isEmpty, isEmpty_eq_false_iff, Ne, map_eq_nil_iff]
    change s ∈ g.nonterminals ↔ g.alternatives s ≠ []
    rw [mem_nonterminals, hterminal, alternatives, Ne, Ne, map_eq_nil_iff]

theorem mem_sorted {ts : List Text} {t : Text} : t ∈ sorted ts ↔ t ∈ ts := mem_mergeSort

theorem isEmpty_sorted_filter {xs : List Symbol} {p : Symbol → Bool} :
    (sorted (xs.filter p)).isEmpty ↔ ∀ s ∈ xs, p s = false := by
  rw [List.isEmpty_iff, eq_nil_iff_forall_not_mem]
  simp [mem_sorted]

/-- **A difference is empty exactly if the alternatives of each symbol show the same on both sides.** -/
theorem isEmpty_between_iff :
    (Diff.between old new).isEmpty ↔ ∀ s, SameTexts (alternativesIn old s) (alternativesIn new s) := by
  have hmodified : (Diff.between old new).modified.isEmpty ↔
      ∀ s ∈ names new, s ∈ names old → SameTexts (alternativesIn old s) (alternativesIn new s) := by
    simp only [Diff.between, List.isEmpty_iff, filter_eq_nil_iff, forall_mem_map,
      mem_sorted, mem_filter, contains_iff_mem, Bool.not_eq_true, Bool.not_eq_false',
      RuleDiff.isEmpty_between, and_imp]
  have hadded : (Diff.between old new).added.isEmpty ↔ ∀ s ∈ names new, s ∈ names old :=
    isEmpty_sorted_filter.trans (by simp)
  have hremoved : (Diff.between old new).removed.isEmpty ↔ ∀ s ∈ names old, s ∈ names new :=
    isEmpty_sorted_filter.trans (by simp)
  rw [Diff.isEmpty, Bool.and_eq_true, Bool.and_eq_true, hadded, hremoved, hmodified]
  constructor
  · rintro ⟨⟨hadded, hremoved⟩, hsame⟩ s
    by_cases hs : s ∈ names new
    · exact hsame s hs (hadded s hs)
    · -- the symbol has alternatives on neither side
      have hs' : s ∉ names old := fun h => hs (hremoved s h)
      rw [mem_names, not_not] at hs hs'
      rw [hs, hs']
      exact .refl []
  · intro hsame
    simp only [mem_names, Ne, (hsame _).eq_nil_iff]
    exact ⟨⟨fun _ h => h, fun _ h => h⟩, fun s _ _ => hsame s⟩

theorem isEmpty_between_of_eq (h : ∀ s, alternativesIn old s = alternativesIn new s) :
    (Diff.between old new).isEmpty :=
  isEmpty_between_iff.2 fun s => h s ▸ .refl _

theorem isEmpty_between_self (g : Option Grammar) : (Diff.between g g).isEmpty :=
  isEmpty_between_of_eq fun _ => rfl

theorem Alike.isEmpty_between (hgh : g.Alike h) : (Diff.between (some g) (some h)).isEmpty :=
  isEmpty_between_of_eq hgh.alternatives

theorem isEmpty_between_congr {third : Option Grammar} (hempty : (Diff.between old new).isEmpty) :
    (Diff.between third old).isEmpty ↔ (Diff.between third new).isEmpty := by
  rw [isEmpty_between_iff] at hempty
  rw [isEmpty_between_iff, isEmpty_between_iff]
  exact ⟨fun h s => (h s).trans (hempty s), fun h s => (h s).trans (hempty s).symm⟩

theorem isEmpty_between_none (hg : g.rules ≠ []) : (Diff.between none (some g)).isEmpty = false := by
  obtain ⟨r, rules, hr⟩ := exists_cons_of_ne_nil hg
  have hmem : r ∈ g.rules := by simp [hr]
  refine Bool.eq_false_iff.2 fun hempty => ?_
  have hname : r.lhs ∈ names (some g) := mem_nonterminals.2 (isTerminal_lhs hmem)
  exact mem_names.1 hname ((isEmpty_between_iff.1 hempty r.lhs).eq_nil_iff.1 rfl)

/-- **Grammars that were read have no difference exactly if each symbol has the same alternatives.** -/
theorem Readable.isEmpty_between_iff (hg : g.Readable) (hh : h.Readable) :
    (Diff.between (some g) (some h)).isEmpty ↔ ∀ s, g.alternatives s = h.alternatives s :=
  ⟨fun hempty s => (Grammar.isEmpty_between_iff.1 hempty s).eq (hg.bar_not_mem s) (hh.bar_not_mem s),
    fun hsame => isEmpty_between_of_eq hsame⟩

end JavaToCpp.Grammar
