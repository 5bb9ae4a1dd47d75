/-
  The numbers and the order of the rules of different nonterminals do not matter.
-/
import JavaToCpp.Proofs.Chart.Answer
import JavaToCpp.Proofs.Chart.Pairing
import JavaToCpp.Proofs.Grammar.Alike

open List

namespace JavaToCpp.Grammar

variable {g h : Grammar}

theorem count_sides (rules : List Rule) (s : Symbol) (rhs : List Symbol) :
    (rules.map Rule.sides).count (s, rhs) =
      ((rules.filter fun r => r.lhs == s).map Rule.rhs).count rhs := by
  induction rules with
  | nil => rfl
  | cons r rules ih =>
    rw [map_cons, count_cons, ih, filter_cons]
    by_cases hs : r.lhs = s
    · simp [hs, count_cons, Rule.sides]
    · simp [hs, Rule.sides]

theorem SameRules.perm (hgh : g.SameRules h) :
    (g.rules.map Rule.sides).Perm (h.rules.map Rule.sides) := by
  rw [perm_iff_count]
  rintro ⟨s, rhs⟩
  rw [count_sides, count_sides]
  exact congrArg (count rhs) (hgh.rights s)

theorem nodup_rulesOf (hg : g.WellFormed) (s : Symbol) : (g.rulesOf s).Nodup :=
  (Nodup.of_map _ hg.numbers).filter _

end JavaToCpp.Grammar

namespace JavaToCpp.Chart

open Grammar (Rule SameRules)

variable {g h : Grammar}

/-- A rule and the one at its place among the rules of its symbol. -/
inductive SamePlace (g h : Grammar) : Rule → Rule → Prop
  | top : SamePlace g h (topRule g) (topRule h)
  | rule {s : Symbol} {n : Nat} {r r' : Rule} : (g.rulesOf s)[n]? = some r →
      (h.rulesOf s)[n]? = some r' → SamePlace g h r r'

/-- Rules correspond by their places, tokens and trees to themselves. -/
def renumbering (g h : Grammar) : Pairing := ⟨SamePlace g h, Eq, Eq⟩

namespace SamePlace

variable {r r' q q' : Rule}

theorem symm (hr : SamePlace g h r r') : SamePlace h g r' r := by
  cases hr with
  | top => exact .top
  | rule hr hr' => exact .rule hr' hr

theorem mem_of_getElem? {s : Symbol} {n : Nat} (hr : (g.rulesOf s)[n]? = some r) :
    r ∈ g.rules ∧ r.lhs = s :=
  Grammar.mem_rulesOf.1 (List.mem_of_getElem? hr)

theorem mem (hr : SamePlace g h r r') : r ∈ topRule g :: g.rules := by
  cases hr with
  | top => exact mem_cons_self
  | rule hr _ => exact mem_cons_of_mem _ (mem_of_getElem? hr).1

theorem rhs (hgh : g.SameRules h) (hr : SamePlace g h r r') : r.rhs = r'.rhs := by
  cases hr with
  | top => exact congrArg (fun a => [a]) hgh.start
  | @rule s n _ _ hr hr' =>
    have hget := congrArg (fun l => l[n]?) (hgh.rights s)
    simpa [hr, hr'] using hget

theorem lhs (hr : SamePlace g h r r') : r.lhs = r'.lhs := by
  cases hr with
  | top => rfl
  | rule hr hr' => rw [(mem_of_getElem? hr).2, (mem_of_getElem? hr').2]

theorem top_not_mem (hg : g.WellFormed) {s : Symbol} {n : Nat} :
    (g.rulesOf s)[n]? ≠ some (topRule g) := fun hn =>
  Nat.lt_irrefl 0 (hg.number_pos _ (mem_of_getElem? hn).1)

theorem unique (hg : g.WellFormed) (hr : SamePlace g h r r') (hq : SamePlace g h r q') :
    r' = q' := by
  cases hr with
  | top =>
    cases hq with
    | top => rfl
    | rule hq _ => exact absurd hq (top_not_mem hg)
  | @rule s n _ _ hr hr' =>
    cases hq with
    | top => exact absurd hr (top_not_mem hg)
    | @rule t m _ _ hq hq' =>
      obtain rfl : s = t := (mem_of_getElem? hr).2.symm.trans (mem_of_getElem? hq).2
      have hn : n < (g.rulesOf s).length := (List.getElem?_eq_some_iff.1 hr).1
      obtain rfl : n = m := (getElem?_inj hn (Grammar.nodup_rulesOf hg s)).1 (hr.trans hq.symm)
      exact Option.some.inj (hr'.symm.trans hq')

theorem number (hg : g.WellFormed) (hr : SamePlace g h r r') (hq : SamePlace g h q q')
    (hnumber : r.number = q.number) : r'.number = q'.number := by
  obtain rfl := rule_eq_of_number hg hr.mem hq.mem hnumber
  rw [hr.unique hg hq]

end SamePlace

theorem capacity_eq (hgh : g.SameRules h) (i : Nat) : capacity g i = capacity h i := by
  have hperm := Perm.sum_nat (hgh.perm.map fun a => a.2.length + 1)
  rw [map_map, map_map] at hperm
  simp only [capacity, map_cons, Column.total_eq_sum, sum_cons]
  exact congrArg (fun n => (2 + n) * (i + 1)) hperm

theorem forall₂_rulesOf (hgh : g.SameRules h) (a : Symbol) :
    Forall₂ (SamePlace g h) (g.rulesOf a) (h.rulesOf a) := by
  have hlength : (g.rulesOf a).length = (h.rulesOf a).length := by
    simpa using congrArg List.length (hgh.rights a)
  refine forall₂_iff_get.2 ⟨hlength, fun n hn hn' => .rule (s := a) (n := n) ?_ ?_⟩
  · exact getElem?_eq_getElem hn
  · exact getElem?_eq_getElem hn'

theorem scanRule?_entries (g : Grammar) (a : Symbol) (t : Token) : scanRule? (entries g) a t =
    if g.isTag a then tagRule? (g.rulesOf a) t.category else none := by
  rw [scanRule?, lookup?_entries]
  cases ha : g.isTerminal a with
  | true =>
    have htag : g.isTag a = false := by simp [Grammar.isTag, ha]
    simp [htag]
  | false => rfl

theorem renumbering_fits (hg : g.WellFormed) (hh : h.WellFormed) (hgh : g.SameRules h) :
    (renumbering g h).Fits g h where
  top := SamePlace.top
  capacity := capacity_eq hgh
  length hr := congrArg List.length (SamePlace.rhs hgh hr)
  number hr hq := ⟨SamePlace.number hg hr hq,
    SamePlace.number hh (SamePlace.symm hr) (SamePlace.symm hq)⟩
  waits hr hq := by rw [SamePlace.rhs hgh hr, SamePlace.lhs hq]
  predicts := by
    intro r r' n a a' hr ha ha'
    rw [SamePlace.rhs hgh hr, ha'] at ha
    cases ha
    rw [predicted, predicted, hgh.isTag]
    split
    · exact .nil
    · exact forall₂_rulesOf hgh a
  reads := by
    rintro r r' n a a' t _ hr ha ha' rfl
    rw [SamePlace.rhs hgh hr, ha'] at ha
    cases ha
    rw [scanRule?_entries, scanRule?_entries, hgh.isTag]
    split
    · exact rel_find? (forall₂_reverse_iff.2 (forall₂_rulesOf hgh a)) fun q q' hq => by rw [hq.rhs hgh]
    · exact .none
  branch := by
    intro r r' cs cs' hr hcs
    obtain rfl : cs = cs' := by rwa [← forall₂_eq_eq_eq]
    rw [SamePlace.lhs hr]
    rfl
  leaf ht := congrArg Tree.leaf ht

/-! ## Answers -/

theorem answers_eq (hg : g.WellFormed) (hh : h.WellFormed) (hgh : g.SameRules h) (ts : List Token) :
    (ofTokens g ts).sets.length = (ofTokens h ts).sets.length ∧
    (ofTokens g ts).size = (ofTokens h ts).size ∧
    (ofTokens g ts).rejection? = (ofTokens h ts).rejection? ∧
    (ofTokens g ts).tree? = (ofTokens h ts).tree? := by
  have hfits := renumbering_fits hg hh hgh
  have hts : Forall₂ (renumbering g h).token ts ts := forall₂_same.2 fun _ _ => rfl
  refine ⟨length_sets_eq hfits hts, size_eq hfits hts, ?_, ?_⟩
  · rw [rejection?, rejection?, isSome_accepted? hfits hts, findIdx?_sets_eq hfits hts]
    rfl
  · match (ofTokens g ts).tree?, (ofTokens h ts).tree?, rel_tree? hfits hts with
    | none, none, .none => rfl
    | some _, some _, .some ht => exact congrArg some ht

end JavaToCpp.Chart
