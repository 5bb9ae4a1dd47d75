/-
  Grammars that say the same.
-/
import JavaToCpp.Proofs.Grammar.RuleText
import JavaToCpp.Store.Basic

namespace JavaToCpp.Grammar

open List
open Text (join newline)

variable {g h : Grammar}

/-- The grammars have the same nonterminals in the same order, with the same alternatives, and the
    same start symbol. -/
structure Alike (g h : Grammar) : Prop where
  nonterminals : g.nonterminals = h.nonterminals
  rights : ∀ s, (g.rulesOf s).map Rule.rhs = (h.rulesOf s).map Rule.rhs
  start : g.start = h.start

theorem alternatives_eq_map (g : Grammar) (s : Symbol) :
    g.alternatives s = ((g.rulesOf s).map Rule.rhs).map (join " ") := by
  rw [alternatives, map_map]
  rfl

theorem Alike.alternatives (hgh : g.Alike h) (s : Symbol) :
    g.alternatives s = h.alternatives s := by
  rw [alternatives_eq_map, alternatives_eq_map, hgh.rights]

theorem Alike.refl (g : Grammar) : g.Alike g := ⟨rfl, fun _ => rfl, rfl⟩

theorem Alike.symm (hgh : g.Alike h) : h.Alike g :=
  ⟨hgh.nonterminals.symm, fun s => (hgh.rights s).symm, hgh.start.symm⟩

theorem Alike.trans {k : Grammar} (hgh : g.Alike h) (hhk : h.Alike k) : g.Alike k :=
  ⟨hgh.nonterminals.trans hhk.nonterminals, fun s => (hgh.rights s).trans (hhk.rights s),
    hgh.start.trans hhk.start⟩

/-! ## The same rules -/

/-- The grammars start alike, and each symbol has the same right-hand sides in the same order. -/
structure SameRules (g h : Grammar) : Prop where
  start : g.start = h.start
  rights : ∀ s, (g.rulesOf s).map Rule.rhs = (h.rulesOf s).map Rule.rhs

theorem Alike.sameRules (hgh : g.Alike h) : g.SameRules h := ⟨hgh.start, hgh.rights⟩

theorem isTerminal_eq_isEmpty (g : Grammar) (s : Symbol) :
    g.isTerminal s = ((g.rulesOf s).map Rule.rhs).isEmpty := by
  rw [Bool.eq_iff_iff, List.isEmpty_iff, map_eq_nil_iff, rulesOf, filter_eq_nil_iff]
  simp [isTerminal]

theorem isTag_eq (g : Grammar) (s : Symbol) : g.isTag s =
    (!g.isTerminal s && ((g.rulesOf s).map Rule.rhs).all fun rhs => rhs.all g.isTerminal) := by
  rw [isTag, all_map]
  rfl

theorem accepts_eq (g : Grammar) (tag : Symbol) (category : Text) : g.accepts tag category =
    (g.isTag tag && ((g.rulesOf tag).map Rule.rhs).any fun rhs => rhs == [category]) := by
  rw [accepts, any_map]
  rfl

theorem SameRules.isTerminal (hgh : g.SameRules h) : g.isTerminal = h.isTerminal := by
  funext s
  rw [isTerminal_eq_isEmpty, isTerminal_eq_isEmpty, hgh.rights]

theorem SameRules.isTag (hgh : g.SameRules h) (s : Symbol) : g.isTag s = h.isTag s := by
  rw [isTag_eq, isTag_eq, hgh.isTerminal, hgh.rights]

theorem SameRules.accepts (hgh : g.SameRules h) (tag : Symbol) (category : Text) :
    g.accepts tag category = h.accepts tag category := by
  rw [accepts_eq, accepts_eq, hgh.isTag, hgh.rights]

/-! ## Nonterminal by nonterminal -/

/-- The alternatives, nonterminal by nonterminal. -/
def grouped (g : Grammar) : List (Symbol × List Symbol) :=
  g.nonterminals.flatMap fun s => (g.rulesOf s).map fun r => (s, r.rhs)

theorem nodup_eraseDups {α : Type} [BEq α] [LawfulBEq α] : ∀ l : List α, l.eraseDups.Nodup
  | [] => by simp
  | x :: l => by
    rw [eraseDups_cons, nodup_cons]
    exact ⟨by simp, nodup_eraseDups (l.filter fun y => !y == x)⟩
termination_by l => l.length
decreasing_by exact Nat.lt_succ_of_le (length_filter_le _ _)

theorem nodup_nonterminals (g : Grammar) : g.nonterminals.Nodup := nodup_eraseDups _

theorem rulesOf_ne_nil {s : Symbol} (hs : s ∈ g.nonterminals) : g.rulesOf s ≠ [] := by
  obtain ⟨r, hr, rfl⟩ := isTerminal_eq_false.1 (mem_nonterminals.1 hs)
  exact ne_nil_of_mem (mem_rulesOf.2 ⟨hr, rfl⟩)

def Rule.sides (r : Rule) : Symbol × List Symbol := (r.lhs, r.rhs)

theorem sides_ofAlternatives (as : List (Symbol × List Symbol)) :
    (ofAlternatives as).rules.map Rule.sides = as := by
  rw [ofAlternatives, map_map]
  exact zipIdx_map_fst 0 as

theorem rights_eq (g : Grammar) (s : Symbol) : (g.rulesOf s).map Rule.rhs =
    ((g.rules.map Rule.sides).filter fun a => a.1 == s).map Prod.snd := by
  rw [rulesOf, filter_map, map_map]
  rfl

theorem nonterminals_eq (g : Grammar) :
    g.nonterminals = ((g.rules.map Rule.sides).map Prod.fst).eraseDups := by
  rw [nonterminals, map_map]
  rfl

theorem start_eq (g : Grammar) :
    g.start = if program ∈ g.nonterminals then program else g.nonterminals.head?.getD [] := by
  have hhead : g.rules.head?.map Rule.lhs = g.nonterminals.head? := by
    rw [nonterminals]
    cases g.rules with
    | nil => rfl
    | cons r rules => rw [map_cons, eraseDups_cons]; rfl
  rw [start, hhead]
  cases h : g.isTerminal program <;> simp [mem_nonterminals, h]

theorem alike_of (hnonterminals : g.nonterminals = h.nonterminals)
    (hrights : ∀ s, (g.rulesOf s).map Rule.rhs = (h.rulesOf s).map Rule.rhs) : g.Alike h :=
  ⟨hnonterminals, hrights, by rw [start_eq, start_eq, hnonterminals]⟩

theorem eraseDups_flatMap {α : Type} [BEq α] [LawfulBEq α] {f : α → List α} : ∀ {l : List α},
    l.Nodup → (∀ s ∈ l, f s ≠ [] ∧ ∀ x ∈ f s, x = s) → (l.flatMap f).eraseDups = l
  | [], _, _ => by simp
  | s :: l, hl, hf => by
    obtain ⟨hs, hl⟩ := nodup_cons.1 hl
    obtain ⟨⟨hne, heq⟩, hf⟩ := forall_mem_cons.1 hf
    have hfirst : (f s).eraseDups = [s] := by
      obtain ⟨x, xs, hx⟩ := exists_cons_of_ne_nil hne
      rw [hx] at heq ⊢
      obtain ⟨rfl, hxs⟩ := forall_mem_cons.1 heq
      have hnone : xs.filter (fun y => !y == x) = [] := by
        simpa [filter_eq_nil_iff] using hxs
      rw [eraseDups_cons, hnone]
      rfl
    have hrest : (l.flatMap f).removeAll (f s) = l.flatMap f := by
      refine filter_eq_self.2 fun x hx => ?_
      obtain ⟨s', hs', hx⟩ := mem_flatMap.1 hx
      have hne : x ∉ f s := by
        intro hmem
        rw [heq x hmem] at hx
        rw [(hf s' hs').2 s hx] at hs
        exact hs hs'
      simpa using hne
    rw [flatMap_cons, eraseDups_append, hfirst, hrest, eraseDups_flatMap hl hf]
    rfl

theorem flatMap_ite {α β : Type} [DecidableEq α] (s : α) (F : List β) : ∀ {l : List α}, l.Nodup →
    (l.flatMap fun a => if a = s then F else []) = if s ∈ l then F else []
  | [], _ => rfl
  | a :: l, hl => by
    obtain ⟨ha, hl⟩ := nodup_cons.1 hl
    rw [flatMap_cons, flatMap_ite s F hl]
    by_cases has : a = s
    · subst has
      simp [ha]
    · simp [has, Ne.symm has]

theorem alike_grouped (g : Grammar) : (ofAlternatives g.grouped).Alike g := by
  refine alike_of ?_ fun s => ?_
  · rw [nonterminals_eq, sides_ofAlternatives, grouped, map_flatMap]
    refine eraseDups_flatMap (nodup_nonterminals g) fun s hs => ⟨?_, ?_⟩
    · simpa using rulesOf_ne_nil hs
    · intro x hx
      simp only [map_map, mem_map] at hx
      obtain ⟨r, -, rfl⟩ := hx
      rfl
  · have hfilter : ∀ a : Symbol, ((g.rulesOf a).map fun r => (a, r.rhs)).filter (fun x => x.1 == s) =
        if a = s then (g.rulesOf s).map fun r => (s, r.rhs) else [] := by
      intro a
      by_cases has : a = s
      · subst has
        simp [filter_map, Function.comp_def]
      · simp [filter_map, Function.comp_def, has]
    rw [rights_eq, sides_ofAlternatives, grouped, filter_flatMap]
    simp only [hfilter]
    rw [flatMap_ite _ _ (nodup_nonterminals g)]
    by_cases hs : s ∈ g.nonterminals
    · rw [if_pos hs, map_map]
      rfl
    · have hterminal : g.isTerminal s := by simpa [mem_nonterminals] using hs
      rw [if_neg hs, rulesOf_of_isTerminal hterminal]
      rfl

/-! ## Texts -/

theorem splitOn_flatMap : ∀ {ls : List Text}, (∀ l ∈ ls, newline ∉ l) →
    (ls.flatMap fun l => l ++ [newline]).splitOn newline = ls ++ [[]]
  | [], _ => rfl
  | l :: ls, hls => by
    obtain ⟨hl, hls⟩ := forall_mem_cons.1 hls
    have hnone : ∀ b ∈ l, (b == newline) = false := fun b hb =>
      Bool.eq_false_iff.2 fun heq => hl (eq_of_beq heq ▸ hb)
    rw [flatMap_cons, append_assoc, singleton_append, splitOn,
      splitOnP_append_cons_of_forall_mem hnone _ (by simp)]
    exact congrArg (l :: ·) (splitOn_flatMap hls)

theorem lines_flatMap {ls : List Text} (hls : ∀ l ∈ ls, newline ∉ l) :
    lines (ls.flatMap fun l => l ++ [newline]) = ls := by
  rw [lines, splitOn_flatMap hls, reverse_append]
  exact reverse_reverse ls

theorem parseLines_map {α : Type} {line : α → Text} {found : α → List (Symbol × List Symbol)} :
    ∀ {xs : List α},
      (∀ x ∈ xs, (line x).length ≤ maxLine ∧ ∀ n, parseLine n (line x) = .ok (found x)) →
      ∀ n, parseLines n (xs.map line) = .ok (xs.flatMap found)
  | [], _, _ => rfl
  | x :: xs, h, n => by
    obtain ⟨⟨hlength, hline⟩, hxs⟩ := forall_mem_cons.1 h
    rw [map_cons, parseLines, if_neg (Nat.not_lt.2 hlength), hline, parseLines_map hxs]
    rfl

theorem load_lines {α : Type} (xs : List α) (line : α → Text)
    (found : α → List (Symbol × List Symbol))
    (hxs : ∀ x ∈ xs, newline ∉ line x ∧ (line x).length ≤ maxLine ∧
      ∀ n, parseLine n (line x) = .ok (found x))
    (hne : xs.flatMap found ≠ []) :
    load (xs.flatMap fun x => line x ++ [newline]) = .ok (ofAlternatives (xs.flatMap found)) := by
  have hnewline : ∀ l ∈ xs.map line, newline ∉ l := by
    simpa using fun x hx => (hxs x hx).1
  have hlines := lines_flatMap hnewline
  rw [flatMap_map] at hlines
  rw [load, hlines, parseLines_map (fun x hx => (hxs x hx).2) 1]
  simp only [bind, Except.bind, List.isEmpty_iff, hne, if_false]
  rfl

theorem mem_grouped {a : Symbol × List Symbol} (ha : a ∈ g.grouped) :
    ∃ r ∈ g.rules, r.sides = a := by
  obtain ⟨s, -, ha⟩ := mem_flatMap.1 ha
  obtain ⟨r, hr, rfl⟩ := mem_map.1 ha
  obtain ⟨hmem, rfl⟩ := mem_rulesOf.1 hr
  exact ⟨r, hmem, rfl⟩

theorem mem_grouped_of_mem {r : Rule} (hr : r ∈ g.rules) : r.sides ∈ g.grouped :=
  mem_flatMap.2 ⟨r.lhs, mem_nonterminals.2 (isTerminal_lhs hr),
    mem_map.2 ⟨r, mem_rulesOf.2 ⟨hr, rfl⟩, rfl⟩⟩

theorem Readable.grouped_ne_nil (hg : g.Readable) : g.grouped ≠ [] := by
  obtain ⟨r, rules, hr⟩ := exists_cons_of_ne_nil hg.rules_ne_nil
  exact ne_nil_of_mem (mem_grouped_of_mem (r := r) (by simp [hr]))

theorem Readable.isRight (hg : g.Readable) {r : Rule} (hr : r ∈ g.rules) : IsRight r.rhs :=
  ⟨hg.rhs_ne_nil r hr, hg.symbol r hr⟩

theorem newline_not_mem_ruleLine {s : Symbol} {rights : List (List Symbol)} (hs : IsName s)
    (h : ∀ rhs ∈ rights, IsRight rhs) : newline ∉ ruleLine s rights := by
  have hjoin : newline ∉ join " | " (rights.map (join " ")) := by
    refine not_mem_join (by decide) fun t ht => ?_
    obtain ⟨rhs, hrhs, rfl⟩ := mem_map.1 ht
    exact not_mem_join (by decide) fun x hx => ((h rhs hrhs).2 x hx).newline
  have harrow : newline ∉ Text.ofString " -> " := by decide
  simp [ruleLine, hs.newline, hjoin, harrow]

/-! ## Rows -/

theorem map_zipIdx {α β : Type} (f : α → β) (l : List α) :
    (l.zipIdx.map fun x => f x.1) = l.map f := by
  conv => rhs; rw [← zipIdx_map_fst 0 l, map_map]
  rfl

theorem flatMap_zipIdx {α β : Type} (f : α → List β) (l : List α) :
    (l.zipIdx.flatMap fun x => f x.1) = l.flatMap f := by
  rw [flatMap_def, map_zipIdx, flatMap_def]

theorem map_toRows (g : Grammar) : (g.toRows.map fun row => (row.nonterminal, row.alternative)) =
    g.grouped.map fun a => (a.1, join " " a.2) := by
  rw [toRows, grouped, map_flatMap, map_flatMap]
  refine Eq.trans ?_ (flatMap_zipIdx _ _)
  congr 1
  funext x
  rw [map_map, map_map]
  refine (map_zipIdx (fun a => (x.1, a)) _).trans ?_
  rw [alternatives, map_map]
  rfl

theorem Alike.toRows (hgh : g.Alike h) : g.toRows = h.toRows := by
  rw [Grammar.toRows, Grammar.toRows, hgh.nonterminals]
  simp only [hgh.alternatives]

theorem pairwise_zipIdx {α : Type} (l : List α) : l.zipIdx.Pairwise fun x y => x.2 < y.2 := by
  have h := pairwise_lt_range' (s := 0) (n := l.length)
  rw [← zipIdx_map_snd 0 l] at h
  exact pairwise_map.1 h

/-- Two rows belong to one nonterminal and have different positions, or to two nonterminals, which
    have different positions then. -/
theorem pairwise_toRows {R : Row → Row → Prop}
    (hsame : ∀ s i a b j k, j < k → R ⟨s, i, a, j⟩ ⟨s, i, b, k⟩)
    (hother : ∀ s t i j a b m n, s ≠ t → i < j → R ⟨s, i, a, m⟩ ⟨t, j, b, n⟩) (g : Grammar) :
    g.toRows.Pairwise R := by
  refine pairwise_flatMap.2 ⟨fun x _ => ?_, ?_⟩
  · exact pairwise_map.2 ((pairwise_zipIdx _).imp fun hlt => hsame _ _ _ _ _ _ hlt)
  · have hnames : g.nonterminals.zipIdx.Pairwise fun x y => x.1 ≠ y.1 := by
      refine pairwise_map.1 ?_
      rw [zipIdx_map_fst]
      exact nodup_nonterminals g
    refine (hnames.and (pairwise_zipIdx _)).imp fun {x y} hxy a ha b hb => ?_
    obtain ⟨u, -, rfl⟩ := mem_map.1 ha
    obtain ⟨v, -, rfl⟩ := mem_map.1 hb
    exact hother _ _ _ _ _ _ _ _ hxy.1 hxy.2

theorem mergeSort_toRows (g : Grammar) : g.toRows.mergeSort Store.rowLe = g.toRows := by
  refine mergeSort_of_pairwise (pairwise_toRows ?_ ?_ g)
  · intro s i a b j k hjk
    simp [Store.rowLe, Nat.le_of_lt hjk]
  · intro s t i j a b m n _ hij
    simp [Store.rowLe, hij]

theorem nodup_toRows (g : Grammar) :
    (g.toRows.map fun row => (row.nonterminal, row.position)).Nodup := by
  refine pairwise_map.2 (pairwise_toRows ?_ ?_ g)
  · intro s i a b j k hjk h
    exact Nat.ne_of_lt hjk (Prod.mk.inj h).2
  · intro s t i j a b m n hst _ h
    exact hst (Prod.mk.inj h).1

theorem describe_eq (r : Rule) : r.describe = ruleLine r.lhs [r.rhs] := by
  rw [ruleLine, map_singleton, Text.join_singleton]
  rfl

theorem textOfRows_toRows (g : Grammar) :
    textOfRows (g.toRows.map fun row => (row.nonterminal, row.alternative)) =
      g.grouped.flatMap fun a => ruleLine a.1 [a.2] ++ [newline] := by
  rw [map_toRows, textOfRows, flatMap_map]
  congr 1
  funext a
  rw [ruleLine, map_singleton, Text.join_singleton]
  rfl

theorem Readable.newline_not_mem_line (hg : g.Readable) {a : Symbol × List Symbol}
    (ha : a ∈ g.grouped) : newline ∉ ruleLine a.1 [a.2] := by
  obtain ⟨r, hr, rfl⟩ := mem_grouped ha
  exact newline_not_mem_ruleLine (hg.name r hr) (forall_mem_singleton.2 (hg.isRight hr))

theorem load_rows (hg : g.Readable) (hlength : ∀ r ∈ g.rules, r.describe.length ≤ maxLine) :
    load (textOfRows (g.toRows.map fun row => (row.nonterminal, row.alternative))) =
      .ok (ofAlternatives g.grouped) := by
  have hload := load_lines g.grouped (fun a => ruleLine a.1 [a.2]) (fun a => [a]) (fun a ha => ?_)
    (by simpa using hg.grouped_ne_nil)
  · rw [flatMap_singleton'] at hload
    rw [textOfRows_toRows, hload]
  · refine ⟨hg.newline_not_mem_line ha, ?_⟩
    obtain ⟨r, hr, rfl⟩ := mem_grouped ha
    exact ⟨describe_eq r ▸ hlength r hr, fun n =>
      parseLine_ruleLine n (hg.name r hr) (cons_ne_nil _ _)
        (forall_mem_singleton.2 (hg.isRight hr))⟩

theorem length_le_of_parseLines : ∀ {ls : List Text} {n : Nat} {found : List (Symbol × List Symbol)},
    parseLines n ls = .ok found → ∀ line ∈ ls, line.length ≤ maxLine
  | [], _, _, _ => by simp
  | line :: rest, n, found, h => by
    unfold parseLines at h
    split at h
    · cases h
    · rename_i hlength
      obtain ⟨here, _, h⟩ := bind_eq_ok.1 h
      obtain ⟨later, hlater, _⟩ := bind_eq_ok.1 h
      exact forall_mem_cons.2 ⟨Nat.not_lt.1 hlength, length_le_of_parseLines hlater⟩

theorem length_le_of_load {text : Text} (h : load text = .ok g) :
    ∀ line ∈ lines text, line.length ≤ maxLine := by
  obtain ⟨_, hparse, _⟩ := bind_eq_ok.1 h
  exact length_le_of_parseLines hparse

theorem alike_of_load_rows (hg : g.Readable)
    (hload : load (textOfRows (g.toRows.map fun row => (row.nonterminal, row.alternative))) =
      .ok h) : h.Alike g := by
  have hlines := lines_flatMap (forall_mem_map.2 fun _ => hg.newline_not_mem_line)
  rw [flatMap_map] at hlines
  have hlength : ∀ r ∈ g.rules, r.describe.length ≤ maxLine := by
    intro r hr
    refine length_le_of_load hload _ ?_
    rw [textOfRows_toRows, hlines, describe_eq]
    exact mem_map_of_mem (f := fun a : Symbol × List Symbol => ruleLine a.1 [a.2])
      (mem_grouped_of_mem hr)
  rw [load_rows hg hlength] at hload
  cases hload
  exact alike_grouped g

/-! ## Rule texts -/

theorem render_eq (g : Grammar) : g.render =
    g.nonterminals.flatMap fun s => ruleLine s ((g.rulesOf s).map Rule.rhs) ++ [newline] := by
  rw [render]
  congr 1
  funext s
  rw [renderLine, ruleLine, alternatives_eq_map]
  rfl

theorem Readable.right (hg : g.Readable) (s : Symbol) :
    ∀ rhs ∈ (g.rulesOf s).map Rule.rhs, IsRight rhs := by
  intro rhs hrhs
  obtain ⟨r, hr, rfl⟩ := mem_map.1 hrhs
  exact hg.isRight (mem_rulesOf.1 hr).1

theorem Readable.isName (hg : g.Readable) {s : Symbol} (hs : s ∈ g.nonterminals) : IsName s := by
  obtain ⟨r, hr, rfl⟩ := isTerminal_eq_false.1 (mem_nonterminals.1 hs)
  exact hg.name r hr

theorem lines_render (hg : g.Readable) :
    lines g.render = g.nonterminals.map fun s => ruleLine s ((g.rulesOf s).map Rule.rhs) := by
  have hnewline : ∀ l ∈ g.nonterminals.map fun s => ruleLine s ((g.rulesOf s).map Rule.rhs),
      newline ∉ l := by
    intro l hl
    obtain ⟨s, hs, rfl⟩ := mem_map.1 hl
    exact newline_not_mem_ruleLine (hg.isName hs) (hg.right s)
  have hlines := lines_flatMap hnewline
  rw [flatMap_map] at hlines
  rw [render_eq, hlines]

theorem Readable.parseLine (hg : g.Readable) {s : Symbol} (hs : s ∈ g.nonterminals) (n : Nat) :
    parseLine n (ruleLine s ((g.rulesOf s).map Rule.rhs)) =
      .ok ((g.rulesOf s).map fun r => (s, r.rhs)) := by
  have hne : (g.rulesOf s).map Rule.rhs ≠ [] := by simpa using rulesOf_ne_nil hs
  rw [parseLine_ruleLine n (hg.isName hs) hne (hg.right s), map_map]
  rfl

theorem map_parseLine_render (hg : g.Readable) : (lines g.render).map (parseLine 0) =
    g.nonterminals.map fun s => .ok ((g.rulesOf s).map fun r => (s, r.rhs)) := by
  rw [lines_render hg, map_map]
  exact map_congr_left fun s hs => hg.parseLine hs 0

theorem alike_of_render (hg : g.Readable) (hh : h.Readable) (heq : g.render = h.render) :
    g.Alike h := by
  have hmap := map_parseLine_render hg
  rw [heq, map_parseLine_render hh] at hmap
  have hinjective : Function.Injective
      (Except.ok : List (Symbol × List Symbol) → Except LoadError (List (Symbol × List Symbol))) :=
    fun _ _ => Except.ok.inj
  have hgrouped : g.grouped = h.grouped := by
    rw [grouped, grouped, flatMap_def, flatMap_def]
    refine congrArg flatten (map_injective_iff.2 hinjective ?_)
    rw [map_map, map_map]
    exact hmap.symm
  have hg' := alike_grouped g
  rw [hgrouped] at hg'
  exact hg'.symm.trans (alike_grouped h)

end JavaToCpp.Grammar
