/-
  New names for nonterminals.
-/
import JavaToCpp.Proofs.Chart.Renumber

open List

namespace JavaToCpp

namespace Tree

mutual

def relabel (f : Text → Text) : Tree → Tree
  | leaf t => leaf t
  | branch l cs => branch (f l) (relabelAll f cs)
  | hole => hole

def relabelAll (f : Text → Text) : List Tree → List Tree
  | [] => []
  | c :: cs => relabel f c :: relabelAll f cs

end

theorem relabelAll_eq_map (f : Text → Text) : ∀ cs : List Tree, relabelAll f cs = cs.map (relabel f)
  | [] => rfl
  | c :: cs => congrArg (relabel f c :: ·) (relabelAll_eq_map f cs)

end Tree

namespace Grammar

def Rule.rename (f : Symbol → Symbol) (r : Rule) : Rule := ⟨r.number, f r.lhs, r.rhs.map f⟩

/-- The nonterminals other than `<program>`. -/
def others (g : Grammar) : List Symbol := g.nonterminals.filter fun s => s != program

/-- A symbol under the new names, which are for the nonterminals other than `<program>`. -/
def renamed (g : Grammar) (names : Symbol → Symbol) (s : Symbol) : Symbol :=
  if g.others.contains s then names s else s

def rename (g : Grammar) (names : Symbol → Symbol) : Grammar :=
  ⟨g.rules.map (Rule.rename (g.renamed names))⟩

/-- The new names are different ones, and none of them occurs in the grammar. -/
structure Fresh (g : Grammar) (names : Symbol → Symbol) : Prop where
  injective : ∀ s ∈ g.others, ∀ t ∈ g.others, names s = names t → s = t
  unused : ∀ s ∈ g.others, ∀ r ∈ g.rules, ¬ r.Mentions (names s)

def Mentions (g : Grammar) (s : Symbol) : Prop := ∃ r ∈ g.rules, r.Mentions s

variable {g : Grammar} {names : Symbol → Symbol} {r : Rule} {s t : Symbol}

theorem mem_others : s ∈ g.others ↔ s ∈ g.nonterminals ∧ s ≠ program := by
  simp [others]

theorem renamed_of_mem (h : s ∈ g.others) : g.renamed names s = names s :=
  if_pos (contains_iff_mem.2 h)

theorem renamed_of_notMem (h : s ∉ g.others) : g.renamed names s = s :=
  if_neg (mt contains_iff_mem.1 h)

theorem renamed_program : g.renamed names program = program :=
  renamed_of_notMem fun h => (mem_others.1 h).2 rfl

theorem renamed_of_isTerminal (h : g.isTerminal s) : g.renamed names s = s := by
  refine renamed_of_notMem fun hs => ?_
  rw [mem_nonterminals.1 (mem_others.1 hs).1] at h
  cases h

theorem mentions_of_mem (h : s ∈ g.nonterminals) : g.Mentions s := by
  obtain ⟨r, hr, hs⟩ := isTerminal_eq_false.1 (mem_nonterminals.1 h)
  exact ⟨r, hr, .inl hs⟩

theorem Fresh.renamed_inj (hnames : g.Fresh names) (hs : g.Mentions s) (ht : g.Mentions t)
    (h : g.renamed names s = g.renamed names t) : s = t := by
  -- a new name is not the name of a symbol that keeps its own
  have hne {s t : Symbol} (hs : s ∈ g.others) (ht : g.Mentions t) : names s ≠ t := by
    rintro rfl
    obtain ⟨r, hr, hmentions⟩ := ht
    exact hnames.unused s hs r hr hmentions
  by_cases hs' : s ∈ g.others
  · rw [renamed_of_mem hs'] at h
    by_cases ht' : t ∈ g.others
    · rw [renamed_of_mem ht'] at h
      exact hnames.injective s hs' t ht' h
    · rw [renamed_of_notMem ht'] at h
      exact absurd h (hne hs' ht)
  · rw [renamed_of_notMem hs'] at h
    by_cases ht' : t ∈ g.others
    · rw [renamed_of_mem ht'] at h
      exact absurd h.symm (hne ht' hs)
    · rwa [renamed_of_notMem ht'] at h

theorem Fresh.renamed_beq (hnames : g.Fresh names) (hs : g.Mentions s) (ht : g.Mentions t) :
    (g.renamed names s == g.renamed names t) = (s == t) := by
  rw [Bool.eq_iff_iff, beq_iff_eq, beq_iff_eq]
  exact ⟨hnames.renamed_inj hs ht, congrArg _⟩

theorem Fresh.rulesOf (hnames : g.Fresh names) (hs : g.Mentions s) :
    (g.rename names).rulesOf (g.renamed names s) =
      (g.rulesOf s).map (Rule.rename (g.renamed names)) := by
  rw [Grammar.rulesOf, Grammar.rulesOf, rename, filter_map]
  refine congrArg (map _) (filter_congr fun r hr => ?_)
  exact hnames.renamed_beq ⟨r, hr, .inl rfl⟩ hs

theorem Fresh.isTerminal (hnames : g.Fresh names) (hs : g.Mentions s) :
    (g.rename names).isTerminal (g.renamed names s) = g.isTerminal s := by
  rw [isTerminal_eq_isEmpty, isTerminal_eq_isEmpty, hnames.rulesOf hs]
  simp

theorem Fresh.isTag (hnames : g.Fresh names) (hs : g.Mentions s) :
    (g.rename names).isTag (g.renamed names s) = g.isTag s := by
  have hrhs : ((g.rulesOf s).map (Rule.rename (g.renamed names))).all
      (fun r => r.rhs.all (g.rename names).isTerminal) =
      (g.rulesOf s).all fun r => r.rhs.all g.isTerminal := by
    rw [Bool.eq_iff_iff]
    simp only [all_eq_true, forall_mem_map, Rule.rename]
    refine forall₂_congr fun r hr => forall₂_congr fun x hx => ?_
    rw [hnames.isTerminal ⟨r, (mem_rulesOf.1 hr).1, .inr hx⟩]
  rw [Grammar.isTag, Grammar.isTag, hnames.isTerminal hs, hnames.rulesOf hs, hrhs]

theorem start_of_mem (h : program ∈ g.nonterminals) : g.start = program := by
  rw [start_eq, if_pos h]

theorem Fresh.start (hnames : g.Fresh names) (h : program ∈ g.nonterminals) :
    (g.rename names).start = program := by
  refine start_of_mem (mem_nonterminals.2 ?_)
  have hterminal := hnames.isTerminal (mentions_of_mem h)
  rwa [renamed_program, mem_nonterminals.1 h] at hterminal

end Grammar

namespace Chart

open Grammar (Rule program)

variable {g : Grammar} {names : Symbol → Symbol}

/-- A rule corresponds to the one with the new names, a tree to the one with the new labels. -/
def namesakes (g : Grammar) (names : Symbol → Symbol) : Pairing where
  rule r r' := r ∈ topRule g :: g.rules ∧ r' = r.rename (g.renamed names)
  token := Eq
  tree t t' := t' = t.relabel (g.renamed names)

theorem mentions_of_getElem? (hprogram : program ∈ g.nonterminals) {r : Rule} {n : Nat} {a : Symbol}
    (hr : r ∈ topRule g :: g.rules) (ha : r.rhs[n]? = some a) : g.Mentions a := by
  have hmem := mem_of_getElem? ha
  rcases mem_cons.1 hr with rfl | hr
  · rw [topRule, Grammar.start_of_mem hprogram] at hmem
    rw [mem_singleton.1 hmem]
    exact Grammar.mentions_of_mem hprogram
  · exact ⟨r, hr, .inr hmem⟩

theorem forall₂_rename {rules : List Rule} (h : ∀ r ∈ rules, r ∈ g.rules) :
    Forall₂ (namesakes g names).rule rules (rules.map (Rule.rename (g.renamed names))) := by
  refine forall₂_map_right_iff.2 (forall₂_same.2 fun r hr => ?_)
  exact ⟨mem_cons_of_mem _ (h r hr), rfl⟩

theorem rhs_rename_of_isTag {a : Symbol} (ha : g.isTag a) {r : Rule} (hr : r ∈ g.rulesOf a) :
    (r.rename (g.renamed names)).rhs = r.rhs := by
  simp only [Grammar.isTag, Bool.and_eq_true, all_eq_true] at ha
  refine (map_congr_left fun x hx => ?_).trans (map_id r.rhs)
  exact Grammar.renamed_of_isTerminal (ha.2 r hr x hx)

theorem forall₂_predicted (hnames : g.Fresh names) {a : Symbol} (ha : g.Mentions a) :
    Forall₂ (namesakes g names).rule (predicted g a)
      (predicted (g.rename names) (g.renamed names a)) := by
  rw [predicted, predicted, hnames.isTag ha, hnames.rulesOf ha]
  split
  · exact .nil
  · exact forall₂_rename fun r hr => (Grammar.mem_rulesOf.1 hr).1

theorem rel_scanRule? (hnames : g.Fresh names) {a : Symbol} (ha : g.Mentions a) (t : Token) :
    Option.Rel (namesakes g names).rule (scanRule? (entries g) a t)
      (scanRule? (entries (g.rename names)) (g.renamed names a) t) := by
  rw [scanRule?_entries, scanRule?_entries, hnames.isTag ha, hnames.rulesOf ha]
  split
  · rename_i htag
    have hrules : Forall₂ (fun q q' => (namesakes g names).rule q q' ∧ q.rhs = q'.rhs) (g.rulesOf a)
        ((g.rulesOf a).map (Rule.rename (g.renamed names))) := by
      refine forall₂_map_right_iff.2 (forall₂_same.2 fun q hq => ⟨⟨?_, rfl⟩, ?_⟩)
      · exact mem_cons_of_mem _ (Grammar.mem_rulesOf.1 hq).1
      · exact (rhs_rename_of_isTag htag hq).symm
    have hfind := rel_find? (p := fun q => q.rhs == [t.category])
      (q := fun q => q.rhs == [t.category]) (forall₂_reverse_iff.2 hrules) fun q q' hq => by rw [hq.2]
    rw [tagRule?, tagRule?]
    generalize find? _ (g.rulesOf a).reverse = o, find? _ (map _ _).reverse = o' at hfind ⊢
    cases hfind with
    | none => exact .none
    | some hq => exact .some hq.1
  · exact .none

theorem namesakes_fit (hprogram : program ∈ g.nonterminals) (hnames : g.Fresh names)
    (htop : top ∉ g.nonterminals) (hnew : ∀ s ∈ g.others, names s ≠ top) :
    (namesakes g names).Fits g (g.rename names) := by
  have hkeeps : g.renamed names top = top :=
    Grammar.renamed_of_notMem fun h => htop (Grammar.mem_others.1 h).1
  have htoprule : topRule (g.rename names) = (topRule g).rename (g.renamed names) := by
    rw [topRule, topRule, hnames.start hprogram, Grammar.start_of_mem hprogram, Rule.rename]
    simp only [hkeeps, map_cons, map_nil, Grammar.renamed_program]
  -- only the symbol above the start symbol has its name
  have htop_iff {a : Symbol} : g.renamed names a = top ↔ a = top := by
    refine ⟨fun h => ?_, fun h => by rw [h, hkeeps]⟩
    by_cases ha : a ∈ g.others
    · rw [Grammar.renamed_of_mem ha] at h
      exact absurd h (hnew a ha)
    · rwa [Grammar.renamed_of_notMem ha] at h
  have hget {r r' : Rule} {n : Nat} {a a' : Symbol} (hr : (namesakes g names).rule r r')
      (ha : r.rhs[n]? = some a) (ha' : r'.rhs[n]? = some a') :
      g.Mentions a ∧ a' = g.renamed names a := by
    refine ⟨mentions_of_getElem? hprogram hr.1 ha, ?_⟩
    rw [hr.2, Rule.rename, getElem?_map, ha] at ha'
    exact (Option.some.inj ha').symm
  refine
    { top := ⟨mem_cons_self, htoprule⟩
      capacity := fun i => ?_
      length := fun hr => by rw [hr.2]; exact (length_map _).symm
      number := fun hr hq => by rw [hr.2, hq.2]; rfl
      waits := fun {r r' q q' n} hr hq => ?_
      predicts := fun {r r' n a a'} hr ha ha' => ?_
      reads := fun {r r' n a a' t t'} hr ha ha' ht => ?_
      branch := fun {r r' cs cs'} hr hcs => ?_
      leaf := fun ht => by rw [ht]; rfl }
  · have hlengths : (g.rename names).rules.map (fun r => r.rhs.length + 1) =
        g.rules.map fun r => r.rhs.length + 1 := by
      simp [Grammar.rename, Function.comp_def, Rule.rename]
    rw [capacity, capacity, map_cons, map_cons, hlengths]
    rfl
  · rw [hr.2, hq.2]
    simp only [Rule.rename, getElem?_map, Option.map_eq_some_iff]
    refine ⟨fun h => ⟨_, h, rfl⟩, ?_⟩
    rintro ⟨a, ha, heq⟩
    rw [ha]
    rcases mem_cons.1 hq.1 with rfl | hmem
    · rw [htop_iff.1 (heq.trans hkeeps)]
      rfl
    · rw [hnames.renamed_inj (mentions_of_getElem? hprogram hr.1 ha) ⟨q, hmem, .inl rfl⟩ heq]
  · obtain ⟨hmentions, rfl⟩ := hget hr ha ha'
    exact forall₂_predicted hnames hmentions
  · obtain ⟨hmentions, rfl⟩ := hget hr ha ha'
    exact ht ▸ rel_scanRule? hnames hmentions t
  · rw [hr.2]
    have hmap : cs.map (Tree.relabel (g.renamed names)) = cs'.map id :=
      map_eq_map hcs fun _ _ h => h.symm
    show _ = Tree.branch _ (Tree.relabelAll _ cs)
    rw [Tree.relabelAll_eq_map, hmap, map_id]
    rfl

/-- **Nonterminal names carry no meaning**, apart from the symbol above the start symbol: if that is
    neither defined nor a new name, charts of the grammar with new names have the same rejection and
    the same tree up to the labels. -/
theorem answers_rename (hprogram : program ∈ g.nonterminals) (hnames : g.Fresh names)
    (htop : top ∉ g.nonterminals) (hnew : ∀ s ∈ g.others, names s ≠ top) (ts : List Token) :
    (ofTokens (g.rename names) ts).rejection? = (ofTokens g ts).rejection? ∧
    (ofTokens (g.rename names) ts).tree? =
      (ofTokens g ts).tree?.map (Tree.relabel (g.renamed names)) := by
  have hfits := namesakes_fit hprogram hnames htop hnew
  have hts : Forall₂ (namesakes g names).token ts ts := forall₂_same.2 fun _ _ => rfl
  constructor
  · rw [rejection?, rejection?, isSome_accepted? hfits hts, findIdx?_sets_eq hfits hts]
    rfl
  · have htree := rel_tree? hfits hts
    generalize (ofTokens g ts).tree? = o, (ofTokens (g.rename names) ts).tree? = o' at htree ⊢
    cases htree with
    | none => rfl
    | some ht => exact congrArg some ht

def lettered (s : Symbol) : Symbol := 110 :: s

theorem fresh_lettered (h : ∀ s ∈ g.others, ∀ r ∈ g.rules, lettered s ≠ r.lhs ∧ lettered s ∉ r.rhs) :
    g.Fresh lettered where
  injective _ _ _ _ heq := (List.cons.inj heq).2
  unused s hs r hr hmentions := by
    rcases hmentions with hlhs | hrhs
    · exact (h s hs r hr).1 hlhs.symm
    · exact (h s hs r hr).2 hrhs

/-- A list of tokens `x` that ends with a token `y`. -/
def ended : Grammar := .ofAlternatives
  [("<program>", ["X", "<program>"]), ("<program>", ["Y"]), ("X", ["x"]), ("Y", ["y"])]

theorem answers_rename_ended : Grammar.load "<program> -> X <program> | Y\nX -> x\nY -> y" = .ok ended ∧
    (ended.rename lettered).nonterminals = ["<program>", "nX", "nY"] ∧
    ∀ ts, (ofTokens (ended.rename lettered) ts).rejection? = (ofTokens ended ts).rejection? :=
  ⟨by decide +kernel, by decide +kernel, fun ts => (answers_rename (by decide +kernel)
    (fresh_lettered (by decide +kernel)) (by decide +kernel) (by decide +kernel) ts).1⟩

/-- A token `y`, or a token `x` and a token `y`; the tag of `x` has the name of the symbol above the
    start symbol. -/
def captured : Grammar := .ofAlternatives
  [("<program>", ["<START>", "Y"]), ("<program>", ["Y"]), ("<START>", ["x"]), ("Y", ["y"])]

/-- Completing the start rule with the first `y` stands for an `x` in front of the second one. -/
theorem captured_accepts : (ofTokens captured (tokensFor ["y", "y"])).rejection? = none := by
  have hg : captured.WellFormed := Grammar.wellFormed_ofAlternatives (by decide +kernel)
  have hstart : Reached captured (tokensFor ["y", "y"]) (.begin 0 (topRule captured)) := .start
  have hpair := hstart.predict (a := "<program>") (r := ⟨1, "<program>", ["<START>", "Y"]⟩)
    (by decide +kernel) (by decide +kernel) (by decide +kernel)
  have hsingle := hstart.predict (a := "<program>") (r := ⟨2, "<program>", ["Y"]⟩)
    (by decide +kernel) (by decide +kernel) (by decide +kernel)
  have hy := hsingle.scan (a := "Y") (r := ⟨4, "Y", ["y"]⟩) (k := ⟨"y", "y", 1, 1⟩)
    (by decide +kernel) (by decide +kernel) (by decide +kernel) (by decide +kernel)
  have hsingle := hy.complete hsingle (by decide +kernel) rfl (by decide +kernel)
  have htop := hsingle.complete hstart (by decide +kernel) rfl (by decide +kernel)
  have hpair := htop.complete hpair (by decide +kernel) rfl (by decide +kernel)
  have hy := hpair.scan (a := "Y") (r := ⟨4, "Y", ["y"]⟩) (k := ⟨"y", "y", 1, 1⟩)
    (by decide +kernel) (by decide +kernel) (by decide +kernel) (by decide +kernel)
  have hpair := hy.complete hpair (by decide +kernel) rfl (by decide +kernel)
  have htop := hpair.complete hstart (by decide +kernel) rfl (by decide +kernel)
  exact (rejection?_eq_none hg).2 ((accepted?_isSome hg).2 ⟨_, htop, rfl, by decide +kernel, rfl, rfl⟩)

/-- **A name that carries a meaning**: two tokens `y` are accepted, but not with another name for the
    tag of `x`. -/
theorem top_captured :
    Grammar.load "<program> -> <START> Y | Y\n<START> -> x\nY -> y" = .ok captured ∧
    program ∈ captured.nonterminals ∧ captured.Fresh lettered ∧
    (ofTokens captured (tokensFor ["y", "y"])).rejection? = none ∧
    (ofTokens (captured.rename lettered) (tokensFor ["y", "y"])).rejection? ≠ none := by
  have hg : (captured.rename lettered).WellFormed :=
    ⟨by decide +kernel, by decide +kernel, by decide +kernel⟩
  have hfree : ∀ r ∈ (captured.rename lettered).rules, ¬ r.Mentions top := by
    unfold Grammar.Rule.Mentions
    decide +kernel
  refine ⟨by decide +kernel, by decide +kernel, fresh_lettered (by decide +kernel),
    captured_accepts, fun haccepted => ?_⟩
  obtain ⟨t, -, ht, htokens⟩ := parses_of_accepted hg hfree haccepted
  obtain ⟨r, hr, ts, rfl, hts⟩ := ht.exists_rule (by decide +kernel)
  have hrules : (captured.rename lettered).rulesOf (captured.rename lettered).start =
      [⟨1, "<program>", ["n<START>", "nY"]⟩, ⟨2, "<program>", ["nY"]⟩] := by decide +kernel
  rw [hrules] at hr
  rcases mem_cons.1 hr with rfl | hr
  · -- the first token would have to be an `x`
    obtain ⟨x, ys, hx, -, rfl⟩ := forall₂_cons_left_iff.1 hts
    obtain ⟨k, rfl, hk⟩ := hx.exists_token (by decide +kernel)
    rw [Tree.tokens, Tree.tokensOf] at htokens
    cases (List.cons.inj htokens).1
    exact absurd hk (by decide +kernel)
  · -- there would have to be one token only
    cases mem_singleton.1 hr
    obtain ⟨y, ys, hy, hnil, rfl⟩ := forall₂_cons_left_iff.1 hts
    cases hnil
    obtain ⟨k, rfl, -⟩ := hy.exists_token (by decide +kernel)
    cases htokens

end Chart

end JavaToCpp
