/-
  What the difference of two grammars lists.
-/
import JavaToCpp.Proofs.Grammar.Difference

namespace JavaToCpp.Grammar

open List Text

variable {old new : Option Grammar}

/-! ## Names in order -/

/-- The names are those with the property, each once, in the order of their bytes. -/
structure Lists (ss : List Symbol) (P : Symbol → Prop) : Prop where
  mem : ∀ s, s ∈ ss ↔ P s
  ordered : ss.Pairwise fun s t => le s t ∧ s ≠ t

variable {ss : List Symbol} {P : Symbol → Prop} {s : Symbol} {xs ys : List (List Symbol)}

theorem Lists.nodup (h : Lists ss P) : ss.Nodup :=
  h.ordered.imp fun hst => hst.2

theorem Lists.eq {ts : List Symbol} {Q : Symbol → Prop} (hs : Lists ss P) (ht : Lists ts Q)
    (hPQ : ∀ s, P s ↔ Q s) : ss = ts := by
  refine Perm.eq_of_pairwise (fun s t _ _ hst hts => List.le_antisymm (le_iff.1 hst.1) (le_iff.1 hts.1))
    hs.ordered ht.ordered ?_
  refine (perm_ext_iff_of_nodup hs.nodup ht.nodup).2 fun s => ?_
  rw [hs.mem, ht.mem, hPQ]

theorem Lists.filter (h : Lists ss P) (p : Symbol → Bool) : Lists (ss.filter p) fun s => P s ∧ p s where
  mem s := by rw [mem_filter, h.mem]
  ordered := h.ordered.filter p

theorem lists_sorted (h : ss.Nodup) : Lists (sorted ss) (· ∈ ss) where
  mem _ := mem_sorted
  ordered := by
    have hnodup : (sorted ss).Nodup := (mergeSort_perm ss le).nodup_iff.2 h
    have htrans : ∀ s t u, le s t → le t u → le s u := fun s t u hst htu =>
      le_iff.2 (List.le_trans (le_iff.1 hst) (le_iff.1 htu))
    have htotal : ∀ s t, le s t || le t s := fun s t => by
      simpa [le_iff] using List.le_total s t
    have hle := pairwise_mergeSort htrans htotal ss
    exact hle.and hnodup

theorem nodup_names : ∀ g : Option Grammar, (names g).Nodup
  | none => nodup_nil
  | some g => nodup_nonterminals g

theorem lists_names (g : Option Grammar) (p : Symbol → Bool) :
    Lists (sorted ((names g).filter p)) fun s => s ∈ names g ∧ p s := by
  have hlists := lists_sorted ((nodup_names g).filter p)
  exact ⟨fun s => (hlists.mem s).trans mem_filter, hlists.ordered⟩

def common (old new : Option Grammar) : List Symbol :=
  sorted ((names new).filter (names old).contains)

theorem lists_common (old new : Option Grammar) :
    Lists (common old new) fun s => s ∈ names old ∧ s ∈ names new := by
  have hlists := lists_names new (names old).contains
  refine ⟨fun s => (hlists.mem s).trans ?_, hlists.ordered⟩
  rw [contains_iff_mem, and_comm]

theorem common_comm : common new old = common old new :=
  (lists_common new old).eq (lists_common old new) fun _ => and_comm

/-! ## Alternatives -/

/-- The right-hand sides of a symbol of a grammar that can be absent. -/
def rightsIn (g : Option Grammar) (s : Symbol) : List (List Symbol) :=
  (g.map fun g => (g.rulesOf s).map Rule.rhs).getD []

theorem alternativesIn_eq : ∀ (g : Option Grammar) (s : Symbol),
    alternativesIn g s = (rightsIn g s).map (join " ")
  | none, _ => rfl
  | some g, s => g.alternatives_eq_map s

/-- The grammar is absent or was read from a text. -/
def FromText (g : Option Grammar) : Prop := ∀ h ∈ g, ∃ text, load text = .ok h

theorem FromText.isRight {g : Option Grammar} (hg : FromText g) {rhs : List Symbol}
    (hrhs : rhs ∈ rightsIn g s) : IsRight rhs := by
  cases g with
  | none => cases hrhs
  | some h =>
    obtain ⟨text, hload⟩ := hg h rfl
    exact (load_readable hload).right s rhs hrhs

theorem join_blank_inj {x y : List Symbol} (hx : IsRight x) (hy : IsRight y)
    (h : join " " x = join " " y) : x = y := by
  rw [← fields_join fun w hw => (hx.2 w hw).word, h,
    fields_join fun w hw => (hy.2 w hw).word]

theorem mem_map_join {x : List Symbol} (hxs : ∀ y ∈ xs, IsRight y)
    (hx : IsRight x) : join " " x ∈ xs.map (join " ") ↔ x ∈ xs := by
  constructor
  · intro hmem
    obtain ⟨y, hy, heq⟩ := mem_map.1 hmem
    rwa [← join_blank_inj (hxs y hy) hx heq]
  · exact mem_map_of_mem

theorem filter_map_join (hxs : ∀ x ∈ xs, IsRight x) (hys : ∀ y ∈ ys, IsRight y) :
    (xs.map (join " ")).filter (fun t => !(ys.map (join " ")).contains t) =
      (xs.filter (· ∉ ys)).map (join " ") := by
  rw [filter_map]
  congr 1
  refine filter_congr fun x hx => ?_
  rw [Bool.eq_iff_iff, Function.comp_apply, Bool.not_eq_true', decide_eq_true_eq,
    ← mem_map_join hys (hxs x hx), ← contains_iff_mem, Bool.not_eq_true]

theorem map_join_inj (hxs : ∀ x ∈ xs, IsRight x)
    (hys : ∀ y ∈ ys, IsRight y) : xs.map (join " ") = ys.map (join " ") ↔ xs = ys := by
  have hfields {zs : List (List Symbol)} (hzs : ∀ z ∈ zs, IsRight z) :
      (zs.map (join " ")).map fields = zs := by
    rw [map_map]
    refine (map_congr_left fun z hz => ?_).trans (map_id zs)
    exact fields_join fun w hw => ((hzs z hz).2 w hw).word
  constructor
  · intro h
    rw [← hfields hxs, h, hfields hys]
  · rintro rfl
    rfl

theorem FromText.bar_not_mem {g : Option Grammar} (hg : FromText g) :
    ∀ a ∈ alternativesIn g s, byte '|' ∉ a := by
  rw [alternativesIn_eq]
  exact forall_mem_map.2 fun rhs hrhs =>
    not_mem_join (by decide) fun x hx => ((hg.isRight hrhs).2 x hx).bar

theorem sameTexts_iff (hold : FromText old) (hnew : FromText new) :
    SameTexts (alternativesIn old s) (alternativesIn new s) ↔ rightsIn old s = rightsIn new s := by
  rw [← map_join_inj (fun _ => hold.isRight) (fun _ => hnew.isRight), ← alternativesIn_eq,
    ← alternativesIn_eq]
  exact ⟨fun h => h.eq hold.bar_not_mem hnew.bar_not_mem, fun h => h ▸ .refl _⟩

/-! ## Differences -/

def Defines (g : Option Grammar) (s : Symbol) : Prop := ∃ h ∈ g, ∃ r ∈ h.rules, r.lhs = s

theorem mem_names_iff : ∀ {g : Option Grammar} {s : Symbol}, s ∈ names g ↔ Defines g s
  | none, s => by simp [names, Defines]
  | some g, s => by
    have hmem : s ∈ names (some g) ↔ g.isTerminal s = false := mem_nonterminals
    rw [hmem, isTerminal_eq_false]
    simp [Defines]

def ruleDiff (old new : Option Grammar) (s : Symbol) : RuleDiff :=
  .between s (alternativesIn old s) (alternativesIn new s)

theorem modified_eq : (Diff.between old new).modified =
    ((common old new).filter fun s => !(ruleDiff old new s).isEmpty).map (ruleDiff old new) := by
  rw [Diff.between, filter_map]
  rfl

/-- The difference with what is added and what is removed exchanged. -/
def RuleDiff.exchange (d : RuleDiff) : RuleDiff := ⟨d.name, d.removed, d.added, d.reordered⟩

def Diff.exchange (d : Diff) : Diff := ⟨d.removed, d.added, d.modified.map RuleDiff.exchange⟩

theorem exchange_ruleDiff (s : Symbol) : (ruleDiff old new s).exchange = ruleDiff new old s := by
  simp only [ruleDiff, RuleDiff.between, RuleDiff.exchange, RuleDiff.mk.injEq, true_and]
  rw [Bool.and_comm (isEmpty _) (isEmpty _), bne_comm]

theorem isEmpty_ruleDiff_comm (s : Symbol) :
    (ruleDiff new old s).isEmpty = (ruleDiff old new s).isEmpty := by
  rw [← exchange_ruleDiff, RuleDiff.isEmpty, RuleDiff.exchange, Bool.and_comm (isEmpty _) (isEmpty _)]
  rfl

theorem exchange_between : Diff.between new old = (Diff.between old new).exchange := by
  have hmodified : (Diff.between new old).modified =
      (Diff.between old new).modified.map RuleDiff.exchange := by
    rw [modified_eq, modified_eq, common_comm, map_map]
    simp only [Function.comp_def, exchange_ruleDiff, isEmpty_ruleDiff_comm]
  exact congrArg (Diff.mk _ _) hmodified

/-- What a difference tells of a symbol whose right-hand sides are `old` and `new`. -/
structure RuleDiff.Tells (d : RuleDiff) (old new : List (List Symbol)) : Prop where
  added : d.added = (new.filter (· ∉ old)).map (join " ")
  removed : d.removed = (old.filter (· ∉ new)).map (join " ")
  reordered : d.reordered ↔ (∀ rhs, rhs ∈ old ↔ rhs ∈ new) ∧ old ≠ new
  /-- the texts joined with bars show the same -/
  joined : d.reordered ↔ d.added = [] ∧ d.removed = [] ∧
    join "|" (old.map (join " ")) ≠ join "|" (new.map (join " "))

theorem tells_ruleDiff (hold : FromText old) (hnew : FromText new) (hs : Defines old s ∧ Defines new s) :
    (ruleDiff old new s).Tells (rightsIn old s) (rightsIn new s) := by
  have hadded : (ruleDiff old new s).added =
      ((rightsIn new s).filter (· ∉ rightsIn old s)).map (join " ") := by
    rw [← filter_map_join (fun _ => hnew.isRight) (fun _ => hold.isRight), ← alternativesIn_eq,
      ← alternativesIn_eq]
    rfl
  have hremoved : (ruleDiff old new s).removed =
      ((rightsIn old s).filter (· ∉ rightsIn new s)).map (join " ") := by
    rw [← filter_map_join (fun _ => hold.isRight) (fun _ => hnew.isRight), ← alternativesIn_eq,
      ← alternativesIn_eq]
    rfl
  have hjoined : (ruleDiff old new s).reordered ↔ (ruleDiff old new s).added = [] ∧
      (ruleDiff old new s).removed = [] ∧
      join "|" ((rightsIn old s).map (join " ")) ≠ join "|" ((rightsIn new s).map (join " ")) := by
    have heq : (ruleDiff old new s).reordered = ((ruleDiff old new s).added.isEmpty &&
        (ruleDiff old new s).removed.isEmpty &&
        join "|" (alternativesIn old s) != join "|" (alternativesIn new s)) := rfl
    rw [heq, alternativesIn_eq, alternativesIn_eq, Bool.and_eq_true, Bool.and_eq_true,
      List.isEmpty_iff, List.isEmpty_iff, bne_iff_ne, and_assoc]
  have hinj := join_bar_inj hold.bar_not_mem hnew.bar_not_mem (mem_names.1 (mem_names_iff.2 hs.1))
    (mem_names.1 (mem_names_iff.2 hs.2))
  rw [alternativesIn_eq, alternativesIn_eq,
    map_join_inj (fun _ => hold.isRight) (fun _ => hnew.isRight)] at hinj
  refine ⟨hadded, hremoved, ?_, hjoined⟩
  -- nothing is added or removed if each side has what the other one has
  rw [hjoined, hadded, hremoved, Ne, hinj, ← and_assoc]
  simp only [map_eq_nil_iff, filter_eq_nil_iff, decide_eq_true_eq, not_not]
  exact and_congr_left fun _ => ⟨fun h rhs => ⟨h.2 rhs, h.1 rhs⟩,
    fun h => ⟨fun rhs => (h rhs).2, fun rhs => (h rhs).1⟩⟩

theorem lists_modified (hold : FromText old) (hnew : FromText new) :
    Lists ((Diff.between old new).modified.map RuleDiff.name)
      fun s => Defines old s ∧ Defines new s ∧ rightsIn old s ≠ rightsIn new s := by
  have hnames : (Diff.between old new).modified.map RuleDiff.name =
      (common old new).filter fun s => !(ruleDiff old new s).isEmpty := by
    rw [modified_eq, map_map]
    exact map_id _
  have hlists := (lists_common old new).filter fun s => !(ruleDiff old new s).isEmpty
  rw [hnames]
  refine ⟨fun s => (hlists.mem s).trans ?_, hlists.ordered⟩
  rw [mem_names_iff, mem_names_iff, Bool.not_eq_true', Bool.eq_false_iff, Ne, ruleDiff,
    RuleDiff.isEmpty_between, sameTexts_iff hold hnew, and_assoc]

theorem lists_added : Lists (Diff.between old new).added fun s => Defines new s ∧ ¬Defines old s := by
  have hlists := lists_names new fun s => !(names old).contains s
  refine ⟨fun s => (hlists.mem s).trans ?_, hlists.ordered⟩
  rw [← mem_names_iff, ← mem_names_iff, ← contains_iff_mem, ← contains_iff_mem,
    Bool.not_eq_true', Bool.not_eq_true]

/-- **A difference is exact.** The names added and removed are those that only the second or only
    the first grammar defines, in order. A name of both is modified exactly if its lists of
    right-hand sides differ. Of such a name those added (removed) are the ones of the second (first)
    grammar that the other one does not have, in their order and as often as they come; and it is
    reordered exactly if each list has what the other one has. The difference is empty exactly if
    the grammars define the same names with the same lists, and the other way round it is the same
    with added and removed exchanged. -/
theorem between_exact (a b : Option Grammar) (ha : FromText a) (hb : FromText b) :
    Lists (Diff.between a b).added (fun s => Defines b s ∧ ¬Defines a s) ∧
    Lists (Diff.between a b).removed (fun s => Defines a s ∧ ¬Defines b s) ∧
    Lists ((Diff.between a b).modified.map RuleDiff.name)
      (fun s => Defines a s ∧ Defines b s ∧ rightsIn a s ≠ rightsIn b s) ∧
    (∀ d ∈ (Diff.between a b).modified, d.Tells (rightsIn a d.name) (rightsIn b d.name)) ∧
    ((Diff.between a b).isEmpty ↔ ∀ s, (Defines a s ↔ Defines b s) ∧ rightsIn a s = rightsIn b s) ∧
    Diff.between b a = (Diff.between a b).exchange := by
  have hremoved : (Diff.between a b).removed = (Diff.between b a).added := rfl
  refine ⟨lists_added, hremoved ▸ lists_added, lists_modified ha hb, fun d hd => ?_, ?_,
    exchange_between⟩
  · rw [modified_eq] at hd
    obtain ⟨s, hs, rfl⟩ := mem_map.1 hd
    have hcommon := ((lists_common a b).mem s).1 (mem_filter.1 hs).1
    rw [mem_names_iff, mem_names_iff] at hcommon
    exact tells_ruleDiff ha hb hcommon
  · rw [isEmpty_between_iff]
    refine forall_congr' fun s => ?_
    rw [sameTexts_iff ha hb, ← mem_names_iff, ← mem_names_iff, mem_names, mem_names, alternativesIn_eq,
      alternativesIn_eq]
    constructor
    · intro h
      simp [h]
    · exact And.right

def earlier : Grammar := .ofAlternatives
  [("a", ["x"]), ("a", ["y", "z"]), ("b", ["x"]), ("b", ["x"]), ("c", ["p"])]

def later : Grammar := .ofAlternatives
  [("d", ["p"]), ("b", ["x"]), ("a", ["y", "z"]), ("a", ["w"]), ("a", ["w"])]

/-- A name added, one removed, one with other alternatives and one with fewer repetitions. -/
theorem between_exact_repeated : FromText (some earlier) ∧ FromText (some later) ∧
    (Diff.between (some earlier) (some later)).modified =
      [⟨"a", ["w", "w"], ["x"], false⟩, ⟨"b", [], [], true⟩] ∧
    Lists ["d"] (fun s => Defines (some later) s ∧ ¬Defines (some earlier) s) ∧
    Diff.between (some later) (some earlier) =
      ⟨["c"], ["d"], [⟨"a", ["x"], ["w", "w"], false⟩, ⟨"b", [], [], true⟩]⟩ := by
  have hearlier : FromText (some earlier) := by
    rintro _ ⟨⟩
    exact ⟨"a -> x | y z\nb -> x | x\nc -> p", by decide +kernel⟩
  have hlater : FromText (some later) := by
    rintro _ ⟨⟩
    exact ⟨"d -> p\nb -> x\na->y  z|w\na -> w", by decide +kernel⟩
  have hdiff : Diff.between (some earlier) (some later) =
      ⟨["d"], ["c"], [⟨"a", ["w", "w"], ["x"], false⟩, ⟨"b", [], [], true⟩]⟩ := by
    have hcommon : (names (some later)).filter (names (some earlier)).contains =
        [ofString "b", ofString "a"] := by decide +kernel
    have hsorted : sorted [ofString "b", ofString "a"] = [ofString "a", ofString "b"] := by
      have hle : le (ofString "b") (ofString "a") = false := by decide
      simp [sorted, mergeSort, hle]
    simp only [Diff.between, hcommon, hsorted]
    decide +kernel
  obtain ⟨hadded, -, -, -, -, hexchange⟩ := between_exact _ _ hearlier hlater
  rw [hdiff] at hadded hexchange
  exact ⟨hearlier, hlater, by rw [hdiff], hadded, hexchange⟩

end JavaToCpp.Grammar
