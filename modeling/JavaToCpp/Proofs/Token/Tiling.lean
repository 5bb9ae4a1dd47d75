/-
  Tokens tile the source.
-/
import JavaToCpp.Proofs.Outcome
import JavaToCpp.Proofs.Pattern.Search
import JavaToCpp.Token.Scan

namespace JavaToCpp.Token

open List Text

variable {table : Table} {before gap last rest t : Text}

/-! ## Matches of a table -/

variable {rules : List Rule} {found : Found} {s s' : Scanner}

theorem lt_of_indexOf? {name : Text} {i : Nat} (h : indexOf? rules name = some i) : i < rules.length :=
  mem_range.1 (mem_of_find?_eq_some h)

theorem exists_parsed (h : Table.compile rules = .ok table) : rules ≠ [] ∧
    (∀ r ∈ rules, r.check = .ok ()) ∧ ∃ q, Pattern.parse (anchored (alternatives rules)) = .ok q ∧
    table.rules = rules ∧ table.program = q.regex.program ∧
    table.groups = q.names.filterMap fun x => (indexOf? rules x.2).map fun i => (x.1, i) := by
  unfold Table.compile at h
  by_cases hempty : rules.isEmpty
  · simp only [hempty, if_true] at h
    cases h
  · simp only [hempty, Bool.false_eq_true, if_false] at h
    obtain ⟨⟨⟩, hcheck, h⟩ := bind_eq_ok.1 h
    refine ⟨mt List.isEmpty_iff.2 hempty, forM_eq_ok hcheck, ?_⟩
    split at h
    · cases h
    · rename_i q hq
      cases h
      exact ⟨q, hq, rfl, rfl, rfl⟩

theorem compile_eq_ok (h : Table.compile rules = .ok table) :
    table.rules = rules ∧ rules ≠ [] ∧ ∀ x ∈ table.groups, x.2 < rules.length := by
  obtain ⟨hne, -, q, -, hrules, -, hgroups⟩ := exists_parsed h
  refine ⟨hrules, hne, fun x hx => ?_⟩
  rw [hgroups] at hx
  obtain ⟨y, -, hy⟩ := mem_filterMap.1 hx
  obtain ⟨i, hi, rfl⟩ := Option.map_eq_some_iff.1 hy
  exact lt_of_indexOf? hi

theorem match?_eq_some_iff {rule : Rule} {n : Nat} : table.match? t = some (rule, n) ↔
    ∃ m, table.program.match? t = some m ∧ table.ruleOf? m.entered = some rule ∧ m.taken = n := by
  simp [Table.match?, Option.bind_eq_some_iff]

theorem mem_rules_of_match? {rule : Rule} {n : Nat} (h : table.match? t = some (rule, n)) :
    rule ∈ table.rules := by
  obtain ⟨m, -, hrule, -⟩ := match?_eq_some_iff.1 h
  rw [Table.ruleOf?] at hrule
  split at hrule
  · exact mem_of_getElem? hrule
  · exact mem_of_getLast? hrule

theorem Table.exists_append_of_match? {rule : Rule} {n : Nat} (h : table.match? t = some (rule, n)) :
    ∃ x rest, t = x ++ rest ∧ n = x.length := by
  obtain ⟨m, hm, -, rfl⟩ := match?_eq_some_iff.1 h
  exact ⟨t.take m.taken, t.drop m.taken, (take_append_drop _ _).symm,
    (length_take_of_le (Pattern.taken_le_of_match? hm)).symm⟩

/-- What stands between tokens: white space and what skipping rules match. -/
inductive Gap (table : Table) (rest : Text) : Text → Prop
  | nil : Gap table rest []
  | blank {rune : Nat} {gap : Text} : isBlank rune → Gap table rest gap →
      Gap table rest (encodeRune rune ++ gap)
  | skipped {rule : Rule} {x gap : Text} : rule.skip →
      table.match? (x ++ (gap ++ rest)) = some (rule, x.length) → Gap table rest gap →
      Gap table rest (x ++ gap)

theorem Gap.append {gap' : Text} (h : Gap table (gap' ++ rest) gap) (h' : Gap table rest gap') :
    Gap table rest (gap ++ gap') := by
  induction h with
  | nil => exact h'
  | blank hrune _ ih =>
    rw [append_assoc]
    exact .blank hrune ih
  | skipped hskip hm _ ih =>
    rw [append_assoc]
    refine .skipped hskip ?_ ih
    rwa [append_assoc]

theorem leadingBlank_le (t : Text) : leadingBlank t ≤ t.length := by
  fun_induction leadingBlank t with
  | case1 => exact Nat.le_refl _
  | case2 b rest rune more hdecode hblank ih =>
    have hmore := decodeHead_le b rest
    rw [hdecode] at hmore
    simp only [length_drop, length_cons] at ih hmore ⊢
    omega
  | case3 => exact Nat.zero_le _

theorem gap_leadingBlank (table : Table) (after t : Text) : Gap table after (t.take (leadingBlank t)) := by
  fun_induction leadingBlank t with
  | case1 => exact .nil
  | case2 b rest rune more hdecode hblank ih =>
    have hdecodable : undecodable b rest = false :=
      undecodable_of_isBlank (by rwa [hdecode])
    have hspelled := encodeRune_decodeHead hdecodable
    rw [hdecode] at hspelled
    rw [Nat.add_assoc, Nat.add_comm 1, take_succ_cons, take_add, ← cons_append,
      ← hspelled]
    exact .blank hblank ih
  | case3 => exact .nil

theorem leadingBlank_drop (t : Text) : leadingBlank (t.drop (leadingBlank t)) = 0 := by
  fun_induction leadingBlank t with
  | case1 => unfold leadingBlank; rfl
  | case2 b rest rune more hdecode hblank ih =>
    rw [Nat.add_assoc, Nat.add_comm 1, drop_succ_cons, ← drop_drop]
    exact ih
  | case3 b rest rune more hdecode hblank =>
    unfold leadingBlank
    simp [hdecode, hblank]

/-! ## One call -/

theorem newlines_append (x y : Text) : newlines (x ++ y) = newlines x + newlines y :=
  count_append

def Scanner.behind (before rest : Text) : Scanner :=
  { rest, offset := before.length, line := 1 + newlines before }

/-- The token that has `before` in front of it. -/
def tokenAt (before category text : Text) : Token :=
  ⟨category, text, (before.length + 1 : Nat), (1 + newlines before : Nat)⟩

@[simp] theorem tokenAt_text (before category text : Text) :
    (tokenAt before category text).text = text := rfl

@[simp] theorem tokenAt_pos (before category text : Text) :
    (tokenAt before category text).pos = before.length + 1 := rfl

@[simp] theorem tokenAt_line (before category text : Text) :
    (tokenAt before category text).line = 1 + newlines before := by simp [tokenAt]

/-- The error at a character that has `before` in front of it. -/
def errorAt (before : Text) (b : UInt8) (rest : Text) : Error :=
  ⟨(decodeHead b rest).1, before.length + 1, 1 + newlines before⟩

theorem Scanner.advance_behind (before x rest : Text) :
    (behind before (x ++ rest)).advance x.length = behind (before ++ x) rest := by
  simp [behind, advance, newlines_append, Nat.add_assoc]

theorem exists_skipBlank (table : Table) (before t : Text) : ∃ gap rest, t = gap ++ rest ∧
    Gap table rest gap ∧ leadingBlank rest = 0 ∧
    (Scanner.behind before t).skipBlank = .behind (before ++ gap) rest := by
  refine ⟨t.take (leadingBlank t), t.drop (leadingBlank t), (take_append_drop _ _).symm,
    gap_leadingBlank .., leadingBlank_drop t, ?_⟩
  have h := Scanner.advance_behind before (t.take (leadingBlank t)) (t.drop (leadingBlank t))
  rwa [take_append_drop, length_take_of_le (leadingBlank_le t)] at h

/-- What a scanner finds in the text behind `before`, and where it stands then. -/
inductive Finds (table : Table) (before : Text) : Text → Found → Scanner → Prop
  | done {gap : Text} : Gap table [] gap → Finds table before gap .done (.behind (before ++ gap) [])
  | error {gap rest : Text} {b : UInt8} : Gap table (b :: rest) gap → leadingBlank (b :: rest) = 0 →
      table.match? (b :: rest) = none →
      Finds table before (gap ++ b :: rest) (.error (errorAt (before ++ gap) b rest))
        (.behind (before ++ gap) (b :: rest))
  | token {gap x rest : Text} {rule : Rule} : Gap table (x ++ rest) gap → x ++ rest ≠ [] →
      ¬ rule.skip → table.match? (x ++ rest) = some (rule, x.length) →
      Finds table before (gap ++ (x ++ rest)) (.token (tokenAt (before ++ gap) rule.category x))
        (.behind (before ++ gap ++ x) rest)
  | endless {gap rest : Text} {rule : Rule} : Gap table rest gap → rest ≠ [] →
      table.match? rest = some (rule, 0) →
      Finds table before (gap ++ rest) .endless (.behind (before ++ gap) rest)

theorem Finds.append (hgap : Gap table t gap)
    (h : Finds table (before ++ gap) t found s) : Finds table before (gap ++ t) found s := by
  cases h with
  | done h =>
    rw [append_assoc]
    exact .done (.append (by rwa [append_nil]) h)
  | error h hblank hnone =>
    rw [append_assoc before, ← append_assoc gap]
    exact .error (hgap.append h) hblank hnone
  | token h hne hskip hm =>
    rw [append_assoc before, ← append_assoc gap]
    exact .token (hgap.append h) hne hskip hm
  | endless h hne hm =>
    rw [append_assoc before, ← append_assoc gap]
    exact .endless (hgap.append h) hne hm

/-- **What a scanner finds is what stands behind a gap.** -/
theorem finds_next (table : Table) (before t : Text) :
    Finds table before t ((Scanner.behind before t).next table).1
      ((Scanner.behind before t).next table).2 := by
  generalize hs : Scanner.behind before t = s
  rw [Scanner.next]
  fun_induction Scanner.nextWith table.match? s generalizing before t with
  | case1 s hrest =>
    subst hs
    obtain ⟨gap, rest, rfl, hgap, -, hskip⟩ := exists_skipBlank table before t
    rw [hskip] at hrest ⊢
    obtain rfl : rest = [] := hrest
    rw [append_nil]
    exact .done hgap
  | case2 s b rest hrest hm =>
    subst hs
    obtain ⟨gap, rest', rfl, hgap, hblank, hskip⟩ := exists_skipBlank table before t
    rw [hskip] at hrest ⊢
    obtain rfl : rest' = b :: rest := hrest
    exact .error hgap hblank hm
  | case3 s b rest hrest rule hskips hm =>
    subst hs
    obtain ⟨gap, rest', rfl, hgap, -, hskip⟩ := exists_skipBlank table before t
    rw [hskip] at hrest ⊢
    obtain rfl : rest' = b :: rest := hrest
    exact .endless hgap (cons_ne_nil _ _) hm
  | case4 s b rest hrest rule n hm hskips hn ih =>
    subst hs
    obtain ⟨gap, rest', rfl, hgap, -, hskip⟩ := exists_skipBlank table before t
    rw [hskip] at hrest ih ⊢
    obtain rfl : rest' = b :: rest := hrest
    obtain ⟨x, r, hx, rfl⟩ := Table.exists_append_of_match? hm
    rw [hx] at hm hgap ih ⊢
    rw [Scanner.advance_behind] at ih ⊢
    have hskipped : Gap table r (x ++ []) := .skipped hskips hm .nil
    rw [append_nil] at hskipped
    have hgap' : Gap table r (gap ++ x) := hgap.append hskipped
    rw [← append_assoc]
    refine .append hgap' ?_
    rw [← append_assoc]
    exact ih _ _ rfl
  | case5 s b rest hrest rule n hm hskips =>
    subst hs
    obtain ⟨gap, rest', rfl, hgap, -, hskip⟩ := exists_skipBlank table before t
    rw [hskip] at hrest ⊢
    obtain rfl : rest' = b :: rest := hrest
    obtain ⟨x, r, hx, rfl⟩ := Table.exists_append_of_match? hm
    rw [hx] at hm hgap ⊢
    rw [Scanner.advance_behind, take_left]
    exact .token hgap (hx ▸ cons_ne_nil _ _) hskips hm

theorem finds_of_next {before : Text} {found : Found} {s' : Scanner}
    (h : (Scanner.behind before t).next table = (found, s')) : Finds table before t found s' := by
  simpa only [h] using finds_next table before t

/-! ## Call after call -/

/-- The answer to the call of `Scanner.next` that comes after `i` others. -/
def Scanner.answer (table : Table) (s : Scanner) : Nat → Found
  | 0 => (s.next table).1
  | i + 1 => (s.next table).2.answer table i

/-- The calls give the tokens, and then the same answer forever. -/
def Scanner.Answers (table : Table) (s : Scanner) (ts : List Token) (found : Found) : Prop :=
  ∀ i, s.answer table i = (ts[i]?).elim found .token

theorem Scanner.Answers.cons {k : Token} {ts : List Token}
    (hnext : s.next table = (.token k, s')) (h : s'.Answers table ts found) :
    s.Answers table (k :: ts) found
  | 0 => by rw [answer, hnext]; rfl
  | i + 1 => by rw [answer, hnext]; exact h i

theorem Scanner.Answers.of_stays (hnext : s.next table = (found, s'))
    (h : s'.next table = (found, s')) : s.Answers table [] found := by
  have hstays : ∀ i, s'.answer table i = found := by
    intro i
    induction i with
    | zero => rw [answer, h]
    | succ i ih => rw [answer, h, ih]
  intro i
  cases i with
  | zero => rw [answer, hnext]; rfl
  | succ i => rw [answer, hnext]; exact hstays i

theorem Scanner.skipBlank_of_leadingBlank (h : leadingBlank rest = 0) :
    (behind before rest).skipBlank = behind before rest := by
  rw [skipBlank, show leadingBlank (behind before rest).rest = 0 from h]
  simp [behind, advance, newlines]

theorem Scanner.next_nil (table : Table) (before : Text) :
    (behind before []).next table = (.done, behind before []) := by
  have hskip : (behind before []).skipBlank = behind before [] :=
    skipBlank_of_leadingBlank (by unfold leadingBlank; rfl)
  unfold next nextWith
  split
  · rw [hskip]
  · rename_i hrest
    rw [hskip] at hrest
    cases hrest

theorem Scanner.next_of_none {b : UInt8} (hblank : leadingBlank (b :: rest) = 0)
    (hm : table.match? (b :: rest) = none) : (behind before (b :: rest)).next table =
      (.error (errorAt before b rest), behind before (b :: rest)) := by
  have hskip : (behind before (b :: rest)).skipBlank = behind before (b :: rest) :=
    skipBlank_of_leadingBlank hblank
  unfold next nextWith
  split
  · rename_i hrest
    rw [hskip] at hrest
    cases hrest
  · rename_i hrest
    rw [hskip] at hrest
    cases hrest
    rw [hm, hskip]
    rfl

/-- Gaps and tokens in turn, and a last gap. -/
def weave : List (Text × Token) → Text → Text
  | [], last => last
  | (gap, k) :: pieces, last => gap ++ (k.text ++ weave pieces last)

/-- Gaps and tokens in turn and a last gap, with `before` in front of them and `rest` behind. -/
inductive Tiled (table : Table) (last rest : Text) : (before : Text) → List (Text × Token) → Prop
  | last {before : Text} : Gap table rest last → Tiled table last rest before []
  | token {before gap : Text} {k : Token} {rule : Rule} {pieces : List (Text × Token)} :
      Gap table (k.text ++ (weave pieces last ++ rest)) gap →
      table.match? (k.text ++ (weave pieces last ++ rest)) = some (rule, k.text.length) →
      ¬ rule.skip → k.category = rule.category →
      k.pos = 1 + (before ++ gap).length → k.line = 1 + newlines (before ++ gap) →
      Tiled table last rest (before ++ gap ++ k.text) pieces →
      Tiled table last rest before ((gap, k) :: pieces)

theorem tiled_of_all_eq_ok (before : Text) {found ts : List Token}
    (h : Scanner.all table (.behind before t) found = some (.ok ts)) :
    ∃ pieces last, ts = found.reverse ++ pieces.map Prod.snd ∧ t = weave pieces last ∧
      Tiled table last [] before pieces ∧
      (Scanner.behind before t).Answers table (pieces.map Prod.snd) .done := by
  generalize hs : Scanner.behind before t = s at h
  fun_induction Scanner.all table s found generalizing before t with
  | case1 | case4 | case5 => cases h
  | case2 s found k s' hnext _ ih =>
    subst hs
    cases finds_of_next hnext with
    | @token gap x _ rule hgap _ hskip hm =>
      obtain ⟨pieces, last, rfl, rfl, htiled, hanswers⟩ := ih _ rfl h
      rw [← append_nil (weave pieces last)] at hgap hm
      refine ⟨(gap, tokenAt (before ++ gap) rule.category x) :: pieces, last, ?_, rfl,
        .token hgap hm hskip rfl (by simp [Int.add_comm]) (by simp) htiled, .cons hnext hanswers⟩
      rw [reverse_cons, append_assoc]
      rfl
  | case3 s found s' hnext =>
    subst hs
    cases h
    cases finds_of_next hnext with
    | done hgap =>
      exact ⟨[], t, by simp, rfl, .last hgap, .of_stays hnext (Scanner.next_nil ..)⟩

theorem tiled_of_all_eq_error (before : Text) {found : List Token} {e : Error}
    (h : Scanner.all table (.behind before t) found = some (.error e)) :
    ∃ pieces last b rest, t = weave pieces last ++ b :: rest ∧
      Tiled table last (b :: rest) before pieces ∧ e = errorAt (before ++ weave pieces last) b rest ∧
      table.match? (b :: rest) = none ∧
      (Scanner.behind before t).Answers table (pieces.map Prod.snd) (.error e) := by
  generalize hs : Scanner.behind before t = s at h
  fun_induction Scanner.all table s found generalizing before t with
  | case1 | case3 | case5 => cases h
  | case2 s found k s' hnext _ ih =>
    subst hs
    cases finds_of_next hnext with
    | @token gap x _ rule hgap _ hskip hm =>
      obtain ⟨pieces, last, b, rest, rfl, htiled, rfl, hnone, hanswers⟩ := ih _ rfl h
      refine ⟨(gap, tokenAt (before ++ gap) rule.category x) :: pieces, last, b, rest,
        by simp [weave], .token hgap hm hskip rfl (by simp [Int.add_comm]) (by simp) htiled, ?_, hnone,
        .cons hnext hanswers⟩
      simp [weave, tokenAt_text]
  | case4 s found e' s' hnext =>
    subst hs
    cases h
    cases finds_of_next hnext with
    | error hgap hblank hnone =>
      exact ⟨[], _, _, _, rfl, .last hgap, rfl, hnone,
        .of_stays hnext (Scanner.next_of_none hblank hnone)⟩

theorem next_ne_endless (h : ∀ t r n, table.match? t = some (r, n) → 0 < n) (s : Scanner) :
    (s.next table).1 ≠ .endless := by
  rw [Scanner.next]
  fun_induction Scanner.nextWith table.match? s with
  | case1 | case2 | case5 => rintro ⟨⟩
  | case3 s b rest _ rule n hm => exact absurd (h _ _ _ hm) (by omega)
  | case4 s b rest _ rule n hm _ _ ih => exact ih

theorem text_ne_nil_of_next (h : ∀ t r n, table.match? t = some (r, n) → 0 < n)
    {k : Token} (hnext : s.next table = (.token k, s')) : k.text ≠ [] := by
  rw [Scanner.next] at hnext
  fun_induction Scanner.nextWith table.match? s with
  | case1 | case2 | case3 => cases hnext
  | case4 s b rest _ rule n hm _ _ ih => exact ih hnext
  | case5 s b rest _ rule n hm _ =>
    cases hnext
    have hn := h _ _ _ hm
    intro hnil
    rcases take_eq_nil_iff.1 hnil with rfl | hnil
    · exact absurd hn (Nat.lt_irrefl 0)
    · cases hnil

theorem all_ne_none (h : ∀ t r n, table.match? t = some (r, n) → 0 < n) (s : Scanner)
    (found : List Token) : Scanner.all table s found ≠ none := by
  fun_induction Scanner.all table s found with
  | case1 s found k s' hnext hempty =>
    exact absurd (List.isEmpty_iff.1 hempty) (text_ne_nil_of_next h hnext)
  | case2 s found k s' hnext hempty ih => exact ih
  | case3 | case4 => exact Option.some_ne_none _
  | case5 s found s' hnext => exact absurd (congrArg Prod.fst hnext) (next_ne_endless h s)

/-! ## Tables -/

end JavaToCpp.Token
