/-
  The first rule that matches.
-/
import JavaToCpp.Proofs.Token.Alternatives
import JavaToCpp.Proofs.Token.Tiling

namespace JavaToCpp.Token

open Pattern List

variable {table : Table} {rules : List Rule}

/-! ## One rule after the other -/

/-- How many bytes the pattern of the rule takes by itself: those of the most preferred way through
    it, at the beginning of the text. -/
def Rule.match? (r : Rule) (t : Text) : Option Nat :=
  match parse r.pattern with
  | .ok p => (p.regex.program.attempt t ∅ 0 0).map Match.taken
  | .error _ => none

theorem Rule.match?_eq {r : Rule} {p : Parsed} (h : parse r.pattern = .ok p) (t : Text) :
    r.match? t = (p.regex.program.match? t).map Match.taken := by
  rw [Rule.match?, h, match?_eq_attempt]

/-- The first rule that matches at the beginning of the text, and the length of its match. -/
def firstMatch? (rules : List Rule) (t : Text) : Option (Rule × Nat) :=
  rules.findSome? fun r => (r.match? t).map fun n => (r, n)

/-- The next token and the scanner after it, with one rule tried after the other. -/
def Scanner.nextInOrder (rules : List Rule) (s : Scanner) : Found × Scanner :=
  s.nextWith (firstMatch? rules)

/-! ## What a table is made of -/

theorem check_eq_ok {r : Rule} (h : r.check = .ok ()) : ∃ q, parse (anchored r.pattern) = .ok q ∧
    q.names = [] ∧ q.regex.program.match? [] = none := by
  unfold Rule.check at h
  cases hq : parse (anchored r.pattern) with
  | error e =>
    rw [hq] at h
    cases h
  | ok q =>
    rw [hq] at h
    simp only at h
    refine ⟨q, rfl, ?_⟩
    cases hnames : q.names with
    | cons x names =>
      rw [hnames] at h
      cases h
    | nil =>
      rw [hnames] at h
      cases hm : q.regex.program.match? [] with
      | none => exact ⟨rfl, rfl⟩
      | some m =>
        rw [hm] at h
        cases h

theorem exists_reads (h : Table.compile rules = .ok table)
    (hown : ∀ r ∈ rules, ∃ p, parse r.pattern = .ok p) : ∀ r ∈ rules, ∃ p, r.Reads p := by
  obtain ⟨-, hcheck, -⟩ := exists_parsed h
  intro r hr
  obtain ⟨p, hp⟩ := hown r hr
  obtain ⟨q, hq, hnames, -⟩ := check_eq_ok (hcheck r hr)
  rw [anchored_eq] at hq
  exact ⟨p, hp, nests_of_parse hp hq hnames⟩

theorem groupName_injective : Function.Injective groupName := fun _ _ h =>
  Text.decimal_injective (append_cancel_left h)

theorem indexOf?_groupName {i : Nat} (hi : i < rules.length) : indexOf? rules (groupName i) = some i :=
  find?_range_eq_some.2 ⟨beq_self_eq_true _, mem_range.2 hi, fun j hj => by
    simpa using groupName_injective.ne hj.ne⟩

theorem ruleOf?_number {rows : List (Nat × Core)} {i : Nat} (hlength : rules.length = rows.length)
    (hsorted : (rows.map Prod.fst).Pairwise (· < ·)) (hrules : table.rules = rules)
    (hgroups : table.groups = (rows.zipIdx.map fun x => (x.1.1, groupName x.2)).filterMap fun x =>
      (indexOf? rules x.2).map fun i => (x.1, i))
    (hi : i < rows.length) : table.ruleOf? [rows[i].1] = rules[i]? := by
  have hgroups' : table.groups = rows.zipIdx.map fun x => (x.1.1, x.2) := by
    rw [hgroups, filterMap_map, ← filterMap_eq_map]
    refine filterMap_congr fun x hx => ?_
    have hlt : x.2 < rules.length := by
      rw [hlength]
      exact (List.getElem?_eq_some_iff.1 (List.mem_zipIdx_iff_getElem?.1 hx)).1
    simp only [Function.comp_apply, indexOf?_groupName hlt, Option.map_some]
  have hfind : table.groups.find? (fun x => [rows[i].1].contains x.1) = some (rows[i].1, i) := by
    rw [hgroups', find?_eq_some_iff_getElem]
    refine ⟨by simp, i, by simpa using hi, by simp, fun j hj => ?_⟩
    have hlt := pairwise_iff_getElem.1 hsorted j i (by simp; omega) (by simpa using hi) hj
    simp only [getElem_map] at hlt
    simpa using hlt.ne
  rw [Table.ruleOf?, hfind, hrules]

theorem findSome?_bind {α β γ δ : Type} {f : β → Option γ} {g : γ → Option δ} {k : α → Option δ}
    {xs : List α} {ys : List β} (h : Forall₂ (fun x y => f y = none ∧ k x = none ∨
      ∃ c d, f y = some c ∧ g c = some d ∧ k x = some d) xs ys) :
    (ys.findSome? f).bind g = xs.findSome? k := by
  induction h with
  | nil => rfl
  | @cons x y xs ys hxy _ ih =>
    rw [findSome?_cons, findSome?_cons]
    rcases hxy with ⟨hf, hk⟩ | ⟨c, d, hf, hg, hk⟩
    · rw [hf, hk]
      exact ih
    · rw [hf, hk]
      exact hg

/-- **The alternatives of a table match what the first of its rules matches that matches at all.** -/
theorem match?_eq_firstMatch? (h : Table.compile rules = .ok table)
    (hown : ∀ r ∈ rules, ∃ p, parse r.pattern = .ok p) (t : Text) :
    table.match? t = firstMatch? rules t := by
  obtain ⟨hne, -, q, hq, hrules, hprogram, hgroups⟩ := exists_parsed h
  obtain ⟨rows, hrows, hsorted, hprogram', hnames⟩ := exists_rows hne (exists_reads h hown) hq
  obtain ⟨hlength, hrow⟩ := forall₂_iff_get.1 hrows
  have hne' : rows ≠ [] := by
    rintro rfl
    exact hne (length_eq_zero_iff.1 hlength)
  have hmatch : table.match? t =
      (table.program.match? t).bind fun m => (table.ruleOf? m.entered).map fun r => (r, m.taken) := by
    simp only [Table.match?, Option.bind_eq_bind, Option.pure_def, Option.map_eq_bind,
      Function.comp_def]
  rw [hmatch, hprogram, hprogram', match?_alternatives rows hne', firstMatch?]
  refine findSome?_bind (forall₂_iff_get.2 ⟨hlength, fun i hi hi' => ?_⟩)
  obtain ⟨p, ⟨hp, hnests⟩, hcore⟩ := hrow i hi hi'
  rw [Rule.match?_eq hp, hcore]
  cases hm : p.regex.program.match? t with
  | none =>
    left
    exact ⟨Option.map_eq_none_iff.2 hm, rfl⟩
  | some m =>
    right
    have hentered : m.entered = [] := hnests.silent.entered_eq_nil hm
    have hrule : table.ruleOf? [rows[i].1] = some rules[i] := by
      rw [ruleOf?_number hlength hsorted hrules (hnames ▸ hgroups) hi', getElem?_eq_getElem hi]
    refine ⟨m.after [rows[i].1], (rules[i], m.taken), Option.map_eq_some_iff.2 ⟨m, hm, rfl⟩, ?_, rfl⟩
    rw [Match.after, hentered, nil_append]
    simp only [hrule, Option.map_some]

/-- **The alternatives of a table find the tokens that its rules find one after the other.**  Whatever
    groups their patterns have, the rule of a match is the first one whose pattern matches, the text is
    what its pattern matches by itself, and there is an error where no pattern matches. -/
theorem next_eq_nextInOrder (h : Table.compile rules = .ok table)
    (hown : ∀ r ∈ rules, ∃ p, parse r.pattern = .ok p) :
    (∀ t, table.match? t = firstMatch? rules t) ∧ ∀ s : Scanner, s.next table = s.nextInOrder rules := by
  have hmatch := match?_eq_firstMatch? h hown
  refine ⟨hmatch, fun s => ?_⟩
  rw [Scanner.next, Scanner.nextInOrder, funext hmatch]

def grouped : List Rule :=
  [⟨"short", "(a|ab)(c)?", false⟩, ⟨"long", "(a)(b)(c)", true⟩, ⟨"word", "(\\w)+", false⟩]

/-- The first rule matches a single byte there, as its first choice comes first. -/
theorem next_eq_nextInOrder_grouped : ∃ table, Table.compile grouped = .ok table ∧
    (∀ r ∈ grouped, ∃ p, parse r.pattern = .ok p) ∧
    firstMatch? grouped "abc" = some (⟨"short", "(a|ab)(c)?", false⟩, 1) ∧
    firstMatch? grouped "bc" = some (⟨"word", "(\\w)+", false⟩, 2) ∧
    firstMatch? grouped "#" = none ∧ ∀ s : Scanner, s.next table = s.nextInOrder grouped := by
  have hchecks : (Table.compile grouped).toOption.any fun table =>
      table.match? "abc" = some (⟨"short", "(a|ab)(c)?", false⟩, 1) ∧
      table.match? "bc" = some (⟨"word", "(\\w)+", false⟩, 2) ∧ table.match? "#" = none := by
    decide +kernel
  have hparses : ∀ r ∈ grouped, (parse r.pattern).toOption.any fun _ => true := by decide +kernel
  have hown : ∀ r ∈ grouped, ∃ p, parse r.pattern = .ok p := fun r hr => by
    obtain ⟨p, hp, -⟩ := exists_of_any (hparses r hr)
    exact ⟨p, hp⟩
  obtain ⟨table, htable, hchecks⟩ := exists_of_any hchecks
  obtain ⟨hshort, hword, hnone⟩ := of_decide_eq_true hchecks
  obtain ⟨hmatch, hnext⟩ := next_eq_nextInOrder htable hown
  exact ⟨table, htable, hown, hmatch _ ▸ hshort, hmatch _ ▸ hword, hmatch _ ▸ hnone, hnext⟩

end JavaToCpp.Token
