/-
  The language of rule texts.
-/
import JavaToCpp.Proofs.Grammar.Alike

namespace JavaToCpp.Grammar

open List Text

variable {n : Nat} {line left right : Text} {name : Symbol} {rights : List (List Symbol)}

/-! ## Lines -/

/-- Whether the line is neither blank nor a comment. -/
def holdsRules (line : Text) : Bool :=
  !(strip line).isEmpty && (strip line).head? != some (byte '#')

/-- What stands in the line before and behind its first arrow. -/
structure Cut (line left right : Text) : Prop where
  eq : strip line = left ++ ("->" ++ right)
  first : ∀ l r : Text, strip line = l ++ ("->" ++ r) → left.length ≤ l.length

theorem cut_iff : Cut line left right ↔ cut? "->" (strip line) = some (left, right) :=
  ⟨fun h => cut?_eq_some.2 ⟨h.eq, h.first⟩, fun h =>
    ⟨(cut?_eq_some.1 h).1, (cut?_eq_some.1 h).2⟩⟩

/-- The line gives right-hand sides to a name: the name stands by itself before the first arrow, and
    behind it the right-hand sides stand between bars. -/
def IsRule (line : Text) (name : Symbol) (rights : List (List Symbol)) : Prop :=
  ∃ left right, Cut line left right ∧ fields left = [name] ∧
    (right.splitOn (byte '|')).map fields = rights ∧ ∀ rhs ∈ rights, rhs ≠ []

/-- What keeps the line with the number `n` from giving right-hand sides to a name. -/
inductive Fault (n : Nat) (line : Text) : LoadError → Prop
  | noArrow : (∀ l r : Text, strip line ≠ l ++ ("->" ++ r)) → Fault n line (.noArrow n)
  | badLeft {left right : Text} : Cut line left right → (fields left).length ≠ 1 →
      Fault n line (.badLeft n (strip left))
  | emptyAlternative {left right : Text} {name : Symbol} {part : Text} : Cut line left right →
      fields left = [name] → part ∈ right.splitOn (byte '|') → fields part = [] →
      Fault n line (.emptyAlternative n name)

theorem Fault.line? {e : LoadError} (h : Fault n line e) : e.line? = some n := by
  cases h <;> rfl

theorem IsRule.rights_ne_nil (h : IsRule line name rights) : rights ≠ [] := by
  obtain ⟨left, right, -, -, rfl, -⟩ := h
  simp

theorem mapM_of_empty : ∀ {parts : List Text}, (∃ part ∈ parts, fields part = []) →
    (parts.mapM fun part => match fields part with
      | [] => (throw (LoadError.emptyAlternative n name) : Except LoadError (Symbol × List Symbol))
      | symbols => return (name, symbols)) = .error (.emptyAlternative n name)
  | [], h => by simp at h
  | part :: parts, h => by
    rw [mapM_cons]
    cases hpart : fields part with
    | nil => rfl
    | cons x xs =>
      have hrest : ∃ part ∈ parts, fields part = [] := by simpa [hpart] using h
      rw [mapM_of_empty hrest]
      rfl

theorem parseLine_of_not_holdsRules (h : holdsRules line = false) : parseLine n line = .ok [] := by
  have hskip : ((strip line).isEmpty || (strip line).head? == some 35) = true := by
    have hbyte : byte '#' = 35 := by decide
    simpa [holdsRules, hbyte, Bool.and_eq_false_iff, or_iff_not_imp_left] using h
  unfold parseLine
  simp only [hskip, if_true]
  rfl

theorem parseLine_of_holdsRules (h : holdsRules line) : parseLine n line = match cut? "->" (strip line) with
    | none => .error (.noArrow n)
    | some (left, right) =>
      match fields left with
      | [name] => (right.splitOn (byte '|')).mapM fun part => match fields part with
        | [] => throw (.emptyAlternative n name)
        | symbols => return (name, symbols)
      | _ => .error (.badLeft n (strip left)) := by
  have hhold : ((strip line).isEmpty || (strip line).head? == some 35) = false := by
    have hbyte : byte '#' = 35 := by decide
    simpa [holdsRules, hbyte] using h
  unfold parseLine
  simp only [hhold, Bool.false_eq_true, if_false]
  rfl

theorem holdsRules_ruleLine (hname : IsName name) (hne : rights ≠ [])
    (h : ∀ rhs ∈ rights, IsRight rhs) : holdsRules (ruleLine name rights) := by
  obtain ⟨b, s, hb⟩ := exists_cons_of_ne_nil hname.word.1
  have hcomment := hname.comment
  rw [hb] at hcomment
  have hbyte : byte '#' = 35 := by decide
  rw [holdsRules, strip_ruleLine hname.word hne h, ruleLine, hb, hbyte]
  simpa using hcomment

theorem parseLine_of_isRule (hholds : holdsRules line) (h : IsRule line name rights) :
    parseLine n line = .ok (rights.map fun rhs => (name, rhs)) := by
  obtain ⟨left, right, hcut, hleft, hrights, hne⟩ := h
  rw [parseLine_of_holdsRules hholds, cut_iff.1 hcut]
  simp only [hleft]
  exact mapM_parts hrights hne

theorem isRule_or_fault (n : Nat) (line : Text) :
    (∃ name rights, IsRule line name rights) ∨ ∃ e, Fault n line e := by
  cases hcut : cut? "->" (strip line) with
  | none =>
    refine .inr ⟨_, .noArrow fun l r hline => ?_⟩
    exact cut?_eq_none hcut l r hline
  | some p =>
    obtain ⟨left, right⟩ := p
    have hcut := cut_iff.2 hcut
    by_cases hlength : (fields left).length = 1
    · obtain ⟨name, hname⟩ := length_eq_one_iff.1 hlength
      by_cases hempty : ∃ part ∈ right.splitOn (byte '|'), fields part = []
      · obtain ⟨part, hpart, hempty⟩ := hempty
        exact .inr ⟨_, .emptyAlternative hcut hname hpart hempty⟩
      · refine .inl ⟨name, _, left, right, hcut, hname, rfl, forall_mem_map.2 ?_⟩
        exact fun part hpart h => hempty ⟨part, hpart, h⟩
    · exact .inr ⟨_, .badLeft hcut hlength⟩

theorem parseLine_of_fault {e : LoadError} (hholds : holdsRules line) (h : Fault n line e) :
    parseLine n line = .error e := by
  rw [parseLine_of_holdsRules hholds]
  cases h with
  | noArrow hnone =>
    cases hcut : cut? "->" (strip line) with
    | none => rfl
    | some p => exact absurd (cut_iff.2 hcut).eq (hnone _ _)
  | badLeft hcut hlength =>
    rw [cut_iff.1 hcut]
    simp only
    split
    · rename_i hleft
      rw [hleft] at hlength
      exact absurd rfl hlength
    · rfl
  | emptyAlternative hcut hleft hpart hempty =>
    rw [cut_iff.1 hcut]
    simp only [hleft]
    exact mapM_of_empty ⟨_, hpart, hempty⟩

/-- The line gives right-hand sides to a name if it holds rules. -/
def Legible (line : Text) : Prop := holdsRules line → ∃ name rights, IsRule line name rights

theorem exists_fault (n : Nat) (h : ¬Legible line) : holdsRules line ∧ ∃ e, Fault n line e := by
  rw [Legible, Classical.not_imp] at h
  exact ⟨h.1, (isRule_or_fault n line).resolve_left h.2⟩

theorem Legible.parseLine (h : Legible line) (n : Nat) : ∃ found, parseLine n line = .ok found := by
  by_cases hholds : holdsRules line
  · obtain ⟨name, rights, hrule⟩ := h hholds
    exact ⟨_, parseLine_of_isRule hholds hrule⟩
  · exact ⟨_, parseLine_of_not_holdsRules (by simpa using hholds)⟩

/-! ## Lines one after the other -/

/-- The lines that hold rules give what is found. -/
def Reads (ls : List Text) (found : List (Symbol × List (List Symbol))) : Prop :=
  Forall₂ (fun line p => IsRule line p.1 p.2) (ls.filter holdsRules) found

def oneByOne (found : List (Symbol × List (List Symbol))) : List (Symbol × List Symbol) :=
  found.flatMap fun p => p.2.map fun rhs => (p.1, rhs)

theorem parseLines_cons (n : Nat) (line : Text) (ls : List Text) :
    parseLines n (line :: ls) = if maxLine < line.length then .error .lineTooLong else do
      let found ← parseLine n line
      return found ++ (← parseLines (n + 1) ls) := by
  rw [parseLines]
  split <;> rfl

theorem parseLines_of_reads : ∀ {ls : List Text} {found : List (Symbol × List (List Symbol))}
    (n : Nat), (∀ line ∈ ls, line.length ≤ maxLine) → Reads ls found →
    parseLines n ls = .ok (oneByOne found)
  | [], found, n, _, h => by
    cases h
    rfl
  | line :: ls, found, n, hlength, h => by
    obtain ⟨hline, hls⟩ := forall_mem_cons.1 hlength
    rw [parseLines_cons, if_neg (Nat.not_lt.2 hline)]
    by_cases hholds : holdsRules line
    · rw [Reads, filter_cons_of_pos hholds] at h
      cases h with
      | cons hrule hrest =>
        rw [parseLine_of_isRule hholds hrule, parseLines_of_reads (n + 1) hls hrest]
        rfl
    · rw [Reads, filter_cons_of_neg hholds] at h
      rw [parseLine_of_not_holdsRules (by simpa using hholds), parseLines_of_reads (n + 1) hls h]
      rfl

theorem parseLines_of_fault : ∀ {before : List Text} {n : Nat} {line : Text} {e : LoadError}
    (behind : List Text), (∀ l ∈ before ++ [line], l.length ≤ maxLine) →
    (∀ l ∈ before, Legible l) → holdsRules line → Fault (n + before.length) line e →
    parseLines n (before ++ line :: behind) = .error e
  | [], n, line, e, behind, hlength, _, hholds, hfault => by
    have hline : line.length ≤ maxLine := hlength line (by simp)
    rw [length_nil, Nat.add_zero] at hfault
    rw [nil_append, parseLines_cons, if_neg (Nat.not_lt.2 hline),
      parseLine_of_fault hholds hfault]
    rfl
  | l :: before, n, line, e, behind, hlength, hbefore, hholds, hfault => by
    obtain ⟨hl, hlength⟩ := forall_mem_cons.1 hlength
    obtain ⟨hlegible, hbefore⟩ := forall_mem_cons.1 hbefore
    have hplace : n + (l :: before).length = n + 1 + before.length := by
      rw [length_cons]
      omega
    rw [hplace] at hfault
    obtain ⟨found, hfound⟩ := hlegible.parseLine n
    rw [cons_append, parseLines_cons, if_neg (Nat.not_lt.2 hl), hfound,
      parseLines_of_fault behind hlength hbefore hholds hfault]
    rfl

theorem reads_of_parseLines : ∀ {ls : List Text} {n : Nat} {as : List (Symbol × List Symbol)},
    parseLines n ls = .ok as → ∃ found, Reads ls found ∧ as = oneByOne found
  | [], n, as, h => by
    cases h
    exact ⟨[], .nil, rfl⟩
  | line :: ls, n, as, h => by
    rw [parseLines_cons] at h
    split at h
    · cases h
    · obtain ⟨here, hhere, h⟩ := bind_eq_ok.1 h
      obtain ⟨later, hlater, h⟩ := bind_eq_ok.1 h
      obtain ⟨found, hfound, rfl⟩ := reads_of_parseLines hlater
      cases h
      by_cases hholds : holdsRules line
      · rcases isRule_or_fault n line with ⟨name, rights, hrule⟩ | ⟨e, hfault⟩
        · rw [parseLine_of_isRule hholds hrule] at hhere
          cases hhere
          refine ⟨(name, rights) :: found, ?_, rfl⟩
          rw [Reads, filter_cons_of_pos hholds]
          exact .cons hrule hfound
        · rw [parseLine_of_fault hholds hfault] at hhere
          cases hhere
      · rw [parseLine_of_not_holdsRules (by simpa using hholds)] at hhere
        cases hhere
        refine ⟨found, ?_, rfl⟩
        rwa [Reads, filter_cons_of_neg hholds]

variable {ls : List Text} {found : List (Symbol × List (List Symbol))}

theorem parseLines_eq_ok_iff {as : List (Symbol × List Symbol)} : parseLines n ls = .ok as ↔
      (∀ line ∈ ls, line.length ≤ maxLine) ∧ ∃ found, Reads ls found ∧ as = oneByOne found := by
  constructor
  · intro h
    exact ⟨length_le_of_parseLines h, reads_of_parseLines h⟩
  · rintro ⟨hlength, found, hfound, rfl⟩
    exact parseLines_of_reads n hlength hfound

theorem parseLines_of_long : ∀ {ls : List Text} {n : Nat}, (∀ l ∈ ls, Legible l) →
    (∃ l ∈ ls, maxLine < l.length) → parseLines n ls = .error .lineTooLong
  | [], _, _, h => by simp at h
  | line :: ls, n, hlegible, hlong => by
    obtain ⟨hline, hls⟩ := forall_mem_cons.1 hlegible
    rw [parseLines_cons]
    by_cases hlength : maxLine < line.length
    · rw [if_pos hlength]
    · have hrest : ∃ l ∈ ls, maxLine < l.length := by simpa [hlength] using hlong
      obtain ⟨found, hfound⟩ := hline.parseLine n
      rw [if_neg hlength, hfound, parseLines_of_long hls hrest]
      rfl

theorem Reads.legible (h : Reads ls found) : ∀ line ∈ ls, Legible line := by
  intro line hline hholds
  have hmem : line ∈ ls.filter holdsRules := mem_filter.2 ⟨hline, hholds⟩
  rw [Reads] at h
  generalize ls.filter holdsRules = rules at h hmem
  induction h with
  | nil => cases hmem
  | cons hrule _ ih =>
    rcases mem_cons.1 hmem with rfl | hmem
    · exact ⟨_, _, hrule⟩
    · exact ih hmem

theorem exists_reads : ∀ {ls : List Text}, (∀ line ∈ ls, Legible line) → ∃ found, Reads ls found
  | [], _ => ⟨[], .nil⟩
  | line :: ls, h => by
    obtain ⟨hline, hls⟩ := forall_mem_cons.1 h
    obtain ⟨found, hfound⟩ := exists_reads hls
    by_cases hholds : holdsRules line
    · obtain ⟨name, rights, hrule⟩ := hline hholds
      refine ⟨(name, rights) :: found, ?_⟩
      rw [Reads, filter_cons_of_pos hholds]
      exact .cons hrule hfound
    · refine ⟨found, ?_⟩
      rwa [Reads, filter_cons_of_neg hholds]

theorem Reads.exists_line (h : Reads ls found) {p : Symbol × List (List Symbol)} (hp : p ∈ found) :
    ∃ line ∈ ls, IsRule line p.1 p.2 := by
  suffices hrules : ∃ line ∈ ls.filter holdsRules, IsRule line p.1 p.2 by
    obtain ⟨line, hline, hrule⟩ := hrules
    exact ⟨line, (mem_filter.1 hline).1, hrule⟩
  rw [Reads] at h
  generalize ls.filter holdsRules = rules at h
  induction h with
  | nil => cases hp
  | cons hrule _ ih =>
    rcases mem_cons.1 hp with rfl | hp
    · exact ⟨_, mem_cons_self, hrule⟩
    · obtain ⟨line, hline, hrule⟩ := ih hp
      exact ⟨line, mem_cons_of_mem _ hline, hrule⟩

theorem Reads.rights_ne_nil (h : Reads ls found) : ∀ p ∈ found, p.2 ≠ [] := by
  intro p hp
  obtain ⟨line, -, hrule⟩ := h.exists_line hp
  exact hrule.rights_ne_nil

theorem Reads.ne_nil_iff (h : Reads ls found) : found ≠ [] ↔ ∃ line ∈ ls, holdsRules line := by
  have hlength := h.length_eq
  rw [← length_pos_iff, ← hlength, length_pos_iff]
  simp [filter_eq_nil_iff]

/-! ## What is found -/

section

variable {found : List (Symbol × List (List Symbol))}

theorem oneByOne_cons (p : Symbol × List (List Symbol)) : oneByOne (p :: found) =
    (p.2.map fun rhs => (p.1, rhs)) ++ oneByOne found := flatMap_cons

theorem oneByOne_ne_nil (h : ∀ p ∈ found, p.2 ≠ []) : oneByOne found ≠ [] ↔ found ≠ [] := by
  cases found with
  | nil => simp [oneByOne]
  | cons p found =>
    have hp : p.2 ≠ [] := h p (by simp)
    simp [oneByOne_cons, hp]

theorem filter_oneByOne (s : Symbol) : ((oneByOne found).filter fun a => a.1 == s).map Prod.snd =
    (found.filter fun p => p.1 == s).flatMap Prod.snd := by
  induction found with
  | nil => rfl
  | cons p found ih =>
    rw [oneByOne_cons, filter_append, map_append, ih, filter_map]
    by_cases hp : p.1 = s
    · simp [Function.comp_def, hp]
    · simp [Function.comp_def, hp]

theorem filter_names_oneByOne (s : Symbol) : ((oneByOne found).map Prod.fst).filter (fun t => !t == s) =
      (oneByOne (found.filter fun p => !p.1 == s)).map Prod.fst := by
  induction found with
  | nil => rfl
  | cons p found ih =>
    rw [oneByOne_cons, map_append, filter_append, ih, map_map, filter_map]
    by_cases hp : p.1 = s
    · simp [Function.comp_def, hp]
    · simp [Function.comp_def, hp, oneByOne_cons]

theorem eraseDups_oneByOne : ∀ {found : List (Symbol × List (List Symbol))}, (∀ p ∈ found, p.2 ≠ []) →
    ((oneByOne found).map Prod.fst).eraseDups = (found.map Prod.fst).eraseDups
  | [], _ => rfl
  | p :: found, h => by
    obtain ⟨hp, hfound⟩ := forall_mem_cons.1 h
    obtain ⟨rhs, rights, hrights⟩ := exists_cons_of_ne_nil hp
    have hnames : (oneByOne (p :: found)).map Prod.fst =
        p.1 :: ((rights.map fun _ => p.1) ++ (oneByOne found).map Prod.fst) := by
      rw [oneByOne_cons, hrights]
      simp
    have hsame : (rights.map fun _ => p.1).filter (fun t => !t == p.1) = [] := by simp
    have hlater : ∀ q ∈ found.filter (fun q => !q.1 == p.1), q.2 ≠ [] := fun q hq =>
      hfound q (mem_filter.1 hq).1
    rw [hnames, eraseDups_cons, filter_append, hsame, nil_append,
      filter_names_oneByOne, eraseDups_oneByOne hlater, map_cons, eraseDups_cons,
      filter_map]
    rfl
termination_by found => found.length
decreasing_by exact Nat.lt_succ_of_le (length_filter_le _ _)

end

/-! ## Texts -/

variable {text : Text}

theorem load_eq_ok_iff {g : Grammar} : load text = .ok g ↔ (∀ line ∈ lines text, line.length ≤ maxLine) ∧
      ∃ found, Reads (lines text) found ∧ found ≠ [] ∧ g = ofAlternatives (oneByOne found) := by
  rw [load, bind_eq_ok]
  constructor
  · rintro ⟨as, has, h⟩
    obtain ⟨hlength, found, hfound, rfl⟩ := parseLines_eq_ok_iff.1 has
    split at h
    · cases h
    · rename_i hempty
      cases h
      rw [List.isEmpty_iff, ← Ne, oneByOne_ne_nil hfound.rights_ne_nil] at hempty
      exact ⟨hlength, found, hfound, hempty, rfl⟩
  · rintro ⟨hlength, found, hfound, hne, rfl⟩
    refine ⟨oneByOne found, parseLines_eq_ok_iff.2 ⟨hlength, found, hfound, rfl⟩, ?_⟩
    have hempty : (oneByOne found).isEmpty = false := by
      rw [isEmpty_eq_false_iff, oneByOne_ne_nil hfound.rights_ne_nil]
      exact hne
    rw [hempty]
    rfl

theorem load_of_parseLines_error {e : LoadError}
    (h : parseLines 1 (lines text) = .error e) : load text = .error e := by
  rw [load, h]
  rfl

/-! ## Carriage returns -/

/-- The lines of a text, without a carriage return at their ends. -/
def scanned (text : Text) : List Text := (lines text).map (stripSuffix [13])

theorem stripSuffix_eq_or (t : Text) : stripSuffix [13] t = t ∨
    t = stripSuffix [13] t ++ [13] := by
  rw [stripSuffix]
  split
  · rename_i rest hrest
    right
    have ht := stripPrefix?_eq_some.1 hrest
    rw [← reverse_inj, ht]
    simp
  · exact .inl rfl

theorem strip_append_return (t : Text) : strip (t ++ [13]) = strip t := by
  have hglyphs : glyphs (t ++ [13]) = glyphs t ++ [⟨13, [13]⟩] := by
    rw [glyphs_append (separates_ascii (by decide) []), glyphs_ascii (by decide),
      glyphs_nil]
    rfl
  have hblank : Glyph.isBlank ⟨13, [13]⟩ = true := by decide
  rw [strip, strip, hglyphs, dropWhile_append]
  split
  · rename_i hempty
    rw [List.isEmpty_iff.1 hempty, dropWhile_cons_of_pos hblank]
    rfl
  · rw [reverse_append, reverse_singleton, singleton_append,
      dropWhile_cons_of_pos hblank]

theorem strip_stripSuffix (t : Text) : strip (stripSuffix [13] t) = strip t := by
  rcases stripSuffix_eq_or t with h | h
  · rw [h]
  · conv_rhs => rw [h, strip_append_return]

theorem holdsRules_stripSuffix (line : Text) :
    holdsRules (stripSuffix [13] line) = holdsRules line := by
  rw [holdsRules, strip_stripSuffix, holdsRules]

theorem cut_stripSuffix : Cut (stripSuffix [13] line) left right ↔ Cut line left right := by
  rw [cut_iff, strip_stripSuffix, cut_iff]

theorem isRule_stripSuffix : IsRule (stripSuffix [13] line) name rights ↔ IsRule line name rights := by
  simp only [IsRule, cut_stripSuffix]

theorem legible_stripSuffix : Legible (stripSuffix [13] line) ↔ Legible line := by
  simp only [Legible, holdsRules_stripSuffix, isRule_stripSuffix]

theorem Fault.of_stripSuffix {e : LoadError} (h : Fault n line e) :
    Fault n (stripSuffix [13] line) e := by
  cases h with
  | noArrow hnone => exact .noArrow (by rwa [strip_stripSuffix])
  | badLeft hcut hlength => exact .badLeft (cut_stripSuffix.2 hcut) hlength
  | emptyAlternative hcut hleft hpart hempty =>
    exact .emptyAlternative (cut_stripSuffix.2 hcut) hleft hpart hempty

theorem reads_scanned {found : List (Symbol × List (List Symbol))} :
    Reads (scanned text) found ↔ Reads (lines text) found := by
  rw [Reads, scanned, filter_map, forall₂_map_left_iff]
  simp only [Function.comp_def, holdsRules_stripSuffix, isRule_stripSuffix]
  rfl

/-! ## The language -/

theorem load_of_not_legible {before behind : List Text} {line : Text}
    (hlines : lines text = before ++ line :: behind)
    (hlength : ∀ l ∈ before ++ [line], l.length ≤ maxLine) (hbefore : ∀ l ∈ before, Legible l)
    (hline : ¬Legible line) : ∃ e, load text = .error e ∧ Fault (before.length + 1) line e := by
  obtain ⟨hholds, e, hfault⟩ := exists_fault (before.length + 1) hline
  refine ⟨e, load_of_parseLines_error ?_, hfault⟩
  rw [Nat.add_comm] at hfault
  rw [hlines]
  exact parseLines_of_fault behind hlength hbefore hholds hfault

/-- **What rule texts are.**  A text can be read exactly if no line of it is too long, counted with the
    carriage return at its end; if each line that is neither blank nor a comment has an arrow, one word
    before its first arrow and a word in every part between the bars behind it; and if there is such a
    line.  What is read has for each name the right-hand sides of all its lines in the order of the
    text, and the names in the order in which they are first seen.  If a line is not as it must be, no
    line before it is so and no line up to it is too long, the error tells its number. -/
theorem load_language (text : Text) :
    ((∃ g, load text = .ok g) ↔ (∀ line ∈ lines text, line.length ≤ maxLine) ∧
      (∀ line ∈ scanned text, Legible line) ∧ ∃ line ∈ scanned text, holdsRules line) ∧
    (∀ g, load text = .ok g → ∃ found, Reads (scanned text) found ∧
      (∀ s, (g.rulesOf s).map Rule.rhs = (found.filter fun p => p.1 == s).flatMap Prod.snd) ∧
      g.nonterminals = (found.map Prod.fst).eraseDups) ∧
    (∀ before line behind, scanned text = before ++ line :: behind →
      (∀ l ∈ (lines text).take (before.length + 1), l.length ≤ maxLine) →
      (∀ l ∈ before, Legible l) → ¬Legible line →
      ∃ e, load text = .error e ∧ e.line? = some (before.length + 1) ∧
        Fault (before.length + 1) line e) := by
  refine ⟨?_, fun g hg => ?_, fun before line behind hscanned hlength hbefore hline => ?_⟩
  · have hscanned : (∀ line ∈ scanned text, Legible line) ↔ ∀ line ∈ lines text, Legible line := by
      simp only [scanned, forall_mem_map, legible_stripSuffix]
    have hrules : (∃ line ∈ scanned text, holdsRules line) ↔ ∃ line ∈ lines text, holdsRules line := by
      simp [scanned, holdsRules_stripSuffix]
    rw [hscanned, hrules]
    constructor
    · rintro ⟨g, hg⟩
      obtain ⟨hlength, found, hfound, hne, -⟩ := load_eq_ok_iff.1 hg
      exact ⟨hlength, hfound.legible, hfound.ne_nil_iff.1 hne⟩
    · rintro ⟨hlength, hlegible, hrules⟩
      obtain ⟨found, hfound⟩ := exists_reads hlegible
      exact ⟨_, load_eq_ok_iff.2 ⟨hlength, found, hfound, hfound.ne_nil_iff.2 hrules, rfl⟩⟩
  · obtain ⟨-, found, hfound, -, rfl⟩ := load_eq_ok_iff.1 hg
    refine ⟨found, reads_scanned.2 hfound, fun s => ?_, ?_⟩
    · rw [rights_eq, sides_ofAlternatives, filter_oneByOne]
    · rw [nonterminals_eq, sides_ofAlternatives, eraseDups_oneByOne hfound.rights_ne_nil]
  · -- the same lines with their carriage returns
    obtain ⟨before', rest, hlines, rfl, hrest⟩ := map_eq_append_iff.1 hscanned
    obtain ⟨line', behind', rfl, rfl, -⟩ := map_eq_cons_iff.1 hrest
    rw [length_map] at hlength ⊢
    have htake : (lines text).take (before'.length + 1) = before' ++ [line'] := by
      rw [hlines, append_cons, take_left' (by simp)]
    rw [htake] at hlength
    have hbefore' : ∀ l ∈ before', Legible l := by
      simpa only [forall_mem_map, legible_stripSuffix] using hbefore
    obtain ⟨e, hload, hfault⟩ :=
      load_of_not_legible hlines hlength hbefore' (mt legible_stripSuffix.2 hline)
    exact ⟨e, hload, hfault.line?, hfault.of_stripSuffix⟩

theorem legible_of_parseLine (h : (parseLine n line).isOk) : Legible line := by
  intro hholds
  refine (isRule_or_fault n line).resolve_right ?_
  rintro ⟨e, hfault⟩
  rw [parseLine_of_fault hholds hfault] at h
  cases h

theorem not_legible_of_parseLine (h : (parseLine n line).isOk = false) : ¬Legible line := by
  intro hlegible
  obtain ⟨found, hfound⟩ := hlegible.parseLine n
  rw [hfound] at h
  cases h

theorem legible_ruleLine (hname : IsName name) (hne : rights ≠ []) (h : ∀ rhs ∈ rights, IsRight rhs) :
    Legible (ruleLine name rights) := by
  refine legible_of_parseLine (n := 1) ?_
  rw [parseLine_ruleLine 1 hname hne h]
  rfl

/-- A text with two words on the left of its third line. -/
def faulty : Text := "a -> x | y\r\n# c\nb c -> d\ne ->"

/-- The error is that of the third line, though the fourth one is also not as it must be. -/
theorem load_language_faulty : ¬Legible "b c -> d" ∧ ¬Legible "e ->" ∧
    ∃ e, load faulty = .error e ∧ e.line? = some 3 ∧ Fault 3 "b c -> d" e := by
  have hthird : ¬Legible "b c -> d" := not_legible_of_parseLine (n := 3) (by decide +kernel)
  have hfourth : ¬Legible "e ->" := not_legible_of_parseLine (n := 4) (by decide +kernel)
  have hbefore : ∀ l ∈ [ofString "a -> x | y", ofString "# c"], Legible l := by
    have hfirst : Legible "a -> x | y" := legible_of_parseLine (n := 1) (by decide +kernel)
    have hsecond : Legible "# c" := legible_of_parseLine (n := 2) (by decide +kernel)
    simpa using ⟨hfirst, hsecond⟩
  exact ⟨hthird, hfourth, (load_language faulty).2.2 _ _ ["e ->"] (by decide +kernel)
    (by decide +kernel) hbefore hthird⟩

/-! ## A carriage return too much -/

theorem isWord_of_ascii {t : Text} (hne : t ≠ [])
    (h : t.all fun b => b < 0x80 && !isBlank b.toNat) : IsWord t := by
  refine ⟨hne, ?_⟩
  clear hne
  induction t with
  | nil => simp [glyphs_nil]
  | cons b t ih =>
    simp only [all_cons, Bool.and_eq_true, decide_eq_true_eq, Bool.not_eq_true'] at h
    obtain ⟨⟨hb, hblank⟩, ht⟩ := h
    rw [glyphs_ascii hb]
    exact forall_mem_cons.2 ⟨hblank, ih ht⟩

def longSymbol (k : Nat) : Symbol := replicate k (byte 'x')

theorem eq_of_mem_longSymbol {k : Nat} {b : UInt8} (hb : b ∈ longSymbol k) : b = byte 'x' :=
  (mem_replicate.1 hb).2

theorem all_longSymbol (k : Nat) : (longSymbol k).all fun b => b < 0x80 && !isBlank b.toNat := by
  refine all_eq_true.2 fun b hb => ?_
  rw [eq_of_mem_longSymbol hb]
  decide

theorem isSymbol_longSymbol {k : Nat} (hk : k ≠ 0) : IsSymbol (longSymbol k) := by
  refine ⟨isWord_of_ascii (by simpa [longSymbol] using hk) (all_longSymbol k), fun hb => ?_,
    fun hb => ?_⟩
  · exact absurd (eq_of_mem_longSymbol hb) (by decide)
  · exact absurd (eq_of_mem_longSymbol hb) (by decide)

theorem isName_a : IsName "a" where
  word := isWord_of_ascii (by decide) (by decide)
  newline := by decide
  arrow l r h := by
    have hlength := congrArg length h
    have harrow : (ofString "->").length = 2 := by decide
    have ha : (ofString "a").length = 1 := by decide
    simp only [length_append, harrow, ha] at hlength
    omega
  comment := by decide

theorem length_ruleLine_longSymbol (k : Nat) : (ruleLine "a" [[longSymbol k]]).length = k + 5 := by
  have harrow : (ofString " -> ").length = 4 := by decide
  have ha : (ofString "a").length = 1 := by decide
  rw [ruleLine, map_singleton, join_singleton, join_singleton]
  simp only [length_append, harrow, ha, longSymbol, length_replicate]
  omega

theorem lines_singleton {line : Text} (h : newline ∉ line) :
    lines (line ++ [newline]) = [line] := by
  have hlines := lines_flatMap (forall_mem_singleton.2 h)
  rwa [flatMap_singleton] at hlines

theorem stripSuffix_append_return (t : Text) : stripSuffix [13] (t ++ [13]) = t := by
  have hstrip : stripPrefix? [13] (t ++ [13]).reverse = some t.reverse := by
    rw [stripPrefix?_eq_some]
    simp
  rw [stripSuffix, reverse_singleton, hstrip]
  exact reverse_reverse t

/-- A line of 65535 bytes that ends with a carriage return and a line feed. -/
def returned : Text := (ruleLine "a" [[longSymbol 65530]] ++ [13]) ++ [newline]

/-- **The carriage return counts**: without it no line of the text is too long, and all is as it must
    be, and yet the text cannot be read. -/
theorem load_returned : (∀ line ∈ scanned returned, line.length ≤ maxLine) ∧
    (∀ line ∈ scanned returned, Legible line) ∧ (∃ line ∈ scanned returned, holdsRules line) ∧
    load returned = .error .lineTooLong := by
  have hright : ∀ rhs ∈ [[longSymbol 65530]], IsRight rhs :=
    forall_mem_singleton.2 ⟨cons_ne_nil _ _,
      forall_mem_singleton.2 (isSymbol_longSymbol (by decide))⟩
  have hnewline := newline_not_mem_ruleLine isName_a hright
  have hlegible := legible_ruleLine isName_a (cons_ne_nil _ _) hright
  have hholds := holdsRules_ruleLine isName_a (cons_ne_nil _ _) hright
  have hlength := length_ruleLine_longSymbol 65530
  -- only the length of the line matters from here on
  rw [returned]
  generalize ruleLine "a" [[longSymbol 65530]] = line at hnewline hlegible hholds hlength
  have hlines : lines ((line ++ [13]) ++ [newline]) = [line ++ [13]] := by
    refine lines_singleton ?_
    rw [mem_append, not_or]
    exact ⟨hnewline, by decide⟩
  have hscanned : scanned ((line ++ [13]) ++ [newline]) = [line] := by
    rw [scanned, hlines, map_singleton, stripSuffix_append_return]
  rw [hscanned]
  refine ⟨?_, ?_, ⟨line, mem_cons_self, hholds⟩, ?_⟩
  · rw [forall_mem_singleton, hlength, maxLine]
  · exact forall_mem_singleton.2 hlegible
  · refine load_of_parseLines_error ?_
    rw [hlines]
    have hreturn : Legible (line ++ [13]) := by
      rwa [← legible_stripSuffix, stripSuffix_append_return]
    refine parseLines_of_long (forall_mem_singleton.2 hreturn) ⟨_, mem_cons_self, ?_⟩
    rw [length_append, hlength, maxLine]
    decide

end JavaToCpp.Grammar
