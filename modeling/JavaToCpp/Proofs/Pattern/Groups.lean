/-
  Groups with other numbers.
-/
import JavaToCpp.Pattern.Reader
import JavaToCpp.Pattern.Core

namespace JavaToCpp.Pattern

open List hiding set

namespace Regex

@[elab_as_elim]
theorem induction {motive : Regex → Prop} (empty : motive .empty)
    (literal : ∀ fold runes, motive (.literal fold runes))
    (oneOf : ∀ fold set, motive (.oneOf fold set)) (notNewline : motive .notNewline)
    (anyRune : motive .anyRune) (assertion : ∀ a, motive (.assertion a))
    (group : ∀ index named r, motive r → motive (.group index named r))
    (star : ∀ greedy r, motive r → motive (.star greedy r))
    (plus : ∀ greedy r, motive r → motive (.plus greedy r))
    (opt : ∀ greedy r, motive r → motive (.opt greedy r))
    (rep : ∀ least most greedy r, motive r → motive (.rep least most greedy r))
    (concat : ∀ rs, (∀ r ∈ rs, motive r) → motive (.concat rs))
    (alternate : ∀ rs, (∀ r ∈ rs, motive r) → motive (.alternate rs)) (r : Regex) : motive r :=
  @Regex.rec motive (fun rs => ∀ r ∈ rs, motive r) empty literal oneOf notNewline anyRune assertion
    group star plus opt rep concat alternate (forall_mem_nil _)
    (fun _ _ h hs => forall_mem_cons.2 ⟨h, hs⟩) r

variable (f : Nat × Bool → Nat × Bool)

mutual

/-- The pattern with `f` applied to the number of each group and to whether it has a name. -/
def mapGroups : Regex → Regex
  | group index named r => group (f (index, named)).1 (f (index, named)).2 r.mapGroups
  | star greedy r => star greedy r.mapGroups
  | plus greedy r => plus greedy r.mapGroups
  | opt greedy r => opt greedy r.mapGroups
  | rep least most greedy r => rep least most greedy r.mapGroups
  | concat rs => concat (mapAllGroups rs)
  | alternate rs => alternate (mapAllGroups rs)
  | empty => empty
  | literal fold runes => literal fold runes
  | oneOf fold set => oneOf fold set
  | notNewline => notNewline
  | anyRune => anyRune
  | assertion a => assertion a

def mapAllGroups : List Regex → List Regex
  | [] => []
  | r :: rs => r.mapGroups :: mapAllGroups rs

end

theorem mapAllGroups_eq (rs : List Regex) : mapAllGroups f rs = rs.map (mapGroups f) := by
  induction rs with
  | nil => rfl
  | cons r rs ih => rw [mapAllGroups, ih, map_cons]

@[simp] theorem mapGroups_concat (rs : List Regex) :
    (concat rs).mapGroups f = concat (rs.map (mapGroups f)) := by
  rw [mapGroups, mapAllGroups_eq]

@[simp] theorem mapGroups_alternate (rs : List Regex) :
    (alternate rs).mapGroups f = alternate (rs.map (mapGroups f)) := by
  rw [mapGroups, mapAllGroups_eq]

/-! ## Single characters -/

@[simp] theorem characters?_mapGroups (r : Regex) : (r.mapGroups f).characters? = r.characters? := by
  cases r <;> rfl

@[simp] theorem isCharacter_mapGroups (r : Regex) : (r.mapGroups f).isCharacter = r.isCharacter := by
  rw [isCharacter, characters?_mapGroups, isCharacter]

@[simp] theorem complexity_mapGroups (r : Regex) : (r.mapGroups f).complexity = r.complexity := by
  rw [complexity, characters?_mapGroups, complexity]

theorem clean_mapGroups (r : Regex) : (r.mapGroups f).clean = r.clean.mapGroups f := by
  cases r with
  | oneOf fold set =>
    simp only [mapGroups, clean]
    split
    · rfl
    · split <;> rfl
  | _ => rfl

theorem tidy_tidy (r : Regex) : r.tidy.tidy = r.tidy := by
  fun_cases tidy r <;> simp_all [tidy]

theorem tidy_mapGroups (r : Regex) : (r.mapGroups f).tidy = r.tidy.mapGroups f := by
  cases r with
  | oneOf fold set =>
    rw [mapGroups]
    unfold tidy
    split
    · split
      · rfl
      · split <;> rfl
    · split <;> rfl
    · rfl
  | _ => rfl

theorem widen_mapGroups (r s : Regex) :
    (r.mapGroups f).widen (s.mapGroups f) = (r.widen s).mapGroups f := by
  cases r with
  | notNewline =>
    simp only [mapGroups, widen, characters?_mapGroups]
    split <;> rfl
  | oneOf fold set => simp [mapGroups, widen]
  | literal fold runes =>
    rcases runes with - | ⟨a, - | ⟨a', runes⟩⟩
    · rfl
    · cases s with
      | literal fold' runes' =>
        rcases runes' with - | ⟨b, - | ⟨b', runes'⟩⟩
        · rfl
        · simp only [mapGroups, widen]
          split <;> rfl
        · rfl
      | _ => rfl
    · rfl
  | _ => rfl

theorem mostComplex_mapGroups (rs : List Regex) : ∀ r : Regex,
    mostComplex (r.mapGroups f) (rs.map (mapGroups f)) =
      ((mostComplex r rs).1.mapGroups f, (mostComplex r rs).2.map (mapGroups f)) := by
  induction rs with
  | nil => exact fun r => rfl
  | cons s rs ih =>
    intro r
    simp only [map_cons, mostComplex, complexity_mapGroups, ih]
    split <;> rfl

theorem foldl_widen_mapGroups (rs : List Regex) : ∀ r : Regex,
    (rs.map (mapGroups f)).foldl widen (r.mapGroups f) = (rs.foldl widen r).mapGroups f := by
  induction rs with
  | nil => exact fun r => rfl
  | cons s rs ih =>
    intro r
    rw [map_cons, foldl_cons, widen_mapGroups, ih, foldl_cons]

theorem oneCharacter_mapGroups (r : Regex) (rs : List Regex) :
    oneCharacter (r.mapGroups f) (rs.map (mapGroups f)) = (oneCharacter r rs).mapGroups f := by
  cases rs with
  | nil => rfl
  | cons s rs =>
    have h := mostComplex_mapGroups f (s :: rs) r
    rw [map_cons] at h ⊢
    simp [oneCharacter, h, foldl_widen_mapGroups, clean_mapGroups]

/-! ## Concatenation -/

theorem parts_mapGroups (r : Regex) : (r.mapGroups f).parts = r.parts.map (mapGroups f) := by
  cases r with
  | concat rs => rw [mapGroups_concat, parts, parts]
  | _ => rfl

theorem ofParts_mapGroups (rs : List Regex) :
    ofParts (rs.map (mapGroups f)) = (ofParts rs).mapGroups f := by
  rcases rs with - | ⟨r, - | ⟨s, rs⟩⟩
  · rfl
  · rfl
  · exact (mapGroups_concat f (r :: s :: rs)).symm

theorem joinLiteral_mapGroups (rs : List Regex) (r : Regex) :
    joinLiteral (rs.map (mapGroups f)) (r.mapGroups f) = (joinLiteral rs r).map (mapGroups f) := by
  cases rs with
  | nil => cases r <;> rfl
  | cons s rs =>
    cases r with
    | literal fold runes =>
      cases s with
      | literal fold' runes' =>
        simp only [map_cons, mapGroups, joinLiteral]
        split <;> rfl
      | _ => rfl
    | _ => rfl

theorem foldl_joinLiteral_mapGroups (atoms : List Regex) : ∀ rs : List Regex,
    (atoms.map (mapGroups f)).foldl joinLiteral (rs.map (mapGroups f)) =
      (atoms.foldl joinLiteral rs).map (mapGroups f) := by
  induction atoms with
  | nil => exact fun rs => rfl
  | cons r atoms ih =>
    intro rs
    rw [map_cons, foldl_cons, joinLiteral_mapGroups, ih, foldl_cons]

theorem inOrder_mapGroups (atoms : List Regex) :
    inOrder (atoms.map (mapGroups f)) = (inOrder atoms).mapGroups f := by
  have hfold := foldl_joinLiteral_mapGroups f atoms []
  rw [map_nil] at hfold
  rw [inOrder, inOrder, hfold]
  rcases atoms.foldl joinLiteral [] with - | ⟨r, - | ⟨s, rs⟩⟩
  · rfl
  · rfl
  · simp [parts_mapGroups, map_flatMap, flatMap_map]

/-! ## Choice -/

theorem choices_mapGroups (r : Regex) : (r.mapGroups f).choices = r.choices.map (mapGroups f) := by
  cases r with
  | alternate rs => rw [mapGroups_alternate, choices, choices]
  | _ => rfl

theorem leadingText_mapGroups (r : Regex) : (r.mapGroups f).leadingText = r.leadingText := by
  rw [leadingText, parts_mapGroups, leadingText, head?_map]
  cases r.parts.head? with
  | none => rfl
  | some s => cases s <;> rfl

theorem dropText_mapGroups (n : Nat) (r : Regex) :
    (r.mapGroups f).dropText n = (r.dropText n).mapGroups f := by
  rw [dropText, parts_mapGroups, dropText]
  rcases r.parts with - | ⟨s, rs⟩
  · rfl
  · cases s with
    | literal fold runes =>
      simp only [map_cons, mapGroups]
      cases runes.drop n with
      | nil => exact ofParts_mapGroups f rs
      | cons a runes => exact ofParts_mapGroups f (literal fold (a :: runes) :: rs)
    | _ => rfl

/-- The run with `f` applied to the groups of its alternatives. -/
def TextRun.mapGroups (run : TextRun) : TextRun :=
  { run with members := run.members.map (Regex.mapGroups f) }

theorem TextRun.add_mapGroups (runs : List TextRun) (r : Regex) :
    TextRun.add (runs.map (TextRun.mapGroups f)) (r.mapGroups f) =
      (TextRun.add runs r).map (TextRun.mapGroups f) := by
  simp only [TextRun.add, leadingText_mapGroups]
  cases runs with
  | nil => rfl
  | cons run runs =>
    simp only [map_cons, TextRun.mapGroups]
    split <;> rfl

theorem foldl_textRun_mapGroups (rs : List Regex) : ∀ runs : List TextRun,
    (rs.map (Regex.mapGroups f)).foldl TextRun.add (runs.map (TextRun.mapGroups f)) =
      (rs.foldl TextRun.add runs).map (TextRun.mapGroups f) := by
  induction rs with
  | nil => exact fun runs => rfl
  | cons r rs ih =>
    intro runs
    rw [map_cons, foldl_cons, TextRun.add_mapGroups, ih, foldl_cons]

theorem leadingPart?_mapGroups (r : Regex) :
    (r.mapGroups f).leadingPart? = r.leadingPart?.map (mapGroups f) := by
  rw [leadingPart?, parts_mapGroups, leadingPart?, head?_map]
  cases r.parts.head? with
  | none => rfl
  | some s => cases s <;> rfl

theorem dropPart_mapGroups (r : Regex) : (r.mapGroups f).dropPart = r.dropPart.mapGroups f := by
  rw [dropPart, parts_mapGroups, ← map_drop, ofParts_mapGroups, dropPart]

theorem sameCharacter_mapGroups (r s : Regex) :
    sameCharacter (r.mapGroups f) (s.mapGroups f) = sameCharacter r s := by
  cases r with
  | literal fold runes =>
    rcases runes with - | ⟨a, - | ⟨a', runes⟩⟩ <;> cases s <;> rfl
  | _ => cases s <;> rfl

theorem sameLead_mapGroups (r s : Regex) :
    sameLead (r.mapGroups f) (s.mapGroups f) = sameLead r s := by
  have hsame := sameCharacter_mapGroups f r s
  cases r with
  | rep least most greedy r =>
    cases s with
    | rep least' most' greedy' s => simp [mapGroups, sameLead, sameCharacter_mapGroups]
    | _ => exact hsame
  | _ => exact hsame

def PartRun.mapGroups (run : PartRun) : PartRun :=
  ⟨run.first.map (Regex.mapGroups f), run.members.map (Regex.mapGroups f)⟩

theorem PartRun.add_mapGroups (runs : List PartRun) (r : Regex) :
    PartRun.add (runs.map (PartRun.mapGroups f)) (r.mapGroups f) =
      (PartRun.add runs r).map (PartRun.mapGroups f) := by
  simp only [PartRun.add, leadingPart?_mapGroups]
  rcases runs with - | ⟨⟨first, members⟩, runs⟩
  · rfl
  · cases first with
    | none => rfl
    | some a =>
      cases r.leadingPart? with
      | none => rfl
      | some b =>
        simp only [map_cons, PartRun.mapGroups, Option.map_some, sameLead_mapGroups]
        split <;> rfl

theorem foldl_partRun_mapGroups (rs : List Regex) : ∀ runs : List PartRun,
    (rs.map (Regex.mapGroups f)).foldl PartRun.add (runs.map (PartRun.mapGroups f)) =
      (rs.foldl PartRun.add runs).map (PartRun.mapGroups f) := by
  induction rs with
  | nil => exact fun runs => rfl
  | cons r rs ih =>
    intro runs
    rw [map_cons, foldl_cons, PartRun.add_mapGroups, ih, foldl_cons]

section Factor

variable {f} {choose : List Regex → Regex}
  (h : ∀ rs, choose (rs.map (Regex.mapGroups f)) = (choose rs).mapGroups f)

include h

theorem TextRun.factor_mapGroups (run : TextRun) :
    TextRun.factor choose (run.mapGroups f) = (TextRun.factor choose run).mapGroups f := by
  obtain ⟨fold, text, members⟩ := run
  have hmany (rs : List Regex) :
      concat [literal fold text, choose ((rs.map (Regex.mapGroups f)).reverse.map
        (dropText text.length))] =
      (concat [literal fold text, choose (rs.reverse.map (dropText text.length))]).mapGroups f := by
    rw [mapGroups_concat, map_cons, map_singleton, ← h, ← map_reverse, map_map,
      map_map]
    simp [Function.comp_def, dropText_mapGroups, Regex.mapGroups]
  rcases members with - | ⟨r, - | ⟨s, rs⟩⟩
  · exact hmany []
  · rfl
  · exact hmany (r :: s :: rs)

theorem PartRun.factor_mapGroups (run : PartRun) :
    PartRun.factor choose (run.mapGroups f) = (PartRun.factor choose run).mapGroups f := by
  obtain ⟨first, members⟩ := run
  have hfirst (a : Regex) (rs : List Regex) :
      concat [a.mapGroups f, choose ((rs.map (Regex.mapGroups f)).reverse.map dropPart)] =
      (concat [a, choose (rs.reverse.map dropPart)]).mapGroups f := by
    rw [mapGroups_concat, map_cons, map_singleton, ← h, ← map_reverse, map_map,
      map_map]
    simp [Function.comp_def, dropPart_mapGroups]
  have hnone (rs : List Regex) :
      choose (rs.map (Regex.mapGroups f)).reverse = (choose rs.reverse).mapGroups f := by
    rw [← h, map_reverse]
  rcases members with - | ⟨r, - | ⟨s, rs⟩⟩
  · cases first with
    | none => exact hnone []
    | some a => exact hfirst a []
  · rfl
  · cases first with
    | none => exact hnone (r :: s :: rs)
    | some a => exact hfirst a (r :: s :: rs)

end Factor

theorem flush_mapGroups (run rs : List Regex) :
    joinCharacters.flush (run.map (mapGroups f)) (rs.map (mapGroups f)) =
      (joinCharacters.flush run rs).map (mapGroups f) := by
  rw [joinCharacters.flush, joinCharacters.flush, ← map_reverse]
  cases run.reverse with
  | nil => rfl
  | cons r others =>
    simp [oneCharacter_mapGroups]

theorem joinCharacters_mapGroups (rs : List Regex) : ∀ run : List Regex,
    joinCharacters (run.map (mapGroups f)) (rs.map (mapGroups f)) =
      (joinCharacters run rs).map (mapGroups f) := by
  induction rs with
  | nil => exact fun run => flush_mapGroups f run []
  | cons r rs ih =>
    intro run
    simp only [map_cons, joinCharacters, isCharacter_mapGroups]
    split
    · exact ih (r :: run)
    · rw [← flush_mapGroups, map_cons, ← ih]
      rfl

theorem joinEmpty_mapGroups (rs : List Regex) :
    joinEmpty (rs.map (mapGroups f)) = (joinEmpty rs).map (mapGroups f) := by
  induction rs with
  | nil => rfl
  | cons r rs ih =>
    cases r with
    | empty =>
      cases rs with
      | nil => rfl
      | cons s rs =>
        cases s with
        | empty => exact ih
        | _ => exact congrArg _ ih
    | _ => exact congrArg _ ih

theorem choiceWith_mapGroups (fuel : Nat) : ∀ rs : List Regex,
    choiceWith fuel (rs.map (mapGroups f)) = (choiceWith fuel rs).mapGroups f := by
  induction fuel with
  | zero =>
    intro rs
    rcases rs with - | ⟨r, - | ⟨s, rs⟩⟩
    · rfl
    · rfl
    · exact (mapGroups_alternate f (r :: s :: rs)).symm
  | succ fuel ih =>
    intro rs
    have hchoices : (rs.map (mapGroups f)).flatMap choices = (rs.flatMap choices).map (mapGroups f) := by
      simp [flatMap_map, map_flatMap, choices_mapGroups]
    have htext (rs : List Regex) : ((rs.map (mapGroups f)).foldl TextRun.add []).reverse.map
          (TextRun.factor (choiceWith fuel)) =
        ((rs.foldl TextRun.add []).reverse.map (TextRun.factor (choiceWith fuel))).map
          (mapGroups f) := by
      have hfold := foldl_textRun_mapGroups f rs []
      rw [map_nil] at hfold
      rw [hfold, ← map_reverse, map_map, map_map]
      simp [Function.comp_def, TextRun.factor_mapGroups ih]
    have hpart (rs : List Regex) : ((rs.map (mapGroups f)).foldl PartRun.add []).reverse.map
          (PartRun.factor (choiceWith fuel)) =
        ((rs.foldl PartRun.add []).reverse.map (PartRun.factor (choiceWith fuel))).map
          (mapGroups f) := by
      have hfold := foldl_partRun_mapGroups f rs []
      rw [map_nil] at hfold
      rw [hfold, ← map_reverse, map_map, map_map]
      simp [Function.comp_def, PartRun.factor_mapGroups ih]
    have hjoin (rs : List Regex) : joinEmpty (joinCharacters [] (rs.map (mapGroups f))) =
        (joinEmpty (joinCharacters [] rs)).map (mapGroups f) := by
      rw [← joinEmpty_mapGroups, ← joinCharacters_mapGroups]
      rfl
    by_cases hone : ∃ r, rs = [r]
    · obtain ⟨r, rfl⟩ := hone
      rfl
    · have hone' : ∀ r, rs.map (mapGroups f) ≠ [r] := by
        intro r hr
        obtain ⟨s, hs, -⟩ := map_eq_singleton_iff.1 hr
        exact hone ⟨s, hs⟩
      rw [choiceWith, choiceWith]
      · simp only [hchoices, htext, hpart, hjoin]
        rcases joinEmpty _ with - | ⟨r, - | ⟨s, rs⟩⟩
        · rfl
        · rfl
        · exact (mapGroups_alternate f (r :: s :: rs)).symm
      · exact fun r hr => hone ⟨r, hr⟩
      · exact hone'

theorem totalSize_mapGroups {rs : List Regex} (h : ∀ r ∈ rs, (r.mapGroups f).size = r.size) :
    ∀ n, totalSize n (rs.map (mapGroups f)) = totalSize n rs := by
  induction rs with
  | nil => exact fun n => rfl
  | cons r rs ih =>
    intro n
    obtain ⟨hr, hrs⟩ := forall_mem_cons.1 h
    rw [map_cons, totalSize, hr, ih hrs, totalSize]

theorem size_mapGroups (r : Regex) : (r.mapGroups f).size = r.size := by
  induction r using Regex.induction with
  | group index named r ih | star greedy r ih | plus greedy r ih | opt greedy r ih =>
    simp [mapGroups, size, ih]
  | rep least most greedy r ih => cases most <;> simp [mapGroups, size, ih]
  | concat rs ih => rw [mapGroups_concat, size, size, totalSize_mapGroups f ih]
  | alternate rs ih =>
    rw [mapGroups_alternate, size, size, totalSize_mapGroups f ih, length_map]
  | _ => rfl

/-- **A choice is put together without regard to the groups inside of its alternatives.** -/
theorem choice_mapGroups (rs : List Regex) :
    choice (rs.map (mapGroups f)) = (choice rs).mapGroups f := by
  rw [choice, totalSize_mapGroups f fun r _ => size_mapGroups f r, choiceWith_mapGroups, choice]

/-! ## Steps -/

theorem cores_eq (rs : List Regex) : ∀ done, cores done rs = done.reverse ++ rs.map core := by
  induction rs with
  | nil => exact fun done => by rw [cores, map_nil, append_nil]
  | cons r rs ih =>
    intro done
    rw [cores, ih, reverse_cons, append_assoc, map_cons, singleton_append]

/-- **A pattern whose groups have no names has the same steps whatever numbers they have.** -/
theorem core_mapGroups {f g : Nat × Bool → Nat × Bool} (hf : ∀ x, (f x).2 = false)
    (hg : ∀ x, (g x).2 = false) (r : Regex) : (r.mapGroups f).core = (r.mapGroups g).core := by
  have hall {rs : List Regex} (ih : ∀ r ∈ rs, (r.mapGroups f).core = (r.mapGroups g).core) :
      cores [] (rs.map (mapGroups f)) = cores [] (rs.map (mapGroups g)) := by
    rw [cores_eq, cores_eq, map_map, map_map]
    exact congrArg _ (map_congr_left ih)
  induction r using Regex.induction with
  | group index named r ih =>
    simp only [mapGroups, core, hf, hg, ih]
    rfl
  | star greedy r ih | plus greedy r ih | opt greedy r ih | rep least most greedy r ih =>
    simp [mapGroups, core, ih]
  | concat rs ih => rw [mapGroups_concat, mapGroups_concat, core, core, hall ih]
  | alternate rs ih => rw [mapGroups_alternate, mapGroups_alternate, core, core, hall ih]
  | _ => rfl

end Regex

/-! ## Levels -/

variable (f : Nat × Bool → Nat × Bool)

def Level.mapGroups (l : Level) : Level :=
  ⟨l.alternatives.map (Regex.mapGroups f), l.atoms.map (Regex.mapGroups f)⟩

theorem Level.current_mapGroups (l : Level) :
    (l.mapGroups f).current = l.current.mapGroups f := by
  rw [Level.current, Level.mapGroups, Regex.inOrder_mapGroups, Regex.tidy_mapGroups, Level.current]

theorem Level.bar_mapGroups (l : Level) : (l.mapGroups f).bar = l.bar.mapGroups f := by
  rw [Level.bar, Level.current_mapGroups, Level.bar]
  obtain ⟨alternatives, atoms⟩ := l
  cases alternatives with
  | nil => rfl
  | cons last earlier =>
    simp only [Level.mapGroups, map_cons, Regex.isCharacter_mapGroups,
      Regex.complexity_mapGroups, Regex.widen_mapGroups, Regex.clean_mapGroups]
    split
    · split <;> rfl
    · rfl

theorem Level.regex_tidy (l : Level) : l.regex.tidy = l.regex := by
  rw [Level.regex]
  split
  · rfl
  · exact Regex.tidy_tidy _

theorem Level.regex_mapGroups (l : Level) : (l.mapGroups f).regex = l.regex.mapGroups f := by
  have hmap : (l.bar.mapGroups f).alternatives = l.bar.alternatives.map (Regex.mapGroups f) := rfl
  rw [Level.regex, Level.bar_mapGroups, Level.regex, hmap]
  cases l.bar.alternatives with
  | nil => rfl
  | cons last earlier =>
    simp only [map_cons, Regex.clean_mapGroups]
    rw [← Regex.tidy_mapGroups, ← Regex.choice_mapGroups, ← map_cons, ← map_reverse]

end JavaToCpp.Pattern
