/-
  The alternatives of a table.
-/
import JavaToCpp.Proofs.Pattern.Embedding
import JavaToCpp.Proofs.Pattern.Regions
import JavaToCpp.Token.Table

namespace JavaToCpp

open List

/-! ## Numbers in decimal -/

namespace Text

theorem ofUInt8_toUInt8 {c : Char} (h : c.isDigit) : Char.ofUInt8 c.toUInt8 = c := by
  have hdigit : 48 ≤ c.val.toNat ∧ c.val.toNat ≤ 57 := by
    simpa [Char.isDigit, UInt32.le_iff_toNat_le] using h
  apply Char.ext
  apply UInt32.toNat.inj
  change c.val.toUInt8.toUInt32.toNat = c.val.toNat
  rw [UInt8.toNat_toUInt32, UInt32.toNat_toUInt8]
  omega

theorem isDigit_of_mem_decimal {n : Nat} {b : UInt8} (h : b ∈ decimal n) : ∃ c : Char, c.isDigit ∧
    c.toUInt8 = b := by
  obtain ⟨c, hc, rfl⟩ := mem_map.1 h
  exact ⟨c, Nat.isDigit_of_mem_toDigits (by decide) (by decide) hc, rfl⟩

theorem ofDigitChars_decimal (n : Nat) : Nat.ofDigitChars 10 ((decimal n).map Char.ofUInt8) 0 = n := by
  have hdigits : (decimal n).map Char.ofUInt8 = Nat.toDigits 10 n := by
    rw [decimal, map_map]
    refine (map_congr_left fun c hc => ?_).trans (map_id _)
    exact ofUInt8_toUInt8 (Nat.isDigit_of_mem_toDigits (by decide) (by decide) hc)
  rw [hdigits, Nat.ofDigitChars_toDigits (by decide) (by decide)]

theorem decimal_injective : Function.Injective decimal := fun i j h => by
  rw [← ofDigitChars_decimal i, h, ofDigitChars_decimal]

end Text

/-! ## Named groups -/

namespace Pattern

def Regex.IsNamed (r : Regex) : Prop := ∃ n inner, r = .group n true inner

namespace Regex

variable {gs : List Regex}

theorem foldl_textRun (hgs : ∀ g ∈ gs, g.IsNamed) : ∀ {runs : List TextRun},
    gs.foldl TextRun.add runs = (gs.map fun g => ⟨false, [], [g]⟩).reverse ++ runs := by
  induction gs with
  | nil => exact rfl
  | cons g gs ih =>
    intro runs
    obtain ⟨n, inner, rfl⟩ := hgs g mem_cons_self
    have hadd : TextRun.add runs (.group n true inner) = ⟨false, [], [.group n true inner]⟩ :: runs := by
      cases runs with
      | nil => rfl
      | cons run earlier =>
        have hshared : commonStart run.text [] = [] := by cases run.text <;> rfl
        simp [TextRun.add, leadingText, parts, hshared]
    rw [foldl_cons, hadd, ih fun g hg => hgs g (mem_cons_of_mem _ hg)]
    simp

theorem foldl_partRun (hgs : ∀ g ∈ gs, g.IsNamed) : ∀ {runs : List PartRun},
    (∀ run ∈ runs, ∃ g, g.IsNamed ∧ run.first = some g) →
    gs.foldl PartRun.add runs = (gs.map fun g => ⟨some g, [g]⟩).reverse ++ runs := by
  induction gs with
  | nil => exact fun _ => rfl
  | cons g gs ih =>
    intro runs hruns
    have hnamed := hgs g mem_cons_self
    obtain ⟨n, inner, rfl⟩ := hnamed
    have hadd : PartRun.add runs (.group n true inner) =
        ⟨some (.group n true inner), [.group n true inner]⟩ :: runs := by
      cases runs with
      | nil => rfl
      | cons run earlier =>
        obtain ⟨_, ⟨n', inner', rfl⟩, hfirst⟩ := hruns run mem_cons_self
        simp [PartRun.add, hfirst, leadingPart?, parts, sameLead, sameCharacter]
    rw [foldl_cons, hadd, ih (fun g hg => hgs g (mem_cons_of_mem _ hg)) (by
      rintro run (_ | ⟨_, hrun⟩)
      · exact ⟨_, ⟨n, inner, rfl⟩, rfl⟩
      · exact hruns run hrun)]
    simp

theorem joinCharacters_named (hgs : ∀ g ∈ gs, g.IsNamed) : joinCharacters [] gs = gs := by
  induction gs with
  | nil => rfl
  | cons g gs ih =>
    obtain ⟨n, inner, rfl⟩ := hgs g mem_cons_self
    rw [joinCharacters, if_neg (by simp [isCharacter, characters?]), joinCharacters.flush,
      ih fun g hg => hgs g (mem_cons_of_mem _ hg)]
    rfl

theorem joinEmpty_named (hgs : ∀ g ∈ gs, g.IsNamed) : joinEmpty gs = gs := by
  induction gs with
  | nil => rfl
  | cons g gs ih =>
    obtain ⟨n, inner, rfl⟩ := hgs g mem_cons_self
    rw [joinEmpty, ih fun g hg => hgs g (mem_cons_of_mem _ hg)]
    simp

theorem choice_eq_alternate (hgs : ∀ g ∈ gs, g.IsNamed) (hlength : 2 ≤ gs.length) :
    choice gs = .alternate gs := by
  have hchoices : gs.flatMap choices = gs := by
    refine (flatMap_congr fun g hg => ?_).trans (flatMap_singleton' gs)
    obtain ⟨n, inner, rfl⟩ := hgs g hg
    rfl
  rw [choice]
  generalize totalSize 1 gs = fuel
  obtain ⟨g, g', gs, rfl⟩ : ∃ g g' gs', gs = g :: g' :: gs' := by
    obtain - | ⟨g, - | ⟨g', gs'⟩⟩ := gs
    · simp at hlength
    · simp at hlength
    · exact ⟨g, g', gs', rfl⟩
  cases fuel with
  | zero => rfl
  | succ fuel =>
    have htext (choose : List Regex → Regex) :
        ((g :: g' :: gs).foldl TextRun.add []).reverse.map (TextRun.factor choose) = g :: g' :: gs := by
      rw [foldl_textRun hgs, append_nil, reverse_reverse, map_map]
      exact map_id _
    have hpart (choose : List Regex → Regex) :
        ((g :: g' :: gs).foldl PartRun.add []).reverse.map (PartRun.factor choose) = g :: g' :: gs := by
      rw [foldl_partRun hgs (by simp), append_nil, reverse_reverse, map_map]
      exact map_id _
    rw [choiceWith]
    · simp only [hchoices, htext, hpart, joinCharacters_named hgs, joinEmpty_named hgs]
    · rintro r ⟨⟩

end Regex

namespace Level

variable {gs : List Regex} {g : Regex}

theorem bar_named (hgs : ∀ g ∈ gs, g.IsNamed) (hg : g.IsNamed) :
    bar { alternatives := gs.reverse, atoms := [g] } = { alternatives := (gs ++ [g]).reverse } := by
  obtain ⟨n, inner, rfl⟩ := hg
  rcases eq_nil_or_concat gs with rfl | ⟨gs, last, rfl⟩
  · rfl
  · obtain ⟨n', inner', rfl⟩ := hgs last (by simp)
    simp [bar, current, Regex.inOrder, Regex.joinLiteral, Regex.tidy, Regex.isCharacter,
      Regex.characters?, Regex.clean]

theorem regex_named (hgs : ∀ g ∈ gs, g.IsNamed) (hg : g.IsNamed) :
    regex { alternatives := gs.reverse, atoms := [g] } = (Regex.choice (gs ++ [g])).tidy := by
  rw [regex, bar_named hgs hg, reverse_append, reverse_singleton, singleton_append]
  obtain ⟨n, inner, rfl⟩ := hg
  simp [Regex.clean]

theorem regex_bound (r : Regex) :
    regex { atoms := [r, .assertion .beginText] } = .concat (.assertion .beginText :: r.parts) := by
  have hcurrent : current { atoms := [r, .assertion .beginText] } =
      .concat (.assertion .beginText :: r.parts) := by
    have hjoin : [r, .assertion .beginText].foldl Regex.joinLiteral [] =
        [.assertion .beginText, r] := by
      cases r <;> rfl
    simp [current, Regex.inOrder, hjoin, Regex.tidy, Regex.parts]
  simp [regex, bar, hcurrent, Regex.clean, Regex.choice, Regex.choiceWith, Regex.tidy]

end Level

theorem program_bound (r : Regex) : (Level.regex { atoms := [r, .assertion .beginText] }).program =
      (Core.concat [.require .beginText, r.core]).program := by
  rw [Level.regex_bound]
  cases r with
  | concat rs =>
    have hcores : Regex.cores [] (.assertion .beginText :: rs) =
        .require .beginText :: Regex.cores [] rs := by
      rw [Regex.cores_eq, Regex.cores_eq]
      rfl
    rw [Regex.parts, Regex.program, Regex.core, hcores, Regex.core]
    rfl
  | _ => rfl

/-- The group of a row: its number and what stands in it. -/
def named (row : Nat × Regex) : Regex := .group row.1 true row.2

theorem isNamed_named (row : Nat × Regex) : (named row).IsNamed := ⟨row.1, row.2, rfl⟩

theorem isNamed_of_mem {rows : List (Nat × Regex)} : ∀ g ∈ rows.map named, g.IsNamed := by
  intro g hg
  obtain ⟨row, -, rfl⟩ := mem_map.1 hg
  exact isNamed_named row

theorem program_named {rows : List (Nat × Regex)} (hne : rows ≠ []) :
    (Level.regex { atoms := [(Regex.choice (rows.map named)).tidy, .assertion .beginText] }).program =
      (Core.concat [.require .beginText,
        .alternate (rows.map fun row => .concat [.enter row.1, row.2.core])]).program := by
  rw [program_bound]
  obtain - | ⟨row, - | ⟨row', rows⟩⟩ := rows
  · exact absurd rfl hne
  · rfl
  · have hcore (rs : List Regex) : (Regex.alternate rs).tidy.core = .alternate (rs.map Regex.core) := by
      change (Regex.alternate rs).core = _
      rw [Regex.core, Regex.cores_eq]
      rfl
    rw [Regex.choice_eq_alternate isNamed_of_mem (by simp), hcore, map_map]
    rfl

/-! ## Reading them -/

variable {m : Reader} {t : Text} {r : Regex}

theorem step_named {m' : Reader} {name rest : Text} (hname : 62 ∉ name)
    (h : m.step 40 (63 :: 80 :: 60 :: (name ++ 62 :: t)) = .ok (m', rest)) :
    m' = m.plain.openNamed name ∧ rest = t := by
  change specialGroup m.plain (40 :: 63 :: 80 :: 60 :: (name ++ 62 :: t)) = .ok (m', rest) at h
  have hcut : Text.cut? ">" (40 :: 63 :: 80 :: 60 :: (name ++ 62 :: t)) =
      some (40 :: 63 :: 80 :: 60 :: name, t) :=
    Text.cut?_of_notMem (l := 40 :: 63 :: 80 :: 60 :: name) (by simpa using hname) t
  have hstarts : Text.startsWith "(?P<" (40 :: 63 :: 80 :: 60 :: (name ++ 62 :: t)) = true :=
    Text.startsWith_iff.2 ⟨name ++ 62 :: t, rfl⟩
  rw [specialGroup, if_pos (by simp [hstarts])] at h
  unfold namedGroup at h
  rw [hcut] at h
  obtain ⟨_, -, h⟩ := bind_eq_ok.1 h
  split at h
  · cases h
  · cases h
    exact ⟨rfl, rfl⟩

theorem finishes_named {e : Reader} {name w : Text} (h : Nests t r)
    (hname : 62 ∉ name) (hflags : m.flags = {})
    (hm : Finishes Anything m (40 :: 63 :: 80 :: 60 :: (name ++ 62 :: (t ++ 41 :: w))) e) :
    ∃ m' r', Finishes Anything m' w e ∧ r'.core = r.core ∧
      Ended ⟨m.level, some (m.groups + 1, true), {}⟩ m.outer r' m' ∧ m.groups < m'.groups ∧
      m'.names = (m.groups + 1, name) :: m.names := by
  obtain ⟨c, rest, hstep, hm⟩ := hm.exists_step
  obtain ⟨rfl, rfl⟩ := step_named hname hstep
  have hbegins : Begins (m.plain.openNamed name) := ⟨hflags, rfl, rfl⟩
  have houter : (m.plain.openNamed name).outer =
      ⟨m.level, some (m.groups + 1, true), {}⟩ :: m.outer := by
    rw [← hflags]
    rfl
  obtain ⟨m', r', hm', hended, hcore, -, hgroups, hnames⟩ := h.finishes hbegins houter hm
  exact ⟨m', r', hm', hcore, hended, hgroups, hnames⟩

theorem step_bar {m' : Reader} {rest : Text} (h : m.step 124 t = .ok (m', rest)) :
    rest = t ∧ m.plain.bar = .ok m' := by
  obtain ⟨m₁, hm₁, h⟩ := bind_eq_ok.1 h
  cases h
  exact ⟨rfl, hm₁⟩

/-! ## Patterns of their own -/

theorem silent_core (r : Regex) : (r.mapGroups unnamed).core.Silent := by
  have htake (set : RuneSet) : (Core.take set).Silent := fun _ _ => Core.enter_of_push (by rintro ⟨⟩)
  have hall {rs : List Regex} (ih : ∀ r ∈ rs, (r.mapGroups unnamed).core.Silent) :
      ∀ c ∈ Regex.cores [] (rs.map (Regex.mapGroups unnamed)), c.Silent := by
    intro c hc
    rw [Regex.cores_eq, reverse_nil, nil_append, map_map] at hc
    obtain ⟨r, hr, rfl⟩ := mem_map.1 hc
    exact ih r hr
  induction r using Regex.induction with
  | empty => exact Core.silent_concat (by simp)
  | literal fold runes =>
    refine Core.silent_concat fun c hc => ?_
    obtain ⟨rune, -, rfl⟩ := mem_map.1 hc
    exact htake _
  | oneOf fold set | notNewline | anyRune => exact htake _
  | assertion a => exact fun _ _ => Core.enter_of_push (by rintro ⟨⟩)
  | group index named r ih => exact Core.silent_concat (by simpa [unnamed] using ih)
  | star greedy r ih => exact ih.starOf greedy
  | plus greedy r ih => exact ih.plusOf greedy
  | opt greedy r ih => exact ih.optOf greedy
  | rep least most greedy r ih => exact ih.between greedy least most
  | concat rs ih =>
    rw [Regex.mapGroups_concat, Regex.core]
    exact Core.silent_concat (hall ih)
  | alternate rs ih =>
    rw [Regex.mapGroups_alternate, Regex.core]
    exact Core.silent_alternate (hall ih)

theorem Nests.silent (h : Nests t r) : r.core.Silent :=
  h.mapGroups_unnamed ▸ silent_core r

theorem Nests.match?_bound {s : Text} {q : Parsed} (h : Nests t r)
    (hq : parse (94 :: 40 :: 63 :: 58 :: (t ++ [41])) = .ok q) :
    q.regex.program.match? s = r.program.match? s := by
  obtain ⟨c, e, hc, houter, -, -, he, -, hregex, -⟩ := finishes_bound hq
  obtain ⟨m, r', hm, hended, hcore, htidy, -, -⟩ := h.finishes hc houter he
  cases hm.eq_of_nil
  have hprogram : q.regex.program = (Core.concat [.require .beginText, r'.core]).program := by
    rw [hregex, hended.level]
    change (Level.regex { atoms := [r'.tidy, .assertion .beginText] }).program = _
    rw [htidy, program_bound]
  rw [hprogram, Pattern.match?_bound, hcore]
  rfl

end Pattern

namespace Token

open Pattern Text

/-- The pattern of the rule is well-formed by itself, and it can stand inside of a group. -/
def Rule.Reads (r : Rule) (p : Parsed) : Prop := parse r.pattern = .ok p ∧ Nests r.pattern p.regex

def Rule.alternative (r : Rule) (i : Nat) : Text :=
  40 :: 63 :: 80 :: 60 :: (groupName i ++ 62 :: (r.pattern ++ [41]))

theorem notMem_groupName (i : Nat) : 62 ∉ groupName i := by
  intro h
  rcases mem_append.1 h with h | h
  · revert h
    decide
  · obtain ⟨c, hc, heq⟩ := isDigit_of_mem_decimal h
    have hdigit : Char.ofUInt8 62 = c := heq ▸ ofUInt8_toUInt8 hc
    rw [← hdigit] at hc
    revert hc
    decide

theorem anchored_eq (t : Text) : anchored t = 94 :: 40 :: 63 :: 58 :: (t ++ [41]) := by
  have hopen : ofString "^(?:" = [94, 40, 63, 58] := by decide
  have hclose : ofString ")" = [41] := by decide
  simp [anchored, hopen, hclose]

theorem alternatives_eq (rules : List Rule) :
    alternatives rules = join "|" (rules.zipIdx.map fun x => x.1.alternative x.2) := by
  have hopen : ofString "(?P<" = [40, 63, 80, 60] := by decide
  have hangle : ofString ">" = [62] := by decide
  have hclose : ofString ")" = [41] := by decide
  simp [alternatives, Rule.alternative, hopen, hangle, hclose]

theorem finishes_alternative {r : Rule} {p : Parsed} {k : Nat} {m e : Reader} {gs : List Regex}
    {w : Text} (hp : r.Reads p) (hflags : m.flags = {}) (hlevel : m.level = { alternatives := gs.reverse })
    (hm : Finishes Anything m (r.alternative k ++ w) e) :
    ∃ m' s, Finishes Anything m' w e ∧ s.core = p.regex.core ∧ m'.flags = {} ∧
      m'.level = { alternatives := gs.reverse, atoms := [named (m.groups + 1, s)] } ∧
      m'.outer = m.outer ∧ m.groups < m'.groups ∧
      m'.names = (m.groups + 1, groupName k) :: m.names := by
  have htext : r.alternative k ++ w =
      40 :: 63 :: 80 :: 60 :: (groupName k ++ 62 :: (r.pattern ++ 41 :: w)) := by
    simp [Rule.alternative]
  rw [htext] at hm
  obtain ⟨m', s, hm', hcore, hended, hgroups, hnames⟩ :=
    finishes_named hp.2 (notMem_groupName k) hflags hm
  refine ⟨m', s, hm', hcore, hended.flags, ?_, hended.outer, hgroups, hnames⟩
  rw [hended.level, hlevel]
  rfl

theorem finishes_alternatives {e : Reader} (rules : List Rule) (hne : rules ≠ [])
    (hreads : ∀ r ∈ rules, ∃ p, r.Reads p) : ∀ {k : Nat} {m : Reader} {gs : List Regex},
    (∀ g ∈ gs, g.IsNamed) → m.flags = {} → m.level = { alternatives := gs.reverse } →
    m.outer = [bound] →
    Finishes Anything m
      (join "|" ((rules.zipIdx k).map fun x => x.1.alternative x.2) ++ [41]) e →
    ∃ rows : List (Nat × Regex),
      Forall₂ (fun r row => ∃ p, r.Reads p ∧ row.2.core = p.regex.core) rules rows ∧
      (∀ row ∈ rows, m.groups < row.1) ∧ (rows.map Prod.fst).Pairwise (· < ·) ∧
      e.level = { atoms := [(Regex.choice (gs ++ rows.map named)).tidy, .assertion .beginText] } ∧
      e.names = ((rows.zipIdx k).map fun x => (x.1.1, groupName x.2)).reverse ++ m.names := by
  induction rules with
  | nil => exact absurd rfl hne
  | cons r rules ih =>
    intro k m gs hgs hflags hlevel houter hm
    obtain ⟨p, hp⟩ := hreads r mem_cons_self
    cases rules with
    | nil =>
      rw [zipIdx_cons, zipIdx_nil, map_singleton, join,
        intercalate_singleton] at hm
      obtain ⟨m', r', hm', hcore, -, hlevel', houter', -, hnames⟩ :=
        finishes_alternative hp hflags hlevel hm
      rw [houter] at houter'
      obtain ⟨m'', rest, hstep, hm''⟩ := hm'.exists_step
      obtain ⟨rfl, hclose⟩ := step_close hstep
      obtain ⟨hended, -, hnames'⟩ := ended_of_close (m := m'.plain) houter' hclose
      cases hm''.eq_of_nil
      refine ⟨[(m.groups + 1, r')], .cons ⟨p, hp, hcore⟩ .nil, by simp, by simp, ?_, ?_⟩
      · rw [hended.level, Reader.plain, hlevel', bound, Waiting.atom, Level.regex_tidy,
          Level.regex_named hgs (isNamed_named _)]
        rfl
      · rw [hnames', Reader.plain, hnames]
        rfl
    | cons r' rules =>
      have htext : join "|"
          (((r :: r' :: rules).zipIdx k).map fun x => x.1.alternative x.2) ++ [41] =
            r.alternative k ++ 124 :: (join "|"
              (((r' :: rules).zipIdx (k + 1)).map fun x => x.1.alternative x.2) ++ [41]) := by
        have hbar : ofString "|" = [124] := by decide
        simp [join, hbar]
      rw [htext] at hm
      obtain ⟨m', s, hm', hcore, hflags', hlevel', houter', hgroups, hnames⟩ :=
        finishes_alternative hp hflags hlevel hm
      rw [houter] at houter'
      obtain ⟨m'', rest, hstep, hm''⟩ := hm'.exists_step
      obtain ⟨rfl, hbar⟩ := step_bar hstep
      obtain ⟨counts, rfl⟩ := Reader.eq_of_bar hbar
      have hlevel'' : m'.plain.level.bar =
          { alternatives := (gs ++ [named (m.groups + 1, s)]).reverse } := by
        rw [Reader.plain, hlevel', Level.bar_named hgs (isNamed_named _)]
      have hgs' : ∀ g ∈ gs ++ [named (m.groups + 1, s)], g.IsNamed := by
        intro g hg
        rcases mem_append.1 hg with hg | hg
        · exact hgs g hg
        · exact mem_singleton.1 hg ▸ isNamed_named _
      obtain ⟨rows, hrows, hbound, hsorted, hlevel, hnames'⟩ := ih (by simp)
        (fun r hr => hreads r (mem_cons_of_mem _ hr))
        (m := { m'.plain with level := m'.plain.level.bar, atoms := m'.plain.atoms + 1, counts })
        hgs' hflags' hlevel'' houter' hm''
      have hlater : ∀ row ∈ rows, m.groups + 1 < row.1 := fun row hrow =>
        Nat.lt_of_le_of_lt hgroups (hbound row hrow)
      refine ⟨(m.groups + 1, s) :: rows, .cons ⟨p, hp, hcore⟩ hrows, ?_, ?_, ?_, ?_⟩
      · rintro row (_ | ⟨_, hrow⟩)
        · exact Nat.lt_succ_self _
        · exact Nat.lt_of_succ_lt (hlater row hrow)
      · rw [map_cons, pairwise_cons]
        refine ⟨fun n hn => ?_, hsorted⟩
        obtain ⟨row, hrow, rfl⟩ := mem_map.1 hn
        exact hlater row hrow
      · rw [hlevel, map_cons, append_assoc, singleton_append]
      · rw [hnames']
        simp [Reader.plain, hnames]

/-- **The joined pattern of several rules** does what their patterns do, each behind the number of a
    group of its own. -/
theorem exists_rows {rules : List Rule} {q : Parsed} (hne : rules ≠ [])
    (hreads : ∀ r ∈ rules, ∃ p, r.Reads p)
    (h : parse (anchored (alternatives rules)) = .ok q) :
    ∃ rows : List (Nat × Core),
      Forall₂ (fun r row => ∃ p, r.Reads p ∧ row.2 = p.regex.core) rules rows ∧
      (rows.map Prod.fst).Pairwise (· < ·) ∧
      q.regex.program = (Core.concat [.require .beginText,
        .alternate (rows.map fun row => .concat [.enter row.1, row.2])]).program ∧
      q.names = rows.zipIdx.map fun x => (x.1.1, groupName x.2) := by
  rw [anchored_eq] at h
  obtain ⟨c, e, hc, houter, -, hnames, he, -, hregex, hnames'⟩ := finishes_bound h
  rw [alternatives_eq] at he
  obtain ⟨rows, hrows, -, hsorted, hlevel, hnames''⟩ := finishes_alternatives rules hne hreads
    (show ∀ g ∈ ([] : List Regex), g.IsNamed by simp) hc.flags hc.level houter he
  have hne' : rows ≠ [] := by
    rintro rfl
    cases hrows
    exact hne rfl
  refine ⟨rows.map fun row => (row.1, row.2.core), forall₂_map_right_iff.2 hrows, ?_, ?_, ?_⟩
  · rwa [map_map]
  · rw [hregex, hlevel, nil_append, program_named hne', map_map]
    rfl
  · rw [hnames', hnames'', hnames, append_nil, reverse_reverse, zipIdx_map, map_map]
    rfl

end Token

end JavaToCpp
