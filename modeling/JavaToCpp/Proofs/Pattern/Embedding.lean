/-
  Pattern text inside of other pattern text.
-/
import JavaToCpp.Proofs.Pattern.Items

namespace JavaToCpp.Pattern

open List Text

/-! ## What the operations do -/

/-- The atom that a group comes to. -/
def Waiting.atom (v : Waiting) (inner : Regex) : Regex :=
  match v.index with
  | some (n, named) => .group n named inner
  | none => inner

namespace Reader

variable {m m' : Reader}

theorem eq_of_bar (h : m.bar = .ok m') :
    ∃ counts, m' = { m with counts, level := m.level.bar, atoms := m.atoms + 1 } := by
  obtain ⟨m₁, hm₁, h⟩ := bind_eq_ok.1 h
  obtain ⟨counts, rfl⟩ := eq_of_check hm₁
  cases h
  exact ⟨counts, rfl⟩

theorem eq_of_regex {r : Regex} (h : m.regex = .ok (r, m')) :
    r = m.level.regex ∧ ∃ counts, m' = { m with counts } := by
  obtain ⟨m₁, hm₁, h⟩ := bind_eq_ok.1 h
  obtain ⟨counts, rfl⟩ := eq_of_check hm₁
  obtain ⟨m₂, hm₂, h⟩ := bind_eq_ok.1 h
  obtain ⟨counts', rfl⟩ := eq_of_check hm₂
  cases h
  exact ⟨rfl, counts', rfl⟩

theorem eq_of_close (h : m.close = .ok m') : ∃ v outer counts, m.outer = v :: outer ∧
    m' = { m with level := v.level, outer, flags := v.flags, counts }.push
      (v.atom m.level.regex) := by
  obtain ⟨⟨inner, m₁⟩, hinner, h⟩ := bind_eq_ok.1 h
  obtain ⟨rfl, counts, rfl⟩ := eq_of_regex hinner
  simp only at h
  cases houter : m.outer with
  | nil =>
    simp only [houter] at h
    cases h
  | cons v outer =>
    simp only [houter] at h
    obtain ⟨m₂, hm₂, h⟩ := bind_eq_ok.1 h
    obtain ⟨counts', rfl⟩ := eq_of_check hm₂
    cases h
    exact ⟨v, outer, counts', rfl, rfl⟩

end Reader

/-! ## Readers that stand alike -/

variable {f : Nat × Bool → Nat × Bool}

/-- The level that waits, with `f` applied to its groups and to the one it waits for. -/
def Waiting.mapGroups (f : Nat × Bool → Nat × Bool) (v : Waiting) : Waiting :=
  ⟨v.level.mapGroups f, v.index.map f, v.flags⟩

theorem Waiting.atom_mapGroups (v : Waiting) (inner : Regex) :
    (v.mapGroups f).atom (inner.mapGroups f) = (v.atom inner).mapGroups f := by
  obtain ⟨level, index, flags⟩ := v
  cases index <;> rfl

/-- The reader `m` stands inside of the group that begins with `c` where `a` stands, up to the numbers
    of groups. -/
structure Alike (f : Nat × Bool → Nat × Bool) (c a m : Reader) : Prop where
  flags : m.flags = a.flags
  level : m.level = a.level.mapGroups f
  outer : m.outer = a.outer.map (Waiting.mapGroups f) ++ c.outer
  groups : m.groups = c.groups + a.groups
  names : m.names = a.names.map (fun x => (c.groups + x.1, x.2)) ++ c.names
  repeated : m.repeated.isSome = a.repeated.isSome

namespace Alike

variable {c a m : Reader}

theorem plain (h : Alike f c a m) : Alike f c a.plain m.plain :=
  ⟨h.flags, h.level, h.outer, h.groups, h.names, rfl⟩

theorem push (h : Alike f c a m) (r : Regex) : Alike f c (a.push r) (m.push (r.mapGroups f)) where
  flags := h.flags
  level := by
    simp only [Reader.push, h.level, Level.mapGroups, map_cons, Regex.tidy_mapGroups]
  outer := h.outer
  groups := h.groups
  names := h.names
  repeated := h.repeated

theorem literal (h : Alike f c a m) (rune : Nat) : Alike f c (a.literal rune) (m.literal rune) where
  flags := h.flags
  level := by
    simp only [Reader.literal, h.level, h.flags, Level.mapGroups, map_cons, Regex.mapGroups]
  outer := h.outer
  groups := h.groups
  names := h.names
  repeated := h.repeated

theorem foldl_literal (runes : List Nat) : ∀ {a m : Reader}, Alike f c a m →
    Alike f c (runes.foldl Reader.literal a) (runes.foldl Reader.literal m) := by
  induction runes with
  | nil => exact fun h => h
  | cons rune runes ih => exact fun h => ih (h.literal rune)

theorem openGroup (h : Alike f c a m) (index : Option (Nat × Bool)) (flags : Flags) :
    Alike f c (a.openGroup index flags) (m.openGroup (index.map f) flags) where
  flags := rfl
  level := rfl
  outer := by
    simp only [Reader.openGroup, h.outer, h.level, h.flags, map_cons, cons_append,
      Waiting.mapGroups]
  groups := h.groups
  names := h.names
  repeated := h.repeated

theorem openNumbered (h : Alike f c a m) {named : Bool}
    (hf : f (a.groups + 1, named) = (c.groups + (a.groups + 1), named)) :
    Alike f c (a.openNumbered named) (m.openNumbered named) where
  flags := h.flags
  level := rfl
  outer := by
    have hopen := (h.openGroup (some (a.groups + 1, named)) a.flags).outer
    rw [Option.map_some, hf] at hopen
    rw [Reader.openNumbered, Reader.openNumbered]
    simp only [h.groups, h.flags, Nat.add_assoc]
    exact hopen
  groups := by simp only [Reader.openNumbered, h.groups, Nat.add_assoc]
  names := h.names
  repeated := h.repeated

theorem openNamed (h : Alike f c a m) {name : Text}
    (hf : f (a.groups + 1, true) = (c.groups + (a.groups + 1), true)) :
    Alike f c (a.openNamed name) (m.openNamed name) where
  flags := (h.openNumbered hf).flags
  level := (h.openNumbered hf).level
  outer := (h.openNumbered hf).outer
  groups := (h.openNumbered hf).groups
  names := by
    simp only [Reader.openNamed, h.groups, h.names, map_cons, cons_append, Nat.add_assoc]
  repeated := (h.openNumbered hf).repeated

theorem withFlags (h : Alike f c a m) (flags : Flags) (group : Bool) :
    Alike f c (a.withFlags flags group) (m.withFlags flags group) := by
  cases group with
  | true => exact h.openGroup none flags
  | false => exact ⟨rfl, h.level, h.outer, h.groups, h.names, h.repeated⟩

variable {a' m' : Reader}

theorem bar (h : Alike f c a m) (ha : a.bar = .ok a') (hm : m.bar = .ok m') : Alike f c a' m' := by
  obtain ⟨counts, rfl⟩ := Reader.eq_of_bar ha
  obtain ⟨counts', rfl⟩ := Reader.eq_of_bar hm
  refine ⟨h.flags, ?_, h.outer, h.groups, h.names, h.repeated⟩
  simp only [h.level, Level.bar_mapGroups]

theorem close (h : Alike f c a m) (ha : a.close = .ok a') (hm : m.close = .ok m') : Alike f c a' m' := by
  obtain ⟨v, outer, counts, houter, rfl⟩ := Reader.eq_of_close ha
  obtain ⟨v', outer', counts', houter', rfl⟩ := Reader.eq_of_close hm
  rw [h.outer, houter, map_cons, cons_append, List.cons.injEq] at houter'
  obtain ⟨rfl, rfl⟩ := houter'
  rw [h.level, Level.regex_mapGroups, Waiting.atom_mapGroups]
  refine Alike.push (a := { a with level := v.level, outer, flags := v.flags, counts }) ?_ _
  exact ⟨rfl, rfl, rfl, h.groups, h.names, h.repeated⟩

theorem repeatLast (h : Alike f c a m) {count : Reader.Count}
    {before after rest before' after' rest' : Text}
    (ha : a.repeatLast count before after = .ok (a', rest))
    (hm : m.repeatLast count before' after' = .ok (m', rest'))
    (hmarked : (after'.head? == some 63) = (after.head? == some 63)) : Alike f c a' m' := by
  obtain ⟨-, atom, atoms, counts, hatoms, -, rfl⟩ := Reader.eq_of_repeatLast ha
  obtain ⟨-, atom', atoms', counts', hatoms', -, rfl⟩ := Reader.eq_of_repeatLast hm
  rw [h.level, Level.mapGroups, hatoms, map_cons, List.cons.injEq] at hatoms'
  obtain ⟨rfl, rfl⟩ := hatoms'
  refine ⟨h.flags, ?_, h.outer, h.groups, h.names, rfl⟩
  have hregex (greedy : Bool) (r : Regex) :
      count.regex greedy (r.mapGroups f) = (count.regex greedy r).mapGroups f := by
    cases count <;> rfl
  simp only [h.level, h.flags, hmarked, hregex, Level.mapGroups, map_cons]

end Alike

section Steps

variable {m m' : Reader} {t rest : Text}

/-- **Items keep readers alike**, if a group that opens gets its number. -/
theorem Does.alike {c a a' : Reader} {i : Item} (h : Alike f c a m) (ha : Does a i a')
    (hm : Does m i m') (hopens : ∀ name, i = .opens name →
      f (a.groups + 1, name.isSome) = (c.groups + (a.groups + 1), name.isSome)) :
    Alike f c a' m' := by
  cases i with
  | opens name =>
    have hf := hopens name rfl
    cases name with
    | none =>
      cases ha
      cases hm
      exact h.plain.openNumbered hf
    | some name =>
      cases ha
      cases hm
      exact h.plain.openNamed hf
  | flags flags group =>
    cases ha
    cases hm
    exact h.plain.withFlags flags group
  | bar => exact h.plain.bar ha hm
  | close => exact h.plain.close ha hm
  | atom r =>
    obtain ⟨hr, rfl⟩ := ha
    obtain ⟨-, rfl⟩ := hm
    have hpush := h.plain.push r
    rwa [hr] at hpush
  | runes runes =>
    cases ha
    cases hm
    exact h.plain.foldl_literal runes
  | repeats count marked =>
    obtain ⟨before, after, rest, ha, hmarked⟩ := ha
    obtain ⟨before', after', rest', hm, hmarked'⟩ := hm
    exact h.repeatLast ha hm (hmarked'.trans hmarked.symm)

theorem foldl_literal_eq (runes : List Nat) : ∀ m : Reader, (runes.foldl Reader.literal m).names = m.names ∧
      (runes.foldl Reader.literal m).outer = m.outer := by
  induction runes with
  | nil => exact fun m => ⟨rfl, rfl⟩
  | cons rune runes ih => exact fun m => ih (m.literal rune)

theorem Does.names_eq_nil {a a' : Reader} {i : Item} (h : Does a i a') (hnames : a'.names = []) :
    a.names = [] ∧ ∀ name, i ≠ .opens (some name) := by
  cases i with
  | opens name =>
    cases name with
    | none =>
      cases h
      exact ⟨hnames, by rintro _ ⟨⟩⟩
    | some name =>
      cases h
      cases hnames
  | flags flags group =>
    cases h
    cases group <;> exact ⟨hnames, by rintro _ ⟨⟩⟩
  | bar =>
    obtain ⟨counts, rfl⟩ := Reader.eq_of_bar h
    exact ⟨hnames, by rintro _ ⟨⟩⟩
  | close =>
    obtain ⟨v, outer, counts, -, rfl⟩ := Reader.eq_of_close h
    exact ⟨hnames, by rintro _ ⟨⟩⟩
  | atom r =>
    obtain ⟨-, rfl⟩ := h
    exact ⟨hnames, by rintro _ ⟨⟩⟩
  | runes runes =>
    cases h
    rw [(foldl_literal_eq runes _).1] at hnames
    exact ⟨hnames, by rintro _ ⟨⟩⟩
  | repeats count marked =>
    obtain ⟨before, after, rest, h, -⟩ := h
    obtain ⟨-, atom, atoms, counts, -, -, rfl⟩ := Reader.eq_of_repeatLast h
    exact ⟨hnames, by rintro _ ⟨⟩⟩

/-! ## Quotations without end -/

theorem cut?_eq_none_closing (h : cut? "\\E" t = none) : cut? "\\E" (t ++ [41]) = none := by
  have hsep : ofString "\\E" = [92, 69] := by decide
  cases hcut : cut? "\\E" (t ++ [41]) with
  | none => rfl
  | some p =>
    obtain ⟨l, r⟩ := p
    obtain ⟨heq, -⟩ := cut?_eq_some.1 hcut
    rw [hsep] at heq
    rcases eq_nil_or_concat r with rfl | ⟨r', b, rfl⟩
    · have hlast := congrArg getLast? heq
      simp at hlast
    · have heq' : t ++ [41] = l ++ ([92, 69] ++ r') ++ [b] := by simpa using heq
      obtain ⟨rfl, -⟩ := append_inj' heq' rfl
      obtain ⟨l', r'', hcut'⟩ := exists_cut? (t := l ++ (ofString "\\E" ++ r')) rfl
      rw [hsep] at hcut' h
      cases h.symm.trans hcut'

theorem step_quote_of_none {quoted : Text}
    (hcut : cut? "\\E" quoted = none) (h : m.step 92 (81 :: quoted) = .ok (m', rest)) :
    rest = [] ∧ m'.names = m.names ∧ m'.outer = m.outer := by
  have hquote : m.step 92 (81 :: quoted) =
      (literals (quoted.length + 1) m.plain quoted).map fun m => (m, []) := by
    change backslash m.plain (92 :: 81 :: quoted) = _
    unfold backslash
    simp only [hcut, Option.getD_none]
    cases literals (quoted.length + 1) m.plain quoted <;> rfl
  rw [hquote] at h
  obtain ⟨m₁, hm₁, h⟩ := map_eq_ok.1 h
  obtain ⟨runes, rfl, -⟩ := literals_eq _ hm₁
  cases h
  exact ⟨rfl, foldl_literal_eq runes _⟩

theorem step_openQuote {b : UInt8} (hquote : OpenQuote b t)
    (h : m.step b (t ++ [41]) = .ok (m', rest)) : rest = [] ∧ m'.outer = m.outer := by
  obtain ⟨rfl, quoted, rfl, hcut⟩ := hquote
  obtain ⟨hrest, -, houter⟩ := step_quote_of_none (cut?_eq_none_closing hcut) h
  exact ⟨hrest, houter⟩

theorem suffix_of_step {b : UInt8} (h : m.step b t = .ok (m', rest)) : rest <:+ t := by
  by_cases hquote : OpenQuote b t
  · obtain ⟨rfl, quoted, rfl, hcut⟩ := hquote
    rw [(step_quote_of_none hcut h).1]
    exact nil_suffix
  · exact (step_append (w := []) hquote h).1

end Steps

/-! ## Reading to the end -/

/-- The reader comes to `e` at the end of the text, and what each of its steps reads is `allowed`. -/
inductive Finishes (allowed : UInt8 → Text → Prop) : Reader → Text → Reader → Prop
  | done {m} : Finishes allowed m [] m
  | step {m m' e b t rest} : allowed b t → m.step b t = .ok (m', rest) →
      Finishes allowed m' rest e → Finishes allowed m (b :: t) e

def QuoteEnds (b : UInt8) (t : Text) : Prop := ¬ OpenQuote b t

def Anything (_ : UInt8) (_ : Text) : Prop := True

theorem finishes_of_run (fuel : Nat) : ∀ {m e : Reader} {t : Text}, t.length < fuel →
    m.run fuel t = .ok e → Finishes Anything m t e := by
  induction fuel with
  | zero => exact fun hfuel => absurd hfuel (Nat.not_lt_zero _)
  | succ fuel ih =>
    intro m e t hfuel h
    cases t with
    | nil =>
      cases h
      exact .done
    | cons b t =>
      rw [Reader.run] at h
      obtain ⟨⟨m', rest⟩, hstep, h⟩ := bind_eq_ok.1 h
      have hlength := (suffix_of_step hstep).length_le
      rw [length_cons] at hfuel
      exact .step trivial hstep (ih (by omega) h)

theorem finishes_of_parse {t : Text} {p : Parsed} (h : parse t = .ok p) :
    ∃ e, Finishes Anything { whole := t } t e ∧ e.outer = [] ∧ p.regex = e.level.regex ∧
      p.names = e.names.reverse := by
  obtain ⟨e, he, h⟩ := bind_eq_ok.1 h
  obtain ⟨⟨r, m⟩, hr, h⟩ := bind_eq_ok.1 h
  obtain ⟨rfl, counts, rfl⟩ := Reader.eq_of_regex hr
  simp only at h
  split at h
  · cases h
  · rename_i houter
    cases h
    refine ⟨e, finishes_of_run _ (Nat.lt_succ_self _) he, ?_, rfl, rfl⟩
    simpa using houter

section Finishes

variable {allowed : UInt8 → Text → Prop} {m e : Reader} {b : UInt8} {t : Text}

theorem Finishes.exists_step (h : Finishes allowed m (b :: t) e) :
    ∃ m' rest, m.step b t = .ok (m', rest) ∧ Finishes allowed m' rest e := by
  cases h with
  | step _ hstep h => exact ⟨_, _, hstep, h⟩

theorem Finishes.eq_of_nil (h : Finishes allowed m [] e) : m = e := by
  cases h
  rfl

theorem Finishes.names_eq_nil (h : Finishes allowed m t e) (hnames : e.names = []) : m.names = [] := by
  induction h with
  | done => exact hnames
  | @step m m' e b t rest _ hstep _ ih =>
    have hnames' := ih hnames
    by_cases hquote : OpenQuote b t
    · obtain ⟨rfl, quoted, rfl, hcut⟩ := hquote
      rw [← (step_quote_of_none hcut hstep).2.1, hnames']
    · obtain ⟨-, i, hi⟩ := step_append (w := []) hquote hstep
      exact (hi.does.names_eq_nil hnames').1

end Finishes

/-- The groups of a text get the numbers behind those of `c`; those with a name too, if there are
    any. -/
structure Numbers (f : Nat × Bool → Nat × Bool) (c : Reader) (names : List (Nat × Text)) : Prop where
  unnamed : ∀ n, f (n, false) = (c.groups + n, false)
  named : names = [] ∨ ∀ n, f (n, true) = (c.groups + n, true)

section Group

variable {c a a' m e e' : Reader} {w : Text} {t : Text}

theorem Alike.step (h : Alike f c a m) {b : UInt8} {rest : Text} (hf : Numbers f c a'.names)
    (hquote : ¬ OpenQuote b t) (ha : a.step b t = .ok (a', rest))
    (hm : Finishes Anything m (b :: t ++ 41 :: w) e) :
    ∃ m', Alike f c a' m' ∧ Finishes Anything m' (rest ++ 41 :: w) e := by
  obtain ⟨-, i, hi⟩ := step_append (w := w) hquote ha
  obtain ⟨m', rest', hstep, hm⟩ := hm.exists_step
  obtain ⟨rfl, hdoes⟩ := hi.append m m' rest' h.flags hstep
  refine ⟨m', Does.alike h hi.does hdoes fun name hname => ?_, hm⟩
  subst hname
  cases name with
  | none => exact hf.unnamed _
  | some name =>
    rcases hf.named with hnames | hnamed
    · exact absurd rfl ((hi.does.names_eq_nil hnames).2 name)
    · exact hnamed _

theorem Alike.quoteEnds (ha : Finishes Anything a t e')
    (hf : ∀ n named, f (n, named) = (c.groups + n, named)) (hopen : c.outer ≠ [])
    (hclosed : e.outer = []) : ∀ {m}, Alike f c a m → Finishes Anything m (t ++ [41]) e →
    Finishes QuoteEnds a t e' := by
  induction ha with
  | done => exact fun _ _ => .done
  | @step a a' e' b t rest _ hstep _ ih =>
    intro m h hm
    by_cases hquote : OpenQuote b t
    · obtain ⟨m', rest', hm', hend⟩ := hm.exists_step
      obtain ⟨rfl, houter⟩ := step_openQuote hquote hm'
      cases hend.eq_of_nil
      rw [h.outer, hclosed] at houter
      exact absurd (append_eq_nil_iff.1 houter.symm).2 hopen
    · obtain ⟨m', h', hm'⟩ := h.step ⟨(hf · _), .inr (hf · _)⟩ hquote hstep hm
      exact .step hquote hstep (ih h' hm')

theorem Alike.finishes (ha : Finishes QuoteEnds a t e') (hf : Numbers f c e'.names) :
    ∀ {m}, Alike f c a m → Finishes Anything m (t ++ 41 :: w) e →
    ∃ m', Alike f c e' m' ∧ Finishes Anything m' (41 :: w) e := by
  induction ha with
  | done => exact fun h hm => ⟨_, h, hm⟩
  | @step a a' e' b t rest hquote hstep hrest ih =>
    intro m h hm
    have hf' : Numbers f c a'.names := ⟨hf.unnamed, hf.named.imp_left hrest.names_eq_nil⟩
    obtain ⟨m', h', hm'⟩ := h.step hf' hquote hstep hm
    exact ih hf h' hm'

end Group

/-! ## Groups -/

/-- The reader stands at the beginning of a group, inside of which no flag holds. -/
structure Begins (c : Reader) : Prop where
  flags : c.flags = {}
  level : c.level = {}
  repeated : c.repeated = none

variable {c m m' e : Reader} {t : Text} {v : Waiting} {outer : List Waiting}

theorem Begins.alike (h : Begins c) (whole : Text) : Alike f c { whole } c where
  flags := h.flags
  level := h.level
  outer := rfl
  groups := rfl
  names := rfl
  repeated := by rw [h.repeated]

theorem step_close {rest : Text} (h : m.step 41 t = .ok (m', rest)) :
    rest = t ∧ m.plain.close = .ok m' := by
  obtain ⟨m₁, hm₁, h⟩ := bind_eq_ok.1 h
  cases h
  exact ⟨rfl, hm₁⟩

structure Ended (v : Waiting) (outer : List Waiting) (inner : Regex) (m : Reader) : Prop where
  flags : m.flags = v.flags
  level : m.level = { v.level with atoms := (v.atom inner).tidy :: v.level.atoms }
  outer : m.outer = outer

theorem ended_of_close (houter : m.outer = v :: outer) (h : m.close = .ok m') :
    Ended v outer m.level.regex m' ∧ m'.groups = m.groups ∧ m'.names = m.names := by
  obtain ⟨v', outer', counts, houter', rfl⟩ := Reader.eq_of_close h
  rw [houter, List.cons.injEq] at houter'
  obtain ⟨rfl, rfl⟩ := houter'
  exact ⟨⟨rfl, rfl, rfl⟩, rfl, rfl⟩

/-- **The pattern of a group is the pattern of its text alone**, up to the numbers of groups. -/
theorem finishes_group {e' : Reader} {w whole : Text}
    (ha : Finishes QuoteEnds { whole } t e') (hclosed : e'.outer = []) (hf : Numbers f c e'.names)
    (hc : Begins c) (houter : c.outer = v :: outer) (hm : Finishes Anything c (t ++ 41 :: w) e) :
    ∃ m, Finishes Anything m w e ∧ Ended v outer (e'.level.regex.mapGroups f) m ∧
      m.groups = c.groups + e'.groups ∧
      m.names = e'.names.map (fun x => (c.groups + x.1, x.2)) ++ c.names := by
  obtain ⟨m, halike, hm⟩ := (hc.alike whole).finishes ha hf hm
  obtain ⟨m', rest, hstep, hm'⟩ := hm.exists_step
  obtain ⟨rfl, hclose⟩ := step_close hstep
  have hwaits : m.plain.outer = v :: outer := by
    rw [Reader.plain, halike.outer, hclosed, houter, map_nil, nil_append]
  obtain ⟨hended, hgroups, hnames⟩ := ended_of_close hwaits hclose
  rw [Reader.plain, halike.level, Level.regex_mapGroups] at hended
  exact ⟨m', hm', hended, hgroups.trans halike.groups, hnames.trans halike.names⟩

/-! ## Texts without names -/

/-- The text can stand inside of a group: alone it is read as `r`, and it names no group. -/
def Nests (t : Text) (r : Regex) : Prop :=
  ∃ whole e, Finishes QuoteEnds { whole } t e ∧ e.outer = [] ∧ e.names = [] ∧ r = e.level.regex

/-- Forgets that groups have names. -/
def unnamed (x : Nat × Bool) : Nat × Bool := (x.1, false)

theorem Finishes.alike_unnamed {a : Reader} (h : Finishes QuoteEnds a t e)
    (hnames : e.names = []) (hgroups : c.groups = 0) (ha : Alike unnamed c a a) :
    Alike unnamed c e e := by
  induction h with
  | done => exact ha
  | @step a a' e b t rest hquote hstep hrest ih =>
    obtain ⟨-, i, hi⟩ := step_append (w := []) hquote hstep
    refine ih hnames (Does.alike ha hi.does hi.does fun name hname => ?_)
    subst hname
    cases name with
    | none => rw [hgroups, Nat.zero_add, Option.isSome_none, unnamed]
    | some name => exact absurd rfl ((hi.does.names_eq_nil (hrest.names_eq_nil hnames)).2 name)

theorem Nests.mapGroups_unnamed {r : Regex} (h : Nests t r) : r.mapGroups unnamed = r := by
  obtain ⟨whole, e, he, -, hnames, rfl⟩ := h
  have halike : Alike unnamed { whole := [] } e e :=
    he.alike_unnamed hnames rfl ⟨rfl, rfl, rfl, rfl, rfl, rfl⟩
  rw [← Level.regex_mapGroups, ← halike.level]

theorem Nests.finishes {w : Text} {r : Regex}
    (h : Nests t r) (hc : Begins c) (houter : c.outer = v :: outer)
    (hm : Finishes Anything c (t ++ 41 :: w) e) :
    ∃ m r', Finishes Anything m w e ∧ Ended v outer r' m ∧ r'.core = r.core ∧ r'.tidy = r' ∧
      c.groups ≤ m.groups ∧ m.names = c.names := by
  have hunnamed := h.mapGroups_unnamed
  obtain ⟨whole, e', he', hclosed, hnames, rfl⟩ := h
  obtain ⟨m, hm, hended, hgroups, hnames'⟩ := finishes_group (f := fun x => (c.groups + x.1, false))
    he' hclosed ⟨fun n => rfl, .inl hnames⟩ hc houter hm
  rw [hnames, map_nil, nil_append] at hnames'
  refine ⟨m, _, hm, hended, ?_, ?_, hgroups ▸ Nat.le_add_right .., hnames'⟩
  · calc (e'.level.regex.mapGroups fun x => (c.groups + x.1, false)).core
        = (e'.level.regex.mapGroups unnamed).core :=
          Regex.core_mapGroups (fun x => rfl) (fun x => rfl) _
      _ = e'.level.regex.core := by rw [hunnamed]
  · rw [Regex.tidy_mapGroups, Level.regex_tidy]

/-! ## Texts bound to the beginning -/

/-- What waits for the end of a text that is bound to the beginning. -/
def bound : Waiting := ⟨{ atoms := [.assertion .beginText] }, none, {}⟩

theorem step_flagless {rest : Text} (h : m.step 40 (63 :: 58 :: t) = .ok (m', rest)) :
    m' = m.plain.openGroup none m.flags ∧ rest = t := by
  change specialGroup m.plain (40 :: 63 :: 58 :: t) = .ok (m', rest) at h
  rw [specialGroup, not_startsWith_named (by decide), not_startsWith_angle (by decide)] at h
  cases h
  exact ⟨rfl, rfl⟩

theorem finishes_bound {p : Parsed} (h : parse (94 :: 40 :: 63 :: 58 :: (t ++ [41])) = .ok p) :
    ∃ c e, Begins c ∧ c.outer = [bound] ∧ c.groups = 0 ∧ c.names = [] ∧
      Finishes Anything c (t ++ [41]) e ∧ e.outer = [] ∧ p.regex = e.level.regex ∧
      p.names = e.names.reverse := by
  obtain ⟨e, he, houter, hregex, hnames⟩ := finishes_of_parse h
  obtain ⟨m, rest, hstep, he⟩ := he.exists_step
  cases hstep
  obtain ⟨m, rest, hstep, he⟩ := he.exists_step
  obtain ⟨rfl, rfl⟩ := step_flagless hstep
  exact ⟨_, e, ⟨rfl, rfl, rfl⟩, rfl, rfl, rfl, he, houter, hregex, hnames⟩

/-- A text that is well-formed alone and as a group without names can stand inside of any group. -/
theorem nests_of_parse {p q : Parsed} (h : parse t = .ok p)
    (hbound : parse (94 :: 40 :: 63 :: 58 :: (t ++ [41])) = .ok q) (hnames : q.names = []) :
    Nests t p.regex := by
  obtain ⟨e', he', hclosed', hregex, -⟩ := finishes_of_parse h
  obtain ⟨c, e, hc, houter, -, -, he, hclosed, -, hnames'⟩ := finishes_bound hbound
  have hquote : Finishes QuoteEnds { whole := t } t e' :=
    Alike.quoteEnds (f := fun x => (c.groups + x.1, x.2)) he' (fun n named => rfl)
      (by simp [houter]) hclosed (hc.alike t) he
  obtain ⟨m, hm, -, -, hm'⟩ := finishes_group (f := fun x => (c.groups + x.1, x.2)) hquote hclosed'
    ⟨fun n => rfl, .inr fun n => rfl⟩ hc houter he
  cases hm.eq_of_nil
  rw [hnames, eq_comm, reverse_eq_nil_iff] at hnames'
  rw [hnames', eq_comm, append_eq_nil_iff, map_eq_nil_iff] at hm'
  exact ⟨t, e', hquote, hclosed', hm'.1, hregex⟩

end JavaToCpp.Pattern
