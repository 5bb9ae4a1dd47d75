/-
  Items of pattern text.
-/
import JavaToCpp.Proofs.Pattern.Characters
import JavaToCpp.Proofs.Pattern.Groups

namespace JavaToCpp.Pattern

open List Text

variable {w : Text}

inductive Item where
  /-- a numbered group opens, which may have a name -/
  | opens (name : Option Text)
  /-- flags change, for a group that opens or for the rest of the one at hand -/
  | flags (flags : Flags) (group : Bool)
  | bar
  | close
  | atom (r : Regex)
  | runes (runes : List Nat)
  /-- a repetition, with a question mark or without -/
  | repeats (count : Reader.Count) (marked : Bool)

/-- The reader behind an item that is no repetition. -/
def Reader.plain (m : Reader) : Reader := { m with repeated := none }

/-- Opens the next numbered group and gives it a name. -/
def Reader.openNamed (m : Reader) (name : Text) : Reader :=
  { m.openNumbered true with names := (m.groups + 1, name) :: m.names }

/-- The reader behind flags, with a group that opens there or without. -/
def Reader.withFlags (m : Reader) (flags : Flags) (group : Bool) : Reader :=
  if group then m.openGroup none flags else { m with flags }

/-- The item leads from one reader to another. -/
def Does (m : Reader) (i : Item) (m' : Reader) : Prop :=
  match i with
  | .opens none => m' = m.plain.openNumbered false
  | .opens (some name) => m' = m.plain.openNamed name
  | .flags flags group => m' = m.plain.withFlags flags group
  | .bar => m.plain.bar = .ok m'
  | .close => m.plain.close = .ok m'
  | .atom r => (∀ f, r.mapGroups f = r) ∧ m' = m.plain.push r
  | .runes runes => m' = runes.foldl Reader.literal m.plain
  | .repeats count marked => ∃ before after after',
      m.repeatLast count before after = .ok (m', after') ∧ (after.head? == some 63) = marked

/-- What a reader reads from a text is a part of it and one item, which is the same in front of a
    closing bracket for every reader with the same flags. -/
structure Alone (w : Text) (read : Reader → Text → Except Error (Reader × Text)) (a : Reader)
    (t : Text) (a' : Reader) (rest : Text) (i : Item) : Prop where
  does : Does a i a'
  append : ∀ m m' rest', m.flags = a.flags → read m (t ++ 41 :: w) = .ok (m', rest') →
    rest' = rest ++ 41 :: w ∧ Does m i m'

/-! ## Repetitions -/

theorem takeWhile_closing {p : UInt8 → Bool} (hp : p 41 = false) (t : Text) :
    (t ++ 41 :: w).takeWhile p = t.takeWhile p := by
  induction t with
  | nil => simp [hp]
  | cons b t ih => simp only [cons_append, takeWhile_cons, ih]

theorem dropWhile_closing {p : UInt8 → Bool} (hp : p 41 = false) (t : Text) :
    (t ++ 41 :: w).dropWhile p = t.dropWhile p ++ 41 :: w := by
  induction t with
  | nil => simp [hp]
  | cons b t ih =>
    simp only [cons_append, dropWhile_cons, ih]
    split <;> rfl

theorem countNumber?_append (t : Text) : countNumber? (t ++ 41 :: w) =
    (countNumber? t).map fun x => (x.1, x.2 ++ 41 :: w) := by
  have hdigit : isDigit 41 = false := by decide
  rw [countNumber?, countNumber?, takeWhile_closing hdigit, dropWhile_closing hdigit]
  split <;> rfl

variable {t rest : Text} {m a a' : Reader} {b : UInt8}

theorem suffix_of_countNumber? {x : Option Nat × Text} (h : countNumber? t = some x) : x.2 <:+ t := by
  have hsuffix := dropWhile_suffix isDigit (l := t)
  rw [countNumber?] at h
  split at h
  · cases h
  · cases h
  · cases h
    exact hsuffix

theorem stripPrefix?_brace (t : Text) : stripPrefix? "\x7b" (123 :: t) = some t := rfl

theorem stripPrefix?_append (t : Text) : stripPrefix? "\x7d" (t ++ 41 :: w) =
    (stripPrefix? "\x7d" t).map (· ++ 41 :: w) := by
  cases t with
  | nil => rfl
  | cons b t =>
    have hclose (t : Text) : stripPrefix? "\x7d" (b :: t) = if 125 = b then some t else none := rfl
    rw [cons_append, hclose, hclose]
    split <;> rfl

theorem braces?_append (t : Text) : braces? (123 :: (t ++ 41 :: w)) =
    (braces? (123 :: t)).map fun x => (x.1, x.2.1, x.2.2 ++ 41 :: w) := by
  rw [braces?, braces?, stripPrefix?_brace, stripPrefix?_brace]
  simp only [Option.bind_eq_bind, Option.bind_some, countNumber?_append]
  cases countNumber? t with
  | none => rfl
  | some x =>
    obtain ⟨least, rest⟩ := x
    simp only [Option.map_some, Option.bind_some]
    split
    · rename_i heq
      rcases rest with - | ⟨c, - | ⟨d, rest⟩⟩
      · cases heq
      · cases heq
      · cases heq
        rfl
    · rename_i r hr heq
      rcases rest with - | ⟨c, rest⟩
      · cases heq
      · rw [cons_append, List.cons.injEq] at heq
        obtain ⟨rfl, rfl⟩ := heq
        rw [countNumber?_append]
        split
        · rename_i heq
          cases heq
          exact absurd rfl (hr _)
        · rename_i heq
          cases heq
          cases countNumber? rest with
          | none => rfl
          | some x =>
            simp only [Option.map_some, Option.bind_some, stripPrefix?_append]
            cases stripPrefix? "\x7d" x.2 <;> rfl
        · rename_i heq
          cases heq
        · rename_i hcomma _
          exact absurd rfl (hcomma _)
    · rename_i heq
      rcases rest with - | ⟨c, rest⟩
      · cases heq
      · cases heq
        rfl
    · rename_i h1 h2 h3
      split
      · exact absurd rfl (h1 _)
      · exact absurd rfl (h2 _)
      · exact absurd rfl (h3 _)
      · rfl

theorem suffix_of_braces? {x : Option Nat × Option Nat × Text}
    (h : braces? (123 :: t) = some x) : x.2.2 <:+ t := by
  rw [braces?, stripPrefix?_brace] at h
  simp only [Option.bind_eq_bind, Option.bind_some, Option.bind_eq_some_iff] at h
  obtain ⟨⟨least, rest⟩, hleast, h⟩ := h
  have hrest : rest <:+ t := suffix_of_countNumber? hleast
  have htail {c : UInt8} {r : Text} (hr : rest = c :: r) : r <:+ t :=
    (hr ▸ suffix_cons c r).trans hrest
  simp only at h
  split at h
  · cases h
    exact (suffix_cons ..).trans (htail rfl)
  · obtain ⟨⟨most, r⟩, hmost, h⟩ := Option.bind_eq_some_iff.1 h
    obtain ⟨r', hr', h⟩ := Option.bind_eq_some_iff.1 h
    cases h
    have hr : r' <:+ r := ⟨ofString "\x7d", (stripPrefix?_eq_some.1 hr').symm⟩
    exact hr.trans ((suffix_of_countNumber? hmost).trans (htail rfl))
  · cases h
    exact htail rfl
  · cases h

theorem Reader.eq_of_check {m' : Reader} {r : Regex} (h : m.check r = .ok m') :
    ∃ counts, m' = { m with counts } := by
  unfold Reader.check at h
  simp only at h
  split at h
  all_goals
    split at h
    · cases h
    · split at h
      · cases h
      · cases h
        exact ⟨_, rfl⟩

theorem Reader.eq_of_repeatLast {m' : Reader} {count : Count} {before after : Text}
    (h : m.repeatLast count before after = .ok (m', rest)) :
    m.repeated = none ∧ ∃ atom atoms counts, m.level.atoms = atom :: atoms ∧
      rest = (if after.head? == some 63 then after.drop 1 else after) ∧
      m' = { m with
        counts
        level := { m.level with
          atoms := count.regex (m.flags.lazy == (after.head? == some 63)) atom :: atoms }
        repeated := some before
        atoms := m.atoms + 1 } := by
  unfold Reader.repeatLast at h
  cases hrepeated : m.repeated with
  | some earlier =>
    simp only [hrepeated] at h
    cases h
  | none =>
    simp only [hrepeated] at h
    cases hatoms : m.level.atoms with
    | nil =>
      simp only [hatoms] at h
      cases h
    | cons atom atoms =>
      simp only [hatoms] at h
      obtain ⟨m₁, hm₁, h⟩ := bind_eq_ok.1 h
      obtain ⟨counts, rfl⟩ := eq_of_check hm₁
      split at h
      all_goals
        split at h
        · cases h
        · cases h
          exact ⟨rfl, atom, atoms, counts, rfl, rfl, rfl⟩

theorem repeatLast_append {count : Reader.Count} {before after : Text}
    (h : a.repeatLast count before after = .ok (a', rest)) : rest <:+ after ∧
    ∃ i, Does a i a' ∧ ∀ m m' before' rest',
      m.repeatLast count before' (after ++ 41 :: w) = .ok (m', rest') →
      rest' = rest ++ 41 :: w ∧ Does m i m' := by
  obtain ⟨-, -, -, -, -, hrest, -⟩ := Reader.eq_of_repeatLast h
  have hhead : ((after ++ 41 :: w).head? == some 63) = (after.head? == some 63) := by
    cases after <;> rfl
  refine ⟨?_, .repeats count (after.head? == some 63), ⟨_, _, _, h, rfl⟩,
    fun m m' before' rest' hm => ⟨?_, _, _, _, hm, hhead⟩⟩
  · rw [hrest]
    split
    · exact drop_suffix ..
    · exact suffix_refl _
  · obtain ⟨-, -, -, -, -, hrest', -⟩ := Reader.eq_of_repeatLast hm
    rw [hrest', hrest, hhead]
    split
    · rename_i hmark
      cases after with
      | nil => cases hmark
      | cons c after => rfl
    · rfl

/-! ## Groups -/

theorem namedGroup_append {skip : Nat} (h : namedGroup a (b :: t) skip = .ok (a', rest)) : rest <:+ t ∧
    ∃ name, a' = a.openNamed name ∧ ∀ m,
      namedGroup m (b :: (t ++ 41 :: w)) skip = .ok (m.openNamed name, rest ++ 41 :: w) := by
  unfold namedGroup at h
  cases hcut : cut? ">" (b :: t) with
  | none =>
    simp only [hcut] at h
    obtain ⟨-, -, h⟩ := bind_eq_ok.1 h
    cases h
  | some p =>
    obtain ⟨head, r⟩ := p
    simp only [hcut] at h
    obtain ⟨_, hutf8, h⟩ := bind_eq_ok.1 h
    split at h
    · cases h
    · rename_i hname
      cases h
      have hcut' := cut?_append hcut (41 :: w)
      refine ⟨?_, head.drop skip, rfl, fun m => ?_⟩
      · obtain ⟨heq, -⟩ := cut?_eq_some.1 hcut
        cases head with
        | nil =>
          cases heq
          exact suffix_refl _
        | cons c head =>
          rw [cons_append, List.cons.injEq] at heq
          rw [heq.2, ← append_assoc]
          exact suffix_append ..
      · unfold namedGroup
        rw [← cons_append, hcut']
        refine bind_eq_ok.2 ⟨_, hutf8, ?_⟩
        simp only [if_neg hname]
        rfl

theorem flagGroup_append (fuel : Nat) : ∀ {a a' : Reader} {flags : Flags} {on seen : Bool}
    {whole t rest : Text}, flagGroup whole fuel a flags on seen t = .ok (a', rest) → rest <:+ t ∧
    ∃ flags' group, a' = a.withFlags flags' group ∧ ∀ whole' fuel' m, fuel ≤ fuel' →
      flagGroup whole' fuel' m flags on seen (t ++ 41 :: w) =
        .ok (m.withFlags flags' group, rest ++ 41 :: w) := by
  induction fuel with
  | zero =>
    intro a a' flags on seen whole t rest h
    cases h
  | succ fuel ih =>
    intro a a' flags on seen whole t rest h
    cases t with
    | nil => cases h
    | cons b t =>
      rw [flagGroup, if_neg (by simp)] at h
      obtain ⟨⟨c, r⟩, hc, h⟩ := bind_eq_ok.1 h
      obtain ⟨hr, hc'⟩ := nextRune_append (w := w) hc
      have htail : r <:+ b :: t := hr.trans (suffix_cons b t)
      simp only at h
      cases hset : flags.set? c on with
      | some flags' =>
        simp only [hset] at h
        obtain ⟨hrest, flags'', group, ha', happend⟩ := ih h
        refine ⟨hrest.trans htail, flags'', group, ha', fun whole' fuel' m hfuel => ?_⟩
        obtain ⟨fuel', rfl⟩ := Nat.exists_eq_add_of_lt hfuel
        rw [flagGroup, if_neg (by simp)]
        refine bind_eq_ok.2 ⟨_, hc', ?_⟩
        simp only [hset]
        exact happend whole' _ m (Nat.le_add_right ..)
      | none =>
        simp only [hset] at h
        split at h
        · rename_i hminus
          obtain ⟨hrest, flags'', group, ha', happend⟩ := ih h
          refine ⟨hrest.trans htail, flags'', group, ha', fun whole' fuel' m hfuel => ?_⟩
          obtain ⟨fuel', rfl⟩ := Nat.exists_eq_add_of_lt hfuel
          rw [flagGroup, if_neg (by simp)]
          refine bind_eq_ok.2 ⟨_, hc', ?_⟩
          simp only [hset, if_pos hminus]
          exact happend whole' _ m (Nat.le_add_right ..)
        · rename_i hminus
          split at h
          · rename_i hend
            have hgroup (m : Reader) : (if c = 58 then m.openGroup none flags else { m with flags }) =
                m.withFlags flags (decide (c = 58)) := by
              rw [Reader.withFlags]
              simp only [decide_eq_true_eq]
            cases h
            refine ⟨htail, flags, decide (c = 58), hgroup a, fun whole' fuel' m hfuel => ?_⟩
            obtain ⟨fuel', rfl⟩ := Nat.exists_eq_add_of_lt hfuel
            rw [flagGroup, if_neg (by simp)]
            refine bind_eq_ok.2 ⟨_, hc', ?_⟩
            simp only [hset, if_neg hminus, if_pos hend, hgroup]
          · cases h

theorem head_of_flagGroup {flags : Flags} {on seen : Bool} {fuel : Nat}
    {whole : Text} (h : flagGroup whole fuel a flags on seen (b :: t) = .ok (a', rest)) :
    b ≠ 80 ∧ b ≠ 60 := by
  cases fuel with
  | zero => cases h
  | succ fuel =>
    rw [flagGroup, if_neg (by simp)] at h
    constructor
    · rintro rfl
      cases h
    · rintro rfl
      cases h

theorem startsWith_append {p : Text} (h : startsWith p t) (v : Text) : startsWith p (t ++ v) := by
  obtain ⟨rest, rfl⟩ := startsWith_iff.1 h
  exact startsWith_iff.2 ⟨rest ++ v, append_assoc ..⟩

theorem not_startsWith_named (hb : b ≠ 80) (t : Text) :
    startsWith "(?P<" (40 :: 63 :: b :: t) = false := by
  have hname : ofString "(?P<" = [40, 63, 80, 60] := by decide
  rw [hname]
  simp [startsWith, stripPrefix?, hb.symm]

theorem not_startsWith_angle (hb : b ≠ 60) (t : Text) :
    startsWith "(?<" (40 :: 63 :: b :: t) = false := by
  have hname : ofString "(?<" = [40, 63, 60] := by decide
  rw [hname]
  simp [startsWith, stripPrefix?, hb.symm]

theorem longStart_append {p : Text} {n : Nat} (h : startsWith p t && decide (n < t.length)) (w : Text) :
    startsWith p (t ++ w) && decide (n < (t ++ w).length) := by
  obtain ⟨hstart, hlength⟩ := Bool.and_eq_true_iff.1 h
  refine Bool.and_eq_true_iff.2 ⟨startsWith_append hstart w, ?_⟩
  simp only [decide_eq_true_eq, length_append] at hlength ⊢
  omega

theorem specialGroup_append (h : specialGroup a.plain (40 :: 63 :: t) = .ok (a', rest)) : rest <:+ 63 :: t ∧
    ∃ i, Alone w (fun m t => specialGroup m.plain (40 :: t)) a (63 :: t) a' rest i := by
  unfold specialGroup at h
  split at h
  · rename_i hstart
    obtain ⟨hrest, name, ha', happend⟩ := namedGroup_append (w := w) h
    refine ⟨hrest, .opens (some name), ha', fun m m' rest' hflags hm => ?_⟩
    have hstart' := longStart_append hstart (41 :: w)
    rw [cons_append] at hstart'
    simp only [specialGroup, if_pos hstart', happend] at hm
    cases hm
    exact ⟨rfl, rfl⟩
  · rename_i hnamed
    split at h
    · rename_i hstart
      obtain ⟨hrest, name, ha', happend⟩ := namedGroup_append (w := w) h
      refine ⟨hrest, .opens (some name), ha', fun m m' rest' hflags hm => ?_⟩
      have hstart' := longStart_append hstart (41 :: w)
      rw [cons_append] at hstart'
      obtain ⟨hstart, hlength⟩ := Bool.and_eq_true_iff.1 hstart
      have hnamed' : ¬ (startsWith "(?P<" (40 :: (63 :: t ++ 41 :: w)) &&
          decide (4 < (40 :: (63 :: t ++ 41 :: w)).length)) = true := by
        cases t with
        | nil => simp at hlength
        | cons b t =>
          have hb : b = 60 := by
            by_contra hb
            rw [not_startsWith_angle hb] at hstart
            cases hstart
          rw [hb, cons_append, cons_append, not_startsWith_named (by decide)]
          exact Bool.false_ne_true
      simp only [specialGroup, if_neg hnamed', if_pos hstart', happend] at hm
      cases hm
      exact ⟨rfl, rfl⟩
    · cases t with
      | nil => cases h
      | cons b t =>
        obtain ⟨hb, hb'⟩ := head_of_flagGroup h
        obtain ⟨hrest, flags, group, ha', happend⟩ := flagGroup_append (w := w) _ h
        refine ⟨hrest.trans (suffix_cons ..), .flags flags group, ha',
          fun m m' rest' hflags hm => ?_⟩
        have hread := happend (40 :: 63 :: b :: (t ++ 41 :: w))
          ((40 :: 63 :: b :: (t ++ 41 :: w)).length + 1) m.plain
          (by simp only [length_cons, length_append]; omega)
        have hflags' : m.plain.flags = a.plain.flags := hflags
        simp only [specialGroup, cons_append, not_startsWith_named hb, not_startsWith_angle hb',
          Bool.false_and, Bool.false_eq_true, if_false, hflags'] at hm
        cases hread.symm.trans hm
        exact ⟨rfl, rfl⟩

/-! ## What a backslash starts -/

/-- A quotation that goes on to the end of the text. -/
def OpenQuote (b : UInt8) (t : Text) : Prop :=
  b = 92 ∧ ∃ quoted, t = 81 :: quoted ∧ cut? "\\E" quoted = none

theorem literals_eq (fuel : Nat) : ∀ {a a' : Reader} {t : Text}, literals fuel a t = .ok a' →
    ∃ runes : List Nat, a' = runes.foldl Reader.literal a ∧
      ∀ m, literals fuel m t = .ok (runes.foldl Reader.literal m) := by
  induction fuel with
  | zero =>
    intro a a' t h
    cases h
    exact ⟨[], rfl, fun m => rfl⟩
  | succ fuel ih =>
    intro a a' t h
    rw [literals] at h
    split at h
    · rename_i hempty
      cases h
      exact ⟨[], rfl, fun m => by rw [literals, if_pos hempty]; rfl⟩
    · rename_i hempty
      obtain ⟨⟨c, rest⟩, hc, h⟩ := bind_eq_ok.1 h
      obtain ⟨runes, ha', hsame⟩ := ih h
      refine ⟨c :: runes, ha', fun m => ?_⟩
      rw [literals, if_neg hempty]
      exact bind_eq_ok.2 ⟨_, hc, hsame _⟩

theorem backslash_quote {quoted inner : Text}
    (h : cut? "\\E" quoted = some (inner, rest)) : backslash m (92 :: 81 :: quoted) =
    (literals (inner.length + 1) m inner).map fun m => (m, rest) := by
  unfold backslash
  simp only [h, Option.getD_some]
  cases literals (inner.length + 1) m inner <;> rfl

/-- The letters that have a meaning of their own behind a backslash. -/
def isOperatorLetter (b : UInt8) : Bool := [65, 98, 66, 67, 122, 81].contains b

section Backslash

variable {m : Reader} {b : UInt8} {t : Text} (hb : isOperatorLetter b = false)

include hb

theorem backslash_of_unicode {x : RuneSet × Text}
    (h : unicodeClass? m.flags.fold (92 :: b :: t) = .ok (some x)) :
    backslash m (92 :: b :: t) = .ok (m.push (.oneOf m.flags.fold x.1), x.2) := by
  unfold backslash
  split
  case h_7 =>
    rw [h]
    rfl
  all_goals
    rename_i heq
    cases heq
    cases hb

theorem backslash_of_perl {x : RuneSet × Text}
    (hunicode : unicodeClass? m.flags.fold (92 :: b :: t) = .ok none)
    (h : perlClass? m.flags.fold (92 :: b :: t) = some x) :
    backslash m (92 :: b :: t) = .ok (m.push (.oneOf m.flags.fold x.1), x.2) := by
  unfold backslash
  split
  case h_7 =>
    rw [hunicode, h]
    rfl
  all_goals
    rename_i heq
    cases heq
    cases hb

theorem backslash_of_none (hunicode : unicodeClass? m.flags.fold (92 :: b :: t) = .ok none)
    (hperl : perlClass? m.flags.fold (92 :: b :: t) = none) : backslash m (92 :: b :: t) =
    (escape (92 :: b :: t)).map fun x => (m.literal x.1, x.2) := by
  unfold backslash
  split
  case h_7 =>
    rw [hunicode, hperl]
    cases escape (92 :: b :: t) <;> rfl
  all_goals
    rename_i heq
    cases heq
    cases hb

theorem exists_unicodeClass?_of_backslash {y : Reader × Text} (h : backslash m (92 :: b :: t) = .ok y) :
    ∃ x, unicodeClass? m.flags.fold (92 :: b :: t) = .ok x := by
  unfold backslash at h
  split at h
  case h_7 =>
    obtain ⟨x, hx, -⟩ := bind_eq_ok.1 h
    exact ⟨x, hx⟩
  all_goals
    rename_i heq
    cases heq
    cases hb

end Backslash

variable {a a' : Reader} {t rest : Text} {b : UInt8}

theorem backslash_append (hquote : ¬ OpenQuote 92 t)
    (h : backslash a.plain (92 :: t) = .ok (a', rest)) : rest <:+ t ∧
    ∃ i, Alone w (fun m t => backslash m.plain (92 :: t)) a t a' rest i := by
  cases t with
  | nil => cases h
  | cons b t =>
    have hassertion (x : Assertion)
        (hx : ∀ (m : Reader) (t : Text), backslash m (92 :: b :: t) =
          .ok (m.push (.assertion x), t)) : rest <:+ b :: t ∧
        ∃ i, Alone w (fun m t => backslash m.plain (92 :: t)) a (b :: t) a' rest i := by
      obtain ⟨ha', hrest⟩ := Prod.mk.inj (Except.ok.inj ((hx a.plain t).symm.trans h))
      refine ⟨hrest ▸ suffix_cons b t, .atom (.assertion x), ⟨fun f => rfl, ha'.symm⟩,
        fun m m' rest' hflags hm => ?_⟩
      obtain ⟨hm', hrest'⟩ :=
        Prod.mk.inj (Except.ok.inj ((hx m.plain (t ++ 41 :: w)).symm.trans hm))
      exact ⟨by rw [← hrest', hrest], fun f => rfl, hm'.symm⟩
    cases hb : isOperatorLetter b with
    | true =>
      rw [isOperatorLetter, contains_iff_mem] at hb
      simp only [mem_cons, not_mem_nil, or_false] at hb
      rcases hb with rfl | rfl | rfl | rfl | rfl | rfl
      · exact hassertion _ fun m t => rfl
      · exact hassertion _ fun m t => rfl
      · exact hassertion _ fun m t => rfl
      · cases h
      · exact hassertion _ fun m t => rfl
      · cases hcut : cut? "\\E" t with
        | none => exact absurd ⟨rfl, t, rfl, hcut⟩ hquote
        | some p =>
          obtain ⟨inner, r⟩ := p
          rw [backslash_quote hcut] at h
          obtain ⟨a₁, hinner, h⟩ := map_eq_ok.1 h
          obtain ⟨runes, ha', hsame⟩ := literals_eq _ hinner
          cases h
          refine ⟨(suffix_of_cut? hcut).trans (suffix_cons ..), .runes runes, ha',
            fun m m' rest' hflags hm => ?_⟩
          rw [cons_append, backslash_quote (cut?_append hcut (41 :: w)), hsame] at hm
          cases hm
          exact ⟨rfl, rfl⟩
    | false =>
      obtain ⟨x, hx⟩ := exists_unicodeClass?_of_backslash hb h
      obtain ⟨hsuffix, hx'⟩ := unicodeClass?_append (w := w) hx
      cases x with
      | some x =>
        rw [backslash_of_unicode hb hx] at h
        cases h
        refine ⟨hsuffix _ rfl, .atom (.oneOf a.flags.fold x.1), ⟨fun f => rfl, rfl⟩,
          fun m m' rest' hflags hm => ?_⟩
        have hfold : m.plain.flags.fold = a.plain.flags.fold := congrArg Flags.fold hflags
        rw [cons_append, backslash_of_unicode hb (hfold ▸ hx')] at hm
        cases hm
        exact ⟨rfl, fun f => rfl, by rw [hfold]; rfl⟩
      | none =>
        have hperl' := perlClass?_append (w := w) a.plain.flags.fold (92 :: b :: t)
        cases hperl : perlClass? a.plain.flags.fold (92 :: b :: t) with
        | some x =>
          rw [backslash_of_perl hb hx hperl] at h
          cases h
          refine ⟨suffix_of_perlClass? hperl, .atom (.oneOf a.flags.fold x.1), ⟨fun f => rfl, rfl⟩,
            fun m m' rest' hflags hm => ?_⟩
          have hfold : m.plain.flags.fold = a.plain.flags.fold := congrArg Flags.fold hflags
          rw [hperl] at hperl'
          rw [cons_append, backslash_of_perl hb (hfold ▸ hx') (hfold ▸ hperl')] at hm
          cases hm
          exact ⟨rfl, fun f => rfl, by rw [hfold]; rfl⟩
        | none =>
          rw [backslash_of_none hb hx hperl] at h
          obtain ⟨⟨c, r⟩, hc, h⟩ := map_eq_ok.1 h
          obtain ⟨hr, hc'⟩ := escape_append (w := w) hc
          cases h
          refine ⟨hr, .runes [c], rfl, fun m m' rest' hflags hm => ?_⟩
          have hfold : m.plain.flags.fold = a.plain.flags.fold := congrArg Flags.fold hflags
          rw [hperl] at hperl'
          rw [cons_append, backslash_of_none hb (hfold ▸ hx') (hfold ▸ hperl')] at hm
          obtain ⟨y, hy, hm⟩ := map_eq_ok.1 hm
          cases hc'.symm.trans hy
          cases hm
          exact ⟨rfl, rfl⟩

/-! ## Steps -/

/-- The bytes that do not stand for themselves. -/
def isOperator (b : UInt8) : Bool := [40, 124, 41, 94, 36, 46, 91, 42, 43, 63, 123, 92].contains b

theorem step_of_not_isOperator (hb : isOperator b = false) (m : Reader) (t : Text) :
    m.step b t = (nextRune (b :: t)).map fun x => (m.plain.literal x.1, x.2) := by
  unfold Reader.step
  simp only
  split
  case h_13 => cases nextRune (b :: t) <;> rfl
  all_goals cases hb

theorem step_atom (atom : Flags → Regex) (hatom : ∀ flags f, (atom flags).mapGroups f = atom flags)
    (hstep : ∀ (m : Reader) (t : Text), m.step b t = .ok (m.plain.push (atom m.flags), t))
    (h : a.step b t = .ok (a', rest)) : rest <:+ t ∧ ∃ i, Alone w (fun m t => m.step b t) a t a' rest i := by
  obtain ⟨ha', hrest⟩ := Prod.mk.inj (Except.ok.inj ((hstep a t).symm.trans h))
  refine ⟨hrest ▸ suffix_refl t, .atom (atom a.flags), ⟨hatom _, ha'.symm⟩,
    fun m m' rest' hflags hm => ?_⟩
  obtain ⟨hm', hrest'⟩ := Prod.mk.inj (Except.ok.inj ((hstep m (t ++ 41 :: w)).symm.trans hm))
  rw [hflags] at hm'
  exact ⟨by rw [← hrest', hrest], hatom _, hm'.symm⟩

theorem step_repeat {count : Reader.Count}
    (hstep : ∀ (m : Reader) (t : Text), m.step b t = m.repeatLast count (b :: t) t)
    (h : a.step b t = .ok (a', rest)) : rest <:+ t ∧ ∃ i, Alone w (fun m t => m.step b t) a t a' rest i := by
  rw [hstep] at h
  obtain ⟨hrest, i, hdoes, happend⟩ := repeatLast_append (w := w) h
  refine ⟨hrest, i, hdoes, fun m m' rest' _ hm => happend m m' (b :: (t ++ 41 :: w)) rest' ?_⟩
  rwa [← hstep]

section Brace

variable {m : Reader} {t rest : Text} {least : Nat} {most : Option Nat}

theorem step_brace_of_none (h : braces? (123 :: t) = none) :
    m.step 123 t = .ok (m.plain.literal 123, t) := by
  unfold Reader.step
  simp only [h]
  rfl

theorem step_brace_of_long {y : Reader × Text} (h : braces? (123 :: t) = some (none, most, rest)) :
    m.step 123 t ≠ .ok y := by
  unfold Reader.step
  simp only [h]
  rintro ⟨⟩

theorem step_brace_of_some (h : braces? (123 :: t) = some (some least, most, rest)) {y : Reader × Text} :
    m.step 123 t = .ok y ↔
      ¬ (1000 < least || most.any fun most => 1000 < most || most < least) ∧
        m.repeatLast (.between least most) (123 :: t) rest = .ok y := by
  unfold Reader.step
  simp only [h]
  split
  · rename_i hlarge
    exact ⟨by rintro ⟨⟩, fun hsmall => absurd hlarge hsmall.1⟩
  · rename_i hlarge
    exact ⟨fun hy => ⟨hlarge, hy⟩, fun hy => hy.2⟩

end Brace

variable {a a' : Reader} {t rest : Text}

theorem step_brace (h : a.step 123 t = .ok (a', rest)) : rest <:+ t ∧
    ∃ i, Alone w (fun m t => m.step 123 t) a t a' rest i := by
  have hbraces' := braces?_append (w := w) t
  cases hbraces : braces? (123 :: t) with
  | none =>
    rw [hbraces] at hbraces'
    rw [step_brace_of_none hbraces] at h
    cases h
    refine ⟨suffix_refl _, .runes [123], rfl, fun m m' rest' _ hm => ?_⟩
    rw [step_brace_of_none hbraces'] at hm
    cases hm
    exact ⟨rfl, rfl⟩
  | some x =>
    obtain ⟨least, most, r⟩ := x
    rw [hbraces] at hbraces'
    cases least with
    | none => exact absurd h (step_brace_of_long hbraces)
    | some least =>
      obtain ⟨hsmall, h⟩ := (step_brace_of_some hbraces).1 h
      obtain ⟨hrest, i, hdoes, happend⟩ := repeatLast_append (w := w) h
      refine ⟨hrest.trans (suffix_of_braces? hbraces), i, hdoes, fun m m' rest' _ hm => ?_⟩
      exact happend m m' _ rest' ((step_brace_of_some hbraces').1 hm).2

theorem step_open (h : a.step 40 t = .ok (a', rest)) : rest <:+ t ∧
    ∃ i, Alone w (fun m t => m.step 40 t) a t a' rest i := by
  have hplain {m : Reader} {t : Text} (ht : t.head? ≠ some 63) :
      m.step 40 t = .ok (m.plain.openNumbered false, t) := by
    have hhead : ¬ (t.head? == some 63) = true := fun h => ht (eq_of_beq h)
    unfold Reader.step
    simp only [if_neg hhead]
    rfl
  by_cases ht : t.head? = some 63
  · obtain ⟨u, rfl⟩ := head?_eq_some_iff.1 ht
    obtain ⟨hrest, i, hi⟩ := specialGroup_append (w := w) (a := a) h
    exact ⟨hrest, i, hi.does, hi.append⟩
  · have ht' : (t ++ 41 :: w).head? ≠ some 63 := by
      cases t with
      | nil => simp
      | cons c t => exact ht
    rw [hplain ht] at h
    cases h
    refine ⟨suffix_refl _, .opens none, rfl, fun m m' rest' _ hm => ?_⟩
    rw [hplain ht'] at hm
    cases hm
    exact ⟨rfl, rfl⟩

/-- **Every item but an open quotation is read in front of a closing bracket as at the end of the
    text, if reading goes on there at all.** -/
theorem step_append {b : UInt8} (hquote : ¬ OpenQuote b t) (h : a.step b t = .ok (a', rest)) : rest <:+ t ∧
    ∃ i, Alone w (fun m t => m.step b t) a t a' rest i := by
  cases hb : isOperator b with
  | true =>
    rw [isOperator, contains_iff_mem] at hb
    simp only [mem_cons, not_mem_nil, or_false] at hb
    rcases hb with rfl | rfl | rfl | rfl | rfl | rfl | rfl | rfl | rfl | rfl | rfl | rfl
    · exact step_open h
    · obtain ⟨a₁, hbar, h⟩ := bind_eq_ok.1 h
      cases h
      refine ⟨suffix_refl _, .bar, hbar, fun m m' rest' hflags hm => ?_⟩
      obtain ⟨m₁, hbar, hm⟩ := bind_eq_ok.1 hm
      cases hm
      exact ⟨rfl, hbar⟩
    · obtain ⟨a₁, hclose, h⟩ := bind_eq_ok.1 h
      cases h
      refine ⟨suffix_refl _, .close, hclose, fun m m' rest' hflags hm => ?_⟩
      obtain ⟨m₁, hclose, hm⟩ := bind_eq_ok.1 hm
      cases hm
      exact ⟨rfl, hclose⟩
    · exact step_atom (fun flags => .assertion (if flags.multiLine then .beginLine else .beginText))
        (fun _ _ => rfl) (fun _ _ => rfl) h
    · exact step_atom (fun flags => .assertion (if flags.multiLine then .endLine else .endText))
        (fun _ _ => rfl) (fun _ _ => rfl) h
    · refine step_atom (fun flags => if flags.dotAll then .anyRune else .notNewline)
        (fun flags f => ?_) (fun _ _ => rfl) h
      split <;> rfl
    · obtain ⟨⟨set, r⟩, hset, h⟩ := bind_eq_ok.1 h
      obtain ⟨hr, hset'⟩ := bracket_append (w := w) hset
      cases h
      refine ⟨hr, .atom (.oneOf a.flags.fold set), ⟨fun f => rfl, rfl⟩,
        fun m m' rest' hflags hm => ?_⟩
      obtain ⟨y, hy, hm⟩ := bind_eq_ok.1 hm
      rw [hflags] at hy
      cases hset' y hy
      cases hm
      exact ⟨rfl, fun f => rfl, by rw [← hflags]; rfl⟩
    · exact step_repeat (fun _ _ => rfl) h
    · exact step_repeat (fun _ _ => rfl) h
    · exact step_repeat (fun _ _ => rfl) h
    · exact step_brace h
    · exact backslash_append hquote h
  | false =>
    rw [step_of_not_isOperator hb] at h
    obtain ⟨⟨c, r⟩, hc, h⟩ := map_eq_ok.1 h
    obtain ⟨hr, hc'⟩ := nextRune_append (w := w) hc
    cases h
    refine ⟨hr, .runes [c], rfl, fun m m' rest' hflags hm => ?_⟩
    rw [step_of_not_isOperator hb, hc'] at hm
    cases hm
    exact ⟨rfl, rfl⟩

end JavaToCpp.Pattern
