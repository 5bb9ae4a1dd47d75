/-
  Characters and classes in front of a closing bracket.

  What is read from a text is a part of it, and it is the same in front of a closing bracket as at the
  end of the text.  A class that would take the bracket for a member is not closed at the end of the
  text.
-/
import JavaToCpp.Pattern.CharClass
import JavaToCpp.Proofs.Outcome
import JavaToCpp.Proofs.Text.Fields

namespace JavaToCpp.Pattern

open List Text

variable {w : Text}

/-! ## Characters -/

variable {t rest l r : Text} {b : UInt8} {c : Nat} {fold : Bool}

theorem upTo_append (h : rest <:+ t) (v : Text) : upTo (t ++ v) (rest ++ v) = upTo t rest := by
  obtain ⟨u, rfl⟩ := h
  simp [upTo]

theorem decodeHead_closing (b : UInt8) (t : Text) :
    decodeHead b (t ++ 41 :: w) = decodeHead b t :=
  decodeHead_append (separates_ascii (by decide) w)

theorem nextRune_cons (b : UInt8) (t : Text) : nextRune (b :: t) =
    if undecodable b t then .error ⟨.badEncoding, b :: t⟩
    else .ok ((decodeHead b t).1, t.drop (decodeHead b t).2) := rfl

theorem nextRune_append (h : nextRune (b :: t) = .ok (c, rest)) :
    rest <:+ t ∧ nextRune (b :: (t ++ 41 :: w)) = .ok (c, rest ++ 41 :: w) := by
  rw [nextRune_cons] at h ⊢
  rw [undecodable, decodeHead_closing, ← undecodable]
  split at h
  · cases h
  · rename_i hbad
    obtain ⟨rfl, rfl⟩ := Prod.mk.inj (Except.ok.inj h)
    refine ⟨drop_suffix .., ?_⟩
    rw [if_neg hbad, drop_append_of_le_length (decodeHead_le b t)]

theorem bracedHex_append (fuel : Nat) : ∀ {digits value x : Nat} {whole t rest : Text},
    bracedHex whole fuel digits value t = .ok (x, rest) →
    rest <:+ t ∧ ∀ (whole' : Text) (fuel' : Nat), fuel ≤ fuel' →
      bracedHex whole' fuel' digits value (t ++ 41 :: w) = .ok (x, rest ++ 41 :: w) := by
  induction fuel with
  | zero =>
    intro digits value x whole t rest h
    cases h
  | succ fuel ih =>
    intro digits value x whole t rest h
    cases t with
    | nil => cases h
    | cons b t =>
      rw [bracedHex, if_neg (by simp)] at h
      obtain ⟨⟨c, t'⟩, hc, h⟩ := bind_eq_ok.1 h
      obtain ⟨hsuffix, hc'⟩ := nextRune_append (w := w) hc
      have htail : t' <:+ b :: t := hsuffix.trans (suffix_cons b t)
      simp only at h
      split at h
      · rename_i hclose
        split at h
        · cases h
        · rename_i hdigits
          cases h
          refine ⟨htail, fun whole' fuel' hfuel => ?_⟩
          obtain ⟨fuel', rfl⟩ := Nat.exists_eq_add_of_lt hfuel
          rw [bracedHex, if_neg (by simp)]
          refine bind_eq_ok.2 ⟨_, hc', ?_⟩
          simp only [if_pos hclose, if_neg hdigits]
      · rename_i hclose
        split at h
        · cases h
        · rename_i v hv
          split at h
          · cases h
          · rename_i hmax
            obtain ⟨hrest, happend⟩ := ih h
            refine ⟨hrest.trans htail, fun whole' fuel' hfuel => ?_⟩
            obtain ⟨fuel', rfl⟩ := Nat.exists_eq_add_of_lt hfuel
            rw [bracedHex, if_neg (by simp)]
            refine bind_eq_ok.2 ⟨_, hc', ?_⟩
            simp only [if_neg hclose, hv, if_neg hmax]
            exact happend whole' _ (Nat.le_add_right ..)

theorem octal_append (n : Nat) : ∀ (value : Nat) (t : Text), (octal n value t).2 <:+ t ∧
    octal n value (t ++ 41 :: w) = ((octal n value t).1, (octal n value t).2 ++ 41 :: w) := by
  induction n with
  | zero => exact fun value t => ⟨suffix_refl t, rfl⟩
  | succ n ih =>
    intro value t
    cases t with
    | nil => exact ⟨suffix_refl _, rfl⟩
    | cons b t =>
      rw [cons_append, octal, octal]
      split
      · obtain ⟨hsuffix, happend⟩ := ih (value * 8 + (b.toNat - 48)) t
        exact ⟨hsuffix.trans (suffix_cons b t), happend⟩
      · exact ⟨suffix_refl _, rfl⟩

theorem octalNext_append (t : Text) : (t ++ 41 :: w).head?.any (fun b => 48 ≤ b && b ≤ 55) =
    t.head?.any fun b => 48 ≤ b && b ≤ 55 := by
  cases t with
  | nil => rfl
  | cons b t => rfl

theorem hexRune?_replacement : hexRune? replacement = none := by decide

theorem escape_append (h : escape (92 :: t) = .ok (c, rest)) :
    rest <:+ t ∧ escape (92 :: (t ++ 41 :: w)) = .ok (c, rest ++ 41 :: w) := by
  cases t with
  | nil => cases h
  | cons b t =>
    obtain ⟨⟨d, r⟩, hd, h⟩ := bind_eq_ok.1 h
    obtain ⟨hsuffix, hd'⟩ := nextRune_append (w := w) hd
    have htail : r <:+ b :: t := hsuffix.trans (suffix_cons b t)
    -- what is left to read behind the first character
    have hread {x : Nat × Text} (hx : _ = Except.ok x) :
        escape (92 :: (b :: t ++ 41 :: w)) = .ok x := bind_eq_ok.2 ⟨_, hd', hx⟩
    simp only [octalNext_append] at h hread
    split at h
    · rename_i hoctal
      obtain ⟨hoctal2, happend⟩ := octal_append (w := w) 2 (d - 48) r
      rw [Except.ok.inj h] at hoctal2 happend
      refine ⟨hoctal2.trans htail, hread ?_⟩
      rw [if_pos hoctal, happend]
      rfl
    rename_i hoctal
    simp only [if_neg hoctal] at hread
    split at h
    · rename_i hx
      simp only [if_pos hx] at hread
      cases r with
      | nil => cases h
      | cons b' r =>
        obtain ⟨⟨x, r'⟩, hx, h⟩ := bind_eq_ok.1 h
        obtain ⟨hsuffix', hx'⟩ := nextRune_append (w := w) hx
        have htail' : r' <:+ b :: t := (hsuffix'.trans (suffix_cons b' r)).trans htail
        simp only at h
        split at h
        · rename_i hbrace
          obtain ⟨hhex, happend⟩ := bracedHex_append (w := w) _ h
          refine ⟨hhex.trans htail', hread (bind_eq_ok.2 ⟨_, hx', ?_⟩)⟩
          simp only [if_pos hbrace]
          exact happend _ _ (by simp)
        · rename_i hbrace
          cases r' with
          | nil =>
            obtain ⟨⟨y, r''⟩, hy, h⟩ := bind_eq_ok.1 h
            cases hy
            simp only [hexRune?_replacement] at h
            split at h
            · rename_i hnone
              cases hnone
            · cases h
          | cons b'' r' =>
            obtain ⟨⟨y, r''⟩, hy, h⟩ := bind_eq_ok.1 h
            obtain ⟨hsuffix'', hy'⟩ := nextRune_append (w := w) hy
            simp only at h
            split at h
            · rename_i hv hv'
              cases h
              refine ⟨(hsuffix''.trans (suffix_cons ..)).trans htail',
                hread (bind_eq_ok.2 ⟨_, hx', ?_⟩)⟩
              simp only [if_neg hbrace]
              refine bind_eq_ok.2 ⟨_, hy', ?_⟩
              simp only [hv, hv']
              rfl
            · cases h
    · rename_i hx
      simp only [if_neg hx] at hread
      split at h
      · rename_i hcontrol
        cases h
        refine ⟨htail, hread ?_⟩
        simp only [hcontrol]
        rfl
      · rename_i hcontrol
        split at h
        · rename_i hplain
          cases h
          refine ⟨htail, hread ?_⟩
          simp only [hcontrol, if_pos hplain]
          rfl
        · cases h

/-! ## Classes with a name -/

theorem cut?_append {sep : Text} (h : cut? sep t = some (l, r)) (v : Text) :
    cut? sep (t ++ v) = some (l, r ++ v) := by
  obtain ⟨rfl, hfirst⟩ := cut?_eq_some.1 h
  refine cut?_eq_some.2 ⟨by simp, fun l' r' heq => ?_⟩
  by_contra hlt
  -- an occurrence further in front lies before the end of the first one
  obtain ⟨r'', hr''⟩ : ∃ r'', l ++ (sep ++ r) = l' ++ (sep ++ r'') := by
    have hlength : (l' ++ sep).length ≤ (l ++ (sep ++ r)).length := by
      simp only [length_append] at hlt ⊢
      omega
    have hle : l' ++ sep <+: l ++ (sep ++ r) :=
      prefix_of_prefix_length_le ⟨r', by simp [heq]⟩ ⟨v, rfl⟩ hlength
    obtain ⟨r'', hr''⟩ := hle
    exact ⟨r'', by rw [← hr'', append_assoc]⟩
  exact hlt (hfirst l' r'' hr'')

theorem suffix_of_cut? {sep : Text} (h : cut? sep t = some (l, r)) : r <:+ t := by
  obtain ⟨rfl, -⟩ := cut?_eq_some.1 h
  exact ⟨l ++ sep, by rw [append_assoc]⟩

theorem perlClass?_cons (fold : Bool) (b c : UInt8) (t : Text) : perlClass? fold (b :: c :: t) =
    if b = 92 then (perlSet? (lowerByte c)).map fun set => (signed fold (isUpper c) set, t)
    else none := by
  split
  · rename_i hb
    subst hb
    rw [perlClass?]
    cases perlSet? (lowerByte c) <;> rfl
  · rename_i hb
    unfold perlClass?
    split
    · rename_i heq
      cases heq
      exact absurd rfl hb
    · rfl

theorem perlClass?_singleton (fold : Bool) (b : UInt8) : perlClass? fold [b] = none := by
  unfold perlClass?
  split
  · rename_i heq
    cases heq
  · rfl

theorem perlClass?_append (fold : Bool) (t : Text) : perlClass? fold (t ++ 41 :: w) =
    (perlClass? fold t).map fun x => (x.1, x.2 ++ 41 :: w) := by
  rcases t with - | ⟨b, - | ⟨c, t⟩⟩
  · cases w <;> rfl
  · rw [singleton_append, perlClass?_cons, perlClass?_singleton]
    split <;> rfl
  · rw [cons_append, cons_append, perlClass?_cons, perlClass?_cons]
    split
    · rw [Option.map_map]
      rfl
    · rfl

theorem suffix_of_perlClass? {x : RuneSet × Text} (h : perlClass? fold (b :: t) = some x) : x.2 <:+ t := by
  cases t with
  | nil =>
    rw [perlClass?_singleton] at h
    cases h
  | cons c t =>
    rw [perlClass?_cons] at h
    split at h
    · obtain ⟨set, -, rfl⟩ := Option.map_eq_some_iff.1 h
      exact suffix_cons c t
    · cases h

theorem property?_nil : property? [] = none := by decide +kernel

theorem unicodeClass?_of_ne (hb : b ≠ 92) (t : Text) : unicodeClass? fold (b :: t) = .ok none := by
  unfold unicodeClass?
  split
  · rename_i heq
    cases heq
    exact absurd rfl hb
  · rfl

theorem unicodeClass?_append {x : Option (RuneSet × Text)}
    (h : unicodeClass? fold (b :: t) = .ok x) : (∀ y ∈ x, y.2 <:+ t) ∧
    unicodeClass? fold (b :: (t ++ 41 :: w)) = .ok (x.map fun y => (y.1, y.2 ++ 41 :: w)) := by
  by_cases hb : b = 92
  · subst hb
    cases t with
    | nil =>
      cases h
      exact ⟨by simp, rfl⟩
    | cons c t =>
      rw [unicodeClass?] at h
      rw [cons_append, unicodeClass?]
      split at h
      · rename_i hc
        cases h
        rw [if_pos hc]
        exact ⟨by simp, rfl⟩
      · rename_i hc
        rw [if_neg hc]
        cases t with
        | nil =>
          -- the end of the text is no name
          obtain ⟨-, ⟨⟩, h⟩ := bind_eq_ok.1 h
          have hchar : (replacement != 123) = true := rfl
          have hname : upTo [] [] = [] := rfl
          simp only [pure_bind, if_pos hchar, hname, head?_nil, drop_nil, ite_self,
            property?_nil] at h
          cases h
        | cons b t =>
          obtain ⟨⟨d, single⟩, hsingle, h⟩ := bind_eq_ok.1 h
          obtain ⟨hsuffix, hsingle'⟩ := nextRune_append (w := w) hsingle
          have htail : t <:+ c :: b :: t := (suffix_cons b t).trans (suffix_cons c _)
          simp only [pure_bind] at h
          split at h
          · rename_i hd
            split at h
            · cases h
            · rename_i set hset
              cases h
              refine ⟨?_, bind_eq_ok.2 ⟨_, hsingle', ?_⟩⟩
              · rintro _ ⟨⟩
                exact hsuffix.trans htail
              · simp only [pure_bind, if_pos hd, upTo_append (hsuffix.trans (suffix_cons b t)), hset]
                rfl
          · rename_i hd
            split at h
            · rename_i name rest hcut
              obtain ⟨_, hutf8, h⟩ := bind_eq_ok.1 h
              split at h
              · cases h
              · rename_i set hset
                cases h
                refine ⟨?_, bind_eq_ok.2 ⟨_, hsingle', ?_⟩⟩
                · rintro _ ⟨⟩
                  exact (suffix_of_cut? hcut).trans htail
                · have hcut' := cut?_append hcut (41 :: w)
                  simp only [pure_bind, if_neg hd, cons_append, drop_succ_cons,
                    drop_zero] at hcut' ⊢
                  simp only [hcut']
                  refine bind_eq_ok.2 ⟨_, hutf8, ?_⟩
                  simp only [hset]
                  rfl
            · obtain ⟨-, -, h⟩ := bind_eq_ok.1 h
              cases h
  · rw [unicodeClass?_of_ne hb] at h ⊢
    cases h
    exact ⟨by simp, rfl⟩

theorem namedClass?_of_ne {c : UInt8} (h : ¬ (b = 91 ∧ c = 58)) (t : Text) :
    namedClass? fold (b :: c :: t) = .ok none := by
  unfold namedClass?
  split
  · rename_i heq
    cases heq
    exact absurd ⟨rfl, rfl⟩ h
  · rfl

theorem namedClass?_singleton (fold : Bool) (b : UInt8) : namedClass? fold [b] = .ok none := by
  unfold namedClass?
  split
  · rename_i heq
    cases heq
  · rfl

/-- A name that is not closed at the end of the text has the bracket in it, if it is closed at all. -/
theorem mem_of_cut?_append (h : cut? ":]" t = none)
    (hcut : cut? ":]" (t ++ 41 :: w) = some (l, r)) : 41 ∈ l := by
  have hsep : ofString ":]" = [58, 93] := by decide
  obtain ⟨heq, -⟩ := cut?_eq_some.1 hcut
  rw [hsep] at heq
  rcases append_eq_append_iff.1 heq with ⟨s, rfl, hs⟩ | ⟨s, rfl, hs⟩
  · cases s with
    | nil => simp at hs
    | cons c s =>
      cases hs
      simp
  · rcases s with - | ⟨c, - | ⟨c', s⟩⟩
    · simp at hs
    · simp at hs
    · cases hs
      obtain ⟨l', r', hcut'⟩ := exists_cut? (t := l ++ (ofString ":]" ++ s)) rfl
      rw [hsep] at hcut' h
      cases h.symm.trans hcut'

theorem find?_namedSets {name : Text} (h : 41 ∈ name) :
    namedSets.find? (fun x => ofString x.1 == name) = none := by
  have hnames : ∀ x ∈ namedSets, 41 ∉ ofString x.1 := by decide
  refine find?_eq_none.2 fun x hx heq => hnames x hx ?_
  rwa [eq_of_beq heq]

theorem namedClass?_append {x : Option (RuneSet × Text)}
    (h : namedClass? fold (b :: t) = .ok x) : (∀ y ∈ x, y.2 <:+ t) ∧
    ∀ y, namedClass? fold (b :: (t ++ 41 :: w)) = .ok y →
      y = x.map fun y => (y.1, y.2 ++ 41 :: w) := by
  cases t with
  | nil =>
    rw [namedClass?_singleton] at h
    cases h
    refine ⟨by simp, fun y hy => ?_⟩
    rw [nil_append, namedClass?_of_ne (by simp)] at hy
    cases hy
    rfl
  | cons c t =>
    by_cases hbc : b = 91 ∧ c = 58
    · obtain ⟨rfl, rfl⟩ := hbc
      rw [namedClass?] at h
      rw [cons_append, namedClass?]
      cases hcut : cut? ":]" t with
      | none =>
        simp only [hcut] at h
        cases h
        refine ⟨by simp, fun y hy => ?_⟩
        cases hcut' : cut? ":]" (t ++ 41 :: w) with
        | none =>
          simp only [hcut'] at hy
          cases hy
          rfl
        | some p =>
          have hmem : 41 ∈ p.1 := mem_of_cut?_append hcut hcut'
          have hplain : 41 ∈ if (p.1.head? == some 94) = true then p.1.drop 1 else p.1 := by
            split
            · rename_i hhead
              obtain ⟨l, hl⟩ := head?_eq_some_iff.1 (eq_of_beq hhead)
              rw [hl] at hmem ⊢
              simpa using hmem
            · exact hmem
          simp only [hcut', find?_namedSets hplain] at hy
          cases hy
      | some p =>
        have hcut' := cut?_append hcut (41 :: w)
        simp only [hcut, hcut'] at h ⊢
        split at h
        · cases h
          refine ⟨?_, fun y hy => ?_⟩
          · rintro _ ⟨⟩
            exact (suffix_of_cut? hcut).trans (suffix_cons _ t)
          · cases hy
            rfl
        · cases h
    · rw [namedClass?_of_ne hbc] at h
      cases h
      refine ⟨by simp, fun y hy => ?_⟩
      rw [cons_append, namedClass?_of_ne hbc] at hy
      cases hy
      rfl

/-! ## Classes in brackets -/

theorem classRune_append {whole : Text} (h : classRune whole (b :: t) = .ok (c, rest)) : rest <:+ t ∧
    ∀ whole', classRune whole' (b :: (t ++ 41 :: w)) = .ok (c, rest ++ 41 :: w) := by
  by_cases hb : b = 92
  · subst hb
    obtain ⟨hsuffix, happend⟩ := escape_append (w := w) h
    exact ⟨hsuffix, fun _ => happend⟩
  · have hplain (whole t : Text) : classRune whole (b :: t) = nextRune (b :: t) := by
      unfold classRune
      split
      · rename_i heq
        cases heq
      · rename_i heq
        cases heq
        exact absurd rfl hb
      · rfl
    rw [hplain] at h
    obtain ⟨hsuffix, happend⟩ := nextRune_append (w := w) h
    exact ⟨hsuffix, fun whole' => (hplain _ _).trans happend⟩

def classRange (fold : Bool) (whole t : Text) : Except Error (RuneSet × Text) := do
  let (lo, rest) ← classRune whole t
  let (hi, rest) ←
    match rest with
    | 45 :: d :: more => if d = 93 then pure (lo, rest) else classRune whole (d :: more)
    | _ => pure (lo, rest)
  if hi < lo then throw ⟨.badRange, upTo t rest⟩
  return (signed fold false [(lo, hi)], rest)

section ClassItem

variable {fold : Bool} {whole t : Text} {found : RuneSet × Text}

theorem classItem_of_named (h : namedClass? fold t = .ok (some found)) :
    classItem fold whole t = .ok found := by
  rw [classItem, h]
  rfl

theorem classItem_of_unicode (hnamed : namedClass? fold t = .ok none)
    (h : unicodeClass? fold t = .ok (some found)) : classItem fold whole t = .ok found := by
  rw [classItem, hnamed, h]
  rfl

theorem classItem_of_perl (hnamed : namedClass? fold t = .ok none)
    (hunicode : unicodeClass? fold t = .ok none) (h : perlClass? fold t = some found) :
    classItem fold whole t = .ok found := by
  rw [classItem, hnamed, hunicode, h]
  rfl

theorem classItem_of_none (hnamed : namedClass? fold t = .ok none)
    (hunicode : unicodeClass? fold t = .ok none) (hperl : perlClass? fold t = none) :
    classItem fold whole t = classRange fold whole t := by
  rw [classItem, hnamed, hunicode, hperl]
  rfl

theorem exists_unicodeClass? {y : RuneSet × Text} (hnamed : namedClass? fold t = .ok none)
    (h : classItem fold whole t = .ok y) : ∃ x, unicodeClass? fold t = .ok x := by
  obtain ⟨x, hx, h⟩ := bind_eq_ok.1 h
  cases hnamed.symm.trans hx
  obtain ⟨x, hx, -⟩ := bind_eq_ok.1 h
  exact ⟨x, hx⟩

end ClassItem

variable {fold : Bool} {b : UInt8} {t rest : Text} {set : RuneSet}

theorem classRange_append {whole : Text}
    (h : classRange fold whole (b :: t) = .ok (set, rest)) : rest <:+ t ∧ (93 ∈ rest →
    ∀ whole', classRange fold whole' (b :: (t ++ 41 :: w)) = .ok (set, rest ++ 41 :: w)) := by
  obtain ⟨⟨lo, r⟩, hlo, h⟩ := bind_eq_ok.1 h
  obtain ⟨hr, hlo'⟩ := classRune_append (w := w) hlo
  simp only [pure_bind] at h
  split at h
  · rename_i d more
    split at h
    · rename_i hd
      rw [if_neg (Nat.lt_irrefl lo)] at h
      cases h
      refine ⟨hr, fun _ whole' => bind_eq_ok.2 ⟨_, hlo' whole', ?_⟩⟩
      simp only [cons_append, if_pos hd, pure_bind, if_neg (Nat.lt_irrefl lo)]
      rfl
    · rename_i hd
      obtain ⟨⟨hi, r'⟩, hhi, h⟩ := bind_eq_ok.1 h
      obtain ⟨hr', hhi'⟩ := classRune_append (w := w) hhi
      simp only at h
      split at h
      · cases h
      · rename_i hle
        cases h
        refine ⟨hr'.trans ((suffix_cons d more).trans ((suffix_cons 45 _).trans hr)),
          fun _ whole' => bind_eq_ok.2 ⟨_, hlo' whole', ?_⟩⟩
        simp only [cons_append, if_neg hd]
        refine bind_eq_ok.2 ⟨_, hhi' whole', ?_⟩
        simp only [if_neg hle]
        rfl
  · rename_i hdash
    rw [if_neg (Nat.lt_irrefl lo)] at h
    cases h
    refine ⟨hr, fun hmem whole' => bind_eq_ok.2 ⟨_, hlo' whole', ?_⟩⟩
    simp only [pure_bind, if_neg (Nat.lt_irrefl lo)]
    split
    · rename_i d more heq
      -- the hyphen would be the last character before the bracket
      rcases rest with - | ⟨c, - | ⟨c', r⟩⟩
      · cases heq
      · cases heq
        simp at hmem
      · cases heq
        exact absurd rfl (hdash d r)
    · rfl

theorem classItem_append {whole : Text}
    (h : classItem fold whole (b :: t) = .ok (set, rest)) : rest <:+ t ∧ (93 ∈ rest →
    ∀ whole' y, classItem fold whole' (b :: (t ++ 41 :: w)) = .ok y → y = (set, rest ++ 41 :: w)) := by
  obtain ⟨x, hnamed, -⟩ := bind_eq_ok.1 h
  obtain ⟨hsuffix, hnamed'⟩ := namedClass?_append (w := w) hnamed
  have hsame {whole' : Text} {y : RuneSet × Text}
      (hy : classItem fold whole' (b :: (t ++ 41 :: w)) = .ok y) :
      namedClass? fold (b :: (t ++ 41 :: w)) = .ok (x.map fun y => (y.1, y.2 ++ 41 :: w)) := by
    obtain ⟨x', hx', -⟩ := bind_eq_ok.1 hy
    rw [hx', hnamed' x' hx']
  cases x with
  | some found =>
    cases (classItem_of_named hnamed).symm.trans h
    refine ⟨hsuffix _ rfl, fun _ whole' y hy => ?_⟩
    cases (classItem_of_named (hsame hy)).symm.trans hy
    rfl
  | none =>
    obtain ⟨x, hunicode⟩ := exists_unicodeClass? hnamed h
    obtain ⟨hsuffix, hunicode'⟩ := unicodeClass?_append (w := w) hunicode
    cases x with
    | some found =>
      cases (classItem_of_unicode hnamed hunicode).symm.trans h
      refine ⟨hsuffix _ rfl, fun _ whole' y hy => ?_⟩
      cases (classItem_of_unicode (hsame hy) hunicode').symm.trans hy
      rfl
    | none =>
      have hperl' := perlClass?_append (w := w) fold (b :: t)
      cases hperl : perlClass? fold (b :: t) with
      | some found =>
        cases (classItem_of_perl hnamed hunicode hperl).symm.trans h
        refine ⟨suffix_of_perlClass? hperl, fun _ whole' y hy => ?_⟩
        rw [hperl] at hperl'
        cases (classItem_of_perl (hsame hy) hunicode' hperl').symm.trans hy
        rfl
      | none =>
        rw [classItem_of_none hnamed hunicode hperl] at h
        obtain ⟨hrest, happend⟩ := classRange_append (w := w) h
        refine ⟨hrest, fun hmem whole' y hy => ?_⟩
        rw [hperl] at hperl'
        rw [classItem_of_none (hsame hy) hunicode' hperl', happend hmem whole'] at hy
        exact (Except.ok.inj hy).symm

theorem classItems_append (fuel : Nat) : ∀ {first : Bool} {set x : RuneSet} {whole t rest : Text},
    classItems fold whole fuel first set t = .ok (x, rest) → rest <:+ t ∧ 93 ∈ t ∧
    ∀ whole' fuel' y, fuel ≤ fuel' →
      classItems fold whole' fuel' first set (t ++ 41 :: w) = .ok y → y = (x, rest ++ 41 :: w) := by
  induction fuel with
  | zero =>
    intro first set x whole t rest h
    cases h
  | succ fuel ih =>
    intro first set x whole t rest h
    cases t with
    | nil => cases h
    | cons b t =>
      rw [classItems, head?_cons] at h
      split at h
      · rename_i hclose
        obtain ⟨hb, hfirst⟩ := Bool.and_eq_true_iff.1 hclose
        cases h
        refine ⟨suffix_cons b t, ?_, fun whole' fuel' y hfuel hy => ?_⟩
        · cases eq_of_beq hb
          exact mem_cons_self
        · obtain ⟨fuel', rfl⟩ := Nat.exists_eq_add_of_lt hfuel
          rw [classItems, cons_append, head?_cons, if_pos hclose] at hy
          exact (Except.ok.inj hy).symm
      · rename_i hclose
        obtain ⟨⟨more, r⟩, hmore, h⟩ := bind_eq_ok.1 h
        obtain ⟨hr, hmore'⟩ := classItem_append (w := w) hmore
        obtain ⟨hrest, hmem, happend⟩ := ih h
        have htail : r <:+ b :: t := hr.trans (suffix_cons b t)
        refine ⟨hrest.trans htail, htail.subset hmem, fun whole' fuel' y hfuel hy => ?_⟩
        obtain ⟨fuel', rfl⟩ := Nat.exists_eq_add_of_lt hfuel
        rw [classItems, cons_append, head?_cons, if_neg hclose] at hy
        obtain ⟨z, hz, hy⟩ := bind_eq_ok.1 hy
        cases hmore' hmem whole' z hz
        exact happend whole' _ y (Nat.le_add_right ..) hy

theorem bracket_append (h : bracket fold (b :: t) = .ok (set, rest)) : rest <:+ t ∧
    ∀ y, bracket fold (b :: (t ++ 41 :: w)) = .ok y → y = (set, rest ++ 41 :: w) := by
  cases t with
  | nil => cases h
  | cons c t =>
    obtain ⟨⟨x, r⟩, hx, h⟩ := bind_eq_ok.1 h
    obtain ⟨hr, -, happend⟩ := classItems_append (w := w) _ hx
    have hinner : (if ((c :: t ++ 41 :: w).head? == some 94) = true
          then (c :: t ++ 41 :: w).drop 1 else c :: t ++ 41 :: w) =
        (if ((c :: t).head? == some 94) = true then (c :: t).drop 1 else c :: t) ++ 41 :: w := by
      rw [cons_append, head?_cons, head?_cons]
      split <;> rfl
    refine ⟨?_, fun y hy => ?_⟩
    · cases h
      refine hr.trans ?_
      split
      · exact suffix_cons c t
      · exact suffix_refl _
    · obtain ⟨z, hz, hy⟩ := bind_eq_ok.1 hy
      simp only [drop_succ_cons, drop_zero] at hz happend hinner
      rw [hinner] at hz
      cases happend _ _ z (by rw [length_append]; omega) hz
      cases h
      cases hy
      rfl

end JavaToCpp.Pattern
