/-
  Words between white space.
-/
import JavaToCpp.Proofs.Text.Utf8
import Mathlib.Data.List.Basic

namespace JavaToCpp.Text

open List

/-! ## Characters one after the other -/

/-- The text does not start with a byte that goes on a sequence. -/
def Separates (t : Text) : Prop := ∀ b ∈ t.head?, within 0x80 0xBF b = false

theorem not_within_second {lo hi c : UInt8} (hlo : 0x80 ≤ lo.toNat) (hhi : hi.toNat ≤ 0xBF)
    (h : within 0x80 0xBF c = false) : within lo hi c = false := by
  refine Bool.eq_false_iff.2 fun hc => ?_
  obtain ⟨hge, hle⟩ := within_iff.1 hc
  exact Bool.eq_false_iff.1 h (within_iff.2 ⟨Nat.le_trans hlo hge, Nat.le_trans hle hhi⟩)

variable {b : UInt8} {t w sep l : Text}

theorem decodeHead_append {rest : Text} (h : Separates t) :
    decodeHead b (rest ++ t) = decodeHead b rest := by
  match t with
  | [] => rw [append_nil]
  | c :: t =>
    have hc : within 0x80 0xBF c = false := h c rfl
    have hthree : within (if b = 0xE0 then 0xA0 else 0x80) (if b = 0xED then 0x9F else 0xBF) c =
        false := not_within_second (by split <;> decide) (by split <;> decide) hc
    have hfour : within (if b = 0xF0 then 0x90 else 0x80) (if b = 0xF4 then 0x8F else 0xBF) c =
        false := not_within_second (by split <;> decide) (by split <;> decide) hc
    match rest with
    | [] => cases t with
      | nil => simp [decodeHead, hc]
      | cons d t => cases t <;> simp [decodeHead, hc, hthree, hfour]
    | [x] => cases t <;> simp [decodeHead, hc]
    | [x, y] => simp [decodeHead, hc]
    | x :: y :: z :: rest => rfl

theorem glyphs_cons (b : UInt8) (rest : Text) : glyphs (b :: rest) =
    ⟨(decodeHead b rest).1, b :: rest.take (decodeHead b rest).2⟩ ::
      glyphs (rest.drop (decodeHead b rest).2) := by
  conv => lhs; unfold glyphs

theorem glyphs_nil : glyphs [] = [] := by
  unfold glyphs
  rfl

theorem glyphs_append {u : Text} (h : Separates u) (t : Text) : glyphs (t ++ u) = glyphs t ++ glyphs u := by
  fun_induction glyphs t with
  | case1 => rfl
  | case2 b rest rune more hdecode ih =>
    have hle := decodeHead_le b rest
    rw [hdecode] at hle
    rw [cons_append, glyphs_cons, decodeHead_append h, hdecode, take_append_of_le_length hle,
      drop_append_of_le_length hle, ih]
    rfl

theorem glyphs_of_suffix : ∀ {xs ys : List Glyph} {t : Text}, glyphs t = xs ++ ys →
    glyphs (ofGlyphs ys) = ys
  | [], ys, t, h => by
    rw [nil_append] at h
    rw [← h, ofGlyphs_glyphs]
  | x :: xs, ys, [], h => by
    rw [glyphs_nil] at h
    cases h
  | x :: xs, ys, b :: rest, h => by
    rw [glyphs_cons, cons_append] at h
    exact glyphs_of_suffix (List.cons.inj h).2

theorem ofGlyphs_append (xs ys : List Glyph) : ofGlyphs (xs ++ ys) = ofGlyphs xs ++ ofGlyphs ys :=
  flatMap_append

/-- Some characters of a text are the characters of what they spell, if what comes behind them does
    not start with a byte that goes on a sequence. -/
theorem glyphs_of_infix {xs ys zs : List Glyph} (h : glyphs t = xs ++ (ys ++ zs))
    (hzs : Separates (ofGlyphs zs)) : glyphs (ofGlyphs ys) = ys := by
  have hsuffix := glyphs_of_suffix h
  have hrest : glyphs (ofGlyphs zs) = zs := glyphs_of_suffix hsuffix
  rw [ofGlyphs_append, glyphs_append hzs, hrest] at hsuffix
  exact append_cancel_right hsuffix

theorem separates_of_isBlank (h : ∀ g ∈ (glyphs t).head?, g.isBlank) : Separates t := by
  match t with
  | [] => exact nofun
  | b :: rest =>
    rintro _ ⟨⟩
    rw [glyphs_cons] at h
    have hblank := h _ rfl
    refine Bool.eq_false_iff.2 fun hb => ?_
    have hbounds := within_tail hb
    have hbad : decodeHead b rest = (replacement, 0) := by
      have h1 : ¬ b < 0x80 := by simp [UInt8.lt_iff_toNat_lt]; omega
      have h2 : ¬ within 0xC2 0xDF b := by simp [within_iff]; omega
      have h3 : ¬ within 0xE0 0xEF b := by simp [within_iff]; omega
      have h4 : ¬ within 0xF0 0xF4 b := by simp [within_iff]; omega
      simp [decodeHead, h1, h2, h3, h4]
    rw [hbad] at hblank
    exact absurd (show isBlank replacement from hblank) (by decide)

/-! ## Words -/

/-- The text is not empty and has no white space in it. -/
def IsWord (w : Text) : Prop := w ≠ [] ∧ ∀ g ∈ glyphs w, g.isBlank = false

theorem splitOnP_cases {α : Type} (p : α → Bool) (xs : List α) :
    (∀ x ∈ xs, p x = false) ∧ xs.splitOnP p = [xs] ∨
    ∃ ys sep zs, xs = ys ++ sep :: zs ∧ (∀ y ∈ ys, p y = false) ∧ p sep ∧
      xs.splitOnP p = ys :: zs.splitOnP p := by
  cases hfind : xs.find? p with
  | none =>
    have hnone : ∀ x ∈ xs, p x = false := by simpa using find?_eq_none.1 hfind
    exact .inl ⟨hnone, splitOnP_eq_singleton hnone⟩
  | some sep =>
    obtain ⟨hsep, ys, zs, rfl, hys⟩ := find?_eq_some_iff_append.1 hfind
    have hys : ∀ y ∈ ys, p y = false := by simpa using hys
    exact .inr ⟨ys, sep, zs, rfl, hys, hsep,
      splitOnP_append_cons_of_forall_mem hys sep hsep zs⟩

theorem exists_of_mem_splitOnP {α : Type} {p : α → Bool} (xs : List α) {run : List α}
    (h : run ∈ xs.splitOnP p) : ∃ before behind, xs = before ++ (run ++ behind) ∧
      (∀ x ∈ run, p x = false) ∧ ∀ x ∈ behind.head?, p x := by
  rcases splitOnP_cases p xs with ⟨hnone, hsplit⟩ | ⟨ys, sep, zs, hxs, hys, hsep, hsplit⟩
  · rw [hsplit] at h
    cases mem_singleton.1 h
    exact ⟨[], [], by simp, hnone, nofun⟩
  · rw [hsplit] at h
    rcases mem_cons.1 h with rfl | h
    · exact ⟨[], sep :: zs, hxs, hys, by simpa using hsep⟩
    · obtain ⟨before, behind, hzs, hrun, hbehind⟩ := exists_of_mem_splitOnP zs h
      exact ⟨ys ++ sep :: before, behind, by simp [hxs, hzs], hrun, hbehind⟩
termination_by xs.length
decreasing_by simp [hxs]; omega

theorem isWord_of_mem_fields (h : w ∈ fields t) :
    IsWord w ∧ ∃ before behind, t = before ++ (w ++ behind) := by
  obtain ⟨run, hrun, rfl⟩ := mem_map.1 h
  obtain ⟨hsplit, hne⟩ := mem_filter.1 hrun
  obtain ⟨before, behind, hglyphs, hsolid, hbehind⟩ := exists_of_mem_splitOnP _ hsplit
  have hseparates : Separates (ofGlyphs behind) := by
    refine separates_of_isBlank ?_
    rw [glyphs_of_suffix (glyphs_of_suffix hglyphs)]
    exact hbehind
  have hword : glyphs (ofGlyphs run) = run := glyphs_of_infix hglyphs hseparates
  refine ⟨⟨fun hnil => ?_, by rwa [hword]⟩, ofGlyphs before, ofGlyphs behind, ?_⟩
  · rw [hnil, glyphs_nil] at hword
    simp [← hword] at hne
  · rw [← ofGlyphs_append, ← ofGlyphs_append, ← hglyphs, ofGlyphs_glyphs]

theorem fields_nil : fields [] = [] := by
  rw [fields, glyphs_nil]
  rfl

theorem IsWord.glyphs_ne_nil (h : IsWord w) : glyphs w ≠ [] := fun hnil =>
  h.1 (by rw [← ofGlyphs_glyphs w, hnil]; rfl)

theorem fields_of_isWord (h : IsWord w) : fields w = [w] := by
  rw [fields, splitOnP_eq_singleton h.2, filter_cons_of_pos (by simp [h.glyphs_ne_nil])]
  simp [ofGlyphs_glyphs]

theorem glyphs_ascii (hb : b < 0x80) (t : Text) : glyphs (b :: t) = ⟨b.toNat, [b]⟩ :: glyphs t := by
  rw [glyphs_cons, show decodeHead b t = (b.toNat, 0) by simp [decodeHead, hb]]
  rfl

theorem separates_ascii (hb : b < 0x80) (t : Text) : Separates (b :: t) := by
  rintro _ ⟨⟩
  refine Bool.eq_false_iff.2 fun hwithin => ?_
  have hbounds := within_tail hwithin
  rw [UInt8.lt_iff_toNat_lt] at hb
  simp at hb
  omega

theorem fields_append (hb : b < 0x80) (hblank : isBlank b.toNat) (t u : Text) :
    fields (t ++ b :: u) = fields t ++ fields u := by
  have hglyph : Glyph.isBlank ⟨b.toNat, [b]⟩ := hblank
  rw [fields, glyphs_append (separates_ascii hb u), glyphs_ascii hb,
    splitOnP_append_cons _ _ hglyph, filter_append, map_append]
  rfl

theorem ofString_blank : ofString " " = [blank] := by decide

theorem join_cons_cons (sep w u : Text) (ws : List Text) :
    join sep (w :: u :: ws) = w ++ (sep ++ join sep (u :: ws)) := by
  simp [join, intercalate_cons_cons]

theorem join_singleton (sep w : Text) : join sep [w] = w := by
  simp [join]

theorem fields_join : ∀ {ws : List Text}, (∀ w ∈ ws, IsWord w) → fields (join " " ws) = ws
  | [], _ => fields_nil
  | [w], h => by
    rw [join_singleton]
    exact fields_of_isWord (h w (mem_singleton_self w))
  | w :: u :: ws, h => by
    obtain ⟨hw, hrest⟩ := forall_mem_cons.1 h
    rw [join_cons_cons, ofString_blank, singleton_append, fields_append (by decide) (by decide),
      fields_of_isWord hw, ← ofString_blank, fields_join hrest]
    rfl

/-! ## White space at the ends -/

theorem dropWhile_eq_self {α : Type} {p : α → Bool} {xs : List α} (h : ∀ x ∈ xs.head?, p x = false) :
    xs.dropWhile p = xs := by
  cases xs with
  | nil => rfl
  | cons x xs => rw [dropWhile_cons_of_neg (by simp [h x rfl])]

theorem strip_eq_self (hhead : ∀ g ∈ (glyphs t).head?, g.isBlank = false)
    (hlast : ∀ g ∈ (glyphs t).getLast?, g.isBlank = false) : strip t = t := by
  rw [strip, dropWhile_eq_self hhead, dropWhile_eq_self (by rwa [head?_reverse]),
    reverse_reverse, ofGlyphs_glyphs]

/-- What is left of a text without the white space at its ends does not start with white space, and
    it stands in the text. -/
theorem strip_spec (t : Text) : (∀ g ∈ (glyphs (strip t)).head?, g.isBlank = false) ∧
    ∃ before behind, t = before ++ (strip t ++ behind) := by
  have hsplit : glyphs t = (glyphs t).takeWhile Glyph.isBlank ++ (glyphs t).dropWhile Glyph.isBlank :=
    takeWhile_append_dropWhile.symm
  have hhead := head?_dropWhile_not Glyph.isBlank (glyphs t)
  rw [strip]
  generalize (glyphs t).takeWhile Glyph.isBlank = xs at hsplit
  generalize (glyphs t).dropWhile Glyph.isBlank = ys at hsplit hhead ⊢
  have hends : ys = (ys.reverse.dropWhile Glyph.isBlank).reverse ++
      (ys.reverse.takeWhile Glyph.isBlank).reverse := by
    rw [← reverse_append, takeWhile_append_dropWhile, reverse_reverse]
  have hblank : ∀ g ∈ (ys.reverse.takeWhile Glyph.isBlank).reverse, g.isBlank := by
    intro g hg
    exact all_eq_true.1 all_takeWhile g (mem_reverse.1 hg)
  generalize (ys.reverse.dropWhile Glyph.isBlank).reverse = mid at hends ⊢
  generalize (ys.reverse.takeWhile Glyph.isBlank).reverse = zs at hends hblank
  subst hends
  have hzs : glyphs (ofGlyphs zs) = zs := glyphs_of_suffix (glyphs_of_suffix hsplit)
  have hmid : glyphs (ofGlyphs mid) = mid := by
    refine glyphs_of_infix hsplit (separates_of_isBlank ?_)
    rw [hzs]
    exact fun g hg => hblank g (mem_of_mem_head? hg)
  refine ⟨?_, ofGlyphs xs, ofGlyphs zs, ?_⟩
  · rw [hmid]
    cases mid with
    | nil => exact nofun
    | cons g mid =>
      rintro _ ⟨⟩
      simpa using hhead
  · rw [← ofGlyphs_append, ← ofGlyphs_append, ← hsplit, ofGlyphs_glyphs]

theorem head_of_fields {ws : List Text} (h : fields t = w :: ws)
    (hhead : ∀ g ∈ (glyphs t).head?, g.isBlank = false) : ∃ rest, t = w ++ rest := by
  rcases splitOnP_cases Glyph.isBlank (glyphs t) with ⟨hnone, -⟩ | ⟨ys, sep, zs, ht, -, hsep, hsplit⟩
  · cases hglyphs : glyphs t with
    | nil => 
      rw [fields, hglyphs] at h
      cases h
    | cons g gs =>
      have hword : IsWord t := ⟨fun hnil => by simp [hnil, glyphs_nil] at hglyphs, hnone⟩
      rw [fields_of_isWord hword] at h
      cases h
      exact ⟨[], by simp⟩
  · cases ys with
    | nil => simp [ht, hsep] at hhead
    | cons y ys =>
      rw [fields, hsplit] at h
      cases h
      refine ⟨ofGlyphs (sep :: zs), ?_⟩
      rw [← ofGlyphs_append, ← ht, ofGlyphs_glyphs]

/-! ## Cuts -/

theorem stripPrefix?_eq_some : ∀ {p t rest : Text}, stripPrefix? p t = some rest ↔ t = p ++ rest
  | [], t, rest => by simp [stripPrefix?]
  | a :: p, [], rest => by simp [stripPrefix?]
  | a :: p, b :: t, rest => by
    rw [stripPrefix?]
    split
    · rename_i hab
      simp [stripPrefix?_eq_some, hab]
    · rename_i hab
      simp [Ne.symm hab]

theorem startsWith_iff {p : Text} : startsWith p t ↔ ∃ rest, t = p ++ rest := by
  rw [startsWith, Option.isSome_iff_exists]
  simp only [stripPrefix?_eq_some]

theorem placeFrom?_eq_some {here : Text → Bool} : ∀ {t : Text} {n m : Nat},
    placeFrom? here n t = some m ↔ ∃ l r, t = l ++ r ∧ m = n + l.length ∧ here r ∧
      ∀ l' r', t = l' ++ r' → here r' → l.length ≤ l'.length
  | [], n, m => by
    rw [placeFrom?]
    constructor
    · intro h
      split at h
      · cases h
        exact ⟨[], [], rfl, rfl, ‹_›, fun l' r' _ _ => Nat.zero_le _⟩
      · cases h
    · rintro ⟨l, r, h, rfl, hr, -⟩
      obtain ⟨rfl, rfl⟩ := append_eq_nil_iff.1 h.symm
      rw [if_pos hr]
      rfl
  | b :: t, n, m => by
    rw [placeFrom?]
    by_cases hb : here (b :: t)
    · rw [if_pos hb]
      constructor
      · rintro ⟨⟩
        exact ⟨[], b :: t, rfl, rfl, hb, fun l' r' _ _ => Nat.zero_le _⟩
      · rintro ⟨l, r, -, rfl, -, hfirst⟩
        rw [Nat.le_zero.1 (hfirst [] _ rfl hb)]
        rfl
    · rw [if_neg hb, placeFrom?_eq_some]
      constructor
      · rintro ⟨l, r, rfl, rfl, hr, hfirst⟩
        refine ⟨b :: l, r, rfl, by simp only [length_cons]; omega, hr, fun l' r' h hr' => ?_⟩
        cases l' with
        | nil =>
          cases h
          exact absurd hr' hb
        | cons c l' => exact Nat.succ_le_succ (hfirst l' r' (List.cons.inj h).2 hr')
      · rintro ⟨l, r, h, rfl, hr, hfirst⟩
        cases l with
        | nil =>
          cases h
          exact absurd hr hb
        | cons c l =>
          obtain ⟨rfl, rfl⟩ := List.cons.inj h
          refine ⟨l, r, rfl, by simp only [length_cons]; omega, hr, fun l' r' h hr' => ?_⟩
          exact Nat.le_of_succ_le_succ (hfirst (b :: l') r' (congrArg (b :: ·) h) hr')

theorem cut?_eq_some {r : Text} : cut? sep t = some (l, r) ↔ t = l ++ (sep ++ r) ∧
    ∀ l' r', t = l' ++ (sep ++ r') → l.length ≤ l'.length := by
  have hdrop (l r : Text) : ((l ++ (sep ++ r)).take l.length,
      (l ++ (sep ++ r)).drop (l.length + sep.length)) = (l, r) := by
    simp [← drop_drop]
  rw [cut?, Option.map_eq_some_iff]
  constructor
  · rintro ⟨n, hn, h⟩
    obtain ⟨l₀, r₀, rfl, rfl, hr₀, hfirst⟩ := placeFrom?_eq_some.1 hn
    obtain ⟨r₁, rfl⟩ := startsWith_iff.1 hr₀
    rw [Nat.zero_add, hdrop] at h
    cases h
    exact ⟨rfl, fun l' r' h => hfirst l' _ h (startsWith_iff.2 ⟨r', rfl⟩)⟩
  · rintro ⟨rfl, hfirst⟩
    refine ⟨l.length, placeFrom?_eq_some.2 ⟨l, sep ++ r, rfl, (Nat.zero_add _).symm,
      startsWith_iff.2 ⟨r, rfl⟩, fun l' r' h hr' => ?_⟩, hdrop l r⟩
    obtain ⟨r₁, rfl⟩ := startsWith_iff.1 hr'
    exact hfirst l' r₁ h

theorem placeFrom?_eq_none {here : Text → Bool} : ∀ {t : Text} {n : Nat},
    placeFrom? here n t = none → ∀ l r, t = l ++ r → here r = false
  | [], n, h, l, r, ht => by
    obtain ⟨-, rfl⟩ := append_eq_nil_iff.1 ht.symm
    simpa [placeFrom?] using h
  | b :: t, n, h, l, r, ht => by
    rw [placeFrom?] at h
    split at h
    · cases h
    · rename_i hhere
      cases l with
      | nil =>
        cases ht
        simpa using hhere
      | cons c l => exact placeFrom?_eq_none h l r (List.cons.inj ht).2

theorem cut?_eq_none (h : cut? sep t = none) (l r : Text) : t ≠ l ++ (sep ++ r) := by
  intro ht
  rw [cut?, Option.map_eq_none_iff] at h
  exact Bool.eq_false_iff.1 (placeFrom?_eq_none h l _ ht) (startsWith_iff.2 ⟨r, rfl⟩)

theorem exists_cut? {r : Text} (h : t = l ++ (sep ++ r)) : ∃ l' r', cut? sep t = some (l', r') := by
  cases hcut : cut? sep t with
  | none => exact absurd h (cut?_eq_none hcut l r)
  | some p => exact ⟨p.1, p.2, rfl⟩

theorem cut?_of_notMem (h : b ∉ l) (r : Text) : cut? [b] (l ++ b :: r) = some (l, r) := by
  refine cut?_eq_some.2 ⟨rfl, fun l' r' heq => ?_⟩
  rcases append_eq_append_iff.1 heq with ⟨k, rfl, -⟩ | ⟨k, rfl, hk⟩
  · simp
  · cases k with
    | nil => simp
    | cons c k =>
      cases (List.cons.inj hk).1
      simp at h

/-! ## The order of byte strings -/

theorem le_iff : ∀ {s t : List UInt8}, le s t ↔ s ≤ t
  | [], _ => by simp [le]
  | _ :: _, [] => by simp [le]
  | a :: s, b :: t => by
    rw [le, cons_le_cons_iff]
    split
    · rename_i hab
      simp [hab, le_iff, UInt8.lt_irrefl]
    · rename_i hab
      simp [hab]

end JavaToCpp.Text
