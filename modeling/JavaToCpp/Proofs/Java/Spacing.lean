/-
  White space between tokens.
-/
import JavaToCpp.Proofs.Java.Lexicon
import JavaToCpp.Proofs.Pattern.Context

namespace JavaToCpp.Java

open Pattern List Text

/-! ## One token -/

section Matches

variable {table : Token.Table} {sights : Sights Shape} {x c d : Text} {rule : Token.Rule}

/-- What is known of a match of a rule that is not passed over. -/
structure Matched (x c : Text) (s : Shape) : Prop where
  read : shapes.read shapes.start (x ++ c) x.length = some s
  whole : s.whole
  boundary : s.ofWord → Assertion.wordBoundary.holds (placeAt (x ++ c) x.length)

theorem exists_matched (ht : hasShapes table sights) (hskip : ¬ rule.skip)
    (hm : table.match? (x ++ c) = some (rule, x.length)) : ∃ s, Matched x c s := by
  obtain ⟨m, hmatch, hrule, htaken⟩ := Token.match?_eq_some_iff.1 hm
  obtain ⟨i, hway, haccept⟩ := ends_of_match? hmatch
  obtain ⟨v, hv, htold⟩ := exists_told (sees_of_hasShapes ht) hway
  have hfits := fits_of_hasShapes ht haccept hv
  rw [fits, htold.entered, hrule, Option.any_some, if_neg hskip, Bool.and_eq_true, Bool.or_eq_true] at hfits
  rw [htaken] at htold
  refine ⟨v.state, htold.state, hfits.1, fun hword => ?_⟩
  have hrequired := hfits.2.resolve_left (by simp [hword])
  exact htold.required _ (contains_iff_mem.1 hrequired)

theorem Matched.ne_nil {s : Shape} (h : Matched x c s) : x ≠ [] := by
  rintro rfl
  have hread := h.read
  rw [length_nil, Watcher.read] at hread
  cases hread
  exact absurd h.whole (by decide)

theorem Matched.begins {s : Shape} (h : Matched x c s) : Begins x := by
  have hs : s ≠ .none := by
    rintro rfl
    exact absurd h.whole (by decide)
  obtain ⟨b, rest, heq, hb⟩ := begins_of_read h.read (mt length_eq_zero_iff.1 h.ne_nil) hs
  obtain ⟨b', x, rfl⟩ := exists_cons_of_ne_nil h.ne_nil
  cases heq
  exact ⟨b, x, rfl, hb⟩

theorem Matched.last {s : Shape} (h : Matched x c s) :
    ∃ b, x.getLast? = some b ∧ b < 0x80 ∧ (s.ofWord → isWord b) := by
  rcases Watcher.exists_of_read h.read with ⟨hn, -⟩ | ⟨hpos, s₁, rune, rfl, hlast⟩
  · exact absurd (length_eq_zero_iff.1 hn) h.ne_nil
  · obtain ⟨hblank, hforeign⟩ := Shape.of_whole_next h.whole
    have hlt := lt_of_kind hblank hforeign
    refine ⟨UInt8.ofNat rune, ?_, ?_, fun hword => isWord_of_kind rune hlt (Shape.of_ofWord_next hword)⟩
    · rw [← hlast hlt, getLast?_eq_getElem?, getElem?_append_left (by omega)]
    · rw [UInt8.lt_iff_toNat_lt, UInt8.toNat_ofNat_of_lt' (Nat.lt_trans hlt (by decide))]
      exact hlt

theorem Matched.endsAscii {s : Shape} (h : Matched x c s) : EndsAscii x := by
  obtain ⟨b, hb, hlt, -⟩ := h.last
  intro b' hb'
  cases hb.symm.trans hb'
  exact hlt

theorem Matched.holds_boundary {s : Shape} (h : Matched x c s) (hs : s.ofWord) (hd : Apart d) :
    Assertion.wordBoundary.holds (placeAt (x ++ d) x.length) := by
  obtain ⟨b, hb, -, hword⟩ := h.last
  have hbefore : (placeAt (x ++ d) x.length).before = some b := by
    rw [before_append (Nat.le_refl _), placeAt, if_neg (mt length_eq_zero_iff.1 h.ne_nil),
      ← getLast?_eq_getElem?, hb]
  have hrest : (placeAt (x ++ d) x.length).rest = d := drop_left
  rw [Assertion.holds, hbefore, hrest, hd.not_isWord, wordAt, Option.any_some, hword hs]
  rfl

/-- **The match of a token** is the same one in front of any white space. -/
theorem match?_of_apart (ht : hasShapes table sights) (hskip : ¬ rule.skip)
    (hm : table.match? (x ++ c) = some (rule, x.length)) (hd : Apart d) :
    table.match? (x ++ d) = some (rule, x.length) := by
  obtain ⟨s, hs⟩ := exists_matched ht hskip hm
  obtain ⟨m, hmatch, hrule, htaken⟩ := Token.match?_eq_some_iff.1 hm
  refine Token.match?_eq_some_iff.2 ⟨m, match?_append hs.endsAscii hmatch htaken ?_ ?_, hrule, htaken⟩
  · intro w a hway hc
    obtain ⟨v, hv, htold⟩ := exists_told (sees_of_hasShapes ht) hway
    obtain rfl : v.state = s := Option.some.inj (htold.state.symm.trans hs.read)
    have hfits := fits_of_hasShapes ht hc hv
    rw [fits, Bool.or_eq_true, Bool.and_eq_true, Bool.or_eq_true] at hfits
    rcases hfits with ha | ⟨ha, hstate⟩
    · rw [eq_of_beq ha]
      rfl
    · have hword : v.state.ofWord := by
        refine hstate.resolve_left fun hstart => ?_
        have hwhole := hs.whole
        rw [eq_of_beq hstart] at hwhole
        cases hwhole
      rw [eq_of_beq ha, hs.boundary hword, hs.holds_boundary hword hd]
  · rintro m' ⟨i, hway, haccept⟩
    refine Nat.le_of_not_lt fun hlt => ?_
    obtain ⟨v, hv, htold⟩ := exists_told (sees_of_hasShapes ht) hway
    have hread : shapes.read shapes.start (x ++ d) x.length = some s := by
      rw [Watcher.read_append hs.endsAscii (Nat.le_refl _), ← hs.read,
        Watcher.read_append hs.endsAscii (Nat.le_refl _)]
    obtain ⟨k, hk⟩ : ∃ k, m'.taken = x.length + (k + 1) := ⟨m'.taken - x.length - 1, by omega⟩
    have hstate := htold.state
    rw [hk, Watcher.read_add hread, drop_left] at hstate
    have hidle := idle_of_read hs.whole hd hstate
    exact (state_of_fits (fits_of_hasShapes ht haccept hv)).1 hidle

end Matches

/-! ## All tokens -/

/-- What a token says: its category and its text. -/
def reading (k : Token) : Text × Text := (k.category, k.text)

section Pieces

variable {table : Token.Table} {sights : Sights Shape} {last : Text}

theorem apart_weave (ht : hasShapes table sights) (hlast : White last) :
    ∀ {pieces : List (Text × Token)}, (∀ x ∈ pieces, Known table x.2 ∧ White x.1 ∧ x.1 ≠ []) →
    Apart (Token.weave pieces last)
  | [], _ => ⟨last, [], (append_nil _).symm, hlast, .inl rfl⟩
  | (gap, k) :: pieces, h => by
    obtain ⟨⟨⟨rule, c, hm, hskip, -⟩, hgap, hne⟩, -⟩ := forall_mem_cons.1 h
    obtain ⟨s, hs⟩ := exists_matched ht hskip hm
    exact ⟨gap, _, rfl, hgap, .inr ⟨hne, hs.begins.append _⟩⟩

theorem spaced_of_known (ht : hasShapes table sights) (hlast : White last) :
    ∀ {pieces : List (Text × Token)}, (∀ x ∈ pieces, Known table x.2 ∧ White x.1) →
    (∀ x ∈ pieces.tail, x.1 ≠ []) → Token.Spaced table last pieces
  | [], _, _ => .last hlast
  | (gap, k) :: pieces, h, hne => by
    obtain ⟨⟨⟨rule, c, hm, hskip, hcategory⟩, hgap⟩, hpieces⟩ := forall_mem_cons.1 h
    have hapart : Apart (Token.weave pieces last) :=
      apart_weave ht hlast fun x hx => ⟨(hpieces x hx).1, (hpieces x hx).2, hne x hx⟩
    obtain ⟨s, hs⟩ := exists_matched ht hskip hm
    exact .token hgap hs.ne_nil (hs.begins.append _).leadingBlank_eq (match?_of_apart ht hskip hm hapart)
      hskip hcategory (spaced_of_known ht hlast hpieces fun x hx => hne x (mem_of_mem_tail hx))

theorem map_reading_placed : ∀ (before : Text) (pieces : List (Text × Token)),
    (Token.placed before pieces).map reading = (pieces.map Prod.snd).map reading
  | _, [] => rfl
  | before, (gap, k) :: pieces =>
    congrArg (List.cons (reading k)) (map_reading_placed (before ++ gap ++ k.text) pieces)

end Pieces

/-- **White space does not change tokens.** If a source has tokens, then their texts, with any white space
    between neighbours and at both ends, have the same ones. -/
theorem tokenize_respaced {source : Text} {ts : List Token} (h : tokenize source = .ok ts)
    {pieces : List (Text × Token)} {last : Text} (htokens : pieces.map Prod.snd = ts)
    (hgaps : ∀ x ∈ pieces, White x.1) (hne : ∀ x ∈ pieces.tail, x.1 ≠ [])
    (hlast : White last) :
    ∃ ts', tokenize (Token.weave pieces last) = .ok ts' ∧ ts'.map reading = ts.map reading := by
  obtain ⟨table, htable, hshapes, -⟩ := exists_lexicon
  have hall := tokenize_eq htable hshapes source
  rw [h] at hall
  obtain ⟨tiles, rest, hts, -, htiled, -⟩ := Token.tiled_of_all_eq_ok [] hall
  have hknown : ∀ x ∈ pieces, Known table x.2 := by
    intro x hx
    refine known_of_tiled htiled x.2 ?_
    rw [← show ts = tiles.map Prod.snd from hts, ← htokens]
    exact mem_map_of_mem hx
  have hspaced := spaced_of_known hshapes hlast (fun x hx => ⟨hknown x hx, hgaps x hx⟩) hne
  refine ⟨Token.placed [] pieces, ?_, ?_⟩
  · have hplaced := Token.tokenize_of_spaced hspaced
    rw [tokenize_eq htable hshapes] at hplaced
    exact Option.some.inj hplaced
  · rw [map_reading_placed, htokens]

theorem tokenize_less : tokenize (ofString "i<9") =
    .ok [⟨"id", "i", 1, 1⟩, ⟨"compare", "<", 2, 1⟩, ⟨"number_int", "9", 3, 1⟩] := by
  obtain ⟨table, htable, hshapes, -, hfirst⟩ := exists_lexicon
  obtain ⟨r, hm, hskip, hcategory⟩ := hfirst ("i<9", "id", 1) (by simp [firstMatches])
  obtain ⟨r', hm', hskip', hcategory'⟩ := hfirst ("<9", "compare", 1) (by simp [firstMatches])
  obtain ⟨r'', hm'', hskip'', hcategory''⟩ := hfirst ("9", "number_int", 1) (by simp [firstMatches])
  have hwhite : White [] := ⟨[], nofun, rfl⟩
  have hspaced : Token.Spaced table [] [([], ⟨"id", "i", 1, 1⟩), ([], ⟨"compare", "<", 2, 1⟩),
      ([], ⟨"number_int", "9", 3, 1⟩)] :=
    .token hwhite (by decide) (by decide +kernel) hm hskip hcategory.symm
      (.token hwhite (by decide) (by decide +kernel) hm' hskip' hcategory'.symm
        (.token hwhite (by decide) (by decide +kernel) hm'' hskip'' hcategory''.symm (.last hwhite)))
  have hplaced := Token.tokenize_of_spaced hspaced
  exact Option.some_injective _ ((tokenize_eq htable hshapes _).symm.trans hplaced)

/-- A comparison on two lines, with white space of several kinds. -/
def wideLess : List (Text × Token) :=
  [("\u2003", ⟨"id", "i", 1, 1⟩), ("\n\t", ⟨"compare", "<", 2, 1⟩),
    ("\u3000", ⟨"number_int", "9", 3, 1⟩)]

theorem tokenize_respaced_less : tokenize (ofString "i<9") = .ok (wideLess.map Prod.snd) ∧
    ∃ ts', tokenize (Token.weave wideLess " ") = .ok ts' ∧
      ts'.map reading = [⟨"id", "i"⟩, ⟨"compare", "<"⟩, ⟨"number_int", "9"⟩] := by
  have hgaps : ∀ x ∈ wideLess, White x.1 := by
    intro x hx
    simp only [wideLess, mem_cons, not_mem_nil, or_false] at hx
    rcases hx with rfl | rfl | rfl
    · exact ⟨[0x2003], by decide, by decide +kernel⟩
    · exact ⟨[10, 9], by decide, by decide +kernel⟩
    · exact ⟨[0x3000], by decide, by decide +kernel⟩
  exact ⟨tokenize_less, tokenize_respaced tokenize_less rfl hgaps (by decide +kernel)
    ⟨[32], by decide, by decide +kernel⟩⟩

end JavaToCpp.Java
