/-
  The rule text of a grammar can be read again.
-/
import JavaToCpp.Grammar.Rows
import JavaToCpp.Proofs.Grammar.WellFormed
import JavaToCpp.Proofs.Text.Fields

namespace JavaToCpp.Grammar

open List Text

/-! ## Symbols -/

/-- What can stand on the right of a rule. -/
structure IsSymbol (x : Text) : Prop where
  word : IsWord x
  newline : newline ∉ x
  bar : byte '|' ∉ x

/-- What can stand on the left of a rule. -/
structure IsName (s : Text) : Prop where
  word : IsWord s
  newline : newline ∉ s
  arrow : ∀ l r : Text, s ≠ l ++ ("->" ++ r)
  comment : s.head? ≠ some 35

variable {t line : Text} {s : Symbol}

theorem mem_of_mem_fields {w : Text} (h : w ∈ fields t) {b : UInt8} (hb : b ∈ w) : b ∈ t := by
  obtain ⟨-, before, behind, rfl⟩ := isWord_of_mem_fields h
  simp [hb]

theorem mem_of_mem_splitOn {part : Text} {sep : UInt8} (h : part ∈ t.splitOn sep) :
    sep ∉ part ∧ ∀ b ∈ part, b ∈ t := by
  obtain ⟨before, behind, ht, hpart, -⟩ := exists_of_mem_splitOnP _ h
  refine ⟨fun hsep => by simpa using hpart sep hsep, fun b hb => ?_⟩
  rw [ht]
  simp [hb]

theorem isName_of_cut {left right s : Text} (hnewline : newline ∉ line)
    (hhead : ∀ g ∈ (glyphs line).head?, g.isBlank = false) (hcomment : line.head? ≠ some 35)
    (hcut : cut? "->" line = some (left, right)) (hleft : fields left = [s]) : IsName s := by
  have hmem : s ∈ fields left := by simp [hleft]
  obtain ⟨hword, before, behind, hbefore⟩ := isWord_of_mem_fields hmem
  obtain ⟨hline, hfirst⟩ := cut?_eq_some.1 hcut
  have hglyphs : glyphs line = glyphs left ++ glyphs ("->" ++ right) := by
    rw [hline]
    exact glyphs_append (separates_ascii (by decide) _) left
  have hleft_head : ∀ g ∈ (glyphs left).head?, g.isBlank = false := by
    intro g hg
    refine hhead g ?_
    rw [hglyphs, head?_append, hg]
    rfl
  obtain ⟨rest, hrest⟩ := head_of_fields hleft hleft_head
  refine ⟨hword, fun h => hnewline ?_, fun l r h => ?_, fun h => hcomment ?_⟩
  · rw [hline, hbefore]
    simp [h]
  · have hle := hfirst (before ++ l) (r ++ behind ++ ("->" ++ right)) (by rw [hline, hbefore, h]; simp)
    have harrow : (ofString "->").length = 2 := by decide
    rw [hbefore, h] at hle
    simp only [length_append] at hle
    omega
  · rw [hline, hrest]
    cases s with
    | nil => cases h
    | cons b s => exact h

theorem parseLine_symbols {n : Nat} {found : List (Symbol × List Symbol)}
    (hnewline : newline ∉ line) (h : parseLine n line = .ok found) :
    ∀ a ∈ found, IsName a.1 ∧ ∀ x ∈ a.2, IsSymbol x := by
  obtain ⟨hhead, before, behind, hstrip⟩ := strip_spec line
  have hnewline' : newline ∉ strip line := fun hmem => hnewline (by rw [hstrip]; simp [hmem])
  unfold parseLine at h
  simp only at h
  split at h
  · cases h
    simp
  · rename_i hcomment
    split at h
    · cases h
    · rename_i left right hcut
      split at h
      · rename_i s hleft
        intro a ha
        obtain ⟨part, hpart, hfound⟩ := exists_of_mem_mapM h ha
        obtain ⟨hbar, hmem⟩ := mem_of_mem_splitOn hpart
        split at hfound
        · cases hfound
        · cases hfound
          have hcomment' : (strip line).head? ≠ some 35 := by
            intro h35
            simp [h35] at hcomment
          refine ⟨isName_of_cut hnewline' hhead hcomment' hcut hleft, fun x hx => ?_⟩
          refine ⟨(isWord_of_mem_fields hx).1, fun hmem' => hnewline' ?_,
            fun hmem' => hbar (mem_of_mem_fields hx hmem')⟩
          rw [(cut?_eq_some.1 hcut).1]
          simp [hmem _ (mem_of_mem_fields hx hmem')]
      · cases h

theorem newline_not_mem {text : Text} (h : line ∈ lines text) : newline ∉ line := by
  have hsub : line ∈ text.splitOn newline := by
    rw [lines] at h
    split at h
    · rename_i rest hrest
      refine mem_reverse.1 ?_
      rw [hrest]
      exact mem_cons_of_mem _ (mem_reverse.1 h)
    · exact mem_reverse.1 (mem_reverse.1 h)
  exact (mem_of_mem_splitOn hsub).1

theorem parseLines_symbols : ∀ {ls : List Text} {n : Nat} {found : List (Symbol × List Symbol)},
    (∀ line ∈ ls, newline ∉ line) → parseLines n ls = .ok found →
    ∀ a ∈ found, IsName a.1 ∧ ∀ x ∈ a.2, IsSymbol x
  | [], _, _, _, h => by cases h; simp
  | line :: rest, n, found, hls, h => by
    obtain ⟨hline, hrest⟩ := forall_mem_cons.1 hls
    unfold parseLines at h
    split at h
    · cases h
    · obtain ⟨here, hhere, h⟩ := bind_eq_ok.1 h
      obtain ⟨later, hlater, h⟩ := bind_eq_ok.1 h
      cases h
      intro a ha
      rcases mem_append.1 ha with ha | ha
      · exact parseLine_symbols hline hhere a ha
      · exact parseLines_symbols hrest hlater a ha

/-- A grammar whose rules can stand in a text. -/
structure Readable (g : Grammar) : Prop where
  rules_ne_nil : g.rules ≠ []
  name : ∀ r ∈ g.rules, IsName r.lhs
  symbol : ∀ r ∈ g.rules, ∀ x ∈ r.rhs, IsSymbol x
  rhs_ne_nil : ∀ r ∈ g.rules, r.rhs ≠ []

theorem load_readable {text : Text} {g : Grammar} (h : load text = .ok g) : g.Readable := by
  have hwf := load_wellFormed h
  obtain ⟨as, has, h⟩ := bind_eq_ok.1 h
  have hsymbols := parseLines_symbols (fun _ => newline_not_mem) has
  split at h
  · cases h
  · rename_i hempty
    cases h
    refine ⟨?_, fun r hr => (hsymbols _ (mem_ofAlternatives hr).1).1,
      fun r hr => (hsymbols _ (mem_ofAlternatives hr).1).2, hwf.rhs_ne_nil⟩
    simpa [ofAlternatives] using hempty

/-! ## Lines -/

/-- The line with the alternatives of a nonterminal, without its end. -/
def ruleLine (s : Symbol) (rights : List (List Symbol)) : Text :=
  s ++ " -> " ++ join " | " (rights.map (join " "))

/-- The text behind a blank ends with a word behind a blank. -/
def EndsInWord (t : Text) : Prop := ∃ x w, blank :: t = x ++ blank :: w ∧ IsWord w

theorem EndsInWord.append (h : EndsInWord t) (u : Text) : EndsInWord (u ++ blank :: t) := by
  obtain ⟨x, w, hx, hw⟩ := h
  exact ⟨blank :: u ++ x, w, by simp [hx], hw⟩

theorem endsInWord_join : ∀ {ws : List Text}, ws ≠ [] → (∀ w ∈ ws, IsWord w) → EndsInWord (join " " ws)
  | [w], _, h => by
    rw [join_singleton]
    exact ⟨[], w, rfl, h w (mem_singleton_self w)⟩
  | w :: u :: ws, _, h => by
    have ih := endsInWord_join (cons_ne_nil u ws) (forall_mem_cons.1 h).2
    rw [join_cons_cons, ofString_blank, singleton_append, ← ofString_blank]
    exact ih.append w

theorem ofString_bar : ofString " | " = [blank, byte '|', blank] := by decide

theorem ofString_arrow : ofString " -> " = [blank, 45, 62, blank] := by decide

/-- A right-hand side that can be read. -/
def IsRight (rhs : List Symbol) : Prop := rhs ≠ [] ∧ ∀ x ∈ rhs, IsSymbol x

theorem endsInWord_alternatives : ∀ {rights : List (List Symbol)}, rights ≠ [] →
    (∀ rhs ∈ rights, IsRight rhs) → EndsInWord (join " | " (rights.map (join " ")))
  | [rhs], _, h => by
    obtain ⟨hne, hsymbols⟩ := h rhs (mem_singleton_self rhs)
    rw [map_singleton, join_singleton]
    exact endsInWord_join hne fun x hx => (hsymbols x hx).word
  | rhs :: rhs' :: rights, _, h => by
    have ih := endsInWord_alternatives (cons_ne_nil rhs' rights) (forall_mem_cons.1 h).2
    have hjoin : join " | " ((rhs :: rhs' :: rights).map (join " ")) =
        (join " " rhs ++ [blank, byte '|']) ++
          blank :: join " | " ((rhs' :: rights).map (join " ")) := by
      rw [map_cons, map_cons, join_cons_cons, ofString_bar]
      simp
    rw [hjoin]
    exact ih.append _

theorem EndsInWord.getLast (h : EndsInWord t) : ∀ g ∈ (glyphs t).getLast?, g.isBlank = false := by
  obtain ⟨x, w, hx, hw⟩ := h
  have hlast : (glyphs t).getLast? = (glyphs w).getLast? := by
    cases x with
    | nil =>
      cases hx
      rfl
    | cons b x =>
      have ht : t = x ++ blank :: w := (List.cons.inj hx).2
      rw [ht, glyphs_append (separates_ascii (by decide) w), glyphs_ascii (by decide)]
      have hsome : ((glyphs w).getLast?).isSome := by simp [hw.glyphs_ne_nil]
      obtain ⟨g, gs, hg⟩ := exists_cons_of_ne_nil hw.glyphs_ne_nil
      rw [getLast?_append, hg, getLast?_cons_cons, ← hg, Option.or_of_isSome hsome]
  intro g hg
  rw [hlast] at hg
  exact hw.2 g (mem_of_mem_getLast? hg)

theorem strip_ruleLine {rights : List (List Symbol)} (hs : IsWord s) (hne : rights ≠ [])
    (h : ∀ rhs ∈ rights, IsRight rhs) : strip (ruleLine s rights) = ruleLine s rights := by
  have hline : ruleLine s rights =
      (s ++ [blank, 45, 62]) ++ blank :: join " | " (rights.map (join " ")) := by
    rw [ruleLine, ofString_arrow]
    simp
  refine strip_eq_self (fun g hg => ?_) ?_
  · rw [hline, append_assoc, cons_append,
      glyphs_append (separates_ascii (by decide) _),
      head?_append_of_ne_nil _ hs.glyphs_ne_nil] at hg
    exact hs.2 g (mem_of_mem_head? hg)
  · rw [hline]
    exact ((endsInWord_alternatives hne h).append _).getLast

theorem not_mem_join {b : UInt8} {sep : Text} (hsep : b ∉ sep) : ∀ {ws : List Text}, (∀ w ∈ ws, b ∉ w) →
    b ∉ join sep ws
  | [], _ => by simp [join]
  | [w], h => by
    rw [join_singleton]
    exact h w (mem_singleton_self w)
  | w :: u :: ws, h => by
    obtain ⟨hw, hrest⟩ := forall_mem_cons.1 h
    rw [join_cons_cons]
    simp [hw, hsep, not_mem_join hsep hrest]

theorem fields_alternative {rhs : List Symbol} (h : ∀ x ∈ rhs, IsSymbol x) :
    fields (blank :: join " " rhs) = rhs := by
  have hfields := fields_append (b := blank) (by decide) (by decide) [] (join " " rhs)
  rwa [nil_append, fields_nil, nil_append,
    fields_join fun x hx => (h x hx).word] at hfields

theorem bar_not_mem {rhs : List Symbol} (h : ∀ x ∈ rhs, IsSymbol x) :
    ∀ b ∈ blank :: join " " rhs, (b == byte '|') = false := by
  have hjoin : byte '|' ∉ join " " rhs := not_mem_join (by decide) fun x hx => (h x hx).bar
  intro b hb
  rcases mem_cons.1 hb with rfl | hb
  · decide
  · refine Bool.eq_false_iff.2 fun heq => hjoin ?_
    rwa [eq_of_beq heq] at hb

theorem fields_parts : ∀ {rights : List (List Symbol)}, rights ≠ [] → (∀ rhs ∈ rights, IsRight rhs) →
    ((blank :: join " | " (rights.map (join " "))).splitOn (byte '|')).map fields = rights
  | [rhs], _, h => by
    obtain ⟨-, hsymbols⟩ := h rhs (mem_singleton_self rhs)
    rw [map_singleton, join_singleton, splitOn,
      splitOnP_eq_singleton (bar_not_mem hsymbols), map_singleton,
      fields_alternative hsymbols]
  | rhs :: rhs' :: rights, _, h => by
    obtain ⟨⟨-, hsymbols⟩, hrest⟩ := forall_mem_cons.1 h
    have ih := fields_parts (cons_ne_nil rhs' rights) hrest
    have hjoin : blank :: join " | " ((rhs :: rhs' :: rights).map (join " ")) =
        (blank :: join " " rhs ++ [blank]) ++
          byte '|' :: blank :: join " | " ((rhs' :: rights).map (join " ")) := by
      rw [map_cons, map_cons, join_cons_cons, ofString_bar]
      simp
    have hfirst : ∀ b ∈ blank :: join " " rhs ++ [blank], (b == byte '|') = false := by
      refine forall_mem_append.2 ⟨bar_not_mem hsymbols, ?_⟩
      simp only [mem_singleton, forall_eq]
      decide
    rw [hjoin, splitOn, splitOnP_append_cons_of_forall_mem hfirst _ (by decide),
      map_cons,
      fields_append (by decide) (by decide), fields_alternative hsymbols, fields_nil,
      append_nil]
    exact congrArg (rhs :: ·) ih

theorem cut?_ruleLine (hs : IsName s) (r : Text) :
    cut? "->" (s ++ " -> " ++ r) = some (s ++ [blank], blank :: r) := by
  have harrow : ofString "->" = [45, 62] := by decide
  refine cut?_eq_some.2 ⟨by simp [ofString_arrow, harrow], fun l' r' h => ?_⟩
  rw [append_assoc, ofString_arrow, harrow] at h
  rcases append_eq_append_iff.1 h with ⟨c, rfl, hc⟩ | ⟨c, rfl, hc⟩
  · cases c with
    | nil => cases hc
    | cons b c => simp
  · match c with
    | [] => cases hc
    | [b] => cases hc
    | b :: b' :: c =>
      cases hc
      exact absurd (by rw [harrow]; rfl) (hs.arrow l' c)

theorem mapM_parts {n : Nat} : ∀ {parts : List Text} {rights : List (List Symbol)},
    parts.map fields = rights → (∀ rhs ∈ rights, rhs ≠ []) →
    (parts.mapM fun part => match fields part with
      | [] => (throw (LoadError.emptyAlternative n s) : Except LoadError (Symbol × List Symbol))
      | symbols => return (s, symbols)) = .ok (rights.map fun rhs => (s, rhs))
  | [], _, rfl, _ => rfl
  | part :: parts, _, rfl, h => by
    obtain ⟨hne, hrest⟩ := forall_mem_cons.1 h
    rw [mapM_cons, mapM_parts rfl hrest]
    obtain ⟨x, xs, hx⟩ := exists_cons_of_ne_nil hne
    rw [map_cons, map_cons, hx]
    rfl

/-- **A line that is written is read as it was meant.** -/
theorem parseLine_ruleLine (n : Nat) {rights : List (List Symbol)} (hs : IsName s)
    (hne : rights ≠ []) (h : ∀ rhs ∈ rights, IsRight rhs) :
    parseLine n (ruleLine s rights) = .ok (rights.map fun rhs => (s, rhs)) := by
  obtain ⟨b, s', hb⟩ := exists_cons_of_ne_nil hs.word.1
  have hcomment : ((ruleLine s rights).isEmpty || (ruleLine s rights).head? == some 35) = false := by
    have hb' := hs.comment
    rw [hb] at hb'
    simpa [ruleLine, hb] using hb'
  have hleft : fields (s ++ [blank]) = [s] := by
    rw [fields_append (by decide) (by decide), fields_of_isWord hs.word, fields_nil]
    rfl
  unfold parseLine
  simp only [strip_ruleLine hs.word hne h, hcomment, Bool.false_eq_true, if_false]
  rw [ruleLine, cut?_ruleLine hs]
  simp only [hleft]
  exact mapM_parts (fields_parts hne h) fun rhs hrhs => (h rhs hrhs).1

end JavaToCpp.Grammar
