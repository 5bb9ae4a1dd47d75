/-
  What follows a match.
-/
import JavaToCpp.Proofs.Pattern.Search

namespace JavaToCpp.Pattern

open List Text

variable {p : Program} {t x c d : Text} {n : Nat}

theorem Assertion.holds_congr {place place' : Place} (hbefore : place.before = place'.before)
    (htaken : place.taken = place'.taken) (hrest : place.rest.head? = place'.rest.head?)
    (a : Assertion) : a.holds place = a.holds place' := by
  have hempty : place.rest.isEmpty = place'.rest.isEmpty := by
    rw [Bool.eq_iff_iff, List.isEmpty_iff, List.isEmpty_iff, ← head?_eq_none_iff, hrest,
      head?_eq_none_iff]
  cases a <;> simp [Assertion.holds, hbefore, htaken, hrest, hempty]

theorem before_append (hn : n ≤ x.length) (c : Text) :
    (placeAt (x ++ c) n).before = (placeAt x n).before := by
  cases n with
  | zero => rfl
  | succ n =>
    show (x ++ c)[n]? = x[n]?
    exact getElem?_append_left hn

/-- The match ends behind `x`. -/
def Past (x : Text) (m : Option Match) : Prop := ∃ l ∈ m, x.length < l.taken

/-- Two matches in texts that begin with `x` are the same or end behind it. -/
def SameUpTo (x : Text) (m m' : Option Match) : Prop := m = m' ∨ Past x m ∨ Past x m'

theorem Past.map {m : Option Match} (h : Past x m) (e : List Nat) : Past x (m.map (.after e)) := by
  obtain ⟨l, rfl, hl⟩ := h
  exact ⟨l.after e, rfl, hl⟩

theorem Past.or {m : Option Match} (h : Past x m) (l : Option Match) : Past x (m.or l) := by
  obtain ⟨k, rfl, hk⟩ := h
  exact ⟨k, rfl, hk⟩

theorem SameUpTo.map {m m' : Option Match} (h : SameUpTo x m m') (e : List Nat) :
    SameUpTo x (m.map (.after e)) (m'.map (.after e)) :=
  h.imp (congrArg _) (Or.imp (·.map e) (·.map e))

theorem SameUpTo.or {m m' l l' : Option Match} (h : SameUpTo x m m') (h' : SameUpTo x l l') :
    SameUpTo x (m.or l) (m'.or l') := by
  rcases h with rfl | h
  · cases m with
    | none => exact h'
    | some _ => exact .inl rfl
  · exact .inr (h.imp (·.or l) (·.or l'))

theorem past_or_none {seen : Finset Nat} {i : Nat} {e : List Nat} {set : RuneSet}
    (hc : p[i]? = some (.take set)) (hway : Way p t ⟨i, e⟩ x.length) :
    Past x (p.attempt t seen i x.length) ∨ p.attempt t seen i x.length = none := by
  cases h : p.attempt t seen i x.length with
  | none => exact .inr rfl
  | some m =>
    obtain ⟨b, rest, hrest, hmem, h⟩ := attempt_take_eq_some hc h
    have hle := (ends_of_attempt _ _ _ (hway.take hc hrest hmem) h).2
    exact .inl ⟨m, rfl, by omega⟩

theorem attempt_append (hx : EndsAscii x)
    (hagree : ∀ w a, Way p (x ++ c) w x.length → p[w.place]? = some (.require a) →
      a.holds (placeAt (x ++ c) x.length) = a.holds (placeAt (x ++ d) x.length))
    (seen : Finset Nat) (i n : Nat) : ∀ {e : List Nat}, n ≤ x.length → Way p (x ++ c) ⟨i, e⟩ n →
    Way p (x ++ d) ⟨i, e⟩ n → SameUpTo x (p.attempt (x ++ c) seen i n) (p.attempt (x ++ d) seen i n) := by
  induction seen, i, n using attempt_induction (p := p) (t := x ++ c) with
  | step seen i n hplace hbehind =>
    intro e hn hway hway'
    by_cases hi : i ∈ seen
    · exact .inl (by rw [attempt_of_mem hi, attempt_of_mem hi])
    cases hc : p[i]? with
    | none => exact .inl (by rw [attempt_of_none hc, attempt_of_none hc])
    | some instr =>
      have hplace := hplace hi (Array.getElem?_eq_some_iff.1 hc).1
      cases instr with
      | take set =>
        rcases Nat.lt_or_eq_of_le hn with hlt | rfl
        · obtain ⟨b, y, hy⟩ : ∃ b y, x.drop n = b :: y := exists_cons_of_length_pos (by simpa using hlt)
          have hlength := congrArg length hy
          rw [length_drop, length_cons] at hlength
          have hrest (c : Text) : (x ++ c).drop n = b :: (y ++ c) := by
            rw [drop_append_of_le_length hn, hy, cons_append]
          have hdecode (c : Text) : decodeHead b (y ++ c) = decodeHead b y :=
            EndsAscii.decodeHead_append (hy ▸ hx.drop n) c
          have hmore := decodeHead_le b y
          have htake := hway.take hc (hrest c)
          have htake' := hway'.take hc (hrest d)
          rw [attempt_take_cons hi hc (hrest c), attempt_take_cons hi hc (hrest d)]
          rw [hdecode] at htake htake' ⊢
          rw [hdecode]
          split
          · exact hbehind (lt_length_of_drop (hrest c)) _ _ (by omega) (by omega) (htake ‹_›) (htake' ‹_›)
          · exact .inl rfl
        · rcases past_or_none hc hway with h | h
          · exact .inr (.inl h)
          · rcases past_or_none hc hway' with h' | h'
            · exact .inr (.inr h')
            · exact .inl (h.trans h'.symm)
      | require a =>
        have hholds : a.holds (placeAt (x ++ c) n) = a.holds (placeAt (x ++ d) n) := by
          rcases Nat.lt_or_eq_of_le hn with hlt | rfl
          · have hrest (c : Text) : ((x ++ c).drop n).head? = x[n]? := by
              rw [head?_drop, getElem?_append_left hlt]
            exact a.holds_congr ((before_append hn c).trans (before_append hn d).symm) rfl
              ((hrest c).trans (hrest d).symm)
          · exact hagree _ a hway hc
        rw [attempt_require hi hc, attempt_require hi hc, hholds]
        split
        · rename_i hd
          exact hplace _ hn (hway.require hc (hholds.trans hd)) (hway'.require hc hd)
        · exact .inl rfl
      | enter g =>
        rw [attempt_enter hi hc, attempt_enter hi hc]
        exact (hplace _ hn (hway.enter hc) (hway'.enter hc)).map [g]
      | fork j k =>
        rw [attempt_fork hi hc, attempt_fork hi hc]
        exact (hplace _ hn (hway.first hc) (hway'.first hc)).or
          (hplace _ hn (hway.second hc) (hway'.second hc))
      | jump j =>
        rw [attempt_jump hi hc, attempt_jump hi hc]
        exact hplace _ hn (hway.jump hc) (hway'.jump hc)
      | accept => exact .inl (by rw [attempt_accept hi hc, attempt_accept hi hc])

/-- **What follows a match** makes no difference, if the assertions behind it do not tell one and
    nothing longer matches. -/
theorem match?_append {m : Match} (hx : EndsAscii x) (hm : p.match? (x ++ c) = some m)
    (htaken : m.taken = x.length)
    (hagree : ∀ w a, Way p (x ++ c) w x.length → p[w.place]? = some (.require a) →
      a.holds (placeAt (x ++ c) x.length) = a.holds (placeAt (x ++ d) x.length))
    (hlongest : ∀ m, Ends p (x ++ d) m → m.taken ≤ x.length) : p.match? (x ++ d) = some m := by
  have hsame := attempt_append hx hagree ∅ 0 0 (Nat.zero_le _) .start .start
  rw [← match?_eq_attempt, ← match?_eq_attempt, hm] at hsame
  rcases hsame with h | ⟨l, hl, hlt⟩ | ⟨l, hl, hlt⟩
  · exact h.symm
  · cases hl
    omega
  · exact absurd (hlongest l (ends_of_match? hl)) (Nat.not_le.2 hlt)

end JavaToCpp.Pattern
