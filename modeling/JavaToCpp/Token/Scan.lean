/-
  From source text to tokens.

  A scanner holds what is left of the source, with its place.  White space in front of a token
  is passed over, and so is what a skipping rule matches.

  A rule that matches the empty text does not bring the scanner on.  Then there is no next token, or
  there is no end of tokens.
-/
import JavaToCpp.Text.Blank
import JavaToCpp.Token.Table

namespace JavaToCpp.Token

structure Scanner where
  rest : Text
  /-- how many bytes come before -/
  offset : Nat := 0
  /-- the line of the place, from 1 -/
  line : Nat := 1
deriving DecidableEq, Repr

def newlines (t : Text) : Nat := t.count Text.newline

def Scanner.advance (s : Scanner) (n : Nat) : Scanner :=
  { rest := s.rest.drop n, offset := s.offset + n, line := s.line + newlines (s.rest.take n) }

def leadingBlank : Text → Nat
  | [] => 0
  | b :: rest =>
    let (rune, more) := Text.decodeHead b rest
    if Text.isBlank rune then 1 + more + leadingBlank (rest.drop more) else 0
termination_by t => t.length
decreasing_by simp only [List.length_drop, List.length_cons]; omega

def Scanner.skipBlank (s : Scanner) : Scanner := s.advance (leadingBlank s.rest)

inductive Found where
  | token (t : Token)
  | done
  | error (e : Error)
  /-- nothing, ever: a rule that is passed over matches the empty text -/
  | endless
deriving DecidableEq, Repr

/-- The next token and the scanner after it, where `find?` gives the rule that matches at the beginning
    of a text and the length of its match. -/
def Scanner.nextWith (find? : Text → Option (Rule × Nat)) (s : Scanner) : Found × Scanner :=
  match _hrest : s.skipBlank.rest with
  | [] => (.done, s.skipBlank)
  | b :: rest =>
    match find? (b :: rest) with
    | none =>
      (.error ⟨(Text.decodeHead b rest).1, s.skipBlank.offset + 1, s.skipBlank.line⟩, s.skipBlank)
    | some (rule, n) =>
      if rule.skip then
        if _hn : n = 0 then (.endless, s.skipBlank) else nextWith find? (s.skipBlank.advance n)
      else
        (.token ⟨rule.category, (b :: rest).take n, (s.skipBlank.offset + 1 : Nat),
          (s.skipBlank.line : Nat)⟩, s.skipBlank.advance n)
termination_by s.rest.length
decreasing_by
  have hlength : s.skipBlank.rest.length ≤ s.rest.length := by simp [skipBlank, advance]
  rw [_hrest] at hlength
  simp only [advance, _hrest, List.length_drop, List.length_cons] at hlength ⊢
  omega

def Scanner.next (table : Table) (s : Scanner) : Found × Scanner := s.nextWith table.match?

/-- What is left after a token that takes something is shorter. -/
theorem Scanner.length_next {table : Table} {s s' : Scanner} {t : Token}
    (h : s.next table = (.token t, s')) (ht : ¬ t.text.isEmpty) :
    s'.rest.length < s.rest.length := by
  have hblank (s : Scanner) : s.skipBlank.rest.length ≤ s.rest.length := by
    simp [skipBlank, advance]
  rw [next] at h
  fun_induction nextWith table.match? s with
  | case1 | case2 | case3 => cases h
  | case4 s b rest hrest rule n _ _ hn ih =>
    have hlength := hblank s
    have hadvance : (s.skipBlank.advance n).rest.length ≤ s.skipBlank.rest.length := by
      simp [advance]
    exact Nat.lt_of_lt_of_le (ih h) (Nat.le_trans hadvance hlength)
  | case5 s b rest hrest rule n _ _ =>
    cases h
    have hlength := hblank s
    rw [hrest] at hlength
    have hn : n ≠ 0 := by
      rintro rfl
      exact ht rfl
    simp only [advance, hrest, List.length_drop, List.length_cons] at hlength ⊢
    omega

/-- The tokens up to the end of the source, in front of which stand those in `found`, the latest
    first.  They do not come to an end where a rule matches the empty text, because it does so over
    and over again. -/
def Scanner.all (table : Table) (s : Scanner) (found : List Token) :
    Option (Except Token.Error (List Token)) :=
  match _hnext : s.next table with
  | (.token t, s') => if _ht : t.text.isEmpty then none else all table s' (t :: found)
  | (.done, _) => some (.ok found.reverse)
  | (.error e, _) => some (.error e)
  | (.endless, _) => none
termination_by s.rest.length
decreasing_by exact s.length_next _hnext _ht

def Table.tokenize (table : Table) (source : Text) : Option (Except Token.Error (List Token)) :=
  Scanner.all table { rest := source } []

end JavaToCpp.Token
