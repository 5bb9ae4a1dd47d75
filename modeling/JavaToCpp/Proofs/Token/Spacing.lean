/-
  Tokens with white space between them.
-/
import JavaToCpp.Proofs.Token.Tiling

namespace JavaToCpp.Token

open List Text

variable {table : Table} {before gap last rest x : Text}

theorem leadingBlank_cons (b : UInt8) (rest : Text) : leadingBlank (b :: rest) =
    if isBlank (decodeHead b rest).1 then
      1 + (decodeHead b rest).2 + leadingBlank (rest.drop (decodeHead b rest).2)
    else 0 := by
  conv_lhs => unfold leadingBlank

theorem leadingBlank_append (h : White gap) (rest : Text) :
    leadingBlank (gap ++ rest) = gap.length + leadingBlank rest := by
  obtain ⟨runes, hblank, rfl⟩ := h
  induction runes with
  | nil => exact (Nat.zero_add _).symm
  | cons r runes ih =>
    have hr : isBlank r := hblank r mem_cons_self
    have ih := ih fun r' hr' => hblank r' (mem_cons_of_mem r hr')
    obtain ⟨b, more, hspelled, -, hdecode⟩ := exists_encodeRune_of_isBlank hr
    have hflat : (r :: runes).flatMap encodeRune =
        b :: (more ++ runes.flatMap encodeRune) := by
      rw [flatMap_cons, hspelled, cons_append]
    rw [hflat, cons_append, append_assoc, leadingBlank_cons, hdecode, if_pos hr,
      drop_left, ih, length_cons, length_append]
    omega

theorem Scanner.skipBlank_append (before : Text) (h : White gap)
    (hrest : leadingBlank rest = 0) : (behind before (gap ++ rest)).skipBlank = behind (before ++ gap) rest := by
  have hblank : leadingBlank (behind before (gap ++ rest)).rest = gap.length := by
    show leadingBlank (gap ++ rest) = _
    rw [leadingBlank_append h, hrest, Nat.add_zero]
  rw [skipBlank, hblank, advance_behind]

theorem next_of_match? {rule : Rule} (hgap : White gap) (hne : x ≠ [])
    (hblank : leadingBlank (x ++ rest) = 0) (hskip : ¬ rule.skip)
    (hm : table.match? (x ++ rest) = some (rule, x.length)) (before : Text) :
    (Scanner.behind before (gap ++ (x ++ rest))).next table =
      (.token (tokenAt (before ++ gap) rule.category x), .behind (before ++ gap ++ x) rest) := by
  have hskipBlank := Scanner.skipBlank_append before hgap hblank
  unfold Scanner.next Scanner.nextWith
  split
  · rename_i hrest
    rw [hskipBlank] at hrest
    exact absurd (append_eq_nil_iff.1 hrest).1 hne
  · rename_i b rest' hrest
    rw [hskipBlank] at hrest
    obtain hrest : x ++ rest = b :: rest' := hrest
    simp only [← hrest, hm, hskip, hskipBlank, Scanner.advance_behind, take_left]
    rfl

theorem Scanner.next_white (table : Table) (h : White last) (before : Text) :
    (behind before last).next table = (.done, behind (before ++ last) []) := by
  have hskip : (behind before last).skipBlank = behind (before ++ last) [] := by
    have hnil : leadingBlank [] = 0 := by
      unfold leadingBlank
      rfl
    have hskip := skipBlank_append before h hnil
    rwa [append_nil] at hskip
  unfold next nextWith
  split
  · rw [hskip]
  · rename_i hrest
    rw [hskip] at hrest
    cases hrest

/-- Tokens with white space in front of each and behind the last, all of which a table finds. -/
inductive Spaced (table : Table) (last : Text) : List (Text × Token) → Prop
  | last : White last → Spaced table last []
  | token {gap : Text} {k : Token} {rule : Rule} {pieces : List (Text × Token)} : White gap →
      k.text ≠ [] → leadingBlank (k.text ++ weave pieces last) = 0 →
      table.match? (k.text ++ weave pieces last) = some (rule, k.text.length) →
      ¬ rule.skip → k.category = rule.category → Spaced table last pieces →
      Spaced table last ((gap, k) :: pieces)

/-- The tokens with the places where they stand behind `before`. -/
def placed : (before : Text) → List (Text × Token) → List Token
  | _, [] => []
  | before, (gap, k) :: pieces =>
    tokenAt (before ++ gap) k.category k.text :: placed (before ++ gap ++ k.text) pieces

theorem all_eq_of_spaced {pieces : List (Text × Token)} (h : Spaced table last pieces)
    (before : Text) (found : List Token) :
    Scanner.all table (.behind before (weave pieces last)) found =
      some (.ok (found.reverse ++ placed before pieces)) := by
  induction h generalizing before found with
  | last hlast =>
    unfold Scanner.all
    split <;> rename_i hnext <;> cases hnext.symm.trans (Scanner.next_white table hlast before)
    rw [placed, append_nil]
  | @token gap k rule pieces hgap hne hblank hm hskip hcategory _ ih =>
    have hnext := next_of_match? hgap hne hblank hskip hm before
    unfold Scanner.all
    split <;> rename_i h <;> cases h.symm.trans hnext
    rw [dif_neg (by simpa using hne), ih, placed, reverse_cons, append_assoc, hcategory]
    rfl

theorem tokenize_of_spaced {pieces : List (Text × Token)} (h : Spaced table last pieces) :
    table.tokenize (weave pieces last) = some (.ok (placed [] pieces)) :=
  all_eq_of_spaced h [] []

end JavaToCpp.Token
