/-
  Texts of whole characters.
-/
import JavaToCpp.Proofs.Text.Fields

namespace JavaToCpp.Text

open List

variable {b : UInt8} {rest t u : Text}

/-! ## One character -/

theorem decodeHead_take_append (h : undecodable b rest = false) (u : Text) :
    decodeHead b (rest.take (decodeHead b rest).2 ++ u) = decodeHead b rest := by
  have hspells := spells_of_decodable h
  generalize decodeHead b rest = x at hspells ⊢
  cases hspells with
  | one hb => exact Spells.decodeHead_eq (.one hb)
  | two hb hc => exact Spells.decodeHead_eq (.two hb hc)
  | three hb hc hd => exact Spells.decodeHead_eq (.three hb hc hd)
  | four hb hc hd he => exact Spells.decodeHead_eq (.four hb hc hd he)

theorem decodeHead_append_of_decodable (h : undecodable b rest = false) (u : Text) :
    decodeHead b (rest ++ u) = decodeHead b rest := by
  have htake := decodeHead_take_append h (rest.drop (decodeHead b rest).2 ++ u)
  rwa [← append_assoc, take_append_drop] at htake

theorem broken_head (b : UInt8) (rest : Text) :
    Glyph.broken ⟨(decodeHead b rest).1, b :: rest.take (decodeHead b rest).2⟩ = undecodable b rest := by
  have hle := decodeHead_le b rest
  rw [Glyph.broken, undecodable, Bool.eq_iff_iff, Bool.and_eq_true, beq_iff_eq, beq_iff_eq, beq_iff_eq,
    Prod.ext_iff, length_cons, length_take]
  simp only [Nat.min_eq_left hle, Nat.add_eq_right]

/-! ## Many characters -/

theorem isUtf8_nil : isUtf8 [] := by
  rw [isUtf8, glyphs_nil]
  rfl

theorem isUtf8_cons (b : UInt8) (rest : Text) : isUtf8 (b :: rest) =
    (!undecodable b rest && isUtf8 (rest.drop (decodeHead b rest).2)) := by
  rw [isUtf8, glyphs_cons, all_cons, broken_head, isUtf8]

/-- **What stands behind whole characters does not change them.** -/
theorem glyphs_append_of_isUtf8 (h : isUtf8 t) (u : Text) : glyphs (t ++ u) = glyphs t ++ glyphs u := by
  fun_induction glyphs t with
  | case1 => rfl
  | case2 b rest rune more hdecode ih =>
    rw [isUtf8_cons, hdecode, Bool.and_eq_true, Bool.not_eq_true'] at h
    have hle := decodeHead_le b rest
    rw [hdecode] at hle
    rw [cons_append, glyphs_cons, decodeHead_append_of_decodable h.1, hdecode,
      take_append_of_le_length hle, drop_append_of_le_length hle, ih h.2]
    rfl

theorem isUtf8_append_iff (h : isUtf8 t) : isUtf8 (t ++ u) ↔ isUtf8 u := by
  rw [isUtf8, glyphs_append_of_isUtf8 h, all_append, Bool.and_eq_true]
  exact ⟨fun hu => hu.2, fun hu => ⟨h, hu⟩⟩

theorem isUtf8_append (ht : isUtf8 t) (hu : isUtf8 u) : isUtf8 (t ++ u) := (isUtf8_append_iff ht).2 hu

theorem isUtf8_of_append_ascii (hb : b < 0x80) (h : isUtf8 (t ++ b :: u)) : isUtf8 t ∧ isUtf8 (b :: u) := by
  rw [isUtf8, glyphs_append (separates_ascii hb u), all_append, Bool.and_eq_true] at h
  exact h

theorem isUtf8_of_ascii (h : t.all (· < 0x80)) : isUtf8 t := by
  induction t with
  | nil => exact isUtf8_nil
  | cons b t ih =>
    rw [all_cons, Bool.and_eq_true, decide_eq_true_eq] at h
    rw [isUtf8, glyphs_ascii h.1, all_cons, Bool.and_eq_true]
    refine ⟨?_, ih h.2⟩
    have hlt := UInt8.lt_iff_toNat_lt.1 h.1
    have hrune : b.toNat ≠ replacement := fun heq => absurd hlt (by rw [heq]; decide)
    simp [Glyph.broken, hrune]

theorem isUtf8_flatMap {α : Type} {f : α → Text} {as : List α} (h : ∀ a ∈ as, isUtf8 (f a)) :
    isUtf8 (as.flatMap f) := by
  induction as with
  | nil => exact isUtf8_nil
  | cons a as ih =>
    obtain ⟨ha, has⟩ := forall_mem_cons.1 h
    exact isUtf8_append ha (ih has)

theorem isUtf8_join {sep : Text} {ts : List Text} (hsep : isUtf8 sep) (h : ∀ t ∈ ts, isUtf8 t) :
    isUtf8 (join sep ts) := by
  induction ts with
  | nil => exact isUtf8_nil
  | cons t ts ih =>
    obtain ⟨ht, hts⟩ := forall_mem_cons.1 h
    cases ts with
    | nil => rwa [join_singleton]
    | cons u ts =>
      rw [join_cons_cons]
      exact isUtf8_append ht (isUtf8_append hsep (ih hts))

/-! ## Replacing what cannot be decoded -/

theorem isUtf8_head (h : undecodable b rest = false) : isUtf8 (b :: rest.take (decodeHead b rest).2) := by
  have hle := decodeHead_le b rest
  have hsame := decodeHead_take_append h []
  rw [append_nil] at hsame
  have hdecodable : undecodable b (rest.take (decodeHead b rest).2) = false := by
    rw [undecodable, hsame]
    exact h
  rw [isUtf8_cons, hdecodable, hsame, drop_eq_nil_of_le (by simp [Nat.min_eq_left hle]), isUtf8_nil]
  rfl

theorem isUtf8_replacement : isUtf8 (encodeRune replacement) := by
  have hbytes : encodeRune replacement =
      0xEF :: [0xBF, 0xBD].take (decodeHead 0xEF [0xBF, 0xBD]).2 := by decide
  rw [hbytes]
  exact isUtf8_head (by decide)

theorem toUtf8_nil : toUtf8 [] = [] := by
  rw [toUtf8, glyphs_nil]
  rfl

theorem toUtf8_cons (b : UInt8) (rest : Text) : toUtf8 (b :: rest) =
    (if undecodable b rest then encodeRune replacement else b :: rest.take (decodeHead b rest).2) ++
      toUtf8 (rest.drop (decodeHead b rest).2) := by
  rw [toUtf8, glyphs_cons, flatMap_cons, broken_head, ← toUtf8]

theorem isUtf8_toUtf8 (t : Text) : isUtf8 (toUtf8 t) := by
  fun_induction glyphs t with
  | case1 =>
    rw [toUtf8_nil]
    exact isUtf8_nil
  | case2 b rest rune more hdecode ih =>
    rw [toUtf8_cons, hdecode]
    refine isUtf8_append ?_ ih
    have hhead := @isUtf8_head b rest
    rw [hdecode] at hhead
    cases hbad : undecodable b rest with
    | true => exact isUtf8_replacement
    | false => exact hhead hbad

theorem toUtf8_eq_self (h : isUtf8 t) : toUtf8 t = t := by
  have hbytes : ∀ g ∈ glyphs t, (if g.broken then encodeRune replacement else g.bytes) = g.bytes := by
    intro g hg
    have hwhole := all_eq_true.1 h g hg
    rw [Bool.not_eq_true'] at hwhole
    simp [hwhole]
  calc toUtf8 t = (glyphs t).flatMap Glyph.bytes := flatMap_congr hbytes
    _ = t := ofGlyphs_glyphs t

theorem toUtf8_eq_self_iff : toUtf8 t = t ↔ isUtf8 t := by
  constructor
  · intro h
    rw [← h]
    exact isUtf8_toUtf8 t
  · exact toUtf8_eq_self

end JavaToCpp.Text
