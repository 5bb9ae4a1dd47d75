/-
  Characters and the bytes that spell them.
-/
import JavaToCpp.Text.Blank
import Mathlib.Tactic.FinCases
import Mathlib.Tactic.IntervalCases

namespace JavaToCpp.Text

theorem within_iff {lo hi b : UInt8} :
    within lo hi b ↔ lo.toNat ≤ b.toNat ∧ b.toNat ≤ hi.toNat := by
  simp [within, UInt8.le_iff_toNat_le]

/-! ## Well-formed sequences -/

/-- The text begins with a well-formed sequence: what character it spells, and how many bytes follow
    the first one. -/
inductive Spells : UInt8 → Text → Nat × Nat → Prop
  | one {b rest} : b < 0x80 → Spells b rest (b.toNat, 0)
  | two {b c rest} : within 0xC2 0xDF b → within 0x80 0xBF c →
      Spells b (c :: rest) ((b.toNat - 0xC0) * 64 + (c.toNat - 0x80), 1)
  | three {b c d rest} : within 0xE0 0xEF b →
      within (if b = 0xE0 then 0xA0 else 0x80) (if b = 0xED then 0x9F else 0xBF) c →
      within 0x80 0xBF d →
      Spells b (c :: d :: rest)
        ((b.toNat - 0xE0) * 4096 + (c.toNat - 0x80) * 64 + (d.toNat - 0x80), 2)
  | four {b c d e rest} : within 0xF0 0xF4 b →
      within (if b = 0xF0 then 0x90 else 0x80) (if b = 0xF4 then 0x8F else 0xBF) c →
      within 0x80 0xBF d → within 0x80 0xBF e →
      Spells b (c :: d :: e :: rest)
        ((b.toNat - 0xF0) * 262144 + (c.toNat - 0x80) * 4096 + (d.toNat - 0x80) * 64
          + (e.toNat - 0x80), 3)

variable {b c d e : UInt8} {rest : Text} {n : Nat}

/-- A well-formed sequence, or the replacement for one that is not. -/
def Read (b : UInt8) (rest : Text) (x : Nat × Nat) : Prop := Spells b rest x ∨ x = (replacement, 0)

theorem read_ite {p : Prop} [Decidable p] {x : Nat × Nat} (h : p → Spells b rest x) :
    Read b rest (if p then x else (replacement, 0)) := by
  split
  · exact .inl (h ‹_›)
  · exact .inr rfl

theorem read_decodeHead (b : UInt8) (rest : Text) : Read b rest (decodeHead b rest) := by
  unfold decodeHead
  simp only
  split
  · exact .inl (.one ‹_›)
  split
  · split
    · exact read_ite (.two ‹_›)
    · exact .inr rfl
  split
  · split
    · exact read_ite fun h => .three ‹_› (Bool.and_eq_true_iff.1 h).1 (Bool.and_eq_true_iff.1 h).2
    · exact .inr rfl
  split
  · split
    · refine read_ite fun h => ?_
      simp only [Bool.and_eq_true] at h
      exact .four ‹_› h.1.1 h.1.2 h.2
    · exact .inr rfl
  · exact .inr rfl

theorem spells_of_decodable (h : undecodable b rest = false) : Spells b rest (decodeHead b rest) :=
  (read_decodeHead b rest).resolve_right (by simpa [undecodable] using h)

theorem Spells.decodeHead_eq {x : Nat × Nat} (h : Spells b rest x) : decodeHead b rest = x := by
  have habove {lo hi : UInt8} (hb : within lo hi b) (hlo : 0x80 ≤ lo.toNat) : ¬ b < 0x80 := by
    rw [UInt8.lt_iff_toNat_lt]
    exact Nat.not_lt.2 (Nat.le_trans hlo (within_iff.1 hb).1)
  have hapart {lo hi : UInt8} (hb : within lo hi b) (lo' hi' : UInt8) (h : hi'.toNat < lo.toNat) :
      ¬ within lo' hi' b :=
    fun hb' => absurd (within_iff.1 hb').2 (Nat.not_le.2 (Nat.lt_of_lt_of_le h (within_iff.1 hb).1))
  cases h with
  | one h => simp [decodeHead, h]
  | two hb hc => simp [decodeHead, habove hb (by decide), hb, hc]
  | three hb hc hd =>
    simp [decodeHead, habove hb (by decide), hapart hb 0xC2 0xDF (by decide), hb, hc, hd]
  | four hb hc hd he =>
    simp [decodeHead, habove hb (by decide), hapart hb 0xC2 0xDF (by decide),
      hapart hb 0xE0 0xEF (by decide), hb, hc, hd, he]

theorem second_bounds {first last lo hi : UInt8} (hlo : 0x80 ≤ lo.toNat) (hhi : hi.toNat ≤ 0xBF)
    (h : within (if b = first then lo else 0x80) (if b = last then hi else 0xBF) c) :
    (b.toNat = first.toNat → lo.toNat ≤ c.toNat) ∧ (b.toNat = last.toNat → c.toNat ≤ hi.toNat) ∧
      0x80 ≤ c.toNat ∧ c.toNat < 0xC0 := by
  obtain ⟨hge, hle⟩ := within_iff.1 h
  have hlow : (b.toNat = first.toNat → lo.toNat ≤ c.toNat) ∧ 0x80 ≤ c.toNat := by
    by_cases hb : b = first
    · rw [if_pos hb] at hge
      exact ⟨fun _ => hge, Nat.le_trans hlo hge⟩
    · rw [if_neg hb] at hge
      exact ⟨fun he => absurd (UInt8.toNat_inj.1 he) hb, hge⟩
  have hhigh : (b.toNat = last.toNat → c.toNat ≤ hi.toNat) ∧ c.toNat ≤ 0xBF := by
    by_cases hb : b = last
    · rw [if_pos hb] at hle
      exact ⟨fun _ => hle, Nat.le_trans hle hhi⟩
    · rw [if_neg hb] at hle
      exact ⟨fun he => absurd (UInt8.toNat_inj.1 he) hb, hle⟩
  exact ⟨hlow.1, hhigh.1, hlow.2, Nat.lt_succ_of_le hhigh.2⟩

theorem decodeHead_cases (b : UInt8) (rest : Text) : decodeHead b rest = (b.toNat, 0) ∨
    128 ≤ (decodeHead b rest).1 ∧ (decodeHead b rest).2 ≤ rest.length := by
  rcases read_decodeHead b rest with h | h
  · generalize decodeHead b rest = x at h
    cases h with
    | one => exact .inl rfl
    | two hb =>
      obtain ⟨hb, -⟩ := within_iff.1 hb
      refine .inr ⟨?_, by simp⟩
      simp at hb ⊢
      omega
    | three hb hc | four hb hc =>
      obtain ⟨hb, -⟩ := within_iff.1 hb
      have hc := second_bounds (by decide) (by decide) hc
      refine .inr ⟨?_, by simp⟩
      simp at hb hc ⊢
      omega
  · rw [h]
    exact .inr ⟨by decide, Nat.zero_le _⟩

theorem decodeHead_le (b : UInt8) (rest : Text) : (decodeHead b rest).2 ≤ rest.length := by
  rcases decodeHead_cases b rest with h | h
  · rw [h]
    exact Nat.zero_le _
  · exact h.2

theorem decodeHead_of_lt {b : UInt8} {rest : Text} (h : (decodeHead b rest).1 < 128) :
    decodeHead b rest = (b.toNat, 0) :=
  (decodeHead_cases b rest).resolve_right fun h' => absurd h (Nat.not_lt.2 h'.1)

/-! ## What a character is spelled by -/

theorem encodeRune_of_valid (h : n < 0xD800 ∨ 0xDFFF < n ∧ n ≤ maxRune) : encodeRune n =
    if n < 0x80 then [UInt8.ofNat n]
    else if n < 0x800 then [UInt8.ofNat (0xC0 + n / 64), UInt8.ofNat (0x80 + n % 64)]
    else if n < 0x10000 then
      [UInt8.ofNat (0xE0 + n / 4096), UInt8.ofNat (0x80 + n / 64 % 64), UInt8.ofNat (0x80 + n % 64)]
    else
      [UInt8.ofNat (0xF0 + n / 262144), UInt8.ofNat (0x80 + n / 4096 % 64),
        UInt8.ofNat (0x80 + n / 64 % 64), UInt8.ofNat (0x80 + n % 64)] := by
  have hvalid : ¬ ((0xD800 ≤ n && n ≤ 0xDFFF) || maxRune < n) = true := by
    have hmax : maxRune = 0x10FFFF := rfl
    simp only [Bool.or_eq_true, Bool.and_eq_true, decide_eq_true_eq]
    omega
  simp only [encodeRune, hvalid, Bool.false_eq_true, if_false]

theorem ofNat_eq (h : n = b.toNat) : UInt8.ofNat n = b := by
  rw [h, UInt8.ofNat_toNat]

theorem within_tail (h : within 0x80 0xBF c) : 0x80 ≤ c.toNat ∧ c.toNat < 0xC0 := by
  have hc := within_iff.1 h
  simp only [UInt8.reduceToNat] at hc
  omega

theorem encodeRune_one (h : b < 0x80) : encodeRune b.toNat = [b] := by
  have hb : b.toNat < 128 := by simpa [UInt8.lt_iff_toNat_lt] using h
  rw [encodeRune_of_valid (by omega), if_pos hb, UInt8.ofNat_toNat]

theorem encodeRune_two (hb : within 0xC2 0xDF b) (hc : within 0x80 0xBF c) :
    encodeRune ((b.toNat - 0xC0) * 64 + (c.toNat - 0x80)) = [b, c] := by
  have hb := within_iff.1 hb
  have hc := within_tail hc
  simp only [UInt8.reduceToNat] at hb
  rw [encodeRune_of_valid (by omega), if_neg (by omega), if_pos (by omega),
    ofNat_eq (b := b) (by omega), ofNat_eq (b := c) (by omega)]

theorem encodeRune_three (hb : within 0xE0 0xEF b)
    (hc : within (if b = 0xE0 then 0xA0 else 0x80) (if b = 0xED then 0x9F else 0xBF) c)
    (hd : within 0x80 0xBF d) :
    encodeRune ((b.toNat - 0xE0) * 4096 + (c.toNat - 0x80) * 64 + (d.toNat - 0x80)) = [b, c, d] := by
  have hmax : maxRune = 0x10FFFF := rfl
  have hb := within_iff.1 hb
  have hc := second_bounds (by decide) (by decide) hc
  have hd := within_tail hd
  simp only [UInt8.reduceToNat] at hb hc
  rw [encodeRune_of_valid (by omega), if_neg (by omega), if_neg (by omega), if_pos (by omega),
    ofNat_eq (b := b) (by omega), ofNat_eq (b := c) (by omega), ofNat_eq (b := d) (by omega)]

theorem encodeRune_four (hb : within 0xF0 0xF4 b)
    (hc : within (if b = 0xF0 then 0x90 else 0x80) (if b = 0xF4 then 0x8F else 0xBF) c)
    (hd : within 0x80 0xBF d) (he : within 0x80 0xBF e) :
    encodeRune ((b.toNat - 0xF0) * 262144 + (c.toNat - 0x80) * 4096 + (d.toNat - 0x80) * 64
      + (e.toNat - 0x80)) = [b, c, d, e] := by
  have hmax : maxRune = 0x10FFFF := rfl
  have hb := within_iff.1 hb
  have hc := second_bounds (by decide) (by decide) hc
  have hd := within_tail hd
  have he := within_tail he
  simp only [UInt8.reduceToNat] at hb hc
  rw [encodeRune_of_valid (by omega), if_neg (by omega), if_neg (by omega), if_neg (by omega),
    ofNat_eq (b := b) (by omega), ofNat_eq (b := c) (by omega), ofNat_eq (b := d) (by omega),
    ofNat_eq (b := e) (by omega)]

/-- **What is decoded is spelled by the bytes that it was decoded from.** -/
theorem encodeRune_decodeHead (h : undecodable b rest = false) :
    encodeRune (decodeHead b rest).1 = b :: rest.take (decodeHead b rest).2 := by
  have hspells := spells_of_decodable h
  generalize decodeHead b rest = x at hspells ⊢
  cases hspells with
  | one hb => exact encodeRune_one hb
  | two hb hc => exact encodeRune_two hb hc
  | three hb hc hd => exact encodeRune_three hb hc hd
  | four hb hc hd he => exact encodeRune_four hb hc hd he

theorem undecodable_of_isBlank (h : isBlank (decodeHead b rest).1) : undecodable b rest = false := by
  have hreplacement : isBlank replacement = false := by decide
  refine Bool.eq_false_iff.2 fun hbad => ?_
  rw [eq_of_beq hbad, hreplacement] at h
  cases h

/-! ## What follows a character -/

def EndsAscii (t : Text) : Prop := ∀ b ∈ t.getLast?, b < 0x80

theorem EndsAscii.drop {t : Text} (h : EndsAscii t) (n : Nat) : EndsAscii (t.drop n) := by
  intro b hb
  rw [List.getLast?_drop] at hb
  split at hb
  · cases hb
  · exact h b hb

theorem not_within_of_lt (lo hi : UInt8) (hlo : 0x80 ≤ lo) (h : c < 0x80) : within lo hi c = false := by
  refine Bool.eq_false_iff.2 fun hc => ?_
  have hc := (within_iff.1 hc).1
  rw [UInt8.le_iff_toNat_le] at hlo
  rw [UInt8.lt_iff_toNat_lt] at h
  omega

theorem EndsAscii.decodeHead_append {t : Text} (h : EndsAscii (b :: t)) (rest : Text) :
    decodeHead b (t ++ rest) = decodeHead b t := by
  rcases t with _ | ⟨c, _ | ⟨d, _ | ⟨e, t⟩⟩⟩
  · have hb : b < 0x80 := h b rfl
    simp [decodeHead, hb]
  · have hc : c < 0x80 := h c rfl
    have hthree := not_within_of_lt (if b = 0xE0 then 0xA0 else 0x80)
      (if b = 0xED then 0x9F else 0xBF) (by split <;> decide) hc
    have hfour := not_within_of_lt (if b = 0xF0 then 0x90 else 0x80)
      (if b = 0xF4 then 0x8F else 0xBF) (by split <;> decide) hc
    rcases rest with _ | ⟨d, _ | ⟨e, rest⟩⟩
    · rfl
    · simp [decodeHead, hthree]
    · simp [decodeHead, hthree, hfour]
  · have hd : d < 0x80 := h d rfl
    have htail := not_within_of_lt 0x80 0xBF (UInt8.le_refl 0x80) hd
    cases rest with
    | nil => rfl
    | cons e rest => simp [decodeHead, htail]
  · rfl

/-! ## White space -/

/-- White space characters one after the other. -/
def White (w : Text) : Prop :=
  ∃ runes : List Nat, (∀ r ∈ runes, isBlank r) ∧ w = runes.flatMap encodeRune

def blanks : List Nat := [9, 10, 11, 12, 13, 0x20, 0x85, 0xA0, 0x1680, 0x2000, 0x2001, 0x2002, 0x2003,
  0x2004, 0x2005, 0x2006, 0x2007, 0x2008, 0x2009, 0x200A, 0x2028, 0x2029, 0x202F, 0x205F, 0x3000]

theorem mem_blanks {rune : Nat} (h : isBlank rune) : rune ∈ blanks := by
  simp only [isBlank, Bool.or_eq_true, Bool.and_eq_true, decide_eq_true_eq, beq_iff_eq] at h
  rcases h with (((((((((⟨hge, hle⟩ | rfl) | rfl) | rfl) | rfl) | ⟨hge, hle⟩) | rfl) | rfl) | rfl) | rfl) | rfl
  case inl.inl.inl.inl.inl.inl.inl.inl.inl.inl => interval_cases rune <;> decide
  case inl.inl.inl.inl.inl.inr => interval_cases rune <;> decide
  all_goals decide

theorem exists_encodeRune_of_isBlank {rune : Nat} (h : isBlank rune) : ∃ b more,
    encodeRune rune = b :: more ∧ isWord b = false ∧
      ∀ rest, decodeHead b (more ++ rest) = (rune, more.length) := by
  have hmem := mem_blanks h
  fin_cases hmem <;> exact ⟨_, _, rfl, rfl, fun _ => rfl⟩

end JavaToCpp.Text
