/-
  Values that are written and read again.
-/
import JavaToCpp.Json.Read
import JavaToCpp.Proofs.Outcome
import JavaToCpp.Proofs.Text.Encoded
import JavaToCpp.Proofs.Text.Percent

namespace JavaToCpp

open List Text

namespace Text

theorem high_of_mem_encodeRune {n : Nat} (h : 128 ≤ n) {c : UInt8} (hc : c ∈ encodeRune n) : ¬ c < 0x80 := by
  have h80 : (0x80 : UInt8).toNat = 128 := rfl
  have hhigh : ∀ k, 128 ≤ k → k < 256 → ¬ UInt8.ofNat k < 0x80 := by
    intro k hk hk'
    rw [UInt8.lt_iff_toNat_lt, UInt8.toNat_ofNat_of_lt' hk', h80]
    omega
  rw [encodeRune] at hc
  generalize hm : (if (0xD800 ≤ n && n ≤ 0xDFFF) || maxRune < n then replacement else n) = m at hc
  have hm' : 128 ≤ m ∧ m < 0x110000 := by
    rw [← hm]
    split
    · decide
    · rename_i hn
      simp only [Bool.or_eq_true, Bool.and_eq_true, decide_eq_true_eq, maxRune.eq_def] at hn
      omega
  rw [if_neg (by omega)] at hc
  split at hc
  · simp only [mem_cons, not_mem_nil, or_false] at hc
    rcases hc with rfl | rfl <;> exact hhigh _ (by omega) (by omega)
  split at hc
  · simp only [mem_cons, not_mem_nil, or_false] at hc
    rcases hc with rfl | rfl | rfl <;> exact hhigh _ (by omega) (by omega)
  · simp only [mem_cons, not_mem_nil, or_false] at hc
    rcases hc with rfl | rfl | rfl | rfl <;> exact hhigh _ (by omega) (by omega)

/-- A character that is spelled as its code point is written. -/
structure Glyph.Proper (g : Glyph) : Prop where
  unbroken : g.broken = false
  bytes : g.bytes = encodeRune g.rune
  low : g.rune < 128 → g.bytes = [UInt8.ofNat g.rune]

theorem proper_head {b : UInt8} {rest : Text} (h : undecodable b rest = false) :
    Glyph.Proper ⟨(decodeHead b rest).1, b :: rest.take (decodeHead b rest).2⟩ where
  unbroken := (broken_head b rest).trans h
  bytes := (encodeRune_decodeHead h).symm
  low := by
    intro hlow
    rw [decodeHead_of_lt hlow]
    simp

theorem proper_of_mem {t : Text} {g : Glyph} (hg : g ∈ glyphs t) (hbroken : g.broken = false) :
    g.Proper := by
  fun_induction glyphs t with
  | case1 => cases hg
  | case2 b rest rune more hdecode ih =>
    rcases mem_cons.1 hg with rfl | hg
    · have hproper := @proper_head b rest
      have hhead := broken_head b rest
      rw [hdecode] at hproper hhead
      exact hproper (hhead.symm.trans hbroken)
    · exact ih hg

/-- The bytes of a character, those of the replacement character for a broken one. -/
def Glyph.mended (g : Glyph) : Text := if g.broken then encodeRune replacement else g.bytes

theorem toUtf8_eq (t : Text) : toUtf8 t = (glyphs t).flatMap Glyph.mended := rfl

theorem decimal_eq (n : Nat) :
    decimal n = (if n < 10 then [] else decimal (n / 10)) ++ [UInt8.ofNat (48 + n % 10)] := by
  have hdigit : ∀ d < 10, (Nat.digitChar d).toUInt8 = UInt8.ofNat (48 + d) := by decide
  rw [decimal, Nat.toDigits_eq_if (by decide)]
  split
  · rename_i hn
    rw [Nat.mod_eq_of_lt hn]
    simp only [map_cons, map_nil, nil_append, hdigit n hn]
  · simp only [map_append, map_cons, map_nil, hdigit _ (Nat.mod_lt n (by decide)), decimal]

theorem decimal_digits (n : Nat) :
    (∀ b ∈ decimal n, isDigit b) ∧ (0 < n → ∃ b t, decimal n = b :: t ∧ b ≠ 48) := by
  induction n using Nat.strongRecOn with
  | ind n ih =>
    have hlast : ∀ d < 10, isDigit (UInt8.ofNat (48 + d)) ∧ (0 < d → UInt8.ofNat (48 + d) ≠ 48) := by decide
    rw [decimal_eq]
    by_cases hn : n < 10
    · rw [if_pos hn, Nat.mod_eq_of_lt hn]
      exact ⟨by simpa using (hlast n hn).1, fun hpos => ⟨_, [], rfl, (hlast n hn).2 hpos⟩⟩
    · obtain ⟨hall, hhead⟩ := ih (n / 10) (by omega)
      rw [if_neg hn]
      refine ⟨?_, fun _ => ?_⟩
      · simpa [or_imp, forall_and] using And.intro hall (hlast (n % 10) (by omega)).1
      · obtain ⟨b, t, ht, hb⟩ := hhead (by omega)
        exact ⟨b, t ++ [_], by rw [ht, cons_append], hb⟩

end Text

namespace Json

/-! ## Strings -/

theorem hexFour?_hexNat {n : Nat} (h : n < 0x10000) (t : Text) :
    hexFour? (hexNat 4 n ++ t) = .ok (n, t) := by
  have hdigits : hexNat 4 n ++ t = hexDigit (n / 16 / 16 / 16) :: hexDigit (n / 16 / 16) ::
      hexDigit (n / 16) :: hexDigit n :: t := rfl
  rw [hdigits]
  simp only [hexFour?, hexValue?_hexDigit, Except.ok.injEq, Prod.mk.injEq, and_true]
  omega

theorem readChars_plain {b : UInt8} (hquote : b ≠ 34) (hslash : b ≠ 92) (hcontrol : ¬ b < 32) (fuel : Nat)
    (found t : Text) : readChars (fuel + 1) found (b :: t) = readChars fuel (b :: found) t := by
  simp [readChars, hslash, hcontrol]

theorem readChars_letter {b c : UInt8} (hu : b ≠ 117) (hb : letterEscape? b = some c) (fuel : Nat)
    (found t : Text) : readChars (fuel + 1) found (92 :: b :: t) = readChars fuel (c :: found) t := by
  simp [readChars, hb]

theorem readChars_unicode {n : Nat} (h : n < 0x10000) (hsurrogate : n < 0xD800 ∨ 0xDBFF < n) (fuel : Nat)
    (found t : Text) : readChars (fuel + 1) found (ofString "\\u" ++ hexNat 4 n ++ t) =
      readChars fuel ((encodeRune n).reverse ++ found) t := by
  have htext : ofString "\\u" ++ hexNat 4 n ++ t = 92 :: 117 :: (hexNat 4 n ++ t) := rfl
  have hpair : ∀ m, surrogatePair? n m = none := by
    intro m
    rw [surrogatePair?, if_neg]
    simp only [Bool.and_eq_true, decide_eq_true_eq]
    omega
  have hescape : unicodeEscape n t = (encodeRune n, t) := by
    rw [unicodeEscape.eq_def]
    split
    · split
      · rw [hpair]
      · rfl
    · rfl
  rw [htext]
  simp only [readChars, hexFour?_hexNat h, hescape]

theorem readChars_bytes {bs : Text} (h : ∀ b ∈ bs, b ≠ 34 ∧ b ≠ 92 ∧ ¬ b < 32) (fuel : Nat)
    (found t : Text) :
    readChars (fuel + bs.length) found (bs ++ t) = readChars fuel (bs.reverse ++ found) t := by
  induction bs generalizing found with
  | nil => rfl
  | cons b bs ih =>
    obtain ⟨⟨hquote, hslash, hcontrol⟩, hbs⟩ := forall_mem_cons.1 h
    rw [length_cons, ← Nat.add_assoc, cons_append, readChars_plain hquote hslash hcontrol, ih hbs,
      reverse_cons, append_assoc]
    rfl

def letterEscapes : List (UInt8 × UInt8) :=
  [(34, 34), (92, 92), (98, 8), (116, 9), (110, 10), (102, 12), (114, 13)]

theorem escape_letter {g : Glyph} {p : UInt8 × UInt8} (h : g.broken = false) (hp : p ∈ letterEscapes)
    (hrune : g.rune = p.2.toNat) : escape g = [92, p.1] := by
  simp only [letterEscapes, mem_cons, not_mem_nil, or_false] at hp
  rcases hp with rfl | rfl | rfl | rfl | rfl | rfl | rfl
  all_goals
    simp [escape, h, hrune]
    decide

theorem readChars_proper {g : Glyph} (h : g.Proper) : ∃ k, k ≤ (escape g).length ∧
    ∀ fuel found t, readChars (fuel + k) found (escape g ++ t) =
      readChars fuel (g.bytes.reverse ++ found) t := by
  have hunbroken := h.unbroken
  by_cases hletter : ∃ p ∈ letterEscapes, g.rune = p.2.toNat
  · obtain ⟨p, hp, hrune⟩ := hletter
    have hletters : letterEscapes.all fun p =>
        decide (p.2.toNat < 128) && p.1 != 117 && letterEscape? p.1 == some p.2 := by decide
    obtain ⟨⟨hlow, hu⟩, hread⟩ := by simpa using all_eq_true.1 hletters p hp
    have hescape := escape_letter hunbroken hp hrune
    refine ⟨1, by simp [hescape], fun fuel found t => ?_⟩
    rw [hescape, h.low (hrune ▸ hlow), hrune, UInt8.ofNat_toNat]
    exact readChars_letter hu hread fuel found t
  obtain ⟨h34, h92, h8, h9, h10, h12, h13⟩ : g.rune ≠ 34 ∧ g.rune ≠ 92 ∧ g.rune ≠ 8 ∧ g.rune ≠ 9 ∧
      g.rune ≠ 10 ∧ g.rune ≠ 12 ∧ g.rune ≠ 13 := by
    simp only [letterEscapes, exists_mem_cons_iff] at hletter
    simp at hletter
    omega
  by_cases hcode : g.rune < 32 ∨ g.rune = 60 ∨ g.rune = 62 ∨ g.rune = 38 ∨ g.rune = 0x2028 ∨ g.rune = 0x2029
  · have hescape : escape g = ofString "\\u" ++ hexNat 4 g.rune := by
      simp [escape, hunbroken, h34, h92, h8, h9, h10, h12, h13, or_assoc, hcode]
    refine ⟨1, by rw [hescape]; exact Nat.succ_le_succ (Nat.zero_le _), fun fuel found t => ?_⟩
    rw [hescape, h.bytes]
    exact readChars_unicode (by omega) (by omega) fuel found t
  · have hescape : escape g = g.bytes := by
      simp [escape, hunbroken, h34, h92, h8, h9, h10, h12, h13, or_assoc, hcode]
    refine ⟨g.bytes.length, by rw [hescape], fun fuel found t => ?_⟩
    rw [hescape]
    refine readChars_bytes (fun c hc => ?_) fuel found t
    have h32 : (32 : UInt8).toNat = 32 := rfl
    have h128 : (0x80 : UInt8).toNat = 128 := rfl
    by_cases hlow : g.rune < 128
    · rw [h.low hlow, mem_singleton] at hc
      have hrune : c.toNat = g.rune := by
        rw [hc, UInt8.toNat_ofNat_of_lt' (Nat.lt_trans hlow (by decide))]
      simp only [ne_eq, ← UInt8.toNat_inj, UInt8.lt_iff_toNat_lt, hrune, h32, UInt8.reduceToNat]
      omega
    · rw [h.bytes] at hc
      have hhigh := high_of_mem_encodeRune (Nat.le_of_not_lt hlow) hc
      simp only [ne_eq, ← UInt8.toNat_inj, UInt8.lt_iff_toNat_lt, h32, h128, UInt8.reduceToNat] at hhigh ⊢
      omega

theorem readChars_broken {g : Glyph} (h : g.broken) : ∃ k, k ≤ (escape g).length ∧
    ∀ fuel found t, readChars (fuel + k) found (escape g ++ t) =
      readChars fuel ((encodeRune replacement).reverse ++ found) t := by
  have hescape : escape g = ofString "\\u" ++ hexNat 4 replacement := by simp [escape, h]
  refine ⟨1, by rw [hescape]; exact Nat.succ_le_succ (Nat.zero_le _), fun fuel found t => ?_⟩
  rw [hescape]
  exact readChars_unicode (by decide) (by decide) fuel found t

theorem readChars_glyphs {gs : List Glyph} (h : ∀ g ∈ gs, g.broken = false → g.Proper) :
    ∃ k, k ≤ (gs.flatMap escape).length ∧ ∀ fuel found t,
      readChars (fuel + k) found (gs.flatMap escape ++ t) =
      readChars fuel ((gs.flatMap Glyph.mended).reverse ++ found) t := by
  induction gs with
  | nil => exact ⟨0, Nat.le_refl _, fun _ _ _ => rfl⟩
  | cons g gs ih =>
    obtain ⟨hg, hgs⟩ := forall_mem_cons.1 h
    obtain ⟨k', hk', hread'⟩ := ih hgs
    obtain ⟨k, hk, hread⟩ : ∃ k, k ≤ (escape g).length ∧ ∀ fuel found t,
        readChars (fuel + k) found (escape g ++ t) = readChars fuel (g.mended.reverse ++ found) t := by
      rw [Glyph.mended]
      cases hbroken : g.broken with
      | true => exact readChars_broken hbroken
      | false => exact readChars_proper (hg hbroken)
    refine ⟨k' + k, ?_, fun fuel found t => ?_⟩
    · rw [flatMap_cons, length_append]
      omega
    · rw [flatMap_cons, append_assoc, ← Nat.add_assoc, hread, hread', flatMap_cons,
        reverse_append, append_assoc]

/-- **A string is read as it was written**, with replacement characters for what cannot be decoded. -/
theorem readString_glyphs (t : Text) {fuel : Nat} (rest : Text)
    (hfuel : ((glyphs t).flatMap escape).length < fuel) :
    readString fuel ((glyphs t).flatMap escape ++ 34 :: rest) = .ok (toUtf8 t, rest) := by
  obtain ⟨k, hk, hread⟩ := readChars_glyphs fun g hg hbroken => proper_of_mem (t := t) hg hbroken
  obtain ⟨n, rfl⟩ : ∃ n, fuel = n + 1 + k := ⟨fuel - k - 1, by omega⟩
  rw [readString, hread, ← toUtf8_eq, append_nil]
  simp [readChars, Except.map, toUtf8_eq_self (isUtf8_toUtf8 t)]

/-! ## Numbers -/

/-- The text is empty or starts with what stands behind a value in an array or an object. -/
def Stops (t : Text) : Prop := ∀ b ∈ t.head?, b = 44 ∨ b = 93 ∨ b = 125

variable {t u v rest : Text}

def Digits (ds : Text) : Prop := ds ≠ [] ∧ ∀ b ∈ ds, isDigit b

/-- The whole part of a number: no zero stands in front of other digits. -/
inductive Whole : Text → Prop where
  | zero : Whole [48]
  | digits {b : UInt8} {ds : Text} : b ≠ 48 → Digits (b :: ds) → Whole (b :: ds)

inductive Fraction : Text → Prop where
  | none : Fraction []
  | some {ds : Text} : Digits ds → Fraction (46 :: ds)

inductive Exponent : Text → Prop where
  | none : Exponent []
  | plain {e : UInt8} {ds : Text} : e = 101 ∨ e = 69 → Digits ds → Exponent (e :: ds)
  | signed {e s : UInt8} {ds : Text} : e = 101 ∨ e = 69 → s = 43 ∨ s = 45 → Digits ds → Exponent (e :: s :: ds)

inductive Number : Text → Prop where
  | mk {sign whole fraction exponent : Text} : sign = [] ∨ sign = [45] → Whole whole → Fraction fraction →
    Exponent exponent → Number (sign ++ whole ++ fraction ++ exponent)

theorem span_digits (h : ∀ b ∈ u, isDigit b) (hrest : ∀ b ∈ rest.head?, isDigit b = false) :
    (u ++ rest).takeWhile isDigit = u ∧ (u ++ rest).dropWhile isDigit = rest := by
  refine ⟨?_, by rw [dropWhile_append_of_pos h, dropWhile_eq_self hrest]⟩
  rw [takeWhile_append_of_pos h]
  cases rest with
  | nil => simp
  | cons b rest => rw [takeWhile_cons_of_neg (by simp [hrest b rfl]), append_nil]

theorem readDigits_append (h : Digits u) (hrest : ∀ b ∈ rest.head?, isDigit b = false) :
    readDigits (u ++ rest) = .ok (u, rest) := by
  obtain ⟨htake, hdrop⟩ := span_digits h.2 hrest
  rw [readDigits, htake, hdrop]
  obtain ⟨b, u, rfl⟩ := exists_cons_of_ne_nil h.1
  rfl

theorem readWhole_append (h : Whole u) (hrest : ∀ b ∈ rest.head?, isDigit b = false) :
    readWhole (u ++ rest) = .ok (u, rest) := by
  cases h with
  | zero => rfl
  | digits hb hds =>
    rw [← readDigits_append hds hrest, readWhole]
    rintro t ⟨⟩
    exact hb rfl

theorem readFraction_append (h : Fraction u) (hrest : ∀ b ∈ rest.head?, isDigit b = false ∧ b ≠ 46) :
    readFraction (u ++ rest) = .ok (u, rest) := by
  cases h with
  | none =>
    rw [nil_append, readFraction]
    rintro t rfl
    exact (hrest 46 rfl).2 rfl
  | some hds => exact map_eq_ok.2 ⟨_, readDigits_append hds fun b hb => (hrest b hb).1, rfl⟩

theorem Stops.not_isDigit (h : Stops rest) : ∀ b ∈ rest.head?, isDigit b = false ∧ b ≠ 46 := by
  intro b hb
  rcases h b hb with rfl | rfl | rfl <;> decide

theorem readExponent_append (h : Exponent u) (hrest : Stops rest) : readExponent (u ++ rest) = .ok (u, rest) := by
  have hletter : ∀ {e : UInt8}, e = 101 ∨ e = 69 → (e == 101 || e == 69) = true := by simp
  have hend : ∀ b ∈ rest.head?, isDigit b = false := fun b hb => (hrest.not_isDigit b hb).1
  cases h with
  | none =>
    cases rest with
    | nil => rfl
    | cons b rest =>
      have hb : (b == 101 || b == 69) = false := by rcases hrest b rfl with rfl | rfl | rfl <;> rfl
      simp [readExponent, hb]
  | plain he hds =>
    obtain ⟨s, ds, rfl⟩ := exists_cons_of_ne_nil hds.1
    have hs : (s == 43 || s == 45) = false := by
      have hdigit := hds.2 s mem_cons_self
      rw [Bool.eq_false_iff]
      intro hs
      rcases (by simpa using hs : s = 43 ∨ s = 45) with rfl | rfl <;> exact absurd hdigit (by decide)
    simp only [cons_append, readExponent, hletter he, hs, if_true, Bool.false_eq_true, if_false]
    rw [← cons_append, readDigits_append hds hend]
    rfl
  | signed he hs hds =>
    have hsign : ∀ {s : UInt8}, s = 43 ∨ s = 45 → (s == 43 || s == 45) = true := by simp
    simp only [cons_append, readExponent, hletter he, hsign hs, if_true, readDigits_append hds hend]
    rfl

theorem head?_exponent (h : Exponent u) (hrest : Stops rest) :
    ∀ b ∈ (u ++ rest).head?, isDigit b = false ∧ b ≠ 46 := by
  cases h with
  | none => exact hrest.not_isDigit
  | plain he | signed he =>
    rintro b ⟨⟩
    rcases he with rfl | rfl <;> decide

theorem head?_fraction (h : Fraction u) (hrest : ∀ b ∈ rest.head?, isDigit b = false ∧ b ≠ 46) :
    ∀ b ∈ (u ++ rest).head?, isDigit b = false := by
  cases h with
  | none => exact fun b hb => (hrest b hb).1
  | some hds =>
    rintro b ⟨⟩
    decide

theorem Whole.exists_head (h : Whole u) : ∃ b t, u = b :: t ∧ isDigit b := by
  cases h with
  | zero => exact ⟨48, [], rfl, by decide⟩
  | digits hb hds => exact ⟨_, _, rfl, hds.2 _ mem_cons_self⟩

theorem Number.exists_head (h : Number u) : ∃ b t, u = b :: t ∧ (b = 45 ∨ isDigit b) := by
  cases h with
  | mk hsign hwhole =>
    obtain ⟨b, t, rfl, hb⟩ := hwhole.exists_head
    rcases hsign with rfl | rfl
    · exact ⟨b, _, rfl, .inr hb⟩
    · exact ⟨45, _, rfl, .inl rfl⟩

/-- The parts of a number behind its sign. -/
def readUnsigned (sign t : Text) : Except Fault (Text × Text) := do
  let (whole, t) ← readWhole t
  let (fraction, t) ← readFraction t
  let (exponent, t) ← readExponent t
  return (sign ++ whole ++ fraction ++ exponent, t)

theorem readUnsigned_append (sign : Text) {whole fraction exponent : Text} (hwhole : Whole whole)
    (hfraction : Fraction fraction) (hexponent : Exponent exponent) (hrest : Stops rest) :
    readUnsigned sign (whole ++ (fraction ++ (exponent ++ rest))) =
      .ok (sign ++ whole ++ fraction ++ exponent, rest) := by
  have hexp := head?_exponent hexponent hrest
  refine bind_eq_ok.2 ⟨_, readWhole_append hwhole (head?_fraction hfraction hexp), ?_⟩
  refine bind_eq_ok.2 ⟨_, readFraction_append hfraction hexp, ?_⟩
  exact bind_eq_ok.2 ⟨_, readExponent_append hexponent hrest, rfl⟩

theorem readNumber_append (h : Number u) (hrest : Stops rest) : readNumber (u ++ rest) = .ok (u, rest) := by
  cases h with
  | @mk sign whole fraction exponent hsign hwhole hfraction hexponent =>
    have htext : sign ++ whole ++ fraction ++ exponent ++ rest =
        sign ++ (whole ++ (fraction ++ (exponent ++ rest))) := by
      simp
    rw [htext, ← readUnsigned_append sign hwhole hfraction hexponent hrest]
    rcases hsign with rfl | rfl
    · obtain ⟨b, t, rfl, hb⟩ := hwhole.exists_head
      rw [nil_append, readNumber]
      · rfl
      · rintro t ⟨⟩
        exact absurd hb (by decide)
    · rfl

theorem number_decimal (n : Nat) : Number (decimal n) := by
  have hwhole : Whole (decimal n) := by
    rcases Nat.eq_zero_or_pos n with rfl | hn
    · exact .zero
    obtain ⟨hall, hhead⟩ := decimal_digits n
    obtain ⟨b, t, ht, hb⟩ := hhead hn
    rw [ht] at hall ⊢
    exact .digits hb ⟨cons_ne_nil b t, hall⟩
  simpa using Number.mk (.inl rfl) hwhole .none .none

/-! ## Values -/

mutual

/-- The value with replacement characters for what cannot be decoded in its strings. -/
def recoded : Json → Json
  | null => null
  | bool b => bool b
  | number literal => number literal
  | string t => string (toUtf8 t)
  | array items => array (recodedItems items)
  | object members => object (recodedMembers members)

def recodedItems : List Json → List Json
  | [] => []
  | v :: vs => recoded v :: recodedItems vs

def recodedMembers : List (Text × Json) → List (Text × Json)
  | [] => []
  | (name, v) :: ms => (toUtf8 name, recoded v) :: recodedMembers ms

end

mutual

/-- The numbers of a value at a depth are numbers and it does not nest too deep. -/
def Proper (depth : Nat) : Json → Prop
  | null => True
  | bool _ => True
  | number literal => Number literal
  | string _ => True
  | array items => depth < maxDepth ∧ ProperItems (depth + 1) items
  | object members => depth < maxDepth ∧ ProperMembers (depth + 1) members

def ProperItems (depth : Nat) : List Json → Prop
  | [] => True
  | v :: vs => Proper depth v ∧ ProperItems depth vs

def ProperMembers (depth : Nat) : List (Text × Json) → Prop
  | [] => True
  | (_, v) :: ms => Proper depth v ∧ ProperMembers depth ms

end

theorem skipSpace_cons {b : UInt8} (hb : isSpace b = false) (t : Text) : skipSpace (b :: t) = b :: t := by
  rw [skipSpace, dropWhile_cons_of_neg (by simp [hb])]

theorem isSpace_eq_false {b : UInt8} (hb : b = 45 ∨ isDigit b) : isSpace b = false := by
  rw [Bool.eq_false_iff]
  intro hspace
  simp only [isSpace, Bool.or_eq_true, beq_iff_eq] at hspace
  rcases hspace with ((rfl | rfl) | rfl) | rfl <;> exact absurd hb (by decide)

theorem readValue_number {b : UInt8} (hb : b = 45 ∨ isDigit b) (fuel depth : Nat) (t : Text) :
    readValue (fuel + 1) depth (b :: t) =
      (readNumber (b :: t)).map fun (literal, rest) => (number literal, rest) := by
  rw [readValue.eq_def]
  simp only [skipSpace_cons (isSpace_eq_false hb)]
  split
  case h_8 => rfl
  all_goals
    rename_i heq
    cases heq
  all_goals exact absurd hb (by decide)

theorem Proper.number {depth : Nat} {v : Json} (h : Proper depth v) : ∀ t, v = number t → Number t := by
  rintro t rfl
  rwa [Proper] at h

theorem exists_head_write {v : Json} (h : ∀ t, v = number t → Number t) :
    ∃ b t, write v = b :: t ∧ isSpace b = false ∧ b ≠ 93 := by
  cases v with
  | null | string t | array items | object members => exact ⟨_, _, rfl, by decide, by decide⟩
  | bool b => cases b <;> exact ⟨_, _, rfl, by decide, by decide⟩
  | number literal =>
    obtain ⟨b, t, hliteral, hb⟩ := (h literal rfl).exists_head
    exact ⟨b, t, by rw [write, hliteral], isSpace_eq_false hb, by rintro rfl; exact absurd hb (by decide)⟩

theorem stops_cons {b : UInt8} (h : b = 44 ∨ b = 93 ∨ b = 125) (t : Text) : Stops (b :: t) := by
  rintro c ⟨⟩
  exact h

section Steps

variable {fuel depth : Nat} {v : Json} {name : Text}

theorem readValue_array {b : UInt8} (hdepth : depth < maxDepth) (hspace : isSpace b = false) (hb : b ≠ 93) :
    readValue (fuel + 1) depth (91 :: b :: t) = readItems fuel (depth + 1) [] (b :: t) := by
  rw [readValue.eq_def]
  simp only [skipSpace_cons (by decide : isSpace 91 = false), if_neg (Nat.not_le.2 hdepth),
    skipSpace_cons hspace]
  split
  · rename_i heq
    exact absurd (List.cons.inj heq).1 hb
  · rfl

theorem readValue_object (hdepth : depth < maxDepth) :
    readValue (fuel + 1) depth (123 :: 34 :: t) = readMembers fuel (depth + 1) [] (34 :: t) := by
  rw [readValue.eq_def]
  simp only [skipSpace_cons (by decide : isSpace 123 = false), if_neg (Nat.not_le.2 hdepth),
    skipSpace_cons (by decide : isSpace 34 = false)]
  rfl

theorem readValue_nil (hdepth : depth < maxDepth) :
    readValue (fuel + 1) depth (91 :: 93 :: t) = .ok (array [], t) ∧
      readValue (fuel + 1) depth (123 :: 125 :: t) = .ok (object [], t) := by
  constructor
  · rw [readValue.eq_def]
    simp only [skipSpace_cons (by decide : isSpace 91 = false), if_neg (Nat.not_le.2 hdepth),
      skipSpace_cons (by decide : isSpace 93 = false)]
  · rw [readValue.eq_def]
    simp only [skipSpace_cons (by decide : isSpace 123 = false), if_neg (Nat.not_le.2 hdepth),
      skipSpace_cons (by decide : isSpace 125 = false)]

theorem readWord_append (word t : Text) : readWord word (word ++ t) = .ok t := by
  induction word with
  | nil => rfl
  | cons b word ih => rw [cons_append, readWord, if_pos rfl, ih]

theorem readValue_word {w : String}
    (h : (w, v) ∈ [("null", null), ("true", bool true), ("false", bool false)]) :
    readValue (fuel + 1) depth (ofString w ++ t) = .ok (v, t) := by
  have hnull : ofString "null" = 110 :: ofString "ull" := by decide
  have htrue : ofString "true" = 116 :: ofString "rue" := by decide
  have hfalse : ofString "false" = 102 :: ofString "alse" := by decide
  simp only [mem_cons, Prod.mk.injEq, not_mem_nil, or_false] at h
  rcases h with ⟨rfl, rfl⟩ | ⟨rfl, rfl⟩ | ⟨rfl, rfl⟩
  · rw [hnull, cons_append, readValue.eq_def]
    simp only [skipSpace_cons (by decide : isSpace 110 = false), readWord_append, Except.map]
  · rw [htrue, cons_append, readValue.eq_def]
    simp only [skipSpace_cons (by decide : isSpace 116 = false), readWord_append, Except.map]
  · rw [hfalse, cons_append, readValue.eq_def]
    simp only [skipSpace_cons (by decide : isSpace 102 = false), readWord_append, Except.map]

theorem readValue_string (h : readString fuel t = .ok (u, rest)) :
    readValue (fuel + 1) depth (34 :: t) = .ok (string u, rest) := by
  rw [readValue.eq_def]
  simp only [skipSpace_cons (by decide : isSpace 34 = false), h, Except.map]

theorem readItems_next {found : List Json} (h : readValue fuel depth t = .ok (v, 44 :: rest)) :
    readItems (fuel + 1) depth found t = readItems fuel depth (v :: found) rest := by
  simp only [readItems, h, skipSpace_cons (by decide : isSpace 44 = false)]

theorem readItems_last {found : List Json} (h : readValue fuel depth t = .ok (v, 93 :: rest)) :
    readItems (fuel + 1) depth found t = .ok (array (v :: found).reverse, rest) := by
  simp only [readItems, h, skipSpace_cons (by decide : isSpace 93 = false)]

theorem readMembers_next {found : List (Text × Json)} (hname : readString fuel t = .ok (name, 58 :: u))
    (h : readValue fuel depth u = .ok (v, 44 :: rest)) :
    readMembers (fuel + 1) depth found (34 :: t) = readMembers fuel depth ((name, v) :: found) rest := by
  simp only [readMembers, hname, h, skipSpace_cons (by decide : isSpace 34 = false),
    skipSpace_cons (by decide : isSpace 58 = false), skipSpace_cons (by decide : isSpace 44 = false)]

theorem readMembers_last {found : List (Text × Json)} (hname : readString fuel t = .ok (name, 58 :: u))
    (h : readValue fuel depth u = .ok (v, 125 :: rest)) :
    readMembers (fuel + 1) depth found (34 :: t) = .ok (object ((name, v) :: found).reverse, rest) := by
  simp only [readMembers, hname, h, skipSpace_cons (by decide : isSpace 34 = false),
    skipSpace_cons (by decide : isSpace 58 = false), skipSpace_cons (by decide : isSpace 125 = false)]

end Steps

theorem exists_fuel {fuel depth : Nat} {v : Json} (h : Proper depth v)
    (hfuel : 2 * (write v).length ≤ fuel) :
    ∃ n, fuel = n + 1 := by
  obtain ⟨b, t, hwrite, -⟩ := exists_head_write h.number
  rw [hwrite, length_cons] at hfuel
  exact ⟨fuel - 1, by omega⟩

theorem write_array (items : List Json) (t : Text) :
    write (array items) ++ t = 91 :: (join [44] (writeItems items) ++ 93 :: t) := by
  have hopen : ofString "[" = [91] := rfl
  have hcomma : ofString "," = [44] := rfl
  have hclose : ofString "]" = [93] := rfl
  simp [write, hopen, hcomma, hclose]

theorem write_object (members : List (Text × Json)) (t : Text) :
    write (object members) ++ t = 123 :: (join [44] (writeMembers members) ++ 125 :: t) := by
  have hopen : ofString "\x7b" = [123] := rfl
  have hcomma : ofString "," = [44] := rfl
  have hclose : ofString "\x7d" = [125] := rfl
  simp [write, hopen, hcomma, hclose]

theorem exists_join_cons (sep w : Text) (ws : List Text) : ∃ t, join sep (w :: ws) = w ++ t := by
  cases ws with
  | nil => exact ⟨[], by rw [join_singleton, append_nil]⟩
  | cons u ws => exact ⟨_, join_cons_cons sep w u ws⟩

theorem writeMember_append (name : Text) (v : Json) (t : Text) :
    (writeString name ++ ofString ":" ++ write v) ++ t =
      34 :: ((glyphs name).flatMap escape ++ 34 :: 58 :: (write v ++ t)) := by
  have hquote : ofString "\"" = [34] := rfl
  have hcolon : ofString ":" = [58] := rfl
  simp [writeString, hquote, hcolon]

section

variable {fuel depth : Nat} (hdepth : depth < maxDepth)

include hdepth

theorem readValue_items {v : Json} (h : ∀ t, v = number t → Number t) (vs : List Json) (rest : Text) :
    readValue (fuel + 1) depth (write (array (v :: vs)) ++ rest) =
      readItems fuel (depth + 1) [] (join [44] (writeItems (v :: vs)) ++ 93 :: rest) := by
  obtain ⟨b, t, hv, hspace, hb⟩ := exists_head_write h
  obtain ⟨more, hjoin⟩ := exists_join_cons [44] (write v) (writeItems vs)
  -- the first item does not start with a closing bracket
  rw [write_array, writeItems, hjoin, hv, cons_append, cons_append,
    readValue_array hdepth hspace hb]

theorem readValue_members (name : Text) (v : Json) (ms : List (Text × Json)) (rest : Text) :
    readValue (fuel + 1) depth (write (object ((name, v) :: ms)) ++ rest) =
      readMembers fuel (depth + 1) [] (join [44] (writeMembers ((name, v) :: ms)) ++ 125 :: rest) := by
  obtain ⟨more, hjoin⟩ :=
    exists_join_cons [44] (writeString name ++ ofString ":" ++ write v) (writeMembers ms)
  rw [write_object, writeMembers, hjoin, append_assoc, writeMember_append, readValue_object hdepth]

end

mutual

theorem readValue_write : ∀ (v : Json) {depth fuel : Nat} {rest : Text}, Proper depth v → Stops rest →
    2 * (write v).length ≤ fuel → readValue fuel depth (write v ++ rest) = .ok (recoded v, rest)
  | null, depth, fuel, rest, h, _, hfuel | bool true, depth, fuel, rest, h, _, hfuel
  | bool false, depth, fuel, rest, h, _, hfuel => by
    obtain ⟨n, rfl⟩ := exists_fuel h hfuel
    exact readValue_word (by simp [recoded])
  | number literal, depth, fuel, rest, h, hrest, hfuel => by
    obtain ⟨n, rfl⟩ := exists_fuel h hfuel
    rw [Proper] at h
    have hnumber := readNumber_append h hrest
    obtain ⟨b, t, rfl, hb⟩ := h.exists_head
    rw [write, cons_append, readValue_number hb, ← cons_append, hnumber]
    rfl
  | string t, depth, fuel, rest, h, _, hfuel => by
    obtain ⟨n, rfl⟩ := exists_fuel h hfuel
    have htext : write (string t) ++ rest = 34 :: ((glyphs t).flatMap escape ++ 34 :: rest) := by
      have hquote : ofString "\"" = [34] := rfl
      simp [write, writeString, hquote]
    have hlength := congrArg length htext
    simp only [length_append, length_cons] at hlength
    rw [htext, readValue_string (readString_glyphs t rest (by omega)), recoded]
  | array [], depth, fuel, rest, h, _, hfuel => by
    obtain ⟨n, rfl⟩ := exists_fuel h hfuel
    rw [Proper] at h
    rw [write_array]
    exact (readValue_nil h.1).1
  | array (v :: vs), depth, fuel, rest, h, hrest, hfuel => by
    obtain ⟨n, rfl⟩ := exists_fuel h hfuel
    rw [Proper] at h
    obtain ⟨hdepth, hitems⟩ := h
    have hlength := congrArg length (write_array (v :: vs) [])
    simp only [length_append, length_cons, length_nil] at hlength
    have hfirst := hitems
    rw [ProperItems] at hfirst
    rw [readValue_items hdepth hfirst.1.number,
      readItems_write (v :: vs) (cons_ne_nil v vs) hitems (by omega), recoded]
    rfl
  | object [], depth, fuel, rest, h, _, hfuel => by
    obtain ⟨n, rfl⟩ := exists_fuel h hfuel
    rw [Proper] at h
    rw [write_object]
    exact (readValue_nil h.1).2
  | object ((name, v) :: ms), depth, fuel, rest, h, hrest, hfuel => by
    obtain ⟨n, rfl⟩ := exists_fuel h hfuel
    rw [Proper] at h
    obtain ⟨hdepth, hmembers⟩ := h
    have hlength := congrArg length (write_object ((name, v) :: ms) [])
    simp only [length_append, length_cons, length_nil] at hlength
    rw [readValue_members hdepth,
      readMembers_write ((name, v) :: ms) (cons_ne_nil _ ms) hmembers (by omega), recoded]
    rfl

theorem readItems_write : ∀ (vs : List Json) {depth fuel : Nat} {found : List Json} {rest : Text}, vs ≠ [] →
    ProperItems depth vs → 2 * (join [44] (writeItems vs)).length + 1 ≤ fuel →
    readItems fuel depth found (join [44] (writeItems vs) ++ 93 :: rest) =
      .ok (array (found.reverse ++ recodedItems vs), rest)
  | [], _, _, _, _, hne, _, _ => absurd rfl hne
  | [v], depth, fuel, found, rest, _, h, hfuel => by
    obtain ⟨n, rfl⟩ : ∃ n, fuel = n + 1 := ⟨fuel - 1, by omega⟩
    rw [ProperItems] at h
    simp only [writeItems, join_singleton] at hfuel ⊢
    rw [readItems_last (readValue_write v h.1 (stops_cons (.inr (.inl rfl)) rest) (by omega)),
      reverse_cons]
    rfl
  | v :: w :: vs, depth, fuel, found, rest, _, h, hfuel => by
    obtain ⟨n, rfl⟩ : ∃ n, fuel = n + 1 := ⟨fuel - 1, by omega⟩
    rw [ProperItems] at h
    rw [writeItems, writeItems, join_cons_cons, ← writeItems] at hfuel ⊢
    simp only [length_append, length_singleton] at hfuel
    rw [append_assoc, append_assoc, singleton_append,
      readItems_next (readValue_write v h.1 (stops_cons (.inl rfl) _) (by omega)),
      readItems_write (w :: vs) (cons_ne_nil w vs) h.2 (by omega), reverse_cons, append_assoc]
    rfl

theorem readMembers_write : ∀ (ms : List (Text × Json)) {depth fuel : Nat} {found : List (Text × Json)}
    {rest : Text}, ms ≠ [] → ProperMembers depth ms → 2 * (join [44] (writeMembers ms)).length + 1 ≤ fuel →
    readMembers fuel depth found (join [44] (writeMembers ms) ++ 125 :: rest) =
      .ok (object (found.reverse ++ recodedMembers ms), rest)
  | [], _, _, _, _, hne, _, _ => absurd rfl hne
  | [(name, v)], depth, fuel, found, rest, _, h, hfuel => by
    obtain ⟨n, rfl⟩ : ∃ n, fuel = n + 1 := ⟨fuel - 1, by omega⟩
    rw [ProperMembers] at h
    simp only [writeMembers, join_singleton] at hfuel ⊢
    have hlength := congrArg length (writeMember_append name v [])
    simp only [length_append, length_cons, length_nil] at hlength hfuel
    rw [writeMember_append, readMembers_last (readString_glyphs name _ (by omega))
      (readValue_write v h.1 (stops_cons (.inr (.inr rfl)) rest) (by omega)), reverse_cons]
    rfl
  | (name, v) :: m :: ms, depth, fuel, found, rest, _, h, hfuel => by
    obtain ⟨n, rfl⟩ : ∃ n, fuel = n + 1 := ⟨fuel - 1, by omega⟩
    rw [ProperMembers] at h
    obtain ⟨w, ws, hws⟩ : ∃ w ws, writeMembers (m :: ms) = w :: ws := ⟨_, _, rfl⟩
    have hlength := congrArg length (writeMember_append name v [])
    rw [writeMembers, hws, join_cons_cons, ← hws] at hfuel ⊢
    simp only [length_append, length_cons, length_nil] at hlength hfuel
    rw [append_assoc (writeString name ++ ofString ":" ++ write v), writeMember_append,
      singleton_append, cons_append, readMembers_next (readString_glyphs name _ (by omega))
        (readValue_write v h.1 (stops_cons (.inl rfl) _) (by omega)),
      readMembers_write (m :: ms) (cons_ne_nil m ms) h.2 (by omega), reverse_cons, append_assoc]
    rfl

end

/-- **The text of a value is read as this value**, with replacement characters for what cannot be decoded
    in its strings. -/
theorem read_write {v : Json} (h : Proper 0 v) : read (write v) = .ok (recoded v) := by
  have hvalue := readValue_write v h (by simp [Stops] : Stops []) (Nat.le_add_right _ 2)
  rw [append_nil] at hvalue
  rw [read, readFirst, hvalue]
  rfl

end Json

end JavaToCpp
