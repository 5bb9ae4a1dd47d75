/-
  Numbers that are written and read again.

  The text of a number is made of the digits of its shortest decimal, a point or zeros among them and
  perhaps a power of ten.  Reading finds the same decimal in all of these forms, at most with zeros
  of its power among the digits, and so the same number.
-/
import JavaToCpp.Proofs.Json.RoundTrip
import JavaToCpp.Proofs.Number.Rounding

namespace JavaToCpp

open List Text

namespace Text

theorem foldl_decimal {f : Nat → UInt8 → Nat} {bound : Nat}
    (hf : ∀ m < bound, ∀ b, f m b = m * 10 + (b.toNat - 48)) (n : Nat) (hn : n / 10 < bound) :
    (decimal n).foldl f 0 = n := by
  have hdigit : ∀ d < 10, (UInt8.ofNat (48 + d)).toNat - 48 = d := by decide
  induction n using Nat.strongRecOn with
  | ind n ih =>
    rw [decimal_eq, foldl_append, foldl_cons, foldl_nil]
    split
    · rename_i hlt
      rw [foldl_nil, hf 0 (by omega), hdigit _ (by omega)]
      omega
    · rename_i hge
      rw [ih (n / 10) (by omega) (by omega), hf _ hn, hdigit _ (by omega)]
      omega

theorem toNat?_decimal (n : Nat) : toNat? (decimal n) = some n := by
  have hne : (decimal n).isEmpty = false := by
    rw [decimal_eq]
    simp
  have hall : (decimal n).all isDigit := all_eq_true.2 (decimal_digits n).1
  rw [toNat?, hne, hall]
  exact congrArg some (foldl_decimal (fun _ _ _ => rfl) n (Nat.lt_succ_self _))

theorem decimal_mul_ten_pow {n : Nat} (hn : 0 < n) (z : Nat) :
    decimal (n * 10 ^ z) = decimal n ++ replicate z 48 := by
  induction z with
  | zero => simp
  | succ z ih =>
    have hpos : 0 < n * 10 ^ z := Nat.mul_pos hn (Nat.pow_pos (by decide))
    rw [Nat.pow_succ, ← Nat.mul_assoc, decimal_eq, if_neg (by omega), Nat.mul_div_cancel _ (by decide),
      Nat.mul_mod_left, ih, replicate_succ', append_assoc]
    rfl

end Text

namespace Json

open Binary64 (Finite ofDecimal?)

variable {sign whole fraction exponent : Text} {z n : Nat}

theorem significand_decimal (hn : 0 < n) (hlength : (decimal n).length ≤ digitsRead) (z : Nat) :
    significand (replicate z 48 ++ decimal n) = (n, 0) := by
  have hdrop : (replicate z 48 ++ decimal n).dropWhile (· == 48) = decimal n := by
    rw [dropWhile_append_of_pos (by simp), dropWhile_eq_self]
    obtain ⟨b, t, ht, hb⟩ := (decimal_digits n).2 hn
    simpa [ht] using hb
  simp [significand, hdrop, take_of_length_le hlength, drop_of_length_le hlength, digitsValue,
    toNat?_decimal]

/-- The digits behind a point, and what follows them. -/
def fractionOf : Text → Text × Text
  | 46 :: t => (t.takeWhile isDigit, t.dropWhile isDigit)
  | t => ([], t)

/-- The digits behind the point with the point, nothing if there are none. -/
def pointed (fraction : Text) : Text := if fraction = [] then [] else 46 :: fraction

theorem fractionOf_pointed (hfraction : ∀ b ∈ fraction, isDigit b)
    (hexponent : ∀ b ∈ exponent.head?, isDigit b = false ∧ b ≠ 46) :
    fractionOf (pointed fraction ++ exponent) = (fraction, exponent) := by
  by_cases hnil : fraction = []
  · simp only [pointed, hnil, if_true, nil_append, fractionOf.eq_def]
    split
    · exact absurd rfl (hexponent 46 rfl).2
    · rfl
  · obtain ⟨htake, hdrop⟩ := span_digits hfraction fun b hb => (hexponent b hb).1
    simp only [pointed, hnil, if_false, cons_append, fractionOf, htake, hdrop]

theorem decimalOf_append (hsign : sign = [] ∨ sign = [45]) (hwhole : Whole whole) {rest : Text}
    (hrest : ∀ b ∈ rest.head?, isDigit b = false) :
    decimalOf (sign ++ whole ++ rest) =
      let (fraction, t) := fractionOf rest
      let (digits, power) := significand (whole ++ fraction)
      ⟨sign = [45], digits, signedPower (t.drop 1) - fraction.length + power⟩ := by
  have hall : ∀ b ∈ whole, isDigit b := by
    cases hwhole with
    | zero => exact forall_mem_singleton.2 rfl
    | digits _ hds => exact hds.2
  obtain ⟨htake, -⟩ := span_digits hall hrest
  obtain ⟨b, t, rfl, hb⟩ := hwhole.exists_head
  have hminus : b ≠ 45 := by
    rintro rfl
    exact absurd hb (by decide)
  simp only [cons_append] at htake
  rcases hsign with rfl | rfl
  · simp [decimalOf, hminus, htake]
    exact ⟨rfl, rfl⟩
  · simp [decimalOf, htake]
    exact ⟨rfl, rfl⟩

/-- With either sign the text is a number and is read as `n * 10 ^ k`, where zeros can stand in place
    of the power. -/
def Spells (t : Text) (n : Nat) (k : Int) : Prop :=
  ∀ sign : Text, sign = [] ∨ sign = [45] → Number (sign ++ t) ∧
    ∃ z : Nat, decimalOf (sign ++ t) = ⟨sign = [45], n * 10 ^ z, k - z⟩

theorem spells_parts {t : Text} {m y : Nat} {k : Int} (ht : t = whole ++ pointed fraction ++ exponent)
    (hwhole : Whole whole) (hfraction : ∀ b ∈ fraction, isDigit b) (hexponent : Exponent exponent)
    (hdigits : whole ++ fraction = replicate z 48 ++ decimal m) (hm : m = n * 10 ^ y) (hpos : 0 < m)
    (hlength : (decimal m).length ≤ digitsRead)
    (hk : signedPower (exponent.drop 1) - fraction.length = k - y) : Spells t n k := by
  intro sign hsign
  have hpointed : Fraction (pointed fraction) := by
    unfold pointed
    split
    · exact .none
    · exact .some ⟨by assumption, hfraction⟩
  have hexp : ∀ b ∈ exponent.head?, isDigit b = false ∧ b ≠ 46 := by
    have hstop : Stops [] := by simp [Stops]
    simpa using head?_exponent hexponent hstop
  rw [ht, ← append_assoc, ← append_assoc]
  refine ⟨.mk hsign hwhole hpointed hexponent, y, ?_⟩
  rw [append_assoc, decimalOf_append hsign hwhole (head?_fraction hpointed hexp), ← hm]
  simp only [fractionOf_pointed hfraction hexp, hdigits, significand_decimal hpos hlength,
    Int.natCast_zero, Int.add_zero, hk]

theorem powerValue_decimal (hn : n < 10000) : powerValue (decimal n) = n :=
  foldl_decimal (fun _ hm _ => if_pos hm) n (Nat.lt_of_le_of_lt (Nat.div_le_self n 10) hn)

theorem spells_scientific (hn : 0 < n) (hlength : (decimal n).length ≤ digitsRead) {lead : Int}
    (hlead : lead.natAbs < 10000) :
    Spells (scientific (decimal n) lead) n (lead + 1 - (decimal n).length) := by
  obtain ⟨hall, hhead⟩ := decimal_digits n
  obtain ⟨b, t, ht, hb⟩ := hhead hn
  rw [ht] at hall ⊢
  obtain ⟨hbdigit, htdigits⟩ := forall_mem_cons.1 hall
  have hpower : Digits (decimal lead.natAbs) := by
    refine ⟨?_, (decimal_digits _).1⟩
    rw [decimal_eq]
    simp
  obtain ⟨s, hs, hsign, hsigned⟩ : ∃ s : UInt8, (s = 43 ∨ s = 45) ∧
      (if lead < 0 then ofString "-" else ofString "+") = [s] ∧
      signedPower (s :: decimal lead.natAbs) = lead := by
    by_cases hneg : lead < 0
    · refine ⟨45, .inr rfl, if_pos hneg, ?_⟩
      rw [signedPower, powerValue_decimal hlead]
      omega
    · refine ⟨43, .inl rfl, if_neg hneg, ?_⟩
      rw [signedPower, powerValue_decimal hlead]
      omega
  have hwhole : Whole [b] := .digits hb ⟨by simp, by simpa using hbdigit⟩
  refine spells_parts (y := 0) (z := 0) ?_ hwhole htdigits (.signed (.inl rfl) hs hpower)
    (by rw [ht]; rfl) (Nat.mul_one n).symm hn hlength ?_
  · have hpoint : ofString "." = [46] := rfl
    have he : ofString "e" = [101] := rfl
    simp only [scientific, hsign, pointed, hpoint, he]
    cases t <;> simp
  · rw [drop_one, tail_cons, hsigned, length_cons]
    simp

theorem spells_positional (hn : 0 < n) (hlength : (decimal n).length ≤ digitsRead) {lead : Int}
    (hlead : lead.natAbs < digitsRead) :
    Spells (positional (decimal n) lead) n (lead + 1 - (decimal n).length) := by
  obtain ⟨hall, hhead⟩ := decimal_digits n
  obtain ⟨b, t, ht, hb⟩ := hhead hn
  have hzero : byte '0' = 48 := rfl
  have hnone : signedPower (([] : Text).drop 1) = 0 := rfl
  unfold positional
  by_cases hneg : lead < 0
  · -- zeros behind the point
    have hfraction : ∀ c ∈ replicate (-lead - 1).toNat 48 ++ decimal n, isDigit c := by
      intro c hc
      rcases mem_append.1 hc with hc | hc
      · rw [eq_of_mem_replicate hc]
        decide
      · exact hall c hc
    have hpoint : ofString "0." = [48, 46] := rfl
    rw [if_pos hneg, hzero]
    refine spells_parts (y := 0) (z := (-lead - 1).toNat + 1) ?_ .zero hfraction .none
      (by simp [replicate_succ]) (Nat.mul_one n).symm hn hlength ?_
    · simp [pointed, ht, hpoint]
    · rw [hnone, length_append, length_replicate]
      omega
  rw [if_neg hneg]
  by_cases hwhole : (decimal n).length ≤ lead.toNat + 1
  · -- zeros in front of it
    rw [if_pos hwhole, hzero]
    set z := lead.toNat + 1 - (decimal n).length with hz
    have hdigits := decimal_mul_ten_pow hn z
    have hpos : 0 < n * 10 ^ z := Nat.mul_pos hn (Nat.pow_pos (by decide))
    obtain ⟨hall', hhead'⟩ := decimal_digits (n * 10 ^ z)
    obtain ⟨b', t', ht', hb'⟩ := hhead' hpos
    have hlength' := congrArg length hdigits
    rw [length_append, length_replicate] at hlength'
    have hwhole' : Whole (decimal (n * 10 ^ z)) := by
      rw [ht'] at hall' ⊢
      exact .digits hb' ⟨by simp, hall'⟩
    refine spells_parts (z := 0) ?_ hwhole' (forall_mem_nil _) .none (by simp) rfl hpos (by omega) ?_
    · simp [pointed, hdigits]
    · rw [hnone, length_nil]
      omega
  · -- the point among the digits
    obtain ⟨u, hu⟩ : ∃ u, (decimal n).take (lead.toNat + 1) = b :: u := ⟨_, by rw [ht, take_succ_cons]⟩
    have hdrop : (decimal n).drop (lead.toNat + 1) ≠ [] := by
      rw [ne_eq, drop_eq_nil_iff]
      exact hwhole
    have hwholeDigits : ∀ c ∈ b :: u, isDigit c := by
      rw [← hu]
      exact fun c hc => hall c (mem_of_mem_take hc)
    have hpoint : ofString "." = [46] := rfl
    rw [if_neg hwhole]
    refine spells_parts (y := 0) (z := 0) ?_ (.digits hb ⟨by simp, hwholeDigits⟩)
      (fun c hc => hall c (mem_of_mem_drop hc)) .none (by rw [← hu, take_append_drop]; rfl)
      (Nat.mul_one n).symm hn hlength ?_
    · simp [pointed, hdrop, hpoint, hu]
    · rw [hnone, length_drop]
      omega

theorem ofDecimal?_range {x : Binary64} {negative : Bool} {k : Int} (h : ofDecimal? negative n k = some x)
    (hm : x.mantissa ≠ 0) : n ≠ 0 ∧ -400 ≤ (decimal n).length + k ∧ (decimal n).length + k ≤ 400 := by
  rw [Binary64.ofDecimal?_eq] at h
  simp only [decimal, length_map]
  split at h
  · cases h
    exact absurd rfl hm
  · split at h
    · cases h
    · omega

/-- **A number is read as it was written.** -/
theorem toBinary64?_writeNumber {x : Binary64} (hx : x.Finite) :
    Number (writeNumber x) ∧ toBinary64? (writeNumber x) = some x := by
  have hsign : ∀ negative : Bool, (if negative then ofString "-" else []) = [] ∨
      (if negative then ofString "-" else []) = [45] := by
    decide
  have hnegative : ∀ negative : Bool, decide ((if negative then ofString "-" else []) = [45]) = negative := by
    decide
  by_cases hm : x.mantissa = 0
  · have hzero : x = ⟨x.negative, 0, Binary64.minExponent⟩ := by
      obtain ⟨negative, m, e⟩ := x
      obtain ⟨-, hleast, -, hnormal⟩ := hx
      simp only at hm hleast hnormal
      subst hm
      rcases eq_or_lt_of_le hleast with rfl | hlt
      · rfl
      · exact absurd (hnormal hlt) (by decide)
    rw [hzero]
    cases x.negative
    · exact ⟨.mk (.inl rfl) .zero .none .none, by decide⟩
    · exact ⟨.mk (.inr rfl) .zero .none .none, by decide⟩
  · obtain ⟨hread, hpower⟩ := Binary64.shortest_spec hx hm
    obtain ⟨hn, hlow, hhigh⟩ := ofDecimal?_range hread hm
    have hpos := Nat.pos_of_ne_zero hn
    rw [writeNumber]
    generalize x.shortest = p at *
    obtain ⟨n, k⟩ := p
    simp only [if_neg hn] at *
    have hspells : ∀ lead : Int, lead = k + (decimal n).length - 1 →
        Spells (if lead < -6 || 21 ≤ lead then scientific (decimal n) lead
          else positional (decimal n) lead) n k := by
      rintro lead hlead
      have hk : k = lead + 1 - (decimal n).length := by omega
      rw [hk]
      split
      · exact spells_scientific hpos (by unfold digitsRead; omega) (by omega)
      · exact spells_positional hpos (by unfold digitsRead; omega) (by unfold digitsRead; omega)
    obtain ⟨hnumber, z, hdecimal⟩ := hspells _ rfl _ (hsign x.negative)
    refine ⟨hnumber, ?_⟩
    rw [toBinary64?, hdecimal]
    simp only [hnegative]
    rw [Binary64.ofDecimal?_mul_pow, Int.sub_add_cancel, hread]

end Json

end JavaToCpp
