/-
  Rounding to 53 binary digits, and the shortest decimal.

  What a ratio is rounded to depends on its value alone, and a ratio that differs from a number by less
  than a 2^54th part of it is rounded to that number.  Seventeen digits come as near as that, so
  the shortest decimal of a number is always found and is rounded to the number again.
-/
import JavaToCpp.Number.Binary64
import Mathlib.Algebra.Order.Archimedean.Basic
import Mathlib.Algebra.Order.Field.Power
import Mathlib.Algebra.Order.Floor.Semifield
import Mathlib.Data.Rat.Floor
import Mathlib.Tactic.FieldSimp

namespace JavaToCpp.Binary64

/-- A finite number of the format: the mantissa has 53 digits, or fewer with the least exponent. -/
structure Finite (x : Binary64) : Prop where
  mantissa : x.mantissa < mantissaBound
  least : minExponent ≤ x.exponent
  greatest : x.exponent ≤ maxExponent
  normal : minExponent < x.exponent → mantissaBound / 2 ≤ x.mantissa

/-- The value of a number without its sign. -/
def magnitude (x : Binary64) : ℚ := x.mantissa * 2 ^ x.exponent

variable {n d n' d' : Nat} {e : Int}

/-! ## Ratios -/

theorem scaled_spec (hd : 0 < d) (n : Nat) (e : Int) :
    0 < (scaled n d e).2 ∧ ((scaled n d e).1 : ℚ) / (scaled n d e).2 = n / d / 2 ^ e := by
  unfold scaled
  split
  · rename_i he
    obtain ⟨k, rfl⟩ := Int.eq_ofNat_of_zero_le he
    exact ⟨Nat.mul_pos hd (Nat.pow_pos (by decide)), by simp [div_div]⟩
  · rename_i he
    obtain ⟨k, rfl⟩ : ∃ k : Nat, e = -k := ⟨(-e).toNat, by omega⟩
    exact ⟨hd, by simp [div_eq_mul_inv, mul_right_comm]⟩

theorem decimalRatio_spec (d : Nat) (k : Int) :
    0 < (decimalRatio d k).2 ∧ ((decimalRatio d k).1 : ℚ) / (decimalRatio d k).2 = d * 10 ^ k := by
  unfold decimalRatio
  split
  · rename_i hk
    obtain ⟨j, rfl⟩ := Int.eq_ofNat_of_zero_le hk
    simp
  · rename_i hk
    obtain ⟨j, rfl⟩ : ∃ j : Nat, k = -j := ⟨(-k).toNat, by omega⟩
    exact ⟨Nat.pow_pos (by decide), by simp [div_eq_mul_inv]⟩

theorem ratio_spec (x : Binary64) : 0 < x.ratio.2 ∧ (x.ratio.1 : ℚ) / x.ratio.2 = x.magnitude := by
  unfold ratio magnitude
  split
  · rename_i he
    obtain ⟨k, hk⟩ := Int.eq_ofNat_of_zero_le he
    simp [hk]
  · rename_i he
    obtain ⟨k, hk⟩ : ∃ k : Nat, x.exponent = -k := ⟨(-x.exponent).toNat, by omega⟩
    exact ⟨Nat.pow_pos (by decide), by simp [hk, div_eq_mul_inv]⟩

/-! ## Rounding -/

theorem roundEven_mul (n d : Nat) {c : Nat} (hc : 0 < c) :
    roundEven (n * c) (d * c) = roundEven n d := by
  have hlt : d * c < 2 * (n % d * c) ↔ d < 2 * (n % d) := by
    rw [← Nat.mul_assoc, Nat.mul_lt_mul_right hc]
  have heq : 2 * (n % d * c) = d * c ↔ 2 * (n % d) = d := by
    rw [← Nat.mul_assoc, Nat.mul_right_cancel_iff hc]
  simp only [roundEven, Nat.mul_div_mul_right _ _ hc, Nat.mul_mod_mul_right, hlt, heq]

theorem roundEven_congr (hd : 0 < d) (hd' : 0 < d') (h : (n : ℚ) / d = n' / d') :
    roundEven n d = roundEven n' d' := by
  have hcross : n * d' = n' * d := by
    rw [div_eq_div_iff (by positivity) (by positivity)] at h
    exact_mod_cast h
  rw [← roundEven_mul n d hd', hcross, Nat.mul_comm d d', roundEven_mul n' d' hd]

/-- What is nearer to an integer than a half is rounded to it. -/
theorem roundEven_of_near (hd : 0 < d) {m : Nat} (h : |(n : ℚ) / d - m| < 1 / 2) :
    roundEven n d = m := by
  have hd' : (0 : ℚ) < d := by exact_mod_cast hd
  rw [abs_lt, lt_sub_iff_add_lt, sub_lt_iff_lt_add, lt_div_iff₀ hd', div_lt_iff₀ hd'] at h
  obtain ⟨hlow, hhigh⟩ := h
  have hlow' : 2 * m * d < 2 * n + d := by
    have : (2 * m * d : ℚ) < 2 * n + d := by linarith
    exact_mod_cast this
  have hhigh' : 2 * n < 2 * m * d + d := by
    have : (2 * n : ℚ) < 2 * m * d + d := by linarith
    exact_mod_cast this
  have hn := Nat.div_add_mod n d
  have hr := Nat.mod_lt n hd
  rw [roundEven]
  set q := n / d
  set r := n % d
  -- the quotient is the integer or the one before it
  have hm : m = q ∨ m = q + 1 := by
    have hle : q ≤ m := by
      by_contra hlt
      have := Nat.mul_le_mul_right d (Nat.lt_of_not_le hlt)
      nlinarith
    have hge : m ≤ q + 1 := by
      by_contra hlt
      have := Nat.mul_le_mul_right d (Nat.lt_of_not_le hlt)
      nlinarith
    omega
  rcases hm with rfl | rfl
  · rw [if_neg (by nlinarith), if_neg (by nlinarith)]
  · rw [if_pos (by nlinarith)]

theorem two_zpow_lt {a b : Int} : (2 : ℚ) ^ a < 2 ^ b ↔ a < b := zpow_lt_zpow_iff_right₀ (by norm_num)

/-- The exponent is the one with which the mantissa has 53 digits. -/
theorem exponentFor_eq (hn : 0 < n) (hd : 0 < d) (hlow : (2 : ℚ) ^ (52 + e) ≤ n / d)
    (hhigh : (n : ℚ) / d < 2 ^ (53 + e)) : exponentFor n d = max minExponent e := by
  have hd' : (0 : ℚ) < d := by exact_mod_cast hd
  obtain ⟨hspos, hs⟩ := scaled_spec hd n (n.log2 - d.log2 - 53)
  -- the numbers of binary digits give the exponent up to one
  have hbound : ∀ {k : Nat}, 0 < k → (2 : ℚ) ^ (k.log2 : Int) ≤ k ∧ (k : ℚ) < 2 ^ (k.log2 + 1 : Int) := by
    intro k hk
    exact ⟨by exact_mod_cast Nat.log2_self_le hk.ne', by exact_mod_cast Nat.lt_log2_self⟩
  obtain ⟨hnlow, hnhigh⟩ := hbound hn
  obtain ⟨hdlow, hdhigh⟩ := hbound hd
  have hfrom : (n.log2 : Int) - d.log2 - 53 ≤ e := by
    have : (2 : ℚ) ^ ((n.log2 : Int) - (d.log2 + 1)) < 2 ^ (53 + e) := by
      rw [zpow_sub₀ (by norm_num)]
      exact lt_of_le_of_lt (div_le_div₀ (by positivity) hnlow hd' hdhigh.le) hhigh
    have := two_zpow_lt.1 this
    omega
  have hto : e ≤ (n.log2 : Int) - d.log2 - 53 + 1 := by
    have : (2 : ℚ) ^ (52 + e) < 2 ^ ((n.log2 + 1 : Int) - d.log2) := by
      rw [zpow_sub₀ (by norm_num)]
      exact lt_of_le_of_lt hlow (div_lt_div₀ hnhigh hdlow (by positivity) (by positivity))
    have := two_zpow_lt.1 this
    omega
  simp only [exponentFor]
  generalize (n.log2 : Int) - d.log2 - 53 = f at *
  have hreach : mantissaBound ≤ (scaled n d f).1 / (scaled n d f).2 ↔ (2 : ℚ) ^ (53 + f) ≤ n / d := by
    have hs' : (0 : ℚ) < (scaled n d f).2 := by exact_mod_cast hspos
    rw [Nat.le_div_iff_mul_le hspos, ← Nat.cast_le (α := ℚ), Nat.cast_mul, ← le_div_iff₀ hs', hs,
      le_div_iff₀ (by positivity), zpow_add₀ (by norm_num)]
    norm_num [mantissaBound]
  rcases (by omega : e = f ∨ e = f + 1) with rfl | rfl
  · rw [if_neg (by rw [hreach]; exact not_le.2 hhigh)]
  · rw [if_pos (by rw [hreach]; convert hlow using 2; ring)]

theorem exists_exponent {r : ℚ} (hr : 0 < r) : ∃ e : Int, (2 : ℚ) ^ (52 + e) ≤ r ∧ r < 2 ^ (53 + e) := by
  obtain ⟨k, hk, hk'⟩ := exists_mem_Ico_zpow hr (by norm_num : (1 : ℚ) < 2)
  exact ⟨k - 52, by rwa [add_sub_cancel], by rwa [show 53 + (k - 52) = k + 1 by ring]⟩

/-- **The value alone counts.** -/
theorem ofRatio?_congr (hd : 0 < d) (hd' : 0 < d') (h : (n : ℚ) / d = n' / d') (negative : Bool) :
    ofRatio? negative n d = ofRatio? negative n' d' := by
  have hdq : (0 : ℚ) < d := by exact_mod_cast hd
  have hdq' : (0 : ℚ) < d' := by exact_mod_cast hd'
  have hzero : n = 0 ↔ n' = 0 := by
    have := congrArg (· = 0) h
    simpa [hdq.ne', hdq'.ne'] using this
  unfold ofRatio?
  by_cases hn : n = 0
  · rw [if_pos hn, if_pos (hzero.1 hn)]
  · have hn' := mt hzero.2 hn
    rw [if_neg hn, if_neg hn']
    obtain ⟨e, hlow, hhigh⟩ := exists_exponent (div_pos (Nat.cast_pos.2 (Nat.pos_of_ne_zero hn)) hdq)
    have he := exponentFor_eq (Nat.pos_of_ne_zero hn) hd hlow hhigh
    rw [h] at hlow hhigh
    have he' := exponentFor_eq (Nat.pos_of_ne_zero hn') hd' hlow hhigh
    obtain ⟨hpos, hs⟩ := scaled_spec hd n (max minExponent e)
    obtain ⟨hpos', hs'⟩ := scaled_spec hd' n' (max minExponent e)
    have hround := roundEven_congr hpos hpos' (hs.trans (h ▸ hs'.symm))
    simp only [he, he', hround]

theorem ofRatio?_eq (hn : 0 < n) (hd : 0 < d) {m : Nat} (he : exponentFor n d = e)
    (h : |(n : ℚ) / d / 2 ^ e - m| < 1 / 2) (negative : Bool) :
    ofRatio? negative n d =
      let (m, e) := if m = mantissaBound then (mantissaBound / 2, e + 1) else (m, e)
      if maxExponent < e then none else some ⟨negative, m, e⟩ := by
  obtain ⟨hpos, hscaled⟩ := scaled_spec hd n e
  have hround := roundEven_of_near hpos (by rwa [hscaled])
  unfold ofRatio?
  rw [if_neg hn.ne']
  simp only [he, hround]

/-- The exponent of a ratio of which the units of the last digit are known. -/
theorem exponentFor_of_units (hn : 0 < n) (hd : 0 < d) {s : ℚ} (hs : (n : ℚ) / d = s * 2 ^ e)
    (hbinade : 2 ^ 52 ≤ s ∨ e = minExponent) (hhigh : s < 2 ^ 53) (hleast : minExponent ≤ e) :
    exponentFor n d = e := by
  have hpow : (0 : ℚ) < 2 ^ e := by positivity
  have hbelow : (n : ℚ) / d < 2 ^ (53 + e) := by
    rw [hs, zpow_add₀ (by norm_num)]
    exact mul_lt_mul_of_pos_right (by exact_mod_cast hhigh) hpow
  rcases hbinade with hlow | rfl
  · rw [exponentFor_eq hn hd _ hbelow, max_eq_right hleast]
    rw [hs, zpow_add₀ (by norm_num)]
    exact mul_le_mul_of_nonneg_right (by exact_mod_cast hlow) hpow.le
  · obtain ⟨f, hf, hf'⟩ := exists_exponent (r := (n : ℚ) / d) (by positivity)
    have := two_zpow_lt.1 (hf.trans_lt hbelow)
    rw [exponentFor_eq hn hd hf hf', max_eq_left (by omega)]

/-- **What is near enough to a number is rounded to it.** -/
theorem ofRatio?_of_near {x : Binary64} (hx : x.Finite) (hd : 0 < d)
    (h : 2 ^ 54 * |(n : ℚ) / d - x.magnitude| < x.magnitude) : ofRatio? x.negative n d = some x := by
  obtain ⟨negative, m, e⟩ := x
  obtain ⟨hm, hleast, hgreatest, hnormal⟩ := hx
  simp only [magnitude] at hm hleast hgreatest hnormal h ⊢
  have hpow : (0 : ℚ) < 2 ^ e := by positivity
  -- the ratio in units of the last digit
  obtain ⟨s, hs⟩ : ∃ s : ℚ, (n : ℚ) / d = s * 2 ^ e := ⟨n / d / 2 ^ e, by field_simp⟩
  have hm' : (m : ℚ) ≤ 2 ^ 53 - 1 := by
    have : m + 1 ≤ 2 ^ 53 := hm
    have : (m + 1 : ℚ) ≤ 2 ^ 53 := by exact_mod_cast this
    linarith
  rw [hs, ← sub_mul, abs_mul, abs_of_pos hpow, ← mul_assoc, mul_lt_mul_iff_of_pos_right hpow] at h
  have habs : |s - m| < 1 / 2 := by linarith
  have hmpos : (0 : ℚ) < m := lt_of_le_of_lt (by positivity) h
  obtain ⟨hlow, hhigh⟩ := abs_lt.1 (by linarith : |s - m| < m / 2 ^ 54)
  have hn : 0 < n := by
    have : 0 < (n : ℚ) / d := hs ▸ mul_pos (by linarith) hpow
    exact Nat.pos_of_ne_zero fun hzero => by simp [hzero] at this
  by_cases hbinade : 2 ^ 52 ≤ s ∨ e = minExponent
  · have he := exponentFor_of_units hn hd hs hbinade (by linarith) hleast
    rw [ofRatio?_eq hn hd he (m := m) (by rwa [hs, mul_div_cancel_right₀ _ hpow.ne'])]
    simp only [if_neg hm.ne, if_neg (not_lt.2 hgreatest)]
  · -- below a power of two the numbers are twice as near
    push Not at hbinade
    obtain ⟨hbelow, hmin⟩ := hbinade
    have hm52 : m = 2 ^ 52 := by
      refine le_antisymm (not_lt.1 fun hlt => ?_) (hnormal (lt_of_le_of_ne hleast (Ne.symm hmin)))
      have : (2 ^ 52 + 1 : ℚ) ≤ m := by exact_mod_cast hlt
      linarith
    subst hm52
    norm_num at hlow hbelow
    have hs' : (n : ℚ) / d = 2 * s * 2 ^ (e - 1) := by
      rw [hs, zpow_sub_one₀ (by norm_num)]
      ring
    have he := exponentFor_of_units hn hd hs' (.inl (by linarith)) (by linarith) (by omega)
    rw [ofRatio?_eq hn hd he (m := mantissaBound)]
    · simp only [if_true, sub_add_cancel, if_neg (not_lt.2 hgreatest)]
      rfl
    · rw [hs', mul_div_cancel_right₀ _ (by positivity), abs_lt]
      norm_num [mantissaBound] at hhigh ⊢
      constructor <;> linarith

/-! ## Decimals -/

variable {k : Int} {x : Binary64}

theorem ofDecimal?_eq (negative : Bool) (d : Nat) (k : Int) :
    ofDecimal? negative d k =
      if d = 0 ∨ (Nat.toDigits 10 d).length + k < -400 then some ⟨negative, 0, minExponent⟩
      else if 400 < (Nat.toDigits 10 d).length + k then none
      else ofRatio? negative (decimalRatio d k).1 (decimalRatio d k).2 := by
  simp only [ofDecimal?, decimalRatio, Bool.or_eq_true, decide_eq_true_eq]
  by_cases hk : 0 ≤ k
  · simp only [if_pos hk]
  · simp only [if_neg hk]

theorem ofDecimal?_mul_ten (negative : Bool) (d : Nat) (k : Int) :
    ofDecimal? negative (d * 10) k = ofDecimal? negative d (k + 1) := by
  rcases Nat.eq_zero_or_pos d with rfl | hd
  · simp [ofDecimal?_eq]
  have hlength : ((Nat.toDigits 10 (d * 10)).length : Int) + k = (Nat.toDigits 10 d).length + (k + 1) := by
    rw [Nat.toDigits_of_base_le (by decide) (by omega), Nat.mul_div_cancel _ (by decide), List.length_append]
    push_cast
    simp only [List.length_singleton]
    ring
  obtain ⟨hpos, hvalue⟩ := decimalRatio_spec (d * 10) k
  obtain ⟨hpos', hvalue'⟩ := decimalRatio_spec d (k + 1)
  have hsame : (((d * 10 : Nat) : ℚ) * 10 ^ k) = d * 10 ^ (k + 1) := by
    rw [zpow_add_one₀ (by norm_num)]
    push_cast
    ring
  rw [ofDecimal?_eq, ofDecimal?_eq, hlength, ofRatio?_congr hpos hpos' (by rw [hvalue, hvalue', hsame])]
  simp only [Nat.mul_eq_zero, OfNat.ofNat_ne_zero, or_false]

theorem ofDecimal?_mul_pow (negative : Bool) (d : Nat) (k : Int) (z : Nat) :
    ofDecimal? negative (d * 10 ^ z) k = ofDecimal? negative d (k + z) := by
  induction z generalizing k with
  | zero => simp
  | succ z ih =>
    rw [pow_succ, ← mul_assoc, ofDecimal?_mul_ten, ih]
    congr 1
    push_cast
    ring

theorem size_bounds (hd : 0 < d) (k : Int) :
    (10 : ℚ) ^ ((Nat.toDigits 10 d).length + k - 1) ≤ d * 10 ^ k ∧
      (d * 10 ^ k : ℚ) < 10 ^ ((Nat.toDigits 10 d).length + k) := by
  obtain ⟨j, hj⟩ := Nat.exists_eq_add_one.2 (Nat.length_toDigits_pos (b := 10) (n := d))
  have hhigh := (Nat.length_toDigits_le_iff (n := d) (by decide : 1 < 10) (Nat.succ_pos j)).1 hj.le
  have hlow : 10 ^ j ≤ d := by
    rcases Nat.eq_zero_or_pos j with rfl | hjpos
    · exact hd
    · exact not_lt.1 fun hlt => by
        have := (Nat.length_toDigits_le_iff (by decide) hjpos).2 hlt
        omega
  have hlow' : (10 : ℚ) ^ j ≤ d := by exact_mod_cast hlow
  have hhigh' : (d : ℚ) < 10 ^ (j + 1) := by exact_mod_cast hhigh
  rw [hj, show ((j + 1 : Nat) : Int) + k - 1 = j + k by push_cast; ring, zpow_add₀ (by norm_num),
    zpow_add₀ (by norm_num), zpow_natCast, zpow_natCast]
  exact ⟨mul_le_mul_of_nonneg_right hlow' (by positivity), mul_lt_mul_of_pos_right hhigh' (by positivity)⟩

theorem ten_zpow_lt {a b : Int} : (10 : ℚ) ^ a < 10 ^ b ↔ a < b := zpow_lt_zpow_iff_right₀ (by norm_num)

theorem Finite.magnitude_bounds (hx : x.Finite) (hm : x.mantissa ≠ 0) :
    (10 : ℚ) ^ (-324 : Int) ≤ x.magnitude ∧ x.magnitude < 10 ^ (324 : Int) := by
  have hpow : (2 : ℚ) ^ (1074 : Int) ≤ 10 ^ (324 : Int) := by
    have : 2 ^ 1074 ≤ 10 ^ 324 := by decide +kernel
    exact_mod_cast this
  have hone : (1 : ℚ) ≤ x.mantissa := by exact_mod_cast Nat.pos_of_ne_zero hm
  have hmax : (x.mantissa : ℚ) < 2 ^ (53 : Int) := by exact_mod_cast hx.mantissa
  constructor
  · calc (10 : ℚ) ^ (-324 : Int) ≤ 2 ^ minExponent := by
          rw [zpow_neg, show minExponent = -1074 from rfl, zpow_neg]
          exact inv_anti₀ (by positivity) hpow
      _ ≤ 2 ^ x.exponent := zpow_le_zpow_right₀ (by norm_num) hx.least
      _ ≤ x.magnitude := le_mul_of_one_le_left (by positivity) hone
  · calc x.magnitude < 2 ^ (53 : Int) * 2 ^ x.exponent := mul_lt_mul_of_pos_right hmax (by positivity)
      _ = 2 ^ (53 + x.exponent) := (zpow_add₀ (by norm_num) _ _).symm
      _ ≤ 2 ^ (1074 : Int) := by
          have := hx.greatest
          exact zpow_le_zpow_right₀ (by norm_num) (by unfold maxExponent at this; omega)
      _ ≤ 10 ^ (324 : Int) := hpow

theorem ofDecimal?_of_near (hx : x.Finite) (h : 2 ^ 54 * |(d : ℚ) * 10 ^ k - x.magnitude| < x.magnitude) :
    ofDecimal? x.negative d k = some x := by
  have hpos : 0 < x.magnitude := lt_of_le_of_lt (by positivity) h
  have hm : x.mantissa ≠ 0 := by
    intro hm
    simp [magnitude, hm] at hpos
  obtain ⟨hleast, hgreatest⟩ := hx.magnitude_bounds hm
  obtain ⟨hlow, hhigh⟩ := abs_lt.1 (by linarith : |(d : ℚ) * 10 ^ k - x.magnitude| < x.magnitude / 2)
  have hd : 0 < d := Nat.pos_of_ne_zero fun hzero => by
    rw [hzero] at hlow
    norm_num at hlow
    linarith
  obtain ⟨hbelow, habove⟩ := size_bounds hd k
  have hfrom : ∀ i : Int, (10 : ℚ) ^ i ≤ x.magnitude → i - 1 < (Nat.toDigits 10 d).length + k := by
    intro i hi
    have hi' : (0 : ℚ) < 10 ^ i := by positivity
    exact ten_zpow_lt.1 (by rw [zpow_sub_one₀ (by norm_num)]; linarith)
  have hto : ∀ i : Int, x.magnitude < 10 ^ i → (Nat.toDigits 10 d).length + k - 1 < i + 1 := by
    intro i hi
    exact ten_zpow_lt.1 (by rw [zpow_add_one₀ (by norm_num)]; linarith)
  have := hfrom _ hleast
  have := hto _ hgreatest
  obtain ⟨hratio, hvalue⟩ := decimalRatio_spec d k
  rw [ofDecimal?_eq, if_neg (by omega), if_neg (by omega)]
  exact ofRatio?_of_near hx hratio (by rwa [hvalue])

/-! ## The shortest decimal -/

theorem digitsBelow_spec (x : Binary64) (k : Int) :
    (digitsBelow x.ratio.1 x.ratio.2 k : ℚ) * 10 ^ k ≤ x.magnitude ∧
      x.magnitude < (digitsBelow x.ratio.1 x.ratio.2 k + 1) * 10 ^ k := by
  obtain ⟨hpos, hvalue⟩ := x.ratio_spec
  obtain ⟨hpos', hvalue'⟩ := decimalRatio_spec 1 k
  have hten : (0 : ℚ) < 10 ^ k := by positivity
  have hfloor : digitsBelow x.ratio.1 x.ratio.2 k = ⌊x.magnitude / 10 ^ k⌋₊ := by
    simp only [digitsBelow]
    rw [Nat.cast_one, one_mul] at hvalue'
    rw [← Nat.floor_div_eq_div (K := ℚ), ← hvalue, ← hvalue', div_div_div_eq, Nat.cast_mul, Nat.cast_mul]
  have hle := Nat.floor_le (a := x.magnitude / 10 ^ k) (by unfold magnitude; positivity)
  have hlt := Nat.lt_floor_add_one (x.magnitude / 10 ^ k)
  rw [hfloor]
  exact ⟨(le_div_iff₀ hten).1 hle, (div_lt_iff₀ hten).1 hlt⟩

theorem leadingExponent_spec {j : Int} (hd : 0 < d) (hj : (10 : ℚ) ^ j ≤ n / d) :
    ∀ (fuel : Nat) {k : Int}, k - fuel < j → (10 : ℚ) ^ leadingExponent n d fuel k ≤ n / d ∧
      min k j ≤ leadingExponent n d fuel k
  | 0, k, hk => by
    rw [leadingExponent]
    exact ⟨(zpow_le_zpow_right₀ (by norm_num) (by push_cast at hk; omega)).trans hj, min_le_left k j⟩
  | fuel + 1, k, hk => by
    obtain ⟨hpos, hvalue⟩ := decimalRatio_spec 1 k
    have hd' : (0 : ℚ) < d := by exact_mod_cast hd
    have hpos' : (0 : ℚ) < (decimalRatio 1 k).2 := by exact_mod_cast hpos
    have hreach : (decimalRatio 1 k).1 * d ≤ n * (decimalRatio 1 k).2 ↔ (10 : ℚ) ^ k ≤ n / d := by
      rw [Nat.cast_one, one_mul] at hvalue
      rw [← hvalue, div_le_div_iff₀ hpos' hd']
      exact_mod_cast Iff.rfl
    rw [leadingExponent]
    by_cases hk' : (10 : ℚ) ^ k ≤ n / d
    · simp only [if_pos (hreach.2 hk')]
      exact ⟨hk', min_le_left k j⟩
    · simp only [if_neg (mt hreach.1 hk')]
      have hjk : j < k := ten_zpow_lt.1 (lt_of_le_of_lt hj (not_le.1 hk'))
      obtain ⟨hle, hmin⟩ := leadingExponent_spec hd hj fuel (k := k - 1) (by push_cast at hk; omega)
      exact ⟨hle, by omega⟩

theorem powerAbove_bounds (hx : x.Finite) (hm : x.mantissa ≠ 0) :
    -324 ≤ powerAbove x.ratio.1 x.ratio.2 ∧ powerAbove x.ratio.1 x.ratio.2 ≤ 309 := by
  have hlog : x.mantissa.log2 < 53 := (Nat.log2_lt hm).2 hx.mantissa
  have hbounds : -1074 ≤ (x.ratio.1.log2 : Int) - x.ratio.2.log2 ∧
      (x.ratio.1.log2 : Int) - x.ratio.2.log2 ≤ 1023 := by
    have hleast := hx.least
    have hgreatest := hx.greatest
    simp only [minExponent, maxExponent] at hleast hgreatest
    unfold ratio
    split
    · have : (x.mantissa * 2 ^ x.exponent.toNat).log2 < 1024 := by
        refine (Nat.log2_lt (by positivity)).2 ?_
        calc x.mantissa * 2 ^ x.exponent.toNat < 2 ^ 53 * 2 ^ x.exponent.toNat :=
              Nat.mul_lt_mul_of_pos_right hx.mantissa (by positivity)
          _ = 2 ^ (53 + x.exponent.toNat) := (pow_add 2 _ _).symm
          _ ≤ 2 ^ 1024 := Nat.pow_le_pow_right (by decide) (by omega)
      have hone : Nat.log2 1 = 0 := rfl
      simp only [Nat.pow_eq, hone]
      omega
    · simp only [Nat.pow_eq, Nat.log2_two_pow]
      omega
  rw [powerAbove, Int.fdiv_eq_ediv_of_nonneg _ (by decide)]
  omega

theorem ofDecimal?_of_decimalAt? (h : x.decimalAt? k = some d) : ofDecimal? x.negative d k = some x := by
  unfold decimalAt? at h
  simp only [readsBack] at h
  split at h
  all_goals
    rename_i hbelow habove
    simp only [beq_iff_eq, beq_eq_false_iff_ne] at hbelow habove
  · cases h
    split
    · exact habove
    · exact hbelow
  · cases h
    exact hbelow
  · cases h
    exact habove
  · cases h

/-- Seventeen digits are enough. -/
theorem exists_decimalAt? (hx : x.Finite) {lead : Int} (hlead : (10 : ℚ) ^ lead ≤ x.magnitude) :
    ∃ d, x.decimalAt? (lead - 16) = some d := by
  obtain ⟨hbelow, habove⟩ := digitsBelow_spec x (lead - 16)
  have hten : (10 : ℚ) ^ lead = 10 ^ 16 * 10 ^ (lead - 16) := by
    rw [zpow_sub₀ (by norm_num)]
    field_simp
  have hpos : (0 : ℚ) < 10 ^ (lead - 16) := by positivity
  unfold decimalAt?
  simp only [readsBack]
  set q := digitsBelow x.ratio.1 x.ratio.2 (lead - 16)
  -- one of the two neighbours is no farther than half a step
  have hnear : ofDecimal? x.negative q (lead - 16) = some x ∨
      ofDecimal? x.negative (q + 1) (lead - 16) = some x := by
    by_cases hhalf : x.magnitude - q * 10 ^ (lead - 16) ≤ 10 ^ (lead - 16) / 2
    · refine .inl (ofDecimal?_of_near hx ?_)
      rw [abs_of_nonpos (by linarith)]
      linarith
    · refine .inr (ofDecimal?_of_near hx ?_)
      push_cast
      rw [abs_of_nonneg (by linarith)]
      linarith
  split
  · exact ⟨_, rfl⟩
  · exact ⟨_, rfl⟩
  · exact ⟨_, rfl⟩
  · rename_i h h'
    simp only [beq_eq_false_iff_ne] at h h'
    exact absurd hnear (by simp [h, h'])

theorem search_spec {j : Int} (hj : ∃ d, x.decimalAt? j = some d) :
    ∀ (fuel : Nat) {k : Int}, j ≤ k → k - fuel < j →
      ofDecimal? x.negative (x.search fuel k).1 (x.search fuel k).2 = some x ∧ j ≤ (x.search fuel k).2
  | 0, k, hle, hlt => by
    push_cast at hlt
    omega
  | fuel + 1, k, hle, hlt => by
    rw [search]
    cases hfound : x.decimalAt? k with
    | some d => exact ⟨ofDecimal?_of_decimalAt? hfound, hle⟩
    | none =>
      have hne : j ≠ k := by
        rintro rfl
        simp [hfound] at hj
      exact search_spec hj fuel (by omega) (by push_cast at hlt; omega)

theorem withoutZeros_spec (negative : Bool) : ∀ (fuel : Nat) (p : Nat × Int),
    ofDecimal? negative (withoutZeros fuel p).1 (withoutZeros fuel p).2 = ofDecimal? negative p.1 p.2 ∧
      p.2 ≤ (withoutZeros fuel p).2
  | 0, p => ⟨rfl, le_rfl⟩
  | fuel + 1, (d, k) => by
    rw [withoutZeros]
    split
    · rename_i hd
      obtain ⟨heq, hle⟩ := withoutZeros_spec negative fuel (d / 10, k + 1)
      refine ⟨?_, by simp only at hle ⊢; omega⟩
      rw [heq, ← ofDecimal?_mul_ten, Nat.div_mul_cancel (Nat.dvd_of_mod_eq_zero hd)]
    · exact ⟨rfl, le_rfl⟩

/-- **The shortest decimal of a number is rounded to it.** -/
theorem shortest_spec (hx : x.Finite) (hm : x.mantissa ≠ 0) :
    ofDecimal? x.negative x.shortest.1 x.shortest.2 = some x ∧ -340 ≤ x.shortest.2 := by
  obtain ⟨hpos, hvalue⟩ := x.ratio_spec
  obtain ⟨hleast, -⟩ := hx.magnitude_bounds hm
  obtain ⟨hlow, hhigh⟩ := powerAbove_bounds hx hm
  rw [← hvalue] at hleast
  obtain ⟨hlead, hmin⟩ := leadingExponent_spec hpos hleast 640 (k := powerAbove x.ratio.1 x.ratio.2)
    (by push_cast; omega)
  rw [hvalue] at hlead
  set lead := leadingExponent x.ratio.1 x.ratio.2 640 (powerAbove x.ratio.1 x.ratio.2)
  obtain ⟨hread, hfrom⟩ :=
    search_spec (exists_decimalAt? hx hlead) 17 (k := lead) (by omega) (by push_cast; omega)
  obtain ⟨heq, hle⟩ := withoutZeros_spec x.negative 17 (x.search 17 lead)
  have hshortest : x.shortest = withoutZeros 17 (x.search 17 lead) := by rw [shortest, if_neg hm]
  rw [hshortest]
  exact ⟨heq.trans hread, by omega⟩

end JavaToCpp.Binary64
