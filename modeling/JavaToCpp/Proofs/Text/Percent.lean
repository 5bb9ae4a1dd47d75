/-
  Escapes and back.
-/
import JavaToCpp.Text.Percent

namespace JavaToCpp.Text

open List

/-! ## Two digits for a byte -/

theorem of_hexDigit {P : UInt8 → Nat → Prop} (h : ∀ d < 16, P (hexDigit d) d) (n : Nat) :
    P (hexDigit n) (n % 16) := by
  have hmod : hexDigit n = hexDigit (n % 16) := by rw [hexDigit, hexDigit, Nat.mod_mod]
  rw [hmod]
  exact h _ (Nat.mod_lt n (by decide))

theorem hexValue?_hexDigit : ∀ n, hexValue? (hexDigit n) = some (n % 16) :=
  of_hexDigit (P := fun b d => hexValue? b = some d) (by decide)

theorem hexValue?_capital : ∀ n, hexValue? (upperByte (hexDigit n)) = some (n % 16) :=
  of_hexDigit (P := fun b d => hexValue? (upperByte b) = some d) (by decide)

theorem escapedByte_eq (b : UInt8) :
    escapedByte b = [37, upperByte (hexDigit (b.toNat / 16)), upperByte (hexDigit b.toNat)] := rfl

theorem byte_of_halves (b : UInt8) : UInt8.ofNat (16 * (b.toNat / 16 % 16) + b.toNat % 16) = b := by
  have hlt := b.toNat_lt
  rw [Nat.mod_eq_of_lt (by omega : b.toNat / 16 < 16), Nat.div_add_mod, UInt8.ofNat_toNat]

theorem isWritten_capital :
    ∀ n, (isUpper (upperByte (hexDigit n)) || isDigit (upperByte (hexDigit n))) = true :=
  of_hexDigit (P := fun b _ => (isUpper (upperByte b) || isDigit (upperByte b)) = true) (by decide)

/-! ## Texts -/

theorem percentUnescape?_escapedByte (p : UrlPart) (b : UInt8) (t : Text) :
    percentUnescape? p (escapedByte b ++ t) = (percentUnescape? p t).map (b :: ·) := by
  rw [escapedByte_eq]
  simp only [cons_append, nil_append, percentUnescape?, hexValue?_capital, byte_of_halves]

variable {p : UrlPart} {b : UInt8}

theorem percentUnescape?_cons (hb : b ≠ 37) (t : Text) : percentUnescape? p (b :: t) =
    (percentUnescape? p t).map ((if p = .query && b == 43 then blank else b) :: ·) := by
  rw [percentUnescape?.eq_def]
  split
  · rename_i heq
    cases heq
  · rename_i heq
    exact absurd (List.cons.inj heq).1 hb
  · rename_i heq
    obtain ⟨rfl, rfl⟩ := List.cons.inj heq
    rw [if_neg (by simpa using hb)]

theorem not_keeps_percent (p : UrlPart) : p.keeps 37 = false := by
  cases p <;> decide

/-- **The escapes of a text stand for that text.** -/
theorem percentUnescape?_percentEscape (p : UrlPart) (t : Text) :
    percentUnescape? p (percentEscape p t) = some t := by
  induction t with
  | nil => rfl
  | cons b t ih =>
    rw [percentEscape, flatMap_cons, ← percentEscape]
    split
    · rename_i hkeeps
      have hpercent : b ≠ 37 := by
        rintro rfl
        simp [not_keeps_percent] at hkeeps
      have hplus : (decide (p = .query) && b == 43) = false := by
        rw [Bool.eq_false_iff]
        intro hplus
        simp only [Bool.and_eq_true, decide_eq_true_eq, beq_iff_eq] at hplus
        obtain ⟨rfl, rfl⟩ := hplus
        exact absurd hkeeps (by decide)
      rw [singleton_append, percentUnescape?_cons hpercent, ih, hplus]
      rfl
    split
    · rename_i hblank
      simp only [Bool.and_eq_true, decide_eq_true_eq, beq_iff_eq] at hblank
      obtain ⟨rfl, rfl⟩ := hblank
      rw [singleton_append, percentUnescape?_cons (by decide), ih]
      rfl
    · rw [percentUnescape?_escapedByte, ih]
      rfl

/-- Whether a byte can stand in the escaped text of a part of a URL. -/
def UrlPart.writes (p : UrlPart) (b : UInt8) : Bool := p.keeps b || b == 37 || (p = .query && b == 43)

theorem writes_of_mem {t : Text} (h : b ∈ percentEscape p t) : p.writes b := by
  obtain ⟨c, -, hb⟩ := mem_flatMap.1 h
  have hkeeps : ∀ {c}, isUpper c || isDigit c → p.writes c := by
    intro c hc
    rcases Bool.or_eq_true_iff.1 hc with hc | hc <;> simp [UrlPart.writes, UrlPart.keeps, isLetter, hc]
  split at hb
  · rename_i hc
    simp [UrlPart.writes, mem_singleton.1 hb, hc]
  split at hb
  · rename_i hc
    rw [mem_singleton.1 hb]
    simp only [Bool.and_eq_true, decide_eq_true_eq] at hc
    rw [hc.1]
    decide
  · rw [escapedByte_eq] at hb
    simp only [mem_cons, not_mem_nil, or_false] at hb
    rcases hb with rfl | rfl | rfl
    · simp [UrlPart.writes]
    · exact hkeeps (isWritten_capital _)
    · exact hkeeps (isWritten_capital _)

theorem notMem_percentEscape (h : p.writes b = false) (t : Text) : b ∉ percentEscape p t := by
  intro hb
  simp [writes_of_mem hb] at h

/-! ## Hosts -/

/-- The host that a text stands for.  A host escapes bytes outside of ASCII and the percent sign only. -/
def hostText? : Text → Option Text
  | [] => some []
  | 37 :: a :: b :: t =>
    match hexValue? a, hexValue? b with
    | some a, some b =>
      if 8 ≤ a ∨ 16 * a + b = 37 then (hostText? t).map (UInt8.ofNat (16 * a + b) :: ·) else none
    | _, _ => none
  | b :: t => if 0x80 ≤ b || UrlPart.host.keeps b then (hostText? t).map (b :: ·) else none

/-- Whether a host can have a byte. -/
def isHost (b : UInt8) : Bool := 0x80 ≤ b || b == 37 || UrlPart.host.keeps b

theorem hostText?_cons (hb : b ≠ 37) (t : Text) : hostText? (b :: t) =
    if 0x80 ≤ b || UrlPart.host.keeps b then (hostText? t).map (b :: ·) else none := by
  rw [hostText?.eq_def]
  split
  · rename_i heq
    cases heq
  · rename_i heq
    exact absurd (List.cons.inj heq).1 hb
  · rename_i heq
    obtain ⟨rfl, rfl⟩ := List.cons.inj heq
    rfl

theorem hostText?_escapedByte (b : UInt8) (t : Text) : hostText? (escapedByte b ++ t) =
    if 0x80 ≤ b ∨ b = 37 then (hostText? t).map (b :: ·) else none := by
  have hlt := b.toNat_lt
  have hbyte : 16 * (b.toNat / 16 % 16) + b.toNat % 16 = b.toNat := by omega
  have hhigh : 8 ≤ b.toNat / 16 % 16 ↔ 0x80 ≤ b := by
    rw [UInt8.le_iff_toNat_le]
    show _ ↔ 128 ≤ b.toNat
    omega
  have hpercent : b.toNat = 37 ↔ b = 37 := by
    rw [← UInt8.toNat_inj]
    rfl
  rw [escapedByte_eq]
  simp [hostText?, hexValue?_capital, hbyte, hhigh, hpercent]

/-- **Hosts are read back unless they have a byte of ASCII that has to be escaped.** -/
theorem hostText?_percentEscape (t : Text) :
    hostText? (percentEscape .host t) = if t.all isHost then some t else none := by
  induction t with
  | nil => rfl
  | cons b t ih =>
    rw [percentEscape, flatMap_cons, ← percentEscape, all_cons]
    by_cases hkeeps : UrlPart.host.keeps b
    · have hpercent : b ≠ 37 := by
        rintro rfl
        simp [not_keeps_percent] at hkeeps
      rw [if_pos hkeeps, singleton_append, hostText?_cons hpercent, ih]
      simp only [hkeeps, isHost, Bool.or_true, Bool.true_and, if_true]
      split <;> rfl
    · rw [if_neg hkeeps, if_neg (by simp), hostText?_escapedByte, ih]
      have hhost : isHost b = true ↔ 0x80 ≤ b ∨ b = 37 := by
        simp [isHost, hkeeps]
      by_cases hb : 0x80 ≤ b ∨ b = 37
      · rw [if_pos hb, hhost.2 hb, Bool.true_and]
        split <;> rfl
      · rw [if_neg hb, Bool.eq_false_iff.2 (mt hhost.1 hb)]
        rfl

end JavaToCpp.Text
