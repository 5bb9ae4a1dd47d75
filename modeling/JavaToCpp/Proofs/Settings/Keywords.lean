/-
  The settings of the database, read from their keywords.

  A connection text lists settings apart from each other by white space: a keyword, an equals sign and a
  value.  White space around the equals sign is passed over.  A value in single quotes can hold white
  space, and a backslash takes the byte after it as it is.
-/
import JavaToCpp.Proofs.Outcome
import JavaToCpp.Proofs.Text.Encoded
import JavaToCpp.Settings.Connection
import JavaToCpp.Settings.Keywords

namespace JavaToCpp.Settings

open List Text

/-! ## Connection texts -/

def isSpace (b : UInt8) : Bool := b == 32 || (9 ≤ b && b ≤ 13)

def isPart (b : UInt8) : Bool := b != 61 && !isSpace b

/-- A value up to the next white space, and what follows. -/
def bareValue? : Text → Option (Text × Text)
  | [] => some ([], [])
  | b :: t =>
    if isSpace b then some ([], t)
    else if b = 92 then
      match t with
      | [] => none
      | c :: t => (bareValue? t).map fun (v, rest) => (c :: v, rest)
    else (bareValue? t).map fun (v, rest) => (b :: v, rest)

/-- A value up to the closing quote, and what follows. -/
def quotedValue? : Text → Option (Text × Text)
  | [] => none
  | b :: t =>
    if b = 39 then some ([], t)
    else if b = 92 then
      match t with
      | [] => none
      | c :: t => (quotedValue? t).map fun (v, rest) => (c :: v, rest)
    else (quotedValue? t).map fun (v, rest) => (b :: v, rest)

def value? : Text → Option (Text × Text)
  | 39 :: t => quotedValue? t
  | t => bareValue? t

/-- The settings of a text; `fuel` bounds their number. -/
def settingsWithin? : (fuel : Nat) → Text → Option (List (Text × Text))
  | 0, _ => none
  | fuel + 1, t =>
    match t.dropWhile isSpace with
    | [] => some []
    | b :: t =>
      match ((b :: t).dropWhile isPart).dropWhile isSpace with
      | 61 :: t' => do
        let (v, rest) ← value? (t'.dropWhile isSpace)
        return ((b :: t).takeWhile isPart, v) :: (← settingsWithin? fuel rest)
      | _ => none

def settings? (t : Text) : Option (List (Text × Text)) := settingsWithin? (t.length + 1) t

/-! ## How many bytes settings take up -/

/-- The value has no bytes that end it or change it without quotes. -/
def Unbroken (v : Text) : Prop := ∀ b ∈ v, isSpace b = false ∧ b ≠ 92

variable {t v rest : Text} {p : Text × Text} {ps : List (Text × Text)} {fuel : Nat}

theorem bareValue?_spec (h : bareValue? t = some (v, rest)) : ∃ raw tail,
    t = raw ++ tail ∧ (tail = [] ∧ rest = [] ∨ ∃ b, isSpace b ∧ tail = b :: rest) ∧
    v.length ≤ raw.length ∧ (v.length = raw.length → v = raw ∧ Unbroken v) := by
  fun_induction bareValue? t generalizing v with
  | case1 =>
    cases h
    exact ⟨[], [], rfl, .inl ⟨rfl, rfl⟩, Nat.le_refl _, fun _ => ⟨rfl, by simp [Unbroken]⟩⟩
  | case2 b t hspace =>
    cases h
    exact ⟨[], b :: rest, rfl, .inr ⟨b, hspace, rfl⟩, Nat.le_refl _, fun _ => ⟨rfl, by simp [Unbroken]⟩⟩
  | case3 => cases h
  | case4 c t hspace ih =>
    obtain ⟨⟨v', rest'⟩, hv, heq⟩ := Option.map_eq_some_iff.1 h
    cases heq
    obtain ⟨raw, tail, rfl, htail, hle, -⟩ := ih hv
    refine ⟨92 :: c :: raw, tail, rfl, htail, ?_, ?_⟩
    · simp only [length_cons]
      omega
    · intro hlength
      simp only [length_cons] at hlength
      omega
  | case5 b t hspace hb ih =>
    obtain ⟨⟨v', rest'⟩, hv, heq⟩ := Option.map_eq_some_iff.1 h
    cases heq
    obtain ⟨raw, tail, rfl, htail, hle, htight⟩ := ih hv
    refine ⟨b :: raw, tail, rfl, htail, Nat.succ_le_succ hle, ?_⟩
    intro hlength
    obtain ⟨rfl, hraw⟩ := htight (Nat.succ.inj hlength)
    exact ⟨rfl, forall_mem_cons.2 ⟨⟨by simpa using hspace, hb⟩, hraw⟩⟩

theorem quotedValue?_length (h : quotedValue? t = some (v, rest)) : v.length + rest.length < t.length := by
  fun_induction quotedValue? t generalizing v with
  | case1 => cases h
  | case2 t =>
    cases h
    simp
  | case3 => cases h
  | case4 c t _ ih | case5 b t _ _ ih =>
    obtain ⟨⟨v', rest'⟩, hv, heq⟩ := Option.map_eq_some_iff.1 h
    cases heq
    have hlt := ih hv
    simp only [length_cons]
    omega

/-- The value can be written without quotes. -/
structure Bare (v : Text) : Prop where
  unquoted : v.head? ≠ some 39
  unbroken : Unbroken v

theorem value?_spec (h : value? t = some (v, rest)) : v.length + rest.length + 1 < t.length ∨ ∃ raw tail,
      t = raw ++ tail ∧ (tail = [] ∧ rest = [] ∨ ∃ b, isSpace b ∧ tail = b :: rest) ∧
      v.length ≤ raw.length ∧ (v.length = raw.length → v = raw ∧ Bare v) := by
  unfold value? at h
  split at h
  · rename_i t
    have hlt := quotedValue?_length h
    left
    simp only [length_cons]
    omega
  · rename_i hquote
    obtain ⟨raw, tail, rfl, htail, hle, htight⟩ := bareValue?_spec h
    refine .inr ⟨raw, tail, rfl, htail, hle, fun hlength => ?_⟩
    obtain ⟨rfl, hraw⟩ := htight hlength
    refine ⟨rfl, fun hhead => ?_, hraw⟩
    obtain ⟨v, rfl⟩ := head?_eq_some_iff.1 hhead
    exact hquote _ rfl

def field (p : Text × Text) : Text := p.1 ++ 61 :: p.2

/-- The number of bytes of settings without quotes, with a byte behind each of them. -/
def weight : List (Text × Text) → Nat
  | [] => 0
  | p :: ps => p.1.length + p.2.length + 2 + weight ps

/-- The settings can be written without quotes: none but the last has an empty value. -/
structure Plain (ps : List (Text × Text)) : Prop where
  keyword : ∀ p ∈ ps, p.1.all isPart
  bare : ∀ p ∈ ps, Bare p.2
  full : ∀ p ∈ ps.dropLast, p.2 ≠ []

theorem plain_singleton (hkeyword : p.1.all isPart) (hvalue : Bare p.2) : Plain [p] :=
  ⟨by simpa using hkeyword, by simpa using hvalue, by simp⟩

theorem Plain.cons (h : Plain ps)
    (hkeyword : p.1.all isPart) (hvalue : Bare p.2) (hfull : p.2 ≠ []) : Plain (p :: ps) where
  keyword := forall_mem_cons.2 ⟨hkeyword, h.keyword⟩
  bare := forall_mem_cons.2 ⟨hvalue, h.bare⟩
  full := by
    cases ps with
    | nil => simp
    | cons q ps =>
      rw [dropLast_cons_cons]
      exact forall_mem_cons.2 ⟨hfull, h.full⟩

theorem settingsWithin?_nil (h : settingsWithin? fuel [] = some ps) : ps = [] := by
  cases fuel with
  | zero => cases h
  | succ fuel =>
    cases h
    rfl

theorem settingsWithin?_succ (h : settingsWithin? (fuel + 1) t = some ps) : ps = [] ∨
    ∃ k u v rest ps', k.length + u.length < t.length ∧ k.all isPart ∧
      (∀ b ∈ u.head?, isSpace b = false) ∧ value? u = some (v, rest) ∧
      settingsWithin? fuel rest = some ps' ∧ ps = (k, v) :: ps' := by
  rw [settingsWithin?] at h
  split at h
  · cases h
    exact .inl rfl
  · rename_i b t' hstart
    split at h
    · rename_i t'' hequals
      obtain ⟨⟨v, rest⟩, hv, h⟩ := Option.bind_eq_some_iff.1 h
      obtain ⟨ps', hps', h⟩ := Option.bind_eq_some_iff.1 h
      cases h
      refine .inr ⟨_, _, v, rest, ps', ?_, all_takeWhile, ?_, hv, hps', rfl⟩
      · have hskip := (dropWhile_suffix isSpace (l := t)).length_le
        have hkey := congrArg length (takeWhile_append_dropWhile (p := isPart) (l := b :: t'))
        have hsign := (dropWhile_suffix isSpace (l := (b :: t').dropWhile isPart)).length_le
        have hvalue := (dropWhile_suffix isSpace (l := t'')).length_le
        rw [hstart] at hskip
        rw [length_append] at hkey
        rw [hequals, length_cons] at hsign
        omega
      · intro c hc
        exact Bool.eq_false_iff.2 fun hspace => by
          have := head?_dropWhile_not isSpace t''
          rw [hc] at this
          simp [hspace] at this
    · cases h

theorem isSpace_of_isPart {b : UInt8} (h : isPart b) : isSpace b = false := by
  simp only [isPart, Bool.and_eq_true, Bool.not_eq_true'] at h
  exact h.2

/-- Settings take up their weight in a text, and are written without quotes if they take up no more. -/
theorem settingsWithin?_weight (fuel : Nat) : ∀ {t : Text} {ps : List (Text × Text)},
    settingsWithin? fuel t = some ps → weight ps ≤ t.length + 1 ∧
      (weight ps = t.length + 1 → Plain ps) := by
  induction fuel with
  | zero =>
    intro t ps h
    cases h
  | succ fuel ih =>
    intro t ps h
    rcases settingsWithin?_succ h with rfl | ⟨k, u, v, rest, ps, hlength, hk, hu, hv, hps, rfl⟩
    · simp [weight]
    obtain ⟨hle, htight⟩ := ih hps
    simp only [weight]
    rcases value?_spec hv with hlt | ⟨raw, tail, rfl, htail, hraw, hbare⟩
    · -- quotes take up bytes of their own
      exact ⟨by omega, fun heq => by omega⟩
    rw [length_append] at hlength
    rcases htail with ⟨rfl, rfl⟩ | ⟨b, hb, rfl⟩
    · cases settingsWithin?_nil hps
      rw [weight, length_nil] at *
      refine ⟨by omega, fun heq => ?_⟩
      obtain ⟨rfl, hvalue⟩ := hbare (by omega)
      exact plain_singleton hk hvalue
    · rw [length_cons] at hlength
      refine ⟨by omega, fun heq => ?_⟩
      obtain ⟨rfl, hvalue⟩ := hbare (by omega)
      have hfull : v ≠ [] := by
        rintro rfl
        simp [hu b rfl] at hb
      exact (htight (by omega)).cons hk hvalue hfull

/-! ## Settings without quotes -/

theorem bareValue?_append (h : Unbroken v) (t : Text) :
    bareValue? (v ++ t) = (bareValue? t).map fun (v', rest) => (v ++ v', rest) := by
  induction v with
  | nil => simp
  | cons b v ih =>
    obtain ⟨⟨hspace, hb⟩, hv⟩ := forall_mem_cons.1 h
    rw [cons_append, bareValue?.eq_def]
    simp [hspace, hb, ih hv, Function.comp_def]

theorem bareValue?_space {b : UInt8} (h : isSpace b) (t : Text) : bareValue? (b :: t) = some ([], t) := by
  rw [bareValue?.eq_def]
  simp [h]

theorem value?_bare (h : Bare v) (hne : v ≠ [] ∨ t = [])
    (ht : bareValue? t = some ([], rest)) : value? (v ++ t) = some (v, rest) := by
  have hbare : bareValue? (v ++ t) = some (v, rest) := by
    rw [bareValue?_append h.unbroken, ht]
    simp
  rw [← hbare, value?]
  intro t' ht'
  rcases hne with hne | rfl
  · obtain ⟨b, v, rfl⟩ := exists_cons_of_ne_nil hne
    exact h.unquoted (by rw [(List.cons.inj ht').1]; rfl)
  · rw [append_nil] at ht'
    exact h.unquoted (by rw [ht']; rfl)

theorem settingsWithin?_field (hkeyword : p.1.all isPart)
    (hvalue : value? (p.2 ++ t) = some (p.2, rest)) (hstart : ∀ b ∈ (p.2 ++ t).head?, isSpace b = false)
    (fuel : Nat) :
    settingsWithin? (fuel + 1) (field p ++ t) = (settingsWithin? fuel rest).map (p :: ·) := by
  have hparts : ∀ b ∈ p.1, isPart b := all_eq_true.1 hkeyword
  have htext : field p ++ t = p.1 ++ 61 :: (p.2 ++ t) := by simp [field]
  obtain ⟨b, t', hcons, hb⟩ : ∃ b t', p.1 ++ 61 :: (p.2 ++ t) = b :: t' ∧ isSpace b = false := by
    cases hk : p.1 with
    | nil => exact ⟨61, _, rfl, by decide⟩
    | cons b k => exact ⟨b, _, rfl, isSpace_of_isPart (hparts b (by rw [hk]; exact mem_cons_self))⟩
  have hskip : (field p ++ t).dropWhile isSpace = b :: t' := by
    rw [htext, hcons, dropWhile_cons_of_neg (by simp [hb])]
  have hrest : (b :: t').dropWhile isPart = 61 :: (p.2 ++ t) := by
    rw [← hcons, dropWhile_append_of_pos hparts]
    rfl
  have hkey : (b :: t').takeWhile isPart = p.1 := by
    rw [← hcons, takeWhile_append_of_pos hparts]
    simp [isPart]
  have hequals : (61 :: (p.2 ++ t)).dropWhile isSpace = 61 :: (p.2 ++ t) := rfl
  rw [settingsWithin?, hskip]
  simp only [hrest, hequals, hkey, dropWhile_eq_self hstart, hvalue, Option.bind_eq_bind,
    Option.bind_some]
  cases settingsWithin? fuel rest with
  | none => rfl
  | some ps => rfl

theorem Plain.tail (h : Plain (p :: ps)) : Plain ps where
  keyword := (forall_mem_cons.1 h.keyword).2
  bare := (forall_mem_cons.1 h.bare).2
  full := by
    cases ps with
    | nil => simp
    | cons q ps =>
      have hfull := h.full
      rw [dropLast_cons_cons] at hfull
      exact (forall_mem_cons.1 hfull).2

theorem settingsWithin?_join (h : Plain ps) (hfuel : ps.length < fuel) :
    settingsWithin? fuel (join [32] (ps.map field)) = some ps := by
  induction ps generalizing fuel with
  | nil =>
    obtain ⟨fuel, rfl⟩ := Nat.exists_eq_succ_of_ne_zero (Nat.ne_of_gt hfuel)
    rfl
  | cons p ps ih =>
    obtain ⟨fuel, rfl⟩ := Nat.exists_eq_succ_of_ne_zero (Nat.ne_zero_of_lt hfuel)
    have hkeyword := h.keyword p mem_cons_self
    have hvalue := h.bare p mem_cons_self
    have hrest := ih h.tail (Nat.lt_of_succ_lt_succ hfuel)
    -- only the last value can be empty: before another setting the blank would be passed over
    cases ps with
    | nil =>
      have hstart : ∀ b ∈ (p.2 ++ []).head?, isSpace b = false := by
        intro b hb
        rw [append_nil] at hb
        exact (hvalue.unbroken b (mem_of_mem_head? hb)).1
      rw [map_singleton, join_singleton, ← append_nil (field p),
        settingsWithin?_field hkeyword (value?_bare hvalue (.inr rfl) rfl) hstart]
      exact congrArg (Option.map (p :: ·)) hrest
    | cons q ps =>
      have hfull : p.2 ≠ [] := h.full p (by rw [dropLast_cons_cons]; exact mem_cons_self)
      have hstart : ∀ b ∈ (p.2 ++ 32 :: join [32] ((q :: ps).map field)).head?, isSpace b = false := by
        intro b hb
        rw [head?_append_of_ne_nil _ hfull] at hb
        exact (hvalue.unbroken b (mem_of_mem_head? hb)).1
      have hread := value?_bare hvalue (.inl hfull)
        (bareValue?_space (b := 32) (by decide) (join [32] ((q :: ps).map field)))
      rw [map_cons, map_cons, join_cons_cons, ← map_cons, singleton_append,
        settingsWithin?_field hkeyword hread hstart, hrest]
      rfl

theorem length_join_field (h : ps ≠ []) : (join [32] (ps.map field)).length + 1 = weight ps := by
  induction ps with
  | nil => exact absurd rfl h
  | cons p ps ih =>
    cases ps with
    | nil =>
      simp only [map_singleton, join_singleton, field, weight, length_append, length_cons]
      omega
    | cons q ps =>
      have hrest := ih (cons_ne_nil q ps)
      rw [map_cons, map_cons, join_cons_cons, ← map_cons, weight, ← hrest]
      simp only [field, length_append, length_cons, length_nil]
      omega

theorem length_le_weight (ps : List (Text × Text)) : 2 * ps.length ≤ weight ps := by
  induction ps with
  | nil => exact Nat.le_refl _
  | cons p ps ih =>
    simp only [weight, length_cons]
    omega

/-! ## Bytes and characters

`Keywords.read` takes a text by its characters, `settings?` by its bytes. -/

open Keywords (isAscii plainValue quotedValue value readAll)

/-- A byte as a character of its own, one that is no white space if it is not in ASCII. -/
def ofByte (b : UInt8) : Glyph := ⟨if b < 0x80 then b.toNat else 0x80, [b]⟩

theorem ofByte_spec (b : UInt8) : (ofByte b).isBlank = isSpace b ∧ isAscii '\\' (ofByte b) = (b == 92) ∧
    isAscii '\'' (ofByte b) = (b == 39) ∧ isAscii '=' (ofByte b) = (b == 61) := by
  obtain ⟨n, hn, rfl⟩ : ∃ n < 256, b = .ofNat n := ⟨b.toNat, b.toNat_lt, by simp⟩
  revert n
  decide +kernel

@[simp] theorem bytes_ofByte (b : UInt8) : (ofByte b).bytes = [b] := rfl

theorem plainValue_ofByte (t : Text) : (plainValue (t.map ofByte)).toOption =
    (bareValue? t).map fun (v, rest) => (v, rest.map ofByte) := by
  fun_induction bareValue? t with
  | case1 | case3 => rfl
  | case2 b t hspace =>
    have hstop : plainValue (ofByte b :: t.map ofByte) = .ok ([], t.map ofByte) := by
      cases t <;> exact if_pos ((ofByte_spec b).1.trans hspace)
    rw [map_cons, hstop]
    rfl
  | case4 c t hspace ih =>
    have htaken : plainValue (ofByte 92 :: ofByte c :: t.map ofByte) =
      (plainValue (t.map ofByte)).map fun p => (c :: p.1, p.2) := rfl
    rw [map_cons, map_cons, htaken, toOption_map, ih]
    simp [Function.comp_def]
  | case5 b t hspace hb ih =>
    have htaken : plainValue (ofByte b :: t.map ofByte) =
        (plainValue (t.map ofByte)).map fun p => (b :: p.1, p.2) := by
      have hplain : ¬ (ofByte b).isBlank ∧ ¬ isAscii '\\' (ofByte b) := by
        simp [ofByte_spec, hspace, hb]
      cases t <;> exact (if_neg hplain.1).trans (if_neg hplain.2)
    rw [map_cons, htaken, toOption_map, ih]
    simp [Function.comp_def]

theorem quotedValue_ofByte (t : Text) : (quotedValue (t.map ofByte)).toOption =
    (quotedValue? t).map fun (v, rest) => (v, rest.map ofByte) := by
  fun_induction quotedValue? t with
  | case1 | case3 => rfl
  | case2 t =>
    rw [map_cons, Keywords.quotedValue.eq_def]
    rfl
  | case4 c t hquote ih =>
    rw [map_cons, Keywords.quotedValue.eq_def]
    simp [ofByte_spec, toOption_map, ih, Function.comp_def]
  | case5 b t hquote hb ih =>
    rw [map_cons, Keywords.quotedValue.eq_def]
    simp [ofByte_spec, hquote, hb, toOption_map, ih, Function.comp_def]

theorem value_ofByte (t : Text) : (value (t.map ofByte)).toOption =
    (value? t).map fun (v, rest) => (v, rest.map ofByte) := by
  unfold value?
  split
  · exact quotedValue_ofByte _
  · rename_i hquote
    cases t with
    | nil => rfl
    | cons b t =>
      have hb : b ≠ 39 := by
        rintro rfl
        exact hquote t rfl
      rw [← plainValue_ofByte, map_cons, value, (ofByte_spec b).2.2.1]
      simp [hb]

theorem length_of_value? {rest : Text} (h : value? t = some (v, rest)) : rest.length ≤ t.length := by
  rcases value?_spec h with hlt | ⟨raw, tail, rfl, ⟨rfl, rfl⟩ | ⟨b, -, rfl⟩, -⟩
  · omega
  · simp
  · simp
    omega

theorem readAll_ofByte {fuel : Nat} (h : t.length < fuel) :
    (readAll fuel (t.map ofByte)).toOption = settingsWithin? fuel t := by
  have hblank : Glyph.isBlank ∘ ofByte = isSpace := funext fun b => (ofByte_spec b).1
  have hpart : Keywords.isPart ∘ ofByte = isPart := funext fun b => by
    simp [Keywords.isPart, isPart, ofByte_spec, Bool.and_comm, bne]
  have hkeyword (k : Text) : ofGlyphs (k.map ofByte) = k := by
    simp [ofGlyphs, flatMap_map]
  induction fuel generalizing t with
  | zero => cases h
  | succ fuel ih =>
    rw [readAll, settingsWithin?]
    simp only [dropWhile_map, takeWhile_map, hblank, hpart, hkeyword]
    cases hstart : t.dropWhile isSpace with
    | nil => rfl
    | cons b t' =>
      have hskip := (dropWhile_suffix isSpace (l := t)).length_le
      have hkey := (dropWhile_suffix isPart (l := b :: t')).length_le
      have hsign := (dropWhile_suffix isSpace (l := (b :: t').dropWhile isPart)).length_le
      rw [hstart] at hskip
      simp only [map_cons, isEmpty_cons, Bool.false_eq_true, if_false]
      generalize ((b :: t').dropWhile isPart).dropWhile isSpace = s at hsign ⊢
      cases s with
      | nil => rfl
      | cons c u =>
        simp only [map_cons, (ofByte_spec c).2.2.2, beq_iff_eq, dropWhile_map, hblank]
        split
        · subst c
          have hlength := (dropWhile_suffix isSpace (l := u)).length_le
          simp only [length_cons] at hsign hkey hskip
          simp only [toOption_bind, value_ofByte]
          cases hread : value? (u.dropWhile isSpace) with
          | none => rfl
          | some p =>
            have hrest := length_of_value? hread
            simp only [Option.map_some, Option.bind_some, ih (show p.2.length < fuel by omega)]
            rfl
        · split
          · simp_all
          · rfl

/-- **Settings are read from bytes as from characters**, with every byte for a character. -/
theorem settings?_eq_readAll (t : Text) :
    settings? t = (readAll (t.length + 1) (t.map ofByte)).toOption :=
  (readAll_ofByte (Nat.lt_succ_self _)).symm

theorem settings?_of_ascii (h : t.all (· < 0x80)) : settings? t = (Keywords.read t).toOption := by
  have hglyphs : ∀ {t : Text}, t.all (· < 0x80) → glyphs t = t.map ofByte := by
    intro t ht
    induction t with
    | nil => exact glyphs_nil
    | cons b t ih =>
      rw [all_cons, Bool.and_eq_true, decide_eq_true_eq] at ht
      rw [glyphs_ascii ht.1, ih ht.2, map_cons, ofByte, if_pos ht.1]
  rw [settings?_eq_readAll, Keywords.read, toUtf8_eq_self (isUtf8_of_ascii h), hglyphs h]

/-! ## The keywords of a database -/

theorem settings?_join_iff (hne : ps ≠ []) :
    settings? (join [32] (ps.map field)) = some ps ↔ Plain ps := by
  have hlength := length_join_field hne
  constructor
  · intro h
    exact (settingsWithin?_weight _ h).2 hlength.symm
  · intro h
    have hmany := length_le_weight ps
    have hpos := length_pos_iff.2 hne
    exact settingsWithin?_join h (by omega)

namespace Database

def parameters (d : Database) : List (Text × Text) :=
  [("host", d.host), ("port", d.port), ("user", d.user), ("password", d.password), ("dbname", d.name),
    ("sslmode", d.sslMode), ("search_path", d.searchPath)]

theorem keywords_eq_join (d : Database) : d.keywords = join [32] (d.parameters.map field) := by
  have hhost : ofString "host=" = ofString "host" ++ [61] := by decide
  have hport : ofString " port=" = 32 :: ofString "port" ++ [61] := by decide
  have huser : ofString " user=" = 32 :: ofString "user" ++ [61] := by decide
  have hpassword : ofString " password=" = 32 :: ofString "password" ++ [61] := by decide
  have hname : ofString " dbname=" = 32 :: ofString "dbname" ++ [61] := by decide
  have hmode : ofString " sslmode=" = 32 :: ofString "sslmode" ++ [61] := by decide
  have hschema : ofString " search_path=" = 32 :: ofString "search_path" ++ [61] := by decide
  rw [keywords, hhost, hport, huser, hpassword, hname, hmode, hschema]
  simp [parameters, field, join_cons_cons, join_singleton]

/-- **The keywords of a database give its settings back if and only if these can do without quotes.** -/
theorem settings?_keywords_iff (d : Database) :
    settings? d.keywords = some d.parameters ↔ Plain d.parameters := by
  rw [keywords_eq_join]
  exact settings?_join_iff (cons_ne_nil _ _)

theorem read_keywords_iff (d : Database) (h : d.keywords.all (· < 0x80)) :
    Keywords.read d.keywords = .ok d.parameters ↔ Plain d.parameters := by
  rw [← settings?_keywords_iff, settings?_of_ascii h]
  cases Keywords.read d.keywords <;> simp [Except.toOption]

end Database

end JavaToCpp.Settings
