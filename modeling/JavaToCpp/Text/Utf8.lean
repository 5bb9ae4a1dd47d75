/-
  Characters of a byte string.

  `decodeHead` reads the character at the head of a non-empty text.  A byte that
  starts no well-formed UTF-8 sequence is read alone, as the replacement character.
  `glyphs` is the whole text as characters with the bytes that spell them, so the
  spellings joined give the text back.
-/
import JavaToCpp.Text.Basic

namespace JavaToCpp.Text

def replacement : Nat := 0xFFFD

def maxRune : Nat := 0x10FFFF

def within (lo hi b : UInt8) : Bool := lo ≤ b && b ≤ hi

/-- The code point at the head of `b :: rest` and the number of bytes of `rest` that
    belong to it. -/
def decodeHead (b : UInt8) (rest : Text) : Nat × Nat :=
  let bad := (replacement, 0)
  if b < 0x80 then (b.toNat, 0)
  else if within 0xC2 0xDF b then
    match rest with
    | c :: _ =>
      if within 0x80 0xBF c then ((b.toNat - 0xC0) * 64 + (c.toNat - 0x80), 1) else bad
    | _ => bad
  else if within 0xE0 0xEF b then
    match rest with
    | c :: d :: _ =>
      let lo := if b = 0xE0 then 0xA0 else 0x80
      let hi := if b = 0xED then 0x9F else 0xBF
      if within lo hi c && within 0x80 0xBF d then
        ((b.toNat - 0xE0) * 4096 + (c.toNat - 0x80) * 64 + (d.toNat - 0x80), 2)
      else bad
    | _ => bad
  else if within 0xF0 0xF4 b then
    match rest with
    | c :: d :: e :: _ =>
      let lo := if b = 0xF0 then 0x90 else 0x80
      let hi := if b = 0xF4 then 0x8F else 0xBF
      if within lo hi c && within 0x80 0xBF d && within 0x80 0xBF e then
        ((b.toNat - 0xF0) * 262144 + (c.toNat - 0x80) * 4096 + (d.toNat - 0x80) * 64
          + (e.toNat - 0x80), 3)
      else bad
    | _ => bad
  else bad

def undecodable (b : UInt8) (rest : Text) : Bool :=
  decodeHead b rest == (replacement, 0)

/-- A character of a text: its code point and the bytes that spell it. -/
structure Glyph where
  rune : Nat
  bytes : Text
deriving DecidableEq, Repr

/-- Whether the glyph is a single byte that cannot be decoded. -/
def Glyph.broken (g : Glyph) : Bool := g.rune == replacement && g.bytes.length == 1

def glyphs : Text → List Glyph
  | [] => []
  | b :: rest =>
    let (rune, more) := decodeHead b rest
    ⟨rune, b :: rest.take more⟩ :: glyphs (rest.drop more)
termination_by t => t.length
decreasing_by simp only [List.length_drop, List.length_cons]; omega

def ofGlyphs (gs : List Glyph) : Text := gs.flatMap Glyph.bytes

theorem ofGlyphs_glyphs (t : Text) : ofGlyphs (glyphs t) = t := by
  fun_induction glyphs t with
  | case1 => rfl
  | case2 b rest rune more _ ih =>
    simp only [ofGlyphs, List.flatMap_cons] at ih ⊢
    rw [ih]
    simp

def isUtf8 (t : Text) : Bool := (glyphs t).all fun g => !g.broken

/-- The UTF-8 bytes of a code point; surrogates and what lies beyond the last code point
    are written as the replacement character. -/
def encodeRune (n : Nat) : Text :=
  let n := if (0xD800 ≤ n && n ≤ 0xDFFF) || maxRune < n then replacement else n
  if n < 0x80 then [UInt8.ofNat n]
  else if n < 0x800 then [UInt8.ofNat (0xC0 + n / 64), UInt8.ofNat (0x80 + n % 64)]
  else if n < 0x10000 then
    [UInt8.ofNat (0xE0 + n / 4096), UInt8.ofNat (0x80 + n / 64 % 64), UInt8.ofNat (0x80 + n % 64)]
  else
    [UInt8.ofNat (0xF0 + n / 262144), UInt8.ofNat (0x80 + n / 4096 % 64),
      UInt8.ofNat (0x80 + n / 64 % 64), UInt8.ofNat (0x80 + n % 64)]

/-- The text with every byte that cannot be decoded written as the replacement character. -/
def toUtf8 (t : Text) : Text :=
  (glyphs t).flatMap fun g => if g.broken then encodeRune replacement else g.bytes

def toString (t : Text) : String :=
  String.ofList ((glyphs t).map fun g => Char.ofNat g.rune)

end JavaToCpp.Text
