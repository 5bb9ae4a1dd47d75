/-
  White space, and what it separates.

  `isBlank` holds of the code points that Unicode calls white space.  `strip` removes
  them at both ends of a text and `fields` gives the maximal runs of other characters.
-/
import JavaToCpp.Text.Utf8

namespace JavaToCpp.Text

def isBlank (rune : Nat) : Bool :=
  (9 ≤ rune && rune ≤ 13) || rune == 0x20 || rune == 0x85 || rune == 0xA0 || rune == 0x1680 ||
    (0x2000 ≤ rune && rune ≤ 0x200A) || rune == 0x2028 || rune == 0x2029 || rune == 0x202F ||
    rune == 0x205F || rune == 0x3000

def Glyph.isBlank (g : Glyph) : Bool := Text.isBlank g.rune

def strip (t : Text) : Text :=
  ofGlyphs ((((glyphs t).dropWhile Glyph.isBlank).reverse.dropWhile Glyph.isBlank).reverse)

/-- The maximal runs of characters that are not white space. -/
def fields (t : Text) : List Text :=
  (((glyphs t).splitOnP Glyph.isBlank).filter fun run => !run.isEmpty).map ofGlyphs

end JavaToCpp.Text
