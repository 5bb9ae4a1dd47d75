/-
  Quoted text.

  A text is written between quotes with the quote and the backslash escaped.  Printable
  characters stand as they are; control characters and bytes that cannot be decoded are
  written with two digits of base 16, other characters with four or eight.
-/
import JavaToCpp.Text.Category

namespace JavaToCpp.Text

/-- The letter that follows the backslash for a control character that has one. -/
def controlLetter? (rune : Nat) : Option Char :=
  match rune with
  | 7 => some 'a'
  | 8 => some 'b'
  | 9 => some 't'
  | 10 => some 'n'
  | 11 => some 'v'
  | 12 => some 'f'
  | 13 => some 'r'
  | _ => none

def escapeRune (quote : Char) (rune : Nat) : Text :=
  if rune == quote.toNat || rune == 92 then 92 :: encodeRune rune
  else if isPrintable rune then encodeRune rune
  else
    match controlLetter? rune with
    | some c => [92, byte c]
    | none =>
      if rune < 0x20 || rune == 0x7F then 92 :: byte 'x' :: hexNat 2 rune
      else if rune < 0x10000 then 92 :: byte 'u' :: hexNat 4 rune
      else 92 :: byte 'U' :: hexNat 8 rune

def Glyph.escape (quote : Char) (g : Glyph) : Text :=
  if g.broken then 92 :: byte 'x' :: hex g.bytes else escapeRune quote g.rune

def quoted (t : Text) : Text := byte '"' :: (glyphs t).flatMap (Glyph.escape '"') ++ [byte '"']

def quotedRune (rune : Nat) : Text := byte '\'' :: escapeRune '\'' rune ++ [byte '\'']

/-- Whether a text can stand between backquotes: it is one line of UTF-8 without backquotes, control
    characters other than tabs, and byte order marks. -/
def fitsBackquotes (t : Text) : Bool :=
  isUtf8 t && (glyphs t).all fun g =>
    g.rune != 0xFEFF && g.rune != 0x60 && g.rune != 0x7F && (32 ≤ g.rune || g.rune == 9)

/-- A text between backquotes, or quoted if it does not fit. -/
def backquoted (t : Text) : Text := if fitsBackquotes t then [0x60] ++ t ++ [0x60] else quoted t

end JavaToCpp.Text
