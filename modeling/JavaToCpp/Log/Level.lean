/-
  Levels of log lines.

  A level is a number.  Four levels have names; other levels are a name and a distance, such as
  `WARN+1`.
-/
import JavaToCpp.Text.Literal
import JavaToCpp.Text.Utf8

namespace JavaToCpp

abbrev Level := Int

namespace Level

def debug : Level := -4
def info : Level := 0
def warn : Level := 4
def error : Level := 8

def names : List (String × Level) := [
  ("DEBUG", debug), ("INFO", info), ("WARN", warn), ("ERROR", error)]

def ofName? (name : Text) : Option Level :=
  (names.find? fun n => Text.ofString n.1 == name).map Prod.snd

/-- A character as a capital, as far as names of levels have it. -/
def capital (g : Text.Glyph) : Text :=
  if g.rune = 0x131 then "I" else Text.upper g.bytes

def capitals (t : Text) : Text := (Text.glyphs t).flatMap capital

/-- The level that a text names: a name, with or without a distance. -/
def parse? (t : Text) : Option Level :=
  let t := capitals t
  let name := t.takeWhile fun b => b != Text.byte '+' && b != Text.byte '-'
  let distance := t.drop name.length
  if distance.isEmpty then ofName? name
  else do
    let d ← Text.toInt? distance
    let l ← ofName? name
    return Int.bmod (l + d) 18446744073709551616

/-- The level that a setting asks for; the level of information if it names none. -/
def ofSetting (t : Text) : Level := (parse? t).getD info

def name (l : Level) : Text :=
  ((names.find? fun n => n.2 == l).map fun n => Text.ofString n.1).getD []

end Level

end JavaToCpp
