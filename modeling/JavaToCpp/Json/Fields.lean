/-
  Objects with known fields.

  A member of an object belongs to the field of its name; if no field has exactly that name, to
  the field that has it up to the case of letters.  Members of no field do not matter.  Of several
  members of one field each is read after the other.
-/
import JavaToCpp.Json.Read

namespace JavaToCpp.Json

/-- A character up to case, as far as names of fields have it: the long s is an s and the sign for
    kelvin is a k. -/
def foldGlyph (g : Text.Glyph) : Text :=
  if g.rune = 0x17F then "S" else if g.rune = 0x212A then "K" else Text.upper g.bytes

def foldName (t : Text) : Text := (Text.glyphs t).flatMap foldGlyph

def fieldOf? (fields : List Text) (name : Text) : Option Text :=
  match fields.find? fun f => f == name with
  | some f => some f
  | none => fields.find? fun f => foldName f == foldName name

/-- Reads the members of an object one after the other; a null has no members. -/
def readFields {α : Type} (fields : List Text) (start : α) (step : α → Text → Json → Option α) :
    Json → Option α
  | null => some start
  | object members =>
    members.foldlM (fun a (name, v) =>
      match fieldOf? fields name with
      | some f => step a f v
      | none => some a) start
  | _ => none

/-- A text; a null leaves the one before. -/
def readText (before : Text) : Json → Option Text
  | null => some before
  | string t => some t
  | _ => none

def readFlag : Json → Option (Option Bool)
  | null => some none
  | bool b => some (some b)
  | _ => none

end JavaToCpp.Json
