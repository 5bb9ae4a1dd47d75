/-
  Sets of characters by the name of a property.

  A name is a category by its letters or in words, a script, or one of a few more.  Names are
  compared without regard to case, blanks, hyphens and underscores (`canonical`).
-/
import JavaToCpp.Text.Category
import JavaToCpp.Text.Script

namespace JavaToCpp.Text

def separatesWords (b : UInt8) : Bool := b == 95 || b == 45 || b == blank

/-- The letters of a name, the first a capital and the others small. -/
def canonical (name : Text) : Text :=
  match name.filter (!separatesWords ·) with
  | [] => []
  | b :: t => upperByte b :: lower t

def categoryWords : List (String × String) := [
  ("Other", "C"), ("Control", "Cc"), ("Cntrl", "Cc"), ("Format", "Cf"), ("Unassigned", "Cn"),
  ("Private_Use", "Co"), ("Surrogate", "Cs"),
  ("Letter", "L"), ("Cased_Letter", "LC"), ("Lowercase_Letter", "Ll"), ("Modifier_Letter", "Lm"),
  ("Other_Letter", "Lo"), ("Titlecase_Letter", "Lt"), ("Uppercase_Letter", "Lu"),
  ("Mark", "M"), ("Combining_Mark", "M"), ("Spacing_Mark", "Mc"), ("Enclosing_Mark", "Me"),
  ("Nonspacing_Mark", "Mn"),
  ("Number", "N"), ("Decimal_Number", "Nd"), ("Digit", "Nd"), ("Letter_Number", "Nl"),
  ("Other_Number", "No"),
  ("Punctuation", "P"), ("Punct", "P"), ("Connector_Punctuation", "Pc"),
  ("Dash_Punctuation", "Pd"), ("Close_Punctuation", "Pe"), ("Final_Punctuation", "Pf"),
  ("Initial_Punctuation", "Pi"), ("Other_Punctuation", "Po"), ("Open_Punctuation", "Ps"),
  ("Symbol", "S"), ("Currency_Symbol", "Sc"), ("Modifier_Symbol", "Sk"), ("Math_Symbol", "Sm"),
  ("Other_Symbol", "So"),
  ("Separator", "Z"), ("Line_Separator", "Zl"), ("Paragraph_Separator", "Zp"),
  ("Space_Separator", "Zs")]

def named? {α : Type} (table : List (String × α)) (name : Text) : Option α :=
  (table.find? fun (n, _) => canonical (ofString n) == name).map Prod.snd

def casedLetters : RuneSet :=
  (["Lu", "Ll", "Lt"].filterMap fun n => category? (ofString n)).flatten

/-- The sets whose name is neither that of a category nor that of a script. -/
def furtherSet? (name : Text) : Option RuneSet :=
  if name == ofString "Any" then some RuneSet.full
  else if name == ofString "Ascii" then some [(0, 127)]
  else if name == ofString "Assigned" then (category? (ofString "Cn")).map RuneSet.complement
  else if name == ofString "Lc" then some casedLetters
  else none

def property? (name : Text) : Option RuneSet :=
  let name := canonical name
  let category (name : Text) : Option RuneSet := (furtherSet? name).or (category? name)
  (category name).or <|
    ((named? scriptTables name).map RuneSet.ofGaps).or <|
      (named? categoryWords name).bind fun letters => category (canonical (ofString letters))

end JavaToCpp.Text
