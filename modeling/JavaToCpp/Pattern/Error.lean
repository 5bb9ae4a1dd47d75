/-
  What can be wrong with the text of a pattern.

  An error is a fault together with the part of the text that shows it; `message` is its wording.
-/
import JavaToCpp.Text.Basic

namespace JavaToCpp.Pattern

inductive Fault where
  | badRange
  | badEscape
  | badGroupName
  | badFlags
  | stackedRepeat
  | badRepeatCount
  | badEncoding
  | openBracket
  | openParen
  | repeatOfNothing
  | trailingBackslash
  | strayParen
  | tooDeep
  | tooLarge
deriving DecidableEq, Repr

def Fault.message : Fault → Text
  | badRange => "invalid character class range"
  | badEscape => "invalid escape sequence"
  | badGroupName => "invalid named capture"
  | badFlags => "invalid or unsupported Perl syntax"
  | stackedRepeat => "invalid nested repetition operator"
  | badRepeatCount => "invalid repeat count"
  | badEncoding => "invalid UTF-8"
  | openBracket => "missing closing ]"
  | openParen => "missing closing )"
  | repeatOfNothing => "missing argument to repetition operator"
  | trailingBackslash => "trailing backslash at end of expression"
  | strayParen => "unexpected )"
  | tooDeep => "expression nests too deeply"
  | tooLarge => "expression too large"

structure Error where
  fault : Fault
  part : Text
deriving DecidableEq, Repr

def Error.message (e : Error) : Text :=
  "error parsing regexp: " ++ e.fault.message ++ ": `" ++ e.part ++ "`"

end JavaToCpp.Pattern
