/-
  Tokens.

  A token is a piece of source text with its category and its place: the 1-based position of its
  first byte and the 1-based line it starts in.  A piece of text that no rule recognises is a
  lexical error.
-/
import JavaToCpp.Text.Quoted

namespace JavaToCpp

structure Token where
  category : Text
  text : Text
  /-- the position of the first byte, from 1 -/
  pos : Int
  /-- the line of the first byte, from 1 -/
  line : Int
deriving DecidableEq, Repr, Inhabited

namespace Token

def describe (t : Token) : Text :=
  t.category ++ "(" ++ Text.quoted t.text ++ ") at line " ++ Text.ofInt t.line

structure Rule where
  category : Text
  pattern : Text
  /-- matches are passed over and give no token -/
  skip : Bool := false
deriving DecidableEq, Repr

structure Error where
  rune : Nat
  pos : Nat
  line : Nat
deriving DecidableEq, Repr

def Error.message (e : Error) : Text := "unexpected character " ++ Text.quotedRune e.rune

def Error.describe (e : Error) : Text :=
  "lexical error in line " ++ Text.decimal e.line ++ ": " ++ e.message

end Token

end JavaToCpp
