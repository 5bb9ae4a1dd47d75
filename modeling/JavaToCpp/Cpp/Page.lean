/-
  Pages.

  A page is text under construction: the lines that are finished, the text of the line that is
  being written, and the depth of braces.  A finished line is indented by four blanks for each
  level, has no blanks at its end and is not empty.
-/
import JavaToCpp.Text.Basic

namespace JavaToCpp.Cpp

structure Page where
  lines : List Text := []
  /-- the line that is being written, without its indentation -/
  pending : Text := []
  /-- how many braces are open -/
  depth : Nat := 0
deriving DecidableEq, Repr, Inhabited

namespace Page

def trimmed (t : Text) : Text := Text.trimRight (· == Text.blank) t

def indented (depth : Nat) (line : Text) : Text := Text.times depth "    " ++ line

def write (p : Page) (t : Text) : Page := { p with pending := p.pending ++ t }

def trim (p : Page) : Page := { p with pending := trimmed p.pending }

/-- Ends the current line; an empty one leaves no trace. -/
def endLine (p : Page) : Page :=
  let line := trimmed p.pending
  if line.isEmpty then { p with pending := [] }
  else { p with lines := p.lines ++ [indented p.depth line], pending := [] }

/-- Puts an opening brace on a line of its own; what follows is one level deeper. -/
def openBrace (p : Page) : Page :=
  let p := (p.endLine.write "\x7b").endLine
  { p with depth := p.depth + 1 }

/-- Puts a closing brace on a line of its own, one level higher. -/
def closeBrace (p : Page) : Page :=
  let p := p.endLine
  ({ p with depth := p.depth - 1 }.write "\x7d").endLine

/-- The lines of the page, each ended by a line feed. -/
def text (p : Page) : Text := p.endLine.lines.flatMap fun line => line ++ [Text.newline]

end Page

end JavaToCpp.Cpp
