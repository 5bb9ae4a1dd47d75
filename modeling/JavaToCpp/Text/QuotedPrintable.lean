/-
  Texts as lines of printable characters.

  A byte can be written as an equals sign and two digits of base 16.  Blanks at the end of a line do
  not count, and a line that ends in an equals sign goes on in the next one.
-/
import JavaToCpp.Text.Basic

namespace JavaToCpp.Text.QuotedPrintable

def maxLine : Nat := 4096

def isPadding (b : UInt8) : Bool := b == 9 || b == 10 || b == 13 || b == 32

def isPlain (b : UInt8) : Bool := b == 9 || b == 10 || b == 13 || (32 ≤ b && b != 127)

/-- The bytes of a line after those `seen` in reverse.  An equals sign that no two digits follow
    stands for itself, but not before the end of the line. -/
def bytesFrom? (seen : Text) : Text → Option Text
  | [] => some seen.reverse
  | 61 :: a :: b :: t =>
    match hexValue? a, hexValue? b with
    | some hi, some lo => bytesFrom? (UInt8.ofNat (16 * hi + lo) :: seen) t
    | _, _ => if a == 10 || a == 13 then none else bytesFrom? (61 :: seen) (a :: b :: t)
  | 61 :: a :: t => if a == 10 || a == 13 then none else bytesFrom? (61 :: seen) (a :: t)
  | b :: t => if b != 61 && isPlain b then bytesFrom? (b :: seen) t else none
termination_by t => t.length

def ending (line : Text) : Text :=
  if endsWith "\r\n" line then "\r\n" else if endsWith "\n" line then "\n" else []

def line? (line : Text) : Option Text :=
  let kept := trimRight isPadding line
  let padding := line.drop kept.length
  if maxLine < line.length then none
  else if endsWith "=" kept then
    let kept := kept.dropLast
    if startsWith "\n" padding || startsWith "\r\n" padding || (padding.isEmpty && !kept.isEmpty)
    then bytesFrom? [] kept
    else none
  else bytesFrom? [] (kept ++ ending line)

def lines (t : Text) : List Text :=
  let ls := t.splitOnP (· == newline)
  ls.dropLast.map (· ++ [newline]) ++ (ls.getLast?.filter fun l => !l.isEmpty).toList

def decode? (t : Text) : Option Text := ((lines t).mapM line?).map List.flatten

end JavaToCpp.Text.QuotedPrintable
