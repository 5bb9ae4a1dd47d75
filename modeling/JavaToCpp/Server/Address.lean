/-
  Addresses to listen on.

  An address is a port after a colon.  A port is a number; names of ports are not known.
-/
import JavaToCpp.Text.Literal

namespace JavaToCpp.Server

inductive AddressFault where
  | manyColons (port : Text)
  | bracket (b : UInt8) (port : Text)
  | unknown (port : Text)
  | outOfRange (port : Text)
deriving DecidableEq, Repr

def AddressFault.message : AddressFault → Text
  | manyColons port => "listen tcp: address :" ++ port ++ ": too many colons in address"
  | bracket b port => "listen tcp: address :" ++ port ++ ": unexpected '" ++ [b] ++ "' in address"
  | unknown port => "listen tcp: lookup tcp/" ++ port ++ ": unknown port"
  | outOfRange port => "listen tcp: address " ++ port ++ ": invalid port"

def wordCount : Nat := 4294967296

/-- From this number on the digits of a port do not count. -/
def portBound : Nat := 1073741824

/-- The number that digits add to a number, none for other characters before the bound is reached.
    Below the bound numbers are counted in words of 32 bits. -/
def digitsFrom (n : Nat) : Text → Option Nat
  | [] => some n
  | b :: t =>
    if !Text.isDigit b then none
    else if portBound ≤ n then some portBound
    else
      let tens := 10 * n % wordCount
      let sum := tens + (b.toNat - 48)
      if wordCount ≤ sum then some portBound else digitsFrom sum t

def portNumber? : Text → Option Int
  | 43 :: t => (digitsFrom 0 t).map Int.ofNat
  | 45 :: t => (digitsFrom 0 t).map fun n => -Int.ofNat n
  | t => (digitsFrom 0 t).map Int.ofNat

/-- Why it is not possible to listen on a port, as far as the port tells. -/
def fault? (port : Text) : Option AddressFault :=
  if port.contains (Text.byte ':') then some (.manyColons port)
  else if port.contains (Text.byte '[') then some (.bracket (Text.byte '[') port)
  else if port.contains (Text.byte ']') then some (.bracket (Text.byte ']') port)
  else
    match portNumber? port with
    | none => some (.unknown port)
    | some n => if n < 0 || 65535 < n then some (.outOfRange port) else none

end JavaToCpp.Server
