/-
  Characters and classes of characters in pattern text.

  Every reader takes the text from its first character on and gives what it read together with
  the text that follows.

  With `fold` set a class also holds the characters that are like its members up to case.
-/
import JavaToCpp.Pattern.Error
import JavaToCpp.Text.CaseFold
import JavaToCpp.Text.Property

namespace JavaToCpp.Pattern

/-- The part of `whole` that comes before its end `rest`. -/
def upTo (whole rest : Text) : Text := whole.take (whole.length - rest.length)

/-- Reads one character; the end of the text reads as the replacement character. -/
def nextRune (t : Text) : Except Error (Nat × Text) :=
  match t with
  | [] => .ok (Text.replacement, [])
  | b :: r =>
    if Text.undecodable b r then .error ⟨.badEncoding, t⟩
    else
      let (rune, more) := Text.decodeHead b r
      .ok (rune, r.drop more)

/-- The text from its first byte on that cannot be decoded; `skip` bytes belong to a character
    read before. -/
def undecodableFrom? : (skip : Nat) → Text → Option Text
  | _, [] => none
  | skip + 1, _ :: t => undecodableFrom? skip t
  | 0, b :: t =>
    if Text.undecodable b t then some (b :: t) else undecodableFrom? (Text.decodeHead b t).2 t

def checkUtf8 (t : Text) : Except Error Unit :=
  match undecodableFrom? 0 t with
  | some rest => .error ⟨.badEncoding, rest⟩
  | none => .ok ()

def hexRune? (rune : Nat) : Option Nat :=
  if rune < 128 then Text.hexValue? (UInt8.ofNat rune) else none

def bracedHex (whole : Text) : (fuel : Nat) → (digits value : Nat) → Text → Except Error (Nat × Text)
  | 0, _, _, t => .error ⟨.badEscape, upTo whole t⟩
  | fuel + 1, digits, value, t =>
    if t.isEmpty then .error ⟨.badEscape, upTo whole t⟩
    else do
      let (c, t) ← nextRune t
      if c = 125 then
        if digits = 0 then .error ⟨.badEscape, upTo whole t⟩ else .ok (value, t)
      else
        match hexRune? c with
        | none => .error ⟨.badEscape, upTo whole t⟩
        | some v =>
          if Text.maxRune < value * 16 + v then .error ⟨.badEscape, upTo whole t⟩
          else bracedHex whole fuel (digits + 1) (value * 16 + v) t

def octal : (n value : Nat) → Text → Nat × Text
  | 0, value, t => (value, t)
  | _ + 1, value, [] => (value, [])
  | n + 1, value, b :: t =>
    if 48 ≤ b && b ≤ 55 then octal n (value * 8 + (b.toNat - 48)) t else (value, b :: t)

def controlRune? (rune : Nat) : Option Nat :=
  match rune with
  | 97 => some 7
  | 102 => some 12
  | 110 => some 10
  | 114 => some 13
  | 116 => some 9
  | 118 => some 11
  | _ => none

def escape (whole : Text) : Except Error (Nat × Text) := do
  let t := whole.drop 1
  if t.isEmpty then throw ⟨.trailingBackslash, []⟩
  let (c, t) ← nextRune t
  let bad {α : Type} (t : Text) : Except Error α := .error ⟨.badEscape, upTo whole t⟩
  let octalNext := t.head?.any fun b => 48 ≤ b && b ≤ 55
  if c = 48 || (49 ≤ c && c ≤ 55 && octalNext) then
    return octal 2 (c - 48) t
  if c = 120 then
    if t.isEmpty then bad t
    else
      let (d, t) ← nextRune t
      if d = 123 then bracedHex whole (t.length + 1) 0 0 t
      else
        let (e, t) ← nextRune t
        match hexRune? d, hexRune? e with
        | some x, some y => return (x * 16 + y, t)
        | _, _ => bad t
  else
    match controlRune? c with
    | some r => return (r, t)
    | none =>
      if c < 128 && !(Text.isLetter (UInt8.ofNat c) || Text.isDigit (UInt8.ofNat c)) then
        return (c, t)
      else bad t

/-! ## Classes with a name -/

def perlSet? (letter : UInt8) : Option RuneSet :=
  match letter with
  | 100 => some [(48, 57)]
  | 115 => some [(9, 10), (12, 13), (32, 32)]
  | 119 => some [(48, 57), (65, 90), (95, 95), (97, 122)]
  | _ => none

/-- The classes that are written `[:name:]`. -/
def namedSets : List (String × RuneSet) := [
  ("alnum", [(48, 57), (65, 90), (97, 122)]),
  ("alpha", [(65, 90), (97, 122)]),
  ("ascii", [(0, 127)]),
  ("blank", [(9, 9), (32, 32)]),
  ("cntrl", [(0, 31), (127, 127)]),
  ("digit", [(48, 57)]),
  ("graph", [(33, 126)]),
  ("lower", [(97, 122)]),
  ("print", [(32, 126)]),
  ("punct", [(33, 47), (58, 64), (91, 96), (123, 126)]),
  ("space", [(9, 13), (32, 32)]),
  ("upper", [(65, 90)]),
  ("word", [(48, 57), (65, 90), (95, 95), (97, 122)]),
  ("xdigit", [(48, 57), (65, 70), (97, 102)])]

/-- The class or what it leaves out, with `fold` for the class first widened up to case. -/
def signed (fold negated : Bool) (set : RuneSet) : RuneSet :=
  let set := if fold then set.foldCase else set
  if negated then set.complement else set

/-- Reads `\d`, `\s`, `\w` or the capital of one. -/
def perlClass? (fold : Bool) (t : Text) : Option (RuneSet × Text) :=
  match t with
  | 92 :: b :: rest =>
    match perlSet? (Text.lowerByte b) with
    | some set => some (signed fold (Text.isUpper b) set, rest)
    | none => none
  | _ => none

/-- Reads `[:name:]` or `[:^name:]`; none if there is no such bracket. -/
def namedClass? (fold : Bool) (t : Text) : Except Error (Option (RuneSet × Text)) :=
  match t with
  | 91 :: 58 :: inner =>
    match Text.cut? ":]" inner with
    | none => .ok none
    | some (name, rest) =>
      let negated := name.head? == some 94
      let plain := if negated then name.drop 1 else name
      match namedSets.find? fun (n, _) => Text.ofString n == plain with
      | some (_, set) => .ok (some (signed fold negated set, rest))
      | none => .error ⟨.badRange, "[:" ++ name ++ ":]"⟩
  | _ => .ok none

/-- Reads `\p` or `\P` with the name of a property. -/
def unicodeClass? (fold : Bool) (t : Text) : Except Error (Option (RuneSet × Text)) :=
  match t with
  | 92 :: b :: after =>
    if b != 112 && b != 80 then .ok none
    else do
      let (c, single) ← nextRune after
      let (seen, name, rest) ←
        if c != 123 then pure (upTo t single, upTo after single, single)
        else
          match Text.cut? "\x7d" (after.drop 1) with
          | some (name, rest) => do
            checkUtf8 name
            pure (upTo t rest, name, rest)
          | none => do
            checkUtf8 t
            throw ⟨.badRange, t⟩
      let turned := name.head? == some 94
      let name := if turned then name.drop 1 else name
      match Text.property? name with
      | none => throw ⟨.badRange, seen⟩
      | some set => return some (signed fold ((b == 80) != turned) set, rest)
  | _ => .ok none

/-! ## Classes in brackets -/

def classRune (bracketText t : Text) : Except Error (Nat × Text) :=
  match t with
  | [] => .error ⟨.openBracket, bracketText⟩
  | 92 :: _ => escape t
  | _ => nextRune t

def classItem (fold : Bool) (bracketText t : Text) : Except Error (RuneSet × Text) := do
  if let some found ← namedClass? fold t then return found
  if let some found ← unicodeClass? fold t then return found
  if let some found := perlClass? fold t then return found
  let (lo, rest) ← classRune bracketText t
  let (hi, rest) ←
    match rest with
    | 45 :: d :: more => if d = 93 then pure (lo, rest) else classRune bracketText (d :: more)
    | _ => pure (lo, rest)
  if hi < lo then throw ⟨.badRange, upTo t rest⟩
  return (signed fold false [(lo, hi)], rest)

/-- Reads the members of a class up to the closing bracket, which may stand for itself in the
    first place. -/
def classItems (fold : Bool) (bracketText : Text) :
    (fuel : Nat) → (first : Bool) → RuneSet → Text → Except Error (RuneSet × Text)
  | 0, _, _, _ => .error ⟨.openBracket, bracketText⟩
  | fuel + 1, first, set, t =>
    if t.head? == some 93 && !first then .ok (set, t.drop 1)
    else do
      let (more, t) ← classItem fold bracketText t
      classItems fold bracketText fuel false (set ++ more) t

def bracket (fold : Bool) (whole : Text) : Except Error (RuneSet × Text) := do
  let inner := whole.drop 1
  let negated := inner.head? == some 94
  let inner := if negated then inner.drop 1 else inner
  let (set, rest) ← classItems fold whole (inner.length + 1) true [] inner
  return (if negated then set.complement else set.normalise, rest)

end JavaToCpp.Pattern
