/-
  From pattern text to patterns.

  The text is read from left to right with a level for every group that is open.  A level holds
  the alternatives that are complete and the atoms of the one being read.  Flags that a group sets
  hold up to its end.
-/
import JavaToCpp.Pattern.Alternation
import JavaToCpp.Pattern.CharClass

namespace JavaToCpp.Pattern

structure Flags where
  /-- letters match up to case -/
  fold : Bool := false
  /-- the dot matches the line feed too -/
  dotAll : Bool := false
  /-- the anchors also stand at line ends -/
  multiLine : Bool := false
  /-- repetitions are lazy unless marked -/
  lazy : Bool := false
deriving DecidableEq, Repr

structure Level where
  /-- the complete alternatives, the latest first -/
  alternatives : List Regex := []
  /-- the atoms of the alternative being read, the latest first -/
  atoms : List Regex := []
deriving Repr

def Level.current (l : Level) : Regex := (Regex.inOrder l.atoms).tidy

/-- The level with the alternative being read complete.  A single character joins an earlier one
    in a class. -/
def Level.bar (l : Level) : Level :=
  let current := l.current
  match l.alternatives with
  | [] => { alternatives := [current] }
  | last :: earlier =>
    if current.isCharacter && last.isCharacter then
      let joined :=
        if last.complexity.1 < current.complexity.1 then current.widen last
        else last.widen current
      { alternatives := joined :: earlier }
    else { alternatives := current :: last.clean :: earlier }

def Level.regex (l : Level) : Regex :=
  match l.bar.alternatives with
  | [] => .empty
  | last :: earlier => (Regex.choice (last.clean :: earlier).reverse).tidy

structure Waiting where
  level : Level
  /-- the number of the group, if it is a numbered one, and whether it has a name -/
  index : Option (Nat × Bool)
  /-- the flags that hold again after the group -/
  flags : Flags
deriving Repr

structure Reader where
  whole : Text
  flags : Flags := {}
  level : Level := {}
  outer : List Waiting := []
  groups : Nat := 0
  /-- numbers and names of the named groups, the latest first -/
  names : List (Nat × Text) := []
  /-- the text from the last repetition on, if that was the last item -/
  repeated : Option Text := none
  atoms : Nat := 0
  /-- the product of the counts met so far -/
  counts : Nat := 1
deriving Repr

def maxHeight : Nat := 1000

def maxSize : Nat := 3355443

namespace Reader

/-- Refuses a pattern that is too large or too high.  Sizes matter only once the counts could
    make so many atoms too large. -/
def check (m : Reader) (r : Regex) : Except Error Reader := do
  let count := match r with
    | .rep least most _ _ => max 1 (most.getD least)
    | _ => 1
  let m := { m with counts := min maxSize (m.counts * count) }
  if maxSize / m.counts ≤ m.atoms && maxSize < r.size then throw ⟨.tooLarge, m.whole⟩
  if maxHeight < r.height then throw ⟨.tooDeep, m.whole⟩
  return m

def push (m : Reader) (r : Regex) : Reader :=
  { m with level := { m.level with atoms := r.tidy :: m.level.atoms }, atoms := m.atoms + 1 }

/-- Adds the pattern of one character, which joins a literal before it. -/
def literal (m : Reader) (rune : Nat) : Reader :=
  let fold := m.flags.fold
  let atom := .literal fold [if fold then Text.leastAlike rune else rune]
  let joins := match m.level.atoms with
    | .literal _ _ :: _ => true
    | _ => false
  { m with
    level := { m.level with atoms := atom :: m.level.atoms }
    atoms := if joins then m.atoms else m.atoms + 1 }

/-- Opens a group, after which `flags` hold inside it. -/
def openGroup (m : Reader) (index : Option (Nat × Bool)) (flags : Flags) : Reader :=
  { m with flags, level := {}, outer := ⟨m.level, index, m.flags⟩ :: m.outer, atoms := m.atoms + 1 }

def openNumbered (m : Reader) (named : Bool) : Reader :=
  { m.openGroup (some (m.groups + 1, named)) m.flags with groups := m.groups + 1 }

def bar (m : Reader) : Except Error Reader := do
  let m ← m.check m.level.current
  return { m with level := m.level.bar, atoms := m.atoms + 1 }

def regex (m : Reader) : Except Error (Regex × Reader) := do
  let m ← m.check m.level.current
  let r := m.level.regex
  return (r, ← m.check r)

def close (m : Reader) : Except Error Reader := do
  let (inner, m) ← m.regex
  match m.outer with
  | [] => throw ⟨.strayParen, m.whole⟩
  | w :: outer =>
    let atom := match w.index with
      | some (n, named) => .group n named inner
      | none => inner
    let m ← m.check atom
    return { m with level := w.level, outer, flags := w.flags }.push atom

inductive Count where
  | star
  | plus
  | opt
  | between (least : Nat) (most : Option Nat)
deriving DecidableEq, Repr

def Count.regex (count : Count) (greedy : Bool) (body : Regex) : Regex :=
  match count with
  | .star => .star greedy body
  | .plus => .plus greedy body
  | .opt => .opt greedy body
  | .between least most => .rep least most greedy body

/-- Repeats the last atom.  The operator starts at `before` and ends before `after`, where a
    question mark turns greed round. -/
def repeatLast (m : Reader) (count : Count) (before after : Text) :
    Except Error (Reader × Text) := do
  let marked := after.head? == some 63
  let after := if marked then after.drop 1 else after
  let greedy := m.flags.lazy == marked
  if let some earlier := m.repeated then
    throw ⟨.stackedRepeat, upTo earlier after⟩
  match m.level.atoms with
  | [] => throw ⟨.repeatOfNothing, upTo before after⟩
  | atom :: atoms =>
    let r := count.regex greedy atom
    let m ← m.check r
    let large := match count with
      | .between least most => 2 ≤ least || 2 ≤ most.getD 0
      | _ => false
    if large && !r.countsWithin 1000 then
      throw ⟨.badRepeatCount, upTo before after⟩
    let level := { m.level with atoms := r :: atoms }
    return ({ m with level, repeated := some before, atoms := m.atoms + 1 }, after)

end Reader

/-! ## Counts in braces -/

/-- Reads a number without leading zeros; `none` as its value says that it is too long. -/
def countNumber? (t : Text) : Option (Option Nat × Text) :=
  let digits := t.takeWhile Text.isDigit
  let rest := t.dropWhile Text.isDigit
  match digits with
  | [] => none
  | 48 :: _ :: _ => none
  | digits => some (if digits.length ≤ 9 then Text.toNat? digits else none, rest)

/-- Reads a count in braces: least and most rounds and the text that follows.  A number that is
    too long is none as the least count. -/
def braces? (t : Text) : Option (Option Nat × Option Nat × Text) := do
  let inner ← Text.stripPrefix? "\x7b" t
  let (least, rest) ← countNumber? inner
  match rest with
  | 44 :: 125 :: rest => some (least, none, rest)
  | 44 :: rest => do
    let (most, rest) ← countNumber? rest
    let rest ← Text.stripPrefix? "\x7d" rest
    some (if most.isNone then none else least, most, rest)
  | 125 :: rest => some (least, least, rest)
  | _ => none

/-! ## Groups with flags or a name -/

def isGroupName (name : Text) : Bool := !name.isEmpty && name.all Text.isWord

/-- Reads a name up to the closing angle bracket and opens the group; `skip` bytes come before
    the name. -/
def namedGroup (m : Reader) (whole : Text) (skip : Nat) : Except Error (Reader × Text) := do
  match Text.cut? ">" whole with
  | none => do
    checkUtf8 whole
    throw ⟨.badGroupName, whole⟩
  | some (head, rest) =>
    let name := head.drop skip
    checkUtf8 name
    if !isGroupName name then throw ⟨.badGroupName, head ++ [62]⟩
    let m := m.openNumbered true
    return ({ m with names := (m.groups, name) :: m.names }, rest)

def Flags.set? (f : Flags) (letter : Nat) (on : Bool) : Option Flags :=
  match letter with
  | 105 => some { f with fold := on }
  | 109 => some { f with multiLine := on }
  | 115 => some { f with dotAll := on }
  | 85 => some { f with lazy := on }
  | _ => none

/-- Reads flags up to a colon, which opens a group, or a closing bracket. -/
def flagGroup (whole : Text) :
    (fuel : Nat) → Reader → Flags → (on seen : Bool) → Text → Except Error (Reader × Text)
  | 0, _, _, _, _, t => .error ⟨.badFlags, upTo whole t⟩
  | fuel + 1, m, flags, on, seen, t =>
    if t.isEmpty then .error ⟨.badFlags, upTo whole t⟩
    else do
      let (c, t) ← nextRune t
      match flags.set? c on with
      | some flags => flagGroup whole fuel m flags on true t
      | none =>
        if c = 45 && on then flagGroup whole fuel m flags false false t
        else if (c = 58 || c = 41) && (on || seen) then
          .ok (if c = 58 then m.openGroup none flags else { m with flags }, t)
        else .error ⟨.badFlags, upTo whole t⟩

def specialGroup (m : Reader) (t : Text) : Except Error (Reader × Text) :=
  if Text.startsWith "(?P<" t && 4 < t.length then namedGroup m t 4
  else if Text.startsWith "(?<" t && 3 < t.length then namedGroup m t 3
  else flagGroup t (t.length + 1) m m.flags true false (t.drop 2)

/-! ## The whole text -/

def literals : (fuel : Nat) → Reader → Text → Except Error Reader
  | 0, m, _ => .ok m
  | fuel + 1, m, t =>
    if t.isEmpty then .ok m
    else do
      let (c, rest) ← nextRune t
      literals fuel (m.literal c) rest

def backslash (m : Reader) (t : Text) : Except Error (Reader × Text) := do
  let assertion a := Except.ok (m.push (.assertion a), t.drop 2)
  match t with
  | _ :: 65 :: _ => assertion .beginText
  | _ :: 98 :: _ => assertion .wordBoundary
  | _ :: 66 :: _ => assertion .noWordBoundary
  | _ :: 67 :: _ => throw ⟨.badEscape, t.take 2⟩
  | _ :: 122 :: _ => assertion .endText
  | _ :: 81 :: quoted =>
    let (inner, rest) := (Text.cut? "\\E" quoted).getD (quoted, [])
    return (← literals (inner.length + 1) m inner, rest)
  | _ =>
    if let some (set, rest) ← unicodeClass? m.flags.fold t then return (m.push (.oneOf m.flags.fold set), rest)
    if let some (set, rest) := perlClass? m.flags.fold t then return (m.push (.oneOf m.flags.fold set), rest)
    let (c, rest) ← escape t
    return (m.literal c, rest)

def Reader.step (m : Reader) (b : UInt8) (t : Text) : Except Error (Reader × Text) := do
  let all := b :: t
  let plain := { m with repeated := none }
  match b with
  | 40 =>
    if t.head? == some 63 then specialGroup plain all else return (plain.openNumbered false, t)
  | 124 => return (← plain.bar, t)
  | 41 => return (← plain.close, t)
  | 94 =>
    return (plain.push (.assertion (if m.flags.multiLine then .beginLine else .beginText)), t)
  | 36 => return (plain.push (.assertion (if m.flags.multiLine then .endLine else .endText)), t)
  | 46 => return (plain.push (if m.flags.dotAll then .anyRune else .notNewline), t)
  | 91 =>
    let (set, rest) ← bracket m.flags.fold all
    return (plain.push (.oneOf m.flags.fold set), rest)
  | 42 => m.repeatLast .star all t
  | 43 => m.repeatLast .plus all t
  | 63 => m.repeatLast .opt all t
  | 123 =>
    match braces? all with
    | none => return (plain.literal 123, t)
    | some (none, _, rest) => throw ⟨.badRepeatCount, upTo all rest⟩
    | some (some least, most, rest) =>
      if 1000 < least || most.any fun most => 1000 < most || most < least then
        throw ⟨.badRepeatCount, upTo all rest⟩
      else m.repeatLast (.between least most) all rest
  | 92 => backslash plain all
  | _ =>
    let (c, rest) ← nextRune all
    return (plain.literal c, rest)

def Reader.run : (fuel : Nat) → Reader → Text → Except Error Reader
  | 0, m, _ => .ok m
  | _ + 1, m, [] => .ok m
  | fuel + 1, m, b :: t => do
    let (m, rest) ← m.step b t
    m.run fuel rest

structure Parsed where
  regex : Regex
  names : List (Nat × Text)
deriving Repr

def parse (t : Text) : Except Error Parsed := do
  let m ← Reader.run (t.length + 1) { whole := t } t
  let (regex, m) ← m.regex
  if !m.outer.isEmpty then throw ⟨.openParen, t⟩
  return ⟨regex, m.names.reverse⟩

end JavaToCpp.Pattern
