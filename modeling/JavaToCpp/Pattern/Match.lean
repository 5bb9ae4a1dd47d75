/-
  The match of a program at the beginning of a text.

  All ways through a program are followed at once, a character at a time.  The ways are ordered
  by preference, and at each place in the text every instruction is come to once, by the most
  preferred way to it (`follow`).  A way that ends a match puts an end to the less preferred ones;
  the match is that of the most preferred way that ends one.
-/
import JavaToCpp.Pattern.Program

namespace JavaToCpp.Pattern

structure Place where
  /-- the byte before the place, none at the beginning -/
  before : Option UInt8
  /-- how many bytes come before the place -/
  taken : Nat
  rest : Text
deriving DecidableEq, Repr

def wordAt (b : Option UInt8) : Bool := b.any Text.isWord

def Assertion.holds (a : Assertion) (place : Place) : Bool :=
  match a with
  | .beginText => place.taken == 0
  | .endText => place.rest.isEmpty
  | .beginLine => place.before.all (· == Text.newline)
  | .endLine => place.rest.head?.all (· == Text.newline)
  | .wordBoundary => wordAt place.before != wordAt place.rest.head?
  | .noWordBoundary => wordAt place.before == wordAt place.rest.head?

/-- A way through a program: where it has come to and which groups it has entered, the latest
    first. -/
structure Thread where
  place : Nat
  entered : List Nat
deriving DecidableEq, Repr

/-- The match of a program: how many bytes it takes and which groups it enters. -/
structure Match where
  taken : Nat
  entered : List Nat
deriving DecidableEq, Repr

structure Front where
  /-- the ways that wait for a character, the most preferred last -/
  waiting : List Thread
  /-- the groups of a way that ends the match, which all others are preferred to -/
  ended : Option (List Nat)
  /-- one more than the place in the text at which each instruction was come to last, 0 for none -/
  met : Array Nat
deriving DecidableEq, Repr

namespace Program

/-- Follows the ways of a list, the most preferred first, until each waits for a character or ends
    the match.  `met` tells where the instructions were come to before. -/
def follow (p : Program) (place : Place) :
    (fuel : Nat) → List Thread → (met : Array Nat) → (waiting : List Thread) → Front
  | 0, _, met, waiting => ⟨waiting, none, met⟩
  | _ + 1, [], met, waiting => ⟨waiting, none, met⟩
  | fuel + 1, t :: ts, met, waiting =>
    if met.getD t.place 0 = place.taken + 1 then p.follow place fuel ts met waiting
    else
      let met := met.setIfInBounds t.place (place.taken + 1)
      match p[t.place]? with
      | none => p.follow place fuel ts met waiting
      | some (.take _) => p.follow place fuel ts met (t :: waiting)
      | some (.require a) =>
        let ts := if a.holds place then { t with place := t.place + 1 } :: ts else ts
        p.follow place fuel ts met waiting
      | some (.enter n) => p.follow place fuel (⟨t.place + 1, n :: t.entered⟩ :: ts) met waiting
      | some (.fork first second) =>
        p.follow place fuel ({ t with place := first } :: { t with place := second } :: ts) met waiting
      | some (.jump target) => p.follow place fuel ({ t with place := target } :: ts) met waiting
      | some .accept => ⟨waiting, some t.entered, met⟩

/-- What ways come to at a place.  Every instruction is come to once and adds two ways at most,
    which bounds the number of steps. -/
def front (p : Program) (place : Place) (met : Array Nat) (ts : List Thread) : Front :=
  p.follow place (ts.length + 2 * p.size + 1) ts met []

/-- The ways that take the character `rune`, in front of `ts`. -/
def advance (p : Program) (rune : Nat) (ts : List Thread) (t : Thread) : List Thread :=
  match p[t.place]? with
  | some (.take set) => if set.mem rune then { t with place := t.place + 1 } :: ts else ts
  | _ => ts

/-- The match that ends at a place, or else the one found before. -/
def better (taken : Nat) (ended : Option (List Nat)) (best : Option Match) : Option Match :=
  (ended.map fun entered => ⟨taken, entered⟩).or best

/-- Follows ways from a place to the end of the text.  `skip` bytes of the text belong to a
    character already taken, and `best` is the match found so far. -/
def search (p : Program) : Text → (skip : Nat) → (before : Option UInt8) → (taken : Nat) →
    (met : Array Nat) → List Thread → (best : Option Match) → Option Match
  | b :: t, skip + 1, _, taken, met, ts, best => p.search t skip (some b) (taken + 1) met ts best
  | [], _, before, taken, met, ts, best =>
    better taken (p.front ⟨before, taken, []⟩ met ts).ended best
  | b :: t, 0, before, taken, met, ts, best =>
    match p.front ⟨before, taken, b :: t⟩ met ts with
    | ⟨waiting, ended, met⟩ =>
      let best := better taken ended best
      let (rune, more) := Text.decodeHead b t
      match waiting.foldl (p.advance rune) [] with
      | [] => best
      | ts => p.search t more (some b) (taken + 1) met ts best

def match? (p : Program) (t : Text) : Option Match :=
  p.search t 0 none 0 (Array.replicate p.size 0) [⟨0, []⟩] none

end Program

end JavaToCpp.Pattern
