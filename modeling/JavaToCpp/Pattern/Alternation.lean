/-
  Patterns put together.

  `Regex.inOrder` puts atoms one after the other and `Regex.choice` makes one pattern of several
  alternatives.  Both flatten what they get, so that no concatenation stands directly in a
  concatenation and no choice in a choice.

  A choice is made small in four rounds, none of which changes what is matched or which
  alternative is preferred.
-/
import JavaToCpp.Pattern.Basic
import JavaToCpp.Text.CaseFold

namespace JavaToCpp.Pattern.Regex

/-! ## Single characters -/

def runeSet (fold : Bool) (rune : Nat) : RuneSet :=
  if fold then (Text.alike rune).map fun c => (c, c) else [(rune, rune)]

/-- The characters of a pattern that always takes exactly one, with the rank of its kind. -/
def characters? : Regex → Option (Nat × RuneSet)
  | literal fold [rune] => some (0, runeSet fold rune)
  | oneOf _ set => some (1, set)
  | notNewline => some (2, RuneSet.complement [(10, 10)])
  | anyRune => some (3, RuneSet.full)
  | _ => none

def isCharacter (r : Regex) : Bool := r.characters?.isSome

/-- The pattern with a class in normal form and by its name, if it has one. -/
def clean : Regex → Regex
  | oneOf fold set =>
    let set := set.normalise
    if set == RuneSet.full then anyRune
    else if set == RuneSet.complement [(10, 10)] then notNewline
    else oneOf fold set
  | r => r

/-- The pattern with a class of one character, or of the two cases of one, as a literal. -/
def tidy : Regex → Regex
  | oneOf fold [(a, b)] =>
    if a == b then literal false [a]
    else if a + 1 == b && Text.isCasePair a b then literal true [a]
    else oneOf fold [(a, b)]
  | oneOf fold [(a, b), (c, d)] =>
    if a == b && c == d && Text.isCasePair a c then literal true [a]
    else oneOf fold [(a, b), (c, d)]
  | r => r

def folds : Regex → Bool
  | literal fold _ | oneOf fold _ => fold
  | _ => false

/-- Adds the characters of `r` to those of a pattern of the same or a higher rank. -/
def widen (widest r : Regex) : Regex :=
  match widest, r with
  | anyRune, _ => anyRune
  | notNewline, r => if r.characters?.any fun (_, set) => set.mem 10 then anyRune else notNewline
  | literal fold [a], literal fold' [b] =>
    if a == b && fold == fold' then literal fold [a]
    else oneOf fold (runeSet fold a ++ runeSet fold' b)
  | oneOf fold set, r => oneOf fold (set ++ (r.characters?.map Prod.snd).getD [])
  | widest, _ => widest

/-- The rank of a single-character pattern, and how many ranges it has. -/
def complexity (r : Regex) : Nat × Nat :=
  match r.characters? with
  | some (rank, set) => (rank, if rank == 1 then set.length else 0)
  | none => (0, 0)

def lessComplex (a b : Nat × Nat) : Bool := a.1 < b.1 || (a.1 == b.1 && a.2 < b.2)

/-- The first of the most complex patterns of a list, and the others with the head in its
    place. -/
def mostComplex (r : Regex) : List Regex → Regex × List Regex
  | [] => (r, [])
  | s :: rest =>
    if lessComplex r.complexity s.complexity then
      let (widest, others) := mostComplex s rest
      (widest, r :: others)
    else
      let (widest, others) := mostComplex r rest
      (widest, s :: others)

/-- One pattern for the characters of all single-character patterns of a list. -/
def oneCharacter (r : Regex) (rest : List Regex) : Regex :=
  match rest with
  | [] => r
  | rest =>
    let (widest, others) := mostComplex r rest
    (others.foldl widen widest).clean

/-! ## Concatenation -/

def parts : Regex → List Regex
  | concat rs => rs
  | r => [r]

/-- Puts an atom in front of others, as one literal with the first of them if both are
    literals. -/
def joinLiteral (rest : List Regex) (r : Regex) : List Regex :=
  match r, rest with
  | literal fold runes, literal fold' more :: rest =>
    if fold == fold' then literal fold (runes ++ more) :: rest
    else literal fold runes :: literal fold' more :: rest
  | r, rest => r :: rest

def inOrder (atoms : List Regex) : Regex :=
  match atoms.foldl joinLiteral [] with
  | [] => empty
  | [r] => r
  | rs => concat (rs.flatMap parts)

def ofParts : List Regex → Regex
  | [] => empty
  | [r] => r
  | rs => concat rs

/-! ## Choice -/

def choices : Regex → List Regex
  | alternate rs => rs
  | r => [r]

def leadingText (r : Regex) : Bool × List Nat :=
  match r.parts.head? with
  | some (literal fold runes) => (fold, runes)
  | _ => (false, [])

/-- What is left of a pattern without the first `n` characters of its leading text. -/
def dropText (n : Nat) (r : Regex) : Regex :=
  match r.parts with
  | literal fold runes :: rest =>
    match runes.drop n with
    | [] => ofParts rest
    | runes => ofParts (literal fold runes :: rest)
  | _ => r

def commonStart : List Nat → List Nat → List Nat
  | a :: s, b :: t => if a == b then a :: commonStart s t else []
  | _, _ => []

/-- Alternatives that start with the same text, the latest first. -/
structure TextRun where
  fold : Bool
  text : List Nat
  members : List Regex

def TextRun.add (runs : List TextRun) (r : Regex) : List TextRun :=
  let (fold, text) := r.leadingText
  match runs with
  | [] => [⟨fold, text, [r]⟩]
  | run :: earlier =>
    let shared := commonStart run.text text
    if run.fold == fold && !shared.isEmpty then
      { run with text := shared, members := r :: run.members } :: earlier
    else ⟨fold, text, [r]⟩ :: runs

/-- One alternative for those of a run; `choose` makes one of what they start with in common
    leaves of them. -/
def TextRun.factor (choose : List Regex → Regex) (run : TextRun) : Regex :=
  match run.members with
  | [r] => r
  | members =>
    concat [literal run.fold run.text, choose (members.reverse.map (dropText run.text.length))]

def leadingPart? (r : Regex) : Option Regex :=
  match r.parts.head? with
  | some empty | none => none
  | some r => some r

def dropPart (r : Regex) : Regex := ofParts (r.parts.drop 1)

def sameCharacter (r s : Regex) : Bool :=
  match r, s with
  | literal fold [a], literal fold' [b] => fold == fold' && a == b
  | oneOf fold set, oneOf fold' set' => fold == fold' && set == set'
  | notNewline, notNewline | anyRune, anyRune => true
  | _, _ => false

/-- Whether two patterns are the same class, or the same number of characters of the same
    class. -/
def sameLead (r s : Regex) : Bool :=
  match r, s with
  | rep least most greedy body, rep least' most' greedy' body' =>
    most == some least && least == least' && most == most' && greedy == greedy'
      && sameCharacter body body'
  | r, s => sameCharacter r s

/-- Alternatives that start with the same class, the latest first. -/
structure PartRun where
  first : Option Regex
  members : List Regex

def PartRun.add (runs : List PartRun) (r : Regex) : List PartRun :=
  let first := r.leadingPart?
  match runs with
  | [] => [⟨first, [r]⟩]
  | run :: earlier =>
    match run.first, first with
    | some a, some b =>
      if sameLead a b then { run with members := r :: run.members } :: earlier
      else ⟨first, [r]⟩ :: runs
    | _, _ => ⟨first, [r]⟩ :: runs

def PartRun.factor (choose : List Regex → Regex) (run : PartRun) : Regex :=
  match run.members, run.first with
  | [r], _ => r
  | members, some first => concat [first, choose (members.reverse.map dropPart)]
  | members, none => choose members.reverse

/-- Puts an alternative in front of others, as one with the first of them if both are single
    characters; `run` are the single characters at hand, the latest first. -/
def joinCharacters : (run : List Regex) → List Regex → List Regex
  | run, [] => flush run []
  | run, r :: rest =>
    if r.isCharacter then joinCharacters (r :: run) rest
    else flush run (r :: joinCharacters [] rest)
where
  /-- One pattern for the characters at hand, in front of the others. -/
  flush (run rest : List Regex) : List Regex :=
    match run.reverse with
    | [] => rest
    | r :: others => oneCharacter r others :: rest

def joinEmpty : List Regex → List Regex
  | empty :: empty :: rest => joinEmpty (empty :: rest)
  | r :: rest => r :: joinEmpty rest
  | [] => []

/-- The choice between alternatives.  Every nested choice starts further inside of its
    alternatives, so their size is enough fuel. -/
def choiceWith : (fuel : Nat) → List Regex → Regex
  | _, [r] => r
  | 0, rs => alternate rs
  | fuel + 1, rs =>
    let rs := rs.flatMap choices
    let rs := (rs.foldl TextRun.add []).reverse.map (TextRun.factor (choiceWith fuel))
    let rs := (rs.foldl PartRun.add []).reverse.map (PartRun.factor (choiceWith fuel))
    match joinEmpty (joinCharacters [] rs) with
    | [r] => r
    | rs => alternate rs

def choice (rs : List Regex) : Regex := choiceWith (totalSize 1 rs) rs

end JavaToCpp.Pattern.Regex
