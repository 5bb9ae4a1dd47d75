/-
  Patterns reduced to steps.

  `Regex.core` writes a pattern out: characters become steps that take one character, counted
  repetitions become copies, and groups without a name leave no trace but their brackets.  A
  repetition of nothing is nothing, and an operator applied twice is applied once.
-/
import JavaToCpp.Pattern.Alternation

namespace JavaToCpp.Pattern

inductive Core where
  | take (set : RuneSet)
  | require (a : Assertion)
  | enter (group : Nat)
  | concat (parts : List Core)
  | alternate (choices : List Core)
  | star (greedy : Bool) (body : Core)
  | plus (greedy : Bool) (body : Core)
  | opt (greedy : Bool) (body : Core)
deriving Repr

namespace Core

def empty : Core := concat []

def starOf (greedy : Bool) : Core → Core
  | concat [] => empty
  | star g r => if g == greedy then star g r else star greedy (star g r)
  | r => star greedy r

def plusOf (greedy : Bool) : Core → Core
  | concat [] => empty
  | plus g r => if g == greedy then plus g r else plus greedy (plus g r)
  | r => plus greedy r

def optOf (greedy : Bool) : Core → Core
  | concat [] => empty
  | opt g r => if g == greedy then opt g r else opt greedy (opt g r)
  | r => opt greedy r

/-- At most `n + 1` rounds, each inside of the one before. -/
def upTo (greedy : Bool) (r : Core) : (n : Nat) → Core
  | 0 => optOf greedy r
  | n + 1 => optOf greedy (concat [r, upTo greedy r n])

def between (least : Nat) (most : Option Nat) (greedy : Bool) (r : Core) : Core :=
  match least, most with
  | 0, none => starOf greedy r
  | 1, none => plusOf greedy r
  | n + 1, none => concat (List.replicate n r ++ [plusOf greedy r])
  | 1, some 1 => r
  | least, some most =>
    match least, most - least with
    | 0, 0 => empty
    | 0, n + 1 => upTo greedy r n
    | least, 0 => concat (List.replicate least r)
    | least, n + 1 => concat (List.replicate least r ++ [upTo greedy r n])

mutual

/-- Whether the pattern can be passed without taking a character. -/
def nullable : Core → Bool
  | take _ => false
  | require _ | enter _ | star _ _ | opt _ _ => true
  | plus _ r => r.nullable
  | concat rs => allNullable rs
  | alternate rs => anyNullable rs

def allNullable : List Core → Bool
  | [] => true
  | r :: rs => r.nullable && allNullable rs

def anyNullable : List Core → Bool
  | [] => false
  | r :: rs => r.nullable || anyNullable rs

end

end Core

namespace Regex

mutual

def core : Regex → Core
  | empty => Core.empty
  | literal fold runes => .concat (runes.map fun rune => .take (runeSet fold rune))
  | oneOf _ set => .take set
  | notNewline => .take (RuneSet.complement [(10, 10)])
  | anyRune => .take RuneSet.full
  | assertion a => .require a
  | group index named r => .concat (if named then [.enter index, r.core] else [r.core])
  | star greedy r => .starOf greedy r.core
  | plus greedy r => .plusOf greedy r.core
  | opt greedy r => .optOf greedy r.core
  | rep least most greedy r => .between least most greedy r.core
  | concat rs => .concat (cores [] rs)
  | alternate rs => .alternate (cores [] rs)

/-- The steps of the patterns of a list, after those of `done`, the latest of which is first. -/
def cores : (done : List Core) → List Regex → List Core
  | done, [] => done.reverse
  | done, r :: rs => cores (r.core :: done) rs

end

end Regex

end JavaToCpp.Pattern
