/-
  Patterns as programs.

  A program is a row of instructions.  Instructions follow one another except for forks, which
  go on at two places and prefer the first, and jumps.  `Core.emit` writes the instructions of a
  pattern at the end of a row; `Core.span` is how many these are, so that a fork knows where the
  pattern ends.

  A repetition whose body can be passed without taking a character is entered by a fork of its
  own, apart from the one after each round; so a first round that takes nothing is not the same
  as no round.
-/
import JavaToCpp.Pattern.Core

namespace JavaToCpp.Pattern

inductive Instruction where
  | take (set : RuneSet)
  | require (a : Assertion)
  | enter (group : Nat)
  /-- goes on at two places, preferably at the first -/
  | fork (first second : Nat)
  | jump (target : Nat)
  | accept
deriving DecidableEq, Repr

abbrev Program := Array Instruction

namespace Core

mutual

def span : Core → Nat
  | take _ | require _ | enter _ => 1
  | concat rs => totalSpan 0 rs
  | alternate [] => 1
  | alternate rs => totalSpan (2 * (rs.length - 1)) rs
  | star _ r => r.span + 2
  | plus _ r | opt _ r => r.span + 1

def totalSpan : (n : Nat) → List Core → Nat
  | n, [] => n
  | n, r :: rs => totalSpan (n + r.span) rs

end

def forkOf (greedy : Bool) (round after : Nat) : Instruction :=
  if greedy then .fork round after else .fork after round

mutual

def emit : Core → Program → Program
  | take set, p => p.push (.take set)
  | require a, p => p.push (.require a)
  | enter n, p => p.push (.enter n)
  | concat rs, p => emitAll rs p
  | alternate rs, p => emitChoices (p.size + totalSpan (2 * (rs.length - 1)) rs) rs p
  | star greedy r, p =>
    let start := p.size
    let after := start + r.span + 2
    let p := r.emit (p.push (forkOf greedy (start + 1) after))
    p.push (if r.nullable then forkOf greedy (start + 1) after else .jump start)
  | plus greedy r, p =>
    let start := p.size
    (r.emit p).push (forkOf greedy start (start + r.span + 1))
  | opt greedy r, p =>
    let start := p.size
    r.emit (p.push (forkOf greedy (start + 1) (start + r.span + 1)))

def emitAll : List Core → Program → Program
  | [], p => p
  | r :: rs, p => emitAll rs (r.emit p)

/-- Writes the instructions of alternatives; those of the last one end before `after`.  Without
    alternatives nothing can be taken. -/
def emitChoices : (after : Nat) → List Core → Program → Program
  | _, [], p => p.push (.take [])
  | _, [r], p => r.emit p
  | after, r :: rs, p =>
    let start := p.size
    let p := r.emit (p.push (.fork (start + 1) (start + r.span + 2)))
    emitChoices after rs (p.push (.jump after))

end

end Core

def Regex.program (r : Regex) : Program := (r.core.emit #[]).push .accept

end JavaToCpp.Pattern
