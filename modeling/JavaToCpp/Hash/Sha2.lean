/-
  The digests SHA-256, SHA-384 and SHA-512, and the codes of messages under a key that are built on
  them.  Their constants are binary digits of the roots of prime numbers.
-/
import JavaToCpp.Hash.Keyed

namespace JavaToCpp.Hash

/-- The prime numbers below 410, of which there are 80. -/
def primes : List Nat :=
  (List.range 410).filter fun p => 2 ≤ p && (List.range p).all fun d => d < 2 || p % d != 0

/-- The greatest number from `r` on whose `n`th power is not above `x`, with `bits` binary digits to
    be found. -/
def rootFrom (n x r : Nat) : (bits : Nat) → Nat
  | 0 => r
  | k + 1 => rootFrom n x (if Nat.pow (r + Nat.pow 2 k) n ≤ x then r + Nat.pow 2 k else r) k

/-- The first 64 binary digits behind the point of the `n`th root of a small number. -/
def rootDigits (n p : Nat) : BitVec 64 := BitVec.ofNat 64 (rootFrom n (p * Nat.pow 2 (64 * n)) 0 69)

def squareRoots : List (BitVec 64) := primes.map (rootDigits 2)

def cubeRoots : List (BitVec 64) := primes.map (rootDigits 3)

/-- What tells the digests apart. -/
structure Sha2 where
  /-- the bytes of a word -/
  size : Nat
  rounds : Nat
  /-- the bytes of the digest -/
  length : Nat
  /-- the number of the first prime that the state starts with -/
  firstPrime : Nat
  scheduleTurns : (Nat × Nat × Nat) × (Nat × Nat × Nat)
  roundTurns : (Nat × Nat × Nat) × (Nat × Nat × Nat)

namespace Sha2

def sha256 : Sha2 := ⟨4, 64, 32, 0, ((7, 18, 3), (17, 19, 10)), ((2, 13, 22), (6, 11, 25))⟩

def sha512 : Sha2 := ⟨8, 80, 64, 0, ((1, 8, 7), (19, 61, 6)), ((28, 34, 39), (14, 18, 41))⟩

def sha384 : Sha2 := { sha512 with length := 48, firstPrime := 8 }

abbrev Word (k : Sha2) := BitVec (8 * k.size)

variable {k : Sha2}

/-- A word with the first digits of a root. -/
def leading (x : BitVec 64) : k.Word := (x >>> (64 - 8 * k.size)).setWidth _

def start (k : Sha2) : List k.Word := ((squareRoots.drop k.firstPrime).take 8).map leading

def roundWords (k : Sha2) : List k.Word := (cubeRoots.take k.rounds).map leading

/-- The word of some bytes, the first one highest. -/
def word (bytes : Text) : k.Word := BitVec.ofNat _ (bytes.foldl (fun n b => 256 * n + b.toNat) 0)

def shiftedSum (x : k.Word) (turns : Nat × Nat × Nat) : k.Word :=
  x.rotateRight turns.1 ^^^ x.rotateRight turns.2.1 ^^^ (x >>> turns.2.2)

def turnedSum (x : k.Word) (turns : Nat × Nat × Nat) : k.Word :=
  x.rotateRight turns.1 ^^^ x.rotateRight turns.2.1 ^^^ x.rotateRight turns.2.2

/-- The next word of the schedule after the sixteen latest ones, the latest first. -/
def nextWord (w : List k.Word) : k.Word :=
  w.getD 15 0 + shiftedSum (w.getD 14 0) k.scheduleTurns.1 + w.getD 6 0
    + shiftedSum (w.getD 1 0) k.scheduleTurns.2

/-- The words of the schedule, the latest first. -/
def extend : (n : Nat) → List k.Word → List k.Word
  | 0, w => w
  | n + 1, w => extend n (nextWord w :: w)

def schedule (block : Text) : List k.Word :=
  let first := (List.range 16).map fun i => word ((block.drop (k.size * i)).take k.size)
  (extend (k.rounds - 16) first.reverse).reverse

/-- A round over the eight words of the state. -/
def round : List k.Word → k.Word × k.Word → List k.Word
  | [a, b, c, d, e, f, g, h], (w, constant) =>
    let choice := (e &&& f) ^^^ (~~~e &&& g)
    let t := h + turnedSum e k.roundTurns.2 + choice + constant + w
    let majority := (a &&& b) ^^^ (a &&& c) ^^^ (b &&& c)
    [t + turnedSum a k.roundTurns.1 + majority, a, b, c, d + t, e, f, g]
  | s, _ => s

def compress (s : List k.Word) (block : Text) : List k.Word :=
  s.zipWith (· + ·) (((schedule block).zip k.roundWords).foldl round s)

def absorb (s : List k.Word) : (blocks : Nat) → Text → List k.Word
  | 0, _ => s
  | n + 1, t => absorb (compress s (t.take (16 * k.size))) n (t.drop (16 * k.size))

def digest (k : Sha2) (t : Text) : Text :=
  let p := padded (16 * k.size) (2 * k.size) t
  let s := absorb k.start (p.length / (16 * k.size)) p
  (s.flatMap fun w => bigEndian k.size w.toNat).take k.length

def keyed (k : Sha2) (key message : Text) : Text := Hash.keyed k.digest (16 * k.size) key message

end Sha2

end JavaToCpp.Hash
