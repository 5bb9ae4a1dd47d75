/-
  Values that expire.

  A cache keeps a value for each key for a span of time, forever if the span is not positive.
  Time is an argument.  An expired value is not found, and stays counted until a cleanup.
-/
import JavaToCpp.Time.Timestamp

namespace JavaToCpp

/-- A value with the time from which on it is expired. -/
structure Cache.Entry (α : Type) where
  value : α
  /-- the point that stands for no time if the value never expires -/
  expires : Timestamp
deriving Repr

structure Cache (α : Type) where
  /-- how long values last, in nanoseconds -/
  span : Int
  entries : List (Text × Cache.Entry α) := []
deriving Repr

namespace Cache

variable {α : Type}

def Entry.expired (e : Entry α) (now : Timestamp) : Bool :=
  e.expires != Timestamp.zero && e.expires ≤ now

def delete (c : Cache α) (key : Text) : Cache α :=
  { c with entries := c.entries.filter fun e => e.1 != key }

def set (c : Cache α) (now : Timestamp) (key : Text) (value : α) : Cache α :=
  let expires := if 0 < c.span then now + c.span else Timestamp.zero
  { c with entries := (key, ⟨value, expires⟩) :: (c.delete key).entries }

def get? (c : Cache α) (now : Timestamp) (key : Text) : Option α :=
  ((c.entries.find? fun e => e.1 == key).filter fun e => !e.2.expired now).map fun e => e.2.value

/-- The number of values, expired ones included. -/
def size (c : Cache α) : Nat := c.entries.length

def cleanup (c : Cache α) (now : Timestamp) : Cache α :=
  { c with entries := c.entries.filter fun e => !e.2.expired now }

end Cache

end JavaToCpp
