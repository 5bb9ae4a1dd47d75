/-
  Records in memory.

  A memory keeps the latest records up to a bound; a bound that is not positive is none.
-/
import JavaToCpp.Record.Basic

namespace JavaToCpp.Record

structure Memory where
  records : List Record := []
  bound : Int := 0
deriving Repr, Inhabited

namespace Memory

/-- Drops the oldest records beyond the bound. -/
def trim (bound : Int) (records : List Record) : List Record :=
  if 0 < bound then records.drop (records.length - bound.toNat) else records

def create (m : Memory) (r : Record) : Memory :=
  { m with records := trim m.bound (m.records ++ [r]) }

def find? (m : Memory) (id : Uuid) : Option Record := m.records.find? fun r => r.id == id

/-- A page of the records asked for and how many there are; none for an offset below zero. -/
def query? (m : Memory) (q : Query) : Option (List Record × Nat) :=
  if q.offset < 0 then none else some (q.page q.offset.toNat m.records)

end Memory

end JavaToCpp.Record
