/-
  What identifies a run.

  The outcome of a run depends on the grammar, on whether the check is part of it, and on the
  source.  The digest of a run is a hash of the three.
-/
import JavaToCpp.Hash.Blake2b

namespace JavaToCpp.Service

/-- The bytes that stand for a run: the text of the grammar, a zero, whether the source is
    checked, the source. -/
def identity (grammar source : Text) (checked : Bool) : Text :=
  grammar ++ [0] ++ [if checked then 1 else 0] ++ source

def digest (grammar source : Text) (checked : Bool) : Text :=
  Text.hex (Hash.Blake2b.digest (identity grammar source checked))

end JavaToCpp.Service
