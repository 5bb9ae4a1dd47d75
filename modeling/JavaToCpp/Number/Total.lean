/-
  Sums of lists of natural numbers.
-/

namespace JavaToCpp

def total : List Nat → Nat
  | [] => 0
  | n :: ns => n + total ns

end JavaToCpp
