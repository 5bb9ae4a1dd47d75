/-
  Integers in 64 bits.
-/

namespace JavaToCpp

/-- An integer as a word of 64 bits with a sign: beyond the greatest one it starts again from the
    least. -/
def toWord (n : Int) : Int := (n + 9223372036854775808) % 18446744073709551616 - 9223372036854775808

end JavaToCpp
