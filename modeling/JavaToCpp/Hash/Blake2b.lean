/-
  The BLAKE2b digest of 256 bits, without a key.

  The text is cut into blocks of 128 bytes, the last one filled up with zeros.  Each block is
  mixed into eight words of state together with the number of bytes so far.
-/
import JavaToCpp.Text.Basic

namespace JavaToCpp.Hash.Blake2b

def start : Vector UInt64 8 :=
  #v[0x6a09e667f3bcc908, 0xbb67ae8584caa73b, 0x3c6ef372fe94f82b, 0xa54ff53a5f1d36f1,
    0x510e527fade682d1, 0x9b05688c2b3e6c1f, 0x1f83d9abfb41bd6b, 0x5be0cd19137e2179]

/-- The order in which each round takes the words of the block. -/
def schedule : List (Vector (Fin 16) 16) := [
  #v[0, 1, 2, 3, 4, 5, 6, 7, 8, 9, 10, 11, 12, 13, 14, 15],
  #v[14, 10, 4, 8, 9, 15, 13, 6, 1, 12, 0, 2, 11, 7, 5, 3],
  #v[11, 8, 12, 0, 5, 2, 15, 13, 10, 14, 3, 6, 7, 1, 9, 4],
  #v[7, 9, 3, 1, 13, 12, 11, 14, 2, 6, 5, 10, 4, 0, 15, 8],
  #v[9, 0, 5, 7, 2, 4, 10, 15, 14, 1, 11, 12, 6, 8, 3, 13],
  #v[2, 12, 6, 10, 0, 11, 8, 3, 4, 13, 7, 5, 15, 14, 1, 9],
  #v[12, 5, 1, 15, 14, 13, 4, 10, 0, 7, 6, 3, 9, 2, 8, 11],
  #v[13, 11, 7, 14, 12, 1, 3, 9, 5, 0, 15, 4, 8, 6, 2, 10],
  #v[6, 15, 14, 9, 11, 3, 0, 8, 12, 2, 13, 7, 1, 4, 10, 5],
  #v[10, 2, 8, 4, 7, 6, 1, 5, 15, 11, 9, 14, 3, 12, 13, 0],
  #v[0, 1, 2, 3, 4, 5, 6, 7, 8, 9, 10, 11, 12, 13, 14, 15],
  #v[14, 10, 4, 8, 9, 15, 13, 6, 1, 12, 0, 2, 11, 7, 5, 3]]

def turn (x : UInt64) (n : UInt64) : UInt64 := (x >>> n) ||| (x <<< (64 - n))

def mix (v : Vector UInt64 16) (a b c d : Fin 16) (x y : UInt64) : Vector UInt64 16 :=
  let va := v[a] + v[b] + x
  let vd := turn (v[d] ^^^ va) 32
  let vc := v[c] + vd
  let vb := turn (v[b] ^^^ vc) 24
  let va := va + vb + y
  let vd := turn (vd ^^^ va) 16
  let vc := vc + vd
  let vb := turn (vb ^^^ vc) 63
  (((v.set a va).set b vb).set c vc).set d vd

def round (m : Vector UInt64 16) (v : Vector UInt64 16) (s : Vector (Fin 16) 16) :
    Vector UInt64 16 :=
  let v := mix v 0 4 8 12 m[s[0]] m[s[1]]
  let v := mix v 1 5 9 13 m[s[2]] m[s[3]]
  let v := mix v 2 6 10 14 m[s[4]] m[s[5]]
  let v := mix v 3 7 11 15 m[s[6]] m[s[7]]
  let v := mix v 0 5 10 15 m[s[8]] m[s[9]]
  let v := mix v 1 6 11 12 m[s[10]] m[s[11]]
  let v := mix v 2 7 8 13 m[s[12]] m[s[13]]
  mix v 3 4 9 14 m[s[14]] m[s[15]]

/-- The word of eight bytes, the first one lowest. -/
def word (bytes : Text) : UInt64 := bytes.reverse.foldl (fun w b => (w <<< 8) ||| b.toUInt64) 0

def words (block : Text) : Vector UInt64 16 :=
  Vector.ofFn fun i => word ((block.drop (8 * i.val)).take 8)

/-- Mixes a block into the state; `count` is the number of bytes up to its end. -/
def compress (h : Vector UInt64 8) (block : Text) (count : Nat) (last : Bool) : Vector UInt64 8 :=
  let tail : Vector UInt64 8 :=
    #v[start[0], start[1], start[2], start[3], start[4] ^^^ UInt64.ofNat count,
      start[5] ^^^ UInt64.ofNat (count / 18446744073709551616), if last then ~~~start[6] else start[6], start[7]]
  let v := schedule.foldl (round (words block)) (h ++ tail)
  Vector.ofFn fun i => h[i] ^^^ v[i.val] ^^^ v[i.val + 8]

/-- Mixes the rest of a text into the state, after `count` bytes. -/
def absorb (h : Vector UInt64 8) : (fuel count : Nat) → Text → Vector UInt64 8
  | 0, _, _ => h
  | fuel + 1, count, t =>
    if t.length ≤ 128 then
      compress h (t ++ List.replicate (128 - t.length) 0) (count + t.length) true
    else absorb (compress h (t.take 128) (count + 128) false) fuel (count + 128) (t.drop 128)

/-- The bytes of a word, the lowest one first. -/
def bytes (w : UInt64) : Text := (List.range 8).map fun i => (w >>> UInt64.ofNat (8 * i)).toUInt8

def digest (t : Text) : Text :=
  let h := absorb (start.set 0 (start[0] ^^^ 0x01010020)) (t.length / 128 + 1) 0 t
  (h.toList.take 4).flatMap bytes

end JavaToCpp.Hash.Blake2b
