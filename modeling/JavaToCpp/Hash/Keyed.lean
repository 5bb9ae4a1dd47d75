/-
  Codes of messages under a key, built on a digest.

  The key is made as long as a block of the digest.  The code is the digest of the key, turned in
  one way, and the digest of the key, turned in another way, and the message.
-/
import JavaToCpp.Text.Basic

namespace JavaToCpp.Hash

/-- The last `n` bytes of a number, the highest one first. -/
def bigEndian : (n value : Nat) → Text
  | 0, _ => []
  | n + 1, value => bigEndian n (value / 256) ++ [UInt8.ofNat value]

/-- The text with a one bit, zeros and its length in bits as a number of `lengthBytes` bytes, up to
    a multiple of `block` bytes. -/
def padded (block lengthBytes : Nat) (t : Text) : Text :=
  let zeros := (block - (t.length + 1 + lengthBytes) % block) % block
  t ++ 0x80 :: List.replicate zeros 0 ++ bigEndian lengthBytes (8 * t.length)

/-- The key as a block; a longer key stands for its digest. -/
def keyBlock (digest : Text → Text) (block : Nat) (key : Text) : Text :=
  let key := if block < key.length then digest key else key
  key ++ List.replicate (block - key.length) 0

def keyed (digest : Text → Text) (block : Nat) (key message : Text) : Text :=
  let key := keyBlock digest block key
  let inner := digest (key.map (· ^^^ 0x36) ++ message)
  digest (key.map (· ^^^ 0x5c) ++ inner)

end JavaToCpp.Hash
