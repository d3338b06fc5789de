import Remem.Base.ByteString
import Remem.Base.Chunks

/-!
# Base 32

RFC 4648 base 32 in lower case, without padding: five bits a character, the last character
filled up with zeros.
-/

namespace Remem.Base

def bitsOf (width number : Nat) : List Bool :=
  (List.range width).reverse.map number.testBit

def ofBits (bits : List Bool) : Nat := bits.foldl (fun number bit => 2 * number + bit.toNat) 0

def base32Alphabet : Bytes := ascii "abcdefghijklmnopqrstuvwxyz234567"

def base32Character (group : List Bool) : UInt8 :=
  base32Alphabet.getD (ofBits (group.rightpad 5 false)) 0

/-- `EncodeToString`. -/
def base32Encode (bytes : Bytes) : Bytes :=
  (chunks 5 (bytes.flatMap fun byte => bitsOf 8 byte.toNat)).map base32Character

/-- `DecodeString`, up to the bits of a last byte that is not whole and to line breaks, which
Go ignores: a caller that wants one spelling only encodes again. -/
def base32Decode (text : Bytes) : Option Bytes := do
  let values ← text.mapM base32Alphabet.idxOf?
  let bits := values.flatMap (bitsOf 5)
  return ((chunks 8 bits).filter fun part => part.length = 8).map fun part => (ofBits part).toUInt8

example : base32Encode (ascii "foobar") = ascii "mzxw6ytboi" := by decide +kernel

example : base32Decode (ascii "mzxw6ytboi") = some (ascii "foobar") := by decide +kernel

end Remem.Base
