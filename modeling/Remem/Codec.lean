import Remem.Errs

/-!
# The envelope of stored values

The six bytes ahead of every record, vector and edge body.
-/

namespace Remem.Codec

open Base

def magic : Bytes := ascii "RMM1"

def headerLen : Nat := 6

def recordEnvelope : UInt8 := 1

def codecProtobuf : UInt8 := 1
def codecVectorProtobuf : UInt8 := 2
def codecEdgeProtobuf : UInt8 := 3

def headerFor (codec : UInt8) : Bytes := magic ++ [recordEnvelope, codec]

def checkHeaderCodec (bytes : Bytes) (op : String) (want : UInt8) : Result Unit :=
  match bytes with
  | first :: second :: third :: fourth :: envelope :: codec :: _ =>
    if [first, second, third, fourth] ≠ magic then
      .error ⟨.corruption, op, "value does not begin with %q; it is not a record", [.bytes magic]⟩
    else if recordEnvelope < envelope then
      .error ⟨.incompatibleVersion, op,
        "record envelope version %d on disk, this binary writes %d; " ++
          "upgrade rather than downgrade — a downgrade would rewrite data it cannot read",
        [.number envelope.toNat, .number recordEnvelope.toNat]⟩
    else if codec = want then .ok ()
    else if codec = codecProtobuf ∨ codec = codecVectorProtobuf ∨ codec = codecEdgeProtobuf then
      .error ⟨.corruption, op,
        "this value is encoded with codec %d, but a codec %d value was expected here",
        [.number codec.toNat, .number want.toNat]⟩
    else
      .error ⟨.incompatibleVersion, op, "body codec %d is not one this binary knows",
        [.number codec.toNat]⟩
  | _ =>
    .error ⟨.corruption, op, "a record value is at least %d bytes, this one is %d",
      [.number headerLen, .number bytes.length]⟩

end Remem.Codec
