import Remem.Keys.Layout
import Remem.Base.Blocks
import Remem.Base.Utf8
import Remem.Codec

/-!
# Stored vectors

The canonical vector of a record with what it is stored as, and the passages of its content.
A `float32` is kept as its bits. The protobuf encoding of a vector is a parameter.
-/

namespace Remem

open Base Keys Codec

structure Vector where
  modelId : Bytes
  dim : Int
  values : List UInt32
  deriving DecidableEq

/-- `vector.PassageRow`: a passage of the content and its vector. -/
structure PassageRow where
  start : UInt32
  stop : UInt32
  vector : Vector
  deriving DecidableEq

/-- `pb.Vector`. -/
structure VectorRow where
  modelId : Bytes
  dim : UInt32
  values : List UInt32

/-- The deterministic protobuf encoding of a vector; it refuses text that is not UTF-8. -/
structure VectorCodec where
  marshal : VectorRow → Option Bytes
  unmarshal : Bytes → Option VectorRow
  unmarshal_marshal : ∀ row bytes, marshal row = some bytes → unmarshal bytes = some row

namespace VectorCodec

def blocks : VectorCodec where
  marshal row :=
    if validUtf8 row.modelId then
      some (packBlocks [row.modelId, uint32 row.dim, packBlocks (row.values.map uint32)])
    else none
  unmarshal bytes := do
    match ← unpackBlocks bytes with
    | [modelId, dim, values] =>
      let values ← unpackBlocks values
      some ⟨modelId, (ofBigEndian dim).toUInt32, values.map fun value => (ofBigEndian value).toUInt32⟩
    | _ => none
  unmarshal_marshal row bytes marshalled := by
    have same : ∀ number : UInt32, (ofBigEndian (uint32 number)).toUInt32 = number := by
      intro number
      rw [uint32, ofBigEndian_bigEndian, Nat.mod_eq_of_lt]
      · exact UInt32.ofNat_toNat
      · exact number.toNat_lt
    split at marshalled
    · cases marshalled
      simp [same, Function.comp_def]
    · cases marshalled

variable (codec : VectorCodec)

def marshalVector (row : VectorRow) : Result Bytes :=
  let op := "codec.MarshalVector"
  if row.modelId = [] then
    .error ⟨.invalid, op, "a vector without a model id may not be stored: " ++
      "a later model change would corrupt the space silently", []⟩
  else if row.dim.toNat ≠ row.values.length then
    .error ⟨.invalid, op, "vector declares %d dimensions and carries %d values",
      [.number row.dim.toNat, .number row.values.length]⟩
  else match codec.marshal row with
    | none => .error ⟨.invalid, op, "encoding the vector: %w", []⟩
    | some body => .ok (headerFor codecVectorProtobuf ++ body)

def unmarshalVector (bytes : Bytes) : Result VectorRow := do
  let op := "codec.UnmarshalVector"
  checkHeaderCodec bytes op codecVectorProtobuf
  match codec.unmarshal (bytes.drop headerLen) with
  | none => .error ⟨.corruption, op, "the vector body will not parse", []⟩
  | some row =>
    if row.dim.toNat ≠ row.values.length then
      .error ⟨.corruption, op,
        "a stored vector declares %d dimensions and carries %d values; it is truncated",
        [.number row.dim.toNat, .number row.values.length]⟩
    else .ok row

def encode (vector : Vector) : Result Bytes :=
  codec.marshalVector ⟨vector.modelId, (vector.dim % 2 ^ 32).toNat.toUInt32, vector.values⟩

def decode (bytes : Bytes) : Result Vector := do
  let row ← codec.unmarshalVector bytes
  return ⟨row.modelId, row.dim.toNat, row.values⟩

end VectorCodec

end Remem
