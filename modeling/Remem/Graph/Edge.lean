import Remem.Keys.Layout
import Remem.Base.OrderedMap
import Remem.Codec
import Remem.Time

/-!
# Edges

A relationship between two records, its checks, its stored body and its two keys.
The weight of an edge is a `float32` in the source; here it is any type with the
operations the graph uses. The protobuf encoding of a body is a parameter.
-/

namespace Remem.Graph

open Base Keys Codec

/-- The numbers of the source's `float32` as the graph uses them. `absent` is the
negative number that marks a depth no path has reached. -/
class EdgeWeight (Strength : Type) extends
    LinearOrder Strength, Zero Strength, One Strength, Mul Strength where
  isNaN : Strength → Bool
  isInf : Strength → Bool
  absent : Strength

instance : EdgeWeight ℚ where
  isNaN _ := false
  isInf _ := false
  absent := -1

/-- `RelationshipType`, the two bytes between the ends of an edge key. -/
abbrev RelationshipType := RelType

namespace RelationshipType

/-- `relationshipNames`. -/
def names : List (RelationshipType × String) :=
  [(⟨1⟩, "related_to"), (⟨2⟩, "caused_by"), (⟨3⟩, "part_of"), (⟨4⟩, "references"),
   (⟨5⟩, "contradicts"), (⟨6⟩, "supports"), (⟨7⟩, "similar_to"), (⟨8⟩, "derived_from")]

def valid (typ : RelationshipType) : Bool := (names.lookup typ).isSome

/-- `String`. -/
def name (typ : RelationshipType) : String :=
  (names.lookup typ).getD s!"relationship({typ.code})"

/-- `strings.Join(RelationshipNames(), ", ")`. -/
def joinedNames : String := ", ".intercalate (names.map Prod.snd)

end RelationshipType

inductive Direction where
  | out
  | into
  | both
  deriving DecidableEq, Repr

structure Scope where
  tenant : TenantId
  namespaceName : Namespace
  deriving DecidableEq, Repr

/-- `Scope.namespace`, which reads the empty one as the default. -/
def Scope.resolved (scope : Scope) : Namespace :=
  if scope.namespaceName = [] then defaultNamespace else scope.namespaceName

def Scope.validate (scope : Scope) (op : String) : Result Unit :=
  if scope.tenant = [] then
    .error ⟨.invalid, op,
      "an edge operation requires a tenant: there is no unscoped read path (Invariant 1)", []⟩
  else .ok ()

structure Edge (Strength : Type) where
  fromId : Id
  toId : Id
  typ : RelationshipType
  strength : Strength
  createdAt : Time := .zero
  updatedAt : Time := .zero
  metadata : OrderedMap Bytes Bytes := .empty

/-- `pb.Edge`. -/
structure Body (Strength : Type) where
  strength : Strength
  createdAtUnixMs : UInt64
  updatedAtUnixMs : UInt64
  metadata : OrderedMap Bytes Bytes

/-- The deterministic protobuf encoding of a body; it refuses text that is not
UTF-8 and fails to parse bytes that are no body. -/
structure BodyCodec (Strength : Type) where
  marshal : Body Strength → Option Bytes
  unmarshal : Bytes → Option (Body Strength)

/-- A body reduced to its strength in whole percents, for evaluating the model. -/
def percentCodec : BodyCodec ℚ where
  marshal body := if (body.strength * 100).den = 1 then
      some [(body.strength * 100).num.toNat.toUInt8] else none
  unmarshal
    | [percent] => some ⟨percent.toNat / 100, 0, 0, .empty⟩
    | _ => none

def outKey (scope : Scope) (fromId : Id) (typ : RelationshipType) (toId : Id) : Bytes :=
  edgeOut scope.tenant scope.resolved fromId typ toId

def inKey (scope : Scope) (fromId : Id) (typ : RelationshipType) (toId : Id) : Bytes :=
  edgeIn scope.tenant scope.resolved toId typ fromId

section Bodies

variable {Strength : Type} [EdgeWeight Strength]

def Edge.validate (edge : Edge Strength) : Result Unit :=
  let bad (format : String) (operands : List Operand) : Result Unit :=
    .error ⟨.invalid, "graph.Edge.Validate", format, operands⟩
  if edge.fromId = Id.zero then bad "an edge must have a source" []
  else if edge.toId = Id.zero then bad "an edge must have a target" []
  else if edge.fromId = edge.toId then bad "a memory cannot be connected to itself" []
  else if !RelationshipType.valid edge.typ then
    bad "%q is not a relationship type; the types are %s"
      [.word (RelationshipType.name edge.typ), .word RelationshipType.joinedNames]
  else if EdgeWeight.isNaN edge.strength then
    bad ("an edge strength must be a number: a NaN strength is excluded from every " ++
      "bound it is compared against, so the relationship would silently stop being ranked") []
  else if EdgeWeight.isInf edge.strength then bad "an edge strength must be finite" []
  else .ok ()

/-- `Normalise`: the strength clamped into the unit interval. -/
def Edge.normalise (edge : Edge Strength) : Edge Strength :=
  if edge.strength < 0 then { edge with strength := 0 }
  else if 1 < edge.strength then { edge with strength := 1 }
  else edge

/-- `unixMs`: zero stands for an instant that was never set. -/
def unixMs (time : Time) : UInt64 :=
  if time.isZero then 0 else UInt64.ofInt time.unixMilli

def unixMilli (milliseconds : UInt64) : Time :=
  if milliseconds = 0 then .zero else .ofUnixMilli milliseconds.toInt64.toInt

variable (codec : BodyCodec Strength)

def marshalEdge (body : Body Strength) : Result Bytes :=
  match codec.marshal body with
  | none => .error ⟨.invalid, "codec.MarshalEdge", "encoding the edge: %w", []⟩
  | some bytes => .ok (headerFor codecEdgeProtobuf ++ bytes)

def unmarshalEdge (bytes : Bytes) : Result (Body Strength) := do
  checkHeaderCodec bytes "codec.UnmarshalEdge" codecEdgeProtobuf
  match codec.unmarshal (bytes.drop headerLen) with
  | none => .error ⟨.corruption, "codec.UnmarshalEdge", "the edge body will not parse", []⟩
  | some body => .ok body

def encodeBody (edge : Edge Strength) : Result Bytes :=
  let edge := edge.normalise
  marshalEdge codec ⟨edge.strength, unixMs edge.createdAt, unixMs edge.updatedAt, edge.metadata⟩

def decodeBody (value : Bytes) (fromId toId : Id) (typ : RelationshipType) :
    Result (Edge Strength) := do
  let body ← unmarshalEdge codec value
  return ⟨fromId, toId, typ, body.strength, unixMilli body.createdAtUnixMs,
    unixMilli body.updatedAtUnixMs, body.metadata⟩

end Bodies

def edgeTail : Nat := idLen + 2 + idLen

def tailType (body : Bytes) : RelationshipType :=
  ⟨(ofBigEndian ((body.drop idLen).take 2)).toUInt16⟩

/-- `parseEdgeKey`: the type and the far end, from the tail of the key. -/
def parseEdgeKey (key : Bytes) (op : String) : Result (RelationshipType × Id) :=
  if key.length < edgeTail then
    .error ⟨.corruption, op, "a key in the edge space is %d bytes, too short to hold an edge",
      [.number key.length]⟩
  else
    let body := key.drop (key.length - edgeTail)
    match Id.fromBytes (body.drop (idLen + 2)) with
    | .error _ =>
      .error ⟨.corruption, op, "an edge key holds a malformed record id", []⟩
    | .ok far => .ok (tailType body, far)

/-- `parseOutKey`: both ends and the type, from the tail of the key. -/
def parseOutKey (key : Bytes) (op : String) : Result (Id × RelationshipType × Id) :=
  if key.length < edgeTail then
    .error ⟨.corruption, op, "a key in the out-edge space is too short to hold an edge", []⟩
  else
    let body := key.drop (key.length - edgeTail)
    match Id.fromBytes (body.take idLen) with
    | .error _ =>
      .error ⟨.corruption, op, "an out-edge key holds a malformed source id", []⟩
    | .ok anchor =>
      match Id.fromBytes (body.drop (idLen + 2)) with
      | .error _ =>
        .error ⟨.corruption, op, "an out-edge key holds a malformed target id", []⟩
      | .ok far => .ok (anchor, tailType body, far)

end Remem.Graph
