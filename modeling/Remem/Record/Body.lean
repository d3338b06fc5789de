import Remem.Record

/-!
# The stored body of a record

What a record is stored as and what it is read back as. The protobuf encoding of a body
is a parameter.
-/

namespace Remem

open Base Keys Codec

/-- `pb.Record`; the type of a record is an `int32`, kept as its bits. -/
structure RecordRow where
  id : Bytes
  schemaVersion : UInt32
  typ : UInt32
  content : Bytes
  createdAtUnixMs : UInt64
  updatedAtUnixMs : UInt64
  tags : List Bytes
  source : Option Bytes
  archived : Bool
  archivedAtUnixMs : Option UInt64
  policy : Text
  importance : UInt32
  health : UInt32
  emotionalValence : UInt32
  arousal : UInt32
  accessedAtUnixMs : UInt64
  accessCount : UInt32
  lastRecalledAtUnixMs : Option UInt64
  nextAttentionAtUnixMs : UInt64
  ttlSecs : Option UInt64
  protectedUntilUnixMs : Option UInt64
  lastDecayAtUnixMs : Option UInt64
  lastHealthCheckAtUnixMs : Option UInt64

/-- The deterministic protobuf encoding of a body; it refuses text that is not UTF-8. -/
structure RecordCodec where
  marshal : RecordRow → Option Bytes
  unmarshal : Bytes → Option RecordRow
  unmarshal_marshal : ∀ row bytes, marshal row = some bytes → unmarshal bytes = some row

def optionBlock (block : Option Bytes) : Bytes := packBlocks block.toList

def ofOptionBlock (bytes : Bytes) : Option (Option Bytes) := do
  match ← unpackBlocks bytes with
  | [] => some none
  | [block] => some (some block)
  | _ => none

@[simp]
theorem ofOptionBlock_optionBlock (block : Option Bytes) :
    ofOptionBlock (optionBlock block) = some block := by
  cases block <;> simp [ofOptionBlock, optionBlock]

def word (number : UInt32) : Bytes := numberBlock number.toUInt64

def ofWord (block : Bytes) : UInt32 := (ofNumberBlock block).toUInt32

@[simp]
theorem ofWord_word (number : UInt32) : ofWord (word number) = number := by
  simp [ofWord, word]

def instant (milliseconds : Option UInt64) : Bytes := optionBlock (milliseconds.map numberBlock)

def ofInstant (block : Bytes) : Option (Option UInt64) :=
  (ofOptionBlock block).map (Option.map ofNumberBlock)

@[simp]
theorem ofInstant_instant (milliseconds : Option UInt64) :
    ofInstant (instant milliseconds) = some milliseconds := by
  cases milliseconds <;> simp [ofInstant, instant]

def RecordRow.texts (row : RecordRow) : List Bytes :=
  row.content :: row.policy.bytes :: (row.source.toList ++ row.tags)

def RecordRow.blocks (row : RecordRow) : List Bytes :=
  [row.id, word row.schemaVersion, word row.typ, row.content,
    numberBlock row.createdAtUnixMs, numberBlock row.updatedAtUnixMs, packBlocks row.tags,
    optionBlock row.source, [if row.archived then 1 else 0], instant row.archivedAtUnixMs,
    row.policy.bytes, word row.importance, word row.health, word row.emotionalValence,
    word row.arousal, numberBlock row.accessedAtUnixMs, word row.accessCount,
    instant row.lastRecalledAtUnixMs, numberBlock row.nextAttentionAtUnixMs,
    instant row.ttlSecs, instant row.protectedUntilUnixMs, instant row.lastDecayAtUnixMs,
    instant row.lastHealthCheckAtUnixMs]

def RecordRow.ofBlocks : List Bytes → Option RecordRow
  | [id, schemaVersion, typ, content, createdAt, updatedAt, tags, source, archived, archivedAt,
      policy, importance, health, valence, arousal, accessedAt, accessCount, lastRecalledAt,
      nextAttentionAt, ttl, protectedUntil, lastDecayAt, lastHealthCheckAt] => do
      if fits : policy.length < 2 ^ 63 then
        return ⟨id, ofWord schemaVersion, ofWord typ, content,
          ofNumberBlock createdAt, ofNumberBlock updatedAt, ← unpackBlocks tags,
          ← ofOptionBlock source, archived = [1], ← ofInstant archivedAt, ⟨policy, fits⟩,
          ofWord importance, ofWord health, ofWord valence, ofWord arousal,
          ofNumberBlock accessedAt, ofWord accessCount, ← ofInstant lastRecalledAt,
          ofNumberBlock nextAttentionAt, ← ofInstant ttl, ← ofInstant protectedUntil,
          ← ofInstant lastDecayAt, ← ofInstant lastHealthCheckAt⟩
      else none
  | _ => none

theorem RecordRow.ofBlocks_blocks (row : RecordRow) : RecordRow.ofBlocks row.blocks = some row := by
  have fits := row.policy.fits
  norm_num at fits
  simp [RecordRow.ofBlocks, RecordRow.blocks, fits]

def RecordCodec.plain : RecordCodec where
  marshal row :=
    if row.texts.all validUtf8 then some (packBlocks row.blocks) else none
  unmarshal bytes := do RecordRow.ofBlocks (← unpackBlocks bytes)
  unmarshal_marshal row bytes marshalled := by
    split at marshalled
    · cases marshalled
      simp [RecordRow.ofBlocks_blocks]
    · cases marshalled

def defaultSchemaVersion : UInt32 := 1

namespace Time

/-- `uint64(t.UnixMilli())`. -/
def unixMsBits (time : Time) : UInt64 := (time.unixMilli % 2 ^ 64).toNat.toUInt64

/-- `unixMs`. -/
def storedMs (time : Time) : UInt64 := if time.isZero then 0 else time.unixMsBits

def optionalMs (time : Time) : Option UInt64 :=
  if time.isZero then none else some time.unixMsBits

end Time

def wholeSeconds (duration : Int) : Option UInt64 :=
  if 0 < duration then
    let seconds := duration / 1000000000
    some (if duration % 1000000000 ≠ 0 then seconds + 1 else seconds).toNat.toUInt64
  else none

/-- `time.Duration(secs) * time.Second`; a duration is an `int64`. -/
def secondsDuration (seconds : UInt64) : Int := (seconds.toInt64.toInt * 1000000000).bmod (2 ^ 64)

namespace RecordCodec

variable (codec : RecordCodec)

def marshalRecord (row : RecordRow) : Result Bytes :=
  match codec.marshal row with
  | none => .error ⟨.invalid, "codec.MarshalRecord", "encoding the record body: %w", []⟩
  | some body => .ok (headerFor codecProtobuf ++ body)

def unmarshalRecord (bytes : Bytes) : Result RecordRow := do
  let op := "codec.UnmarshalRecord"
  checkHeaderCodec bytes op codecProtobuf
  match codec.unmarshal (bytes.drop headerLen) with
  | none => .error ⟨.corruption, op, "the record body will not parse", []⟩
  | some row => .ok row

/-- The row that `encodeBody` makes. -/
def row (record : Record) : RecordRow :=
  let fields := record.fields.withDefaults
  { id := record.id.bytes
    schemaVersion :=
      if record.schemaVersion = 0 then defaultSchemaVersion else record.schemaVersion
    typ := record.typ.byte.toUInt32
    content := record.content
    createdAtUnixMs := record.createdAt.unixMsBits
    updatedAtUnixMs := record.updatedAt.unixMsBits
    tags := fields.tags
    source := if fields.source ≠ [] then some fields.source else none
    archived := fields.archived
    archivedAtUnixMs := fields.archivedAt.optionalMs
    policy := fields.policy
    importance := fields.importance
    health := fields.health
    emotionalValence := fields.valence
    arousal := fields.arousal
    accessedAtUnixMs := fields.accessedAt.storedMs
    accessCount := fields.accessCount
    lastRecalledAtUnixMs := fields.lastRecalledAt.optionalMs
    nextAttentionAtUnixMs := fields.nextAttentionAt.storedMs
    ttlSecs := wholeSeconds fields.ttl
    protectedUntilUnixMs := fields.protectedUntil.optionalMs
    lastDecayAtUnixMs := fields.lastDecayAt.optionalMs
    lastHealthCheckAtUnixMs := fields.lastHealthCheckAt.optionalMs }

def encodeBody (record : Record) : Result Bytes := codec.marshalRecord (row record)

/-- The record that `decodeBody` makes of a row. -/
def ofRow (tenant : TenantId) (ns : Namespace) (rid : Id) (value : Bytes)
    (row : RecordRow) : Record :=
  { originalBody := some value
    id := rid
    tenant
    namespaceName := ns
    typ := ⟨row.typ.toUInt8⟩
    content := row.content
    schemaVersion := row.schemaVersion
    fields := Fields.withDefaults
      { tags := row.tags
        source := row.source.getD []
        archived := row.archived
        archivedAt := .ofUnixMs (row.archivedAtUnixMs.getD 0)
        policy := row.policy
        importance := row.importance
        health := row.health
        valence := row.emotionalValence
        arousal := row.arousal
        accessedAt := .ofUnixMs row.accessedAtUnixMs
        accessCount := row.accessCount
        lastRecalledAt := .ofUnixMs (row.lastRecalledAtUnixMs.getD 0)
        nextAttentionAt := .ofUnixMs row.nextAttentionAtUnixMs
        ttl := secondsDuration (row.ttlSecs.getD 0)
        protectedUntil := .ofUnixMs (row.protectedUntilUnixMs.getD 0)
        lastDecayAt := .ofUnixMs (row.lastDecayAtUnixMs.getD 0)
        lastHealthCheckAt := .ofUnixMs (row.lastHealthCheckAtUnixMs.getD 0) }
    createdAt := .ofUnixMs row.createdAtUnixMs
    updatedAt := .ofUnixMs row.updatedAtUnixMs }

def decodeBody (tenant : TenantId) (ns : Namespace) (rid : Id) (value : Bytes)
    (op : String) : Result Record := do
  let row ← codec.unmarshalRecord value
  if row.id ≠ rid.bytes then
    .error ⟨.corruption, op, "the record stored under %s says its id is %s",
      [.bytes rid.bytes, .bytes ((Id.fromBytes row.id).toOption.getD .zero).bytes]⟩
  else .ok (ofRow tenant ns rid value row)

end RecordCodec

end Remem
