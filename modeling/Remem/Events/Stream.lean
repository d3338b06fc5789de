import Remem.Keys.Parse
import Remem.Storage.Transaction
import Remem.Time
import Remem.Base.Blocks
import Remem.Base.Utf8

/-!
# The audit stream

One subject's events, in the order of their instants and sequence numbers. The
subject, the instant and the sequence number are in the key only. A cancelled
context is not modelled, and the protobuf encoding of a row is a parameter.
-/

namespace Remem.Events

open Base Keys Storage

/-- `Kind`: any name can be read back, the declared ones can be written. -/
structure Kind where
  name : Bytes
  deriving DecidableEq, Repr

namespace Kind

def recalled : Kind := ⟨ascii "recalled"⟩
def promoted : Kind := ⟨ascii "promoted"⟩
def expired : Kind := ⟨ascii "expired"⟩
def archived : Kind := ⟨ascii "archived"⟩
def restored : Kind := ⟨ascii "restored"⟩
def updated : Kind := ⟨ascii "updated"⟩
def hardDeleted : Kind := ⟨ascii "hard_deleted"⟩

/-- `AllKinds`. -/
def all : List Kind := [recalled, promoted, expired, archived, restored, updated, hardDeleted]

def valid (kind : Kind) : Bool := kind ∈ all

end Kind

def maxValueBytes : Nat := 256

def maxDeltaFields : Nat := 16

def maxReasonBytes : Nat := 512

/-- `Event`; `instant` is the source's `At`. -/
structure Event where
  tenant : TenantId
  namespaceName : Namespace
  subject : Id
  instant : Time
  seq : UInt32 := 0
  kind : Kind
  actor : Bytes := []
  reason : Bytes := []
  before : OrderedMap Bytes Bytes := .empty
  after : OrderedMap Bytes Bytes := .empty
  deriving DecidableEq

/-- `Scope`: one subject's stream. -/
structure Scope where
  tenant : TenantId
  namespaceName : Namespace
  subject : Id
  deriving DecidableEq

/-- `Scope.namespace`. -/
def Scope.resolved (scope : Scope) : Namespace :=
  if scope.namespaceName = [] then defaultNamespace else scope.namespaceName

def Scope.validate (scope : Scope) (op : String) : Result Unit :=
  if scope.tenant = [] then
    .error ⟨.invalid, op,
      "an event stream requires a tenant: there is no unscoped read path (Invariant 1)", []⟩
  else if !validIdentifier scope.tenant then
    .error ⟨.invalid, op, "tenant %q is not a valid tenant id", [.bytes scope.tenant]⟩
  else if scope.subject = Id.zero then
    .error ⟨.invalid, op, "an event stream is about a subject; none was named", []⟩
  else .ok ()

def Event.scope (event : Event) : Scope := ⟨event.tenant, event.namespaceName, event.subject⟩

def unixMilli (time : Time) : UInt64 := time.toUnixMs

def fromUnixMilli (milliseconds : UInt64) : Time := .ofUnixMs milliseconds

def Scope.key (scope : Scope) (ms : UInt64) (seq : UInt32) : Bytes :=
  Keys.event scope.tenant scope.resolved scope.subject ms seq

def Scope.range (scope : Scope) : KeyRange :=
  eventsForRange scope.tenant scope.resolved scope.subject

def Event.key (event : Event) : Bytes := event.scope.key (unixMilli event.instant) event.seq

/-- `pb.Event`. -/
structure EventRow where
  kind : Bytes
  actor : Bytes
  reason : Bytes
  before : OrderedMap Bytes Bytes
  after : OrderedMap Bytes Bytes

/-- The deterministic protobuf encoding of a row; it refuses text that is not UTF-8. -/
structure EventCodec where
  marshal : EventRow → Option Bytes
  unmarshal : Bytes → Option EventRow
  unmarshal_marshal : ∀ row bytes, marshal row = some bytes → unmarshal bytes = some row

def Event.row (event : Event) : EventRow :=
  ⟨event.kind.name, event.actor, event.reason, event.before, event.after⟩

def mapBlocks (map : OrderedMap Bytes Bytes) : Bytes :=
  packBlocks (map.entries.map fun entry => packBlocks [entry.1, entry.2])

def ofMapEntry (block : Bytes) : Option (Bytes × Bytes) :=
  match unpackBlocks block with
  | some [key, value] => some (key, value)
  | _ => none

def ofMapBlocks (block : Bytes) : Option (OrderedMap Bytes Bytes) := do
  let entries ← (← unpackBlocks block).mapM ofMapEntry
  if sorted : entries.Pairwise fun first second => first.1 < second.1 then
    some ⟨entries, sorted⟩
  else none

theorem ofMapBlocks_mapBlocks (map : OrderedMap Bytes Bytes) :
    ofMapBlocks (mapBlocks map) = some map := by
  have entry : ∀ entry : Bytes × Bytes, ofMapEntry (packBlocks [entry.1, entry.2]) = some entry := by
    intro entry
    rw [ofMapEntry, unpackBlocks_packBlocks]
  have whole : (map.entries.map fun entry => packBlocks [entry.1, entry.2]).mapM ofMapEntry =
      some map.entries := by
    induction map.entries with
    | nil => rfl
    | cons first rest ih => simp [entry, ih]
  simp only [ofMapBlocks, mapBlocks, unpackBlocks_packBlocks, Option.bind_eq_bind,
    Option.bind_some, whole]
  exact dif_pos map.sorted

def mapTexts (map : OrderedMap Bytes Bytes) : List Bytes :=
  map.entries.flatMap fun entry => [entry.1, entry.2]

def blockCodec : EventCodec where
  marshal row :=
    if ([row.kind, row.actor, row.reason] ++ mapTexts row.before ++ mapTexts row.after).all
        validUtf8 then
      some (packBlocks [row.kind, row.actor, row.reason, mapBlocks row.before, mapBlocks row.after])
    else none
  unmarshal bytes := do
    match ← unpackBlocks bytes with
    | [kind, actor, reason, before, after] =>
      return ⟨kind, actor, reason, ← ofMapBlocks before, ← ofMapBlocks after⟩
    | _ => none
  unmarshal_marshal row bytes marshalled := by
    split at marshalled
    · cases marshalled
      simp [ofMapBlocks_mapBlocks]
    · cases marshalled

section Stream

variable (codec : EventCodec)

def marshal (event : Event) (op : String) : Result Bytes :=
  match codec.marshal event.row with
  | none => .error ⟨.invalid, op, "encoding the %s event: %w", [.bytes event.kind.name]⟩
  | some bytes => .ok bytes

def unmarshal (key value : Bytes) : Result Event := do
  let parsed ← parseEvent key
  match codec.unmarshal value with
  | none =>
    .error ⟨.corruption, "events.unmarshal", "the event row at %x does not decode: %w",
      [.bytes key]⟩
  | some row =>
    return ⟨parsed.tenant, parsed.namespaceName, parsed.subject,
      fromUnixMilli parsed.tsUnixMs, parsed.seq, ⟨row.kind⟩, row.actor, row.reason,
      row.before, row.after⟩

/-- One map of `checkDelta`. The source names any field over the limit; this is the first. -/
def checkFields (event : Event) (op : String) (fields : OrderedMap Bytes Bytes) : Result Unit :=
  if maxDeltaFields < fields.entries.length then
    .error ⟨.invalid, op,
      "this %s event describes %d fields, the limit is %d; an event is a transition, not a record",
      [.bytes event.kind.name, .number fields.entries.length, .number maxDeltaFields]⟩
  else match fields.entries.find? fun entry => maxValueBytes < entry.2.length with
    | some (name, value) =>
      .error ⟨.invalid, op, "the %q field on this %s event is %d bytes, the limit is %d; " ++
          "an audit row carries what moved, never memory content",
        [.bytes name, .bytes event.kind.name, .number value.length, .number maxValueBytes]⟩
    | none => .ok ()

def checkDelta (event : Event) (op : String) : Result Unit := do
  if maxReasonBytes < event.reason.length then
    .error ⟨.invalid, op, "the reason on this %s event is %d bytes, the limit is %d",
      [.bytes event.kind.name, .number event.reason.length, .number maxReasonBytes]⟩
  else
    checkFields event op event.before
    checkFields event op event.after

/-- `each` over the rows of its iterator, with what its callback keeps. -/
def each {M : Type → Type} [Monad M] [MonadExcept Fault M] {Kept : Type}
    (visit : Kept → Event → M (Kept × Bool)) : Kept → List (Bytes × Bytes) → M Kept
  | kept, [] => pure kept
  | kept, (key, value) :: rest => do
      let event ← Result.lift (unmarshal codec key value)
      let (kept, more) ← visit kept event
      if more then each visit kept rest else pure kept

section Writes

variable {Label : Type}

/-- The probes of `nextSeq`, which see what the transaction has staged. -/
def probeSeq (scope : Scope) (ms : UInt64) : (probes : Nat) → UInt32 → TxM Label UInt32
  | 0, _ =>
    throw ⟨.invalid, "events.Append",
      "more than %d events about memory %s in one millisecond; this is a caller in a loop",
      [.number maxDeltaFields, .bytes scope.subject.bytes]⟩
  | probes + 1, next => do
      match ← Tx.get (scope.key ms next) with
      | none => return next
      | some _ => probeSeq scope ms probes (next + 1)

/-- `nextSeq`. The scan reads the committed store. -/
def nextSeq (scope : Scope) (ms : UInt64) : TxM Label UInt32 := do
  let rows ← Tx.scan ⟨scope.key ms 0, some (scope.key (ms + 1) 0)⟩
  let next ← match rows.getLast? with
    | none => pure 0
    | some (key, _) => do
        let parsed ← Result.lift (parseEvent key)
        pure (parsed.seq + 1)
  probeSeq scope ms maxDeltaFields next

def append (event : Event) : TxM Label Event := do
  let op := "events.Append"
  Result.lift (event.scope.validate op)
  if !event.kind.valid then
    throw ⟨.invalid, op, "%q is not an event kind this binary writes; the kinds are %v",
      .bytes event.kind.name :: Kind.all.map fun kind => .bytes kind.name⟩
  else if event.instant.isZero then
    throw ⟨.invalid, op,
      "the %s event about %s carries no time; an audit row with no instant cannot be ordered",
      [.bytes event.kind.name, .bytes event.subject.bytes]⟩
  else
    Result.lift (checkDelta event op)
    let ms := unixMilli event.instant
    let seq ← nextSeq event.scope ms
    let event := { event with namespaceName := event.scope.resolved, seq }
    let value ← Result.lift (marshal codec event op)
    Tx.set (event.scope.key ms seq) value
    return event

def deleteListed (scope : Scope) (event : Event) : TxM Label Unit :=
  Tx.delete (scope.key (unixMilli event.instant) event.seq)

def trim (scope : Scope) (cutoff : Time) (max : Int) : TxM Label Nat := do
  Result.lift (scope.validate "events.Trim")
  if max ≤ 0 then throw ⟨.invalid, "events.Trim", "a trim needs a positive bound", []⟩
  else
    let rows ← Tx.scan ⟨scope.range.lower, some (scope.key (unixMilli cutoff) 0)⟩
    Tx.within "events.Trim" (each codec (fun removed event => do
      deleteListed scope event
      return (removed + 1, (removed : Int) + 1 < max)) 0 rows)

def deleteSubject (scope : Scope) : TxM Label Nat := do
  Result.lift (scope.validate "events.DeleteSubject")
  let rows ← Tx.scan scope.range
  Tx.within "events.DeleteSubject" (each codec (fun removed event => do
    deleteListed scope event
    return (removed + 1, true)) 0 rows)

end Writes

end Stream

end Remem.Events
