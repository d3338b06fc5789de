import Remem.Record.Body
import Remem.Vector.Store
import Remem.Storage.Do
import Remem.Base.Solo
import Remem.Keys.Parse

/-!
# The repository

Reading, writing, deleting and scanning records. A write stages the body of the record,
its vector and, through the indexers, everything derived from it in one transaction,
and that transaction commits only where the body is still the one it was made from.
-/

namespace Remem

open Base Keys Storage

variable {Label : Type}

/-- `Indexer`: it keeps what is derived from a record in the key spaces of its own. -/
structure Indexer where
  stage : {Label : Type} → TenantId → Namespace → Id → Option Record → TxM Label Unit
  spaces : List Space
  stays : ∀ {Label : Type} tenant namespaceName rid record,
    Stays (fun key => ∃ space ∈ spaces, InSpace space key)
      (stage tenant namespaceName rid record : TxM Label Unit)
  derived : .record ∉ spaces ∧ .vector ∉ spaces ∧ .event ∉ spaces

/-- `repo`, with the encodings it stores bodies and vectors in. -/
structure Repo where
  bodies : RecordCodec
  vectors : VectorCodec
  upgrader : Option (Record → UInt32 → Result (Record × UInt32 × Bool)) := none
  scheduler : Option (TenantId → Record → Time) := none
  indexers : List Indexer := []

/-- `validate`. The source names any vector that is not as it should be; this is the
first. -/
def validate (tenant : TenantId) (record : Record) (op : String) : Result Unit :=
  let bad (format : String) (operands : List Operand) : Result Unit :=
    .error ⟨.invalid, op, format, operands⟩
  if record.projected then
    bad ("this record was read with GetBodyFrom, which decodes only the fields a " ++
      "response shows; writing it back would discard its schema version and every " ++
      "field this binary does not understand. Read it with Get or GetFrom to write it") []
  else if record.id = Id.zero then bad "a record must have an id" []
  else if record.tenant ≠ [] ∧ record.tenant ≠ tenant then
    bad "record belongs to tenant %q but is being written into %q"
      [.bytes record.tenant, .bytes tenant]
  else if record.typ.byte = 0 then bad "a record must have a type" []
  else if record.content = [] then bad "a record must have content" []
  else if record.createdAt.isZero then bad "a record must carry its creation time" []
  else record.vectors.entries.forM fun (name, vector) =>
    match vector with
    | none => bad "vector %q is nil" [.bytes name]
    | some vector =>
      if vector.modelId = [] then
        bad ("vector %q carries no model id: a later model change would corrupt the space " ++
          "silently") [.bytes name]
      else if vector.dim ≠ vector.values.length then
        bad "vector %q declares %d dimensions and carries %d values"
          [.bytes name, .number vector.dim, .number vector.values.length]
      else .ok ()

namespace Repo

variable (repo : Repo)

/-- What `Put` makes of the next-attention time of a record. -/
def scheduled (tenant : TenantId) (record : Record) : Record :=
  match repo.scheduler with
  | none => record
  | some nextAttention =>
    { record with
      fields := { record.fields with nextAttentionAt := nextAttention tenant record } }

/-- The record in the caller's hands after `Put`, which sets its next-attention time even
where it fails later. -/
def touched (context : Option TenantId) (record : Record) : Record :=
  match requireTenant context with
  | .error _ => record
  | .ok tenant =>
    match validate tenant record "record.Put" with
    | .error _ => record
    | .ok () => repo.scheduled tenant record

def index (tenant : TenantId) (ns : Namespace) (rid : Id)
    (record : Option Record) : TxM Label Unit :=
  repo.indexers.forM fun indexer => indexer.stage tenant ns rid record

/-- The condition of `Put`: the body the record was read from, or the one stored now. -/
def expectBody (key : Bytes) : Option Bytes → TxM Label Unit
  | some originalBody => Tx.expect key originalBody true
  | none => do
      let old ← Tx.get key
      Tx.expect key (old.getD []) old.isSome

/-- The vector of `Put`. -/
def stageVector (tenant : TenantId) (ns : Namespace) (rid : Id) : Option Vector → TxM Label Unit
  | none => return ()
  | some vector => repo.vectors.stage tenant ns rid vector

/-- What `Put` stages: the body on the condition, the vector and what is derived. -/
def stageRecord (tenant : TenantId) (ns : Namespace) (record : Record)
    (body : Bytes) : TxM Label Unit := do
  let key := bodyKey tenant ns record.id
  expectBody key record.originalBody
  Tx.set key body
  repo.stageVector tenant ns record.id record.contentVector
  repo.index tenant ns record.id (some record)

/-- `Put`, with the tenant its context carries. -/
def put (context : Option TenantId) (record : Record) : TxM Label Unit := do
  let op := "record.Put"
  let tenant ← Result.lift (requireTenant context)
  Result.lift (validate tenant record op)
  let ns := record.resolved
  let record := repo.scheduled tenant record
  let body ← Tx.within op (Result.lift (repo.bodies.encodeBody record))
  repo.stageRecord tenant ns record body

/-- What `Delete` stages. -/
def stageRemoval (tenant : TenantId) (rid : Id) : TxM Label Unit := do
  let key := bodyKey tenant defaultNamespace rid
  expectBody key none
  Tx.delete key
  Tx.delete (vectorKey tenant defaultNamespace rid)
  repo.index tenant defaultNamespace rid none

def delete (context : Option TenantId) (rid : Id) : TxM Label Unit := do
  let tenant ← Result.lift (requireTenant context)
  repo.stageRemoval tenant rid

def decodeVector (rid : Id) (value : Bytes) (op : String) : Result Vector :=
  match repo.vectors.decode value with
  | .error fault => .error ⟨fault.kind, op, "the vector of record %s: %w", [.bytes rid.bytes]⟩
  | .ok vector => .ok vector

def withVector (record : Record) (value : Option Bytes) (op : String) : Result Record :=
  match value with
  | none => .ok record
  | some value => do
      let vector ← repo.decodeVector record.id value op
      return { record with vectors := record.vectors.set vectorContent (some vector) }

/-- `Get` up to the upgrade: the body and the vector are read one after the other. -/
def load (context : Option TenantId) (rid : Id) : StoreProgram Label (Result Record) := do
  let op := "record.Get"
  match requireTenant context with
  | .error fault => return .error fault
  | .ok tenant =>
    match ← Program.observe fun store => store.get (bodyKey tenant defaultNamespace rid) with
    | none => return .error ⟨.notFound, op, "no record %s", [.bytes rid.bytes]⟩
    | some body =>
      match repo.bodies.decodeBody tenant defaultNamespace rid body op with
      | .error fault => return .error fault
      | .ok record =>
        let vector ← Program.observe fun store =>
          store.get (vectorKey tenant defaultNamespace rid)
        return repo.withVector record vector op

/-- `upgrade`: what is changed is written back in a transaction of its own, whose failure
is only logged. The record then goes on from the body that was written. -/
def upgrade (note : Record → Label) (context : Option TenantId) (record : Record) :
    StoreProgram Label (Result Record) :=
  match repo.upgrader with
  | none => return .ok record
  | some upgrade =>
    match upgrade record record.schemaVersion with
    | .error fault => return .error fault
    | .ok (upgraded, schemaVersion, changed) => do
        -- the body a record was read from is out of an upgrader's reach
        let upgraded := { upgraded with
          originalBody := record.originalBody
          projected := record.projected }
        if !changed then return .ok upgraded
        else
          let upgraded := { upgraded with schemaVersion }
          match ← attempt (fun () => note upgraded) (repo.put context upgraded) with
          | .error _ => return .ok (repo.touched context upgraded)
          | .ok () =>
            let written := repo.touched context upgraded
            return .ok { written with
              originalBody := (repo.bodies.encodeBody written).toOption }

def get (note : Record → Label) (context : Option TenantId) (rid : Id) :
    StoreProgram Label (Result Record) := do
  match ← repo.load context rid with
  | .error fault => return .error fault
  | .ok record => repo.upgrade note context record

section Rules

variable {repo} {holds : Store → Prop} {kept : Batch → Prop} {context : Option TenantId}

variable {record : Record} {post : Result Unit → Batch → Prop}

variable {rid : Id}

variable {key : Bytes}

variable (tenant : TenantId) (ns : Namespace)

variable {allowed : Op → Prop}

end Rules

end Repo

end Remem
