import Remem.Attr.Slots
import Remem.Storage.Transaction

/-!
# The attribute indexer

`Stage` brings the derived rows of one record into line with it inside a
transaction: its attribute row and one entry in the index of every indexed slot.
-/

namespace Remem.Attr

open Base Keys Storage

structure Subject where
  tenant : TenantId
  namespaceName : Namespace
  rid : Id
  deriving DecidableEq

def rowKey (subject : Subject) : Bytes :=
  attrRow subject.tenant subject.namespaceName subject.rid

def indexKey (subject : Subject) (slot : UInt16) (value : Value) : Bytes :=
  attrIndex subject.tenant subject.namespaceName slot value.orderBytes subject.rid

/-- The body of the loop of `stageEntries` at one indexed slot. -/
def stageEntry (subject : Subject) (old row : Option Row) (batch : Batch)
    (declared : SlotDef) : Batch :=
  let oldValue := old.bind fun row => row.get declared.slot.toNat
  let newValue := row.bind fun row => row.get declared.slot.toNat
  let batch := match oldValue with
    | some value =>
      if newValue ≠ some value then batch.delete (indexKey subject declared.slot value)
      else batch
    | none => batch
  match newValue with
  | some value => batch.set (indexKey subject declared.slot value) []
  | none => batch

def stageEntries (table : Slots) (subject : Subject) (old row : Option Row)
    (batch : Batch) : Batch :=
  table.indexedSlots.foldl (stageEntry subject old row) batch

variable {Label : Type}

/-- `currentRow`: a row that will not decode is read as no row. -/
def currentRow (table : Slots) (key : Bytes) : TxM Label (Option Row) := do
  let found ← Tx.get key
  match found with
  | none =>
    Tx.expect key [] false
    return none
  | some value =>
    Tx.expect key value true
    return (decodeRow table value).toOption

/-- `Stage`; no record removes the rows. -/
def stage (table : Slots) (subject : Subject) (record : Option Record) : TxM Label Unit := do
  let old ← currentRow table (rowKey subject)
  match record with
  | none =>
    Tx.delete (rowKey subject)
    Tx.update (stageEntries table subject old none)
  | some record =>
    let encoded ← Tx.within "attr.Indexer.Stage" (Result.lift ((project record).encode table))
    Tx.set (rowKey subject) encoded
    Tx.update (stageEntries table subject old (some (project record)))

/-- A call of `Stage`. -/
structure Staging where
  subject : Subject
  record : Option Record
  deriving DecidableEq

def Staging.perform (table : Slots) (staging : Staging) : TxM Label Unit :=
  stage table staging.subject staging.record

abbrev Live := Subject → Option Record

def Staging.applyTo (live : Live) (done : Staging × Result Unit) : Live :=
  match done.2 with
  | .ok () => Function.update live done.1.subject done.1.record
  | .error _ => live

/-- The live records once the transactions are committed, the latest first. -/
def liveAfter (committed : List (List (Staging × Result Unit))) : Live :=
  committed.foldr (fun transaction live => transaction.foldl Staging.applyTo live) fun _ => none

/-- The derived rows of a tenant are exactly those of its live records. -/
structure Exact (table : Slots) (tenant : TenantId) (store : Store) (live : Live) : Prop where
  rows : ∀ ns key value, (spaceRange tenant ns .attrRow).Contains key →
    (store.get key = some value ↔ ∃ rid record, live ⟨tenant, ns, rid⟩ = some record ∧
      key = rowKey ⟨tenant, ns, rid⟩ ∧ (project record).encode table = .ok value)
  entries : ∀ ns key value, (spaceRange tenant ns .attrIndex).Contains key →
    (store.get key = some value ↔ value = [] ∧
      ∃ rid record declared entry, live ⟨tenant, ns, rid⟩ = some record ∧
        declared ∈ table.indexedSlots ∧
        (project record).get declared.slot.toNat = some entry ∧
        key = indexKey ⟨tenant, ns, rid⟩ declared.slot entry)

end Remem.Attr
