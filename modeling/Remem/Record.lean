import Remem.Time
import Remem.Vector.Row
import Remem.Base.OrderedMap

/-!
# Records

A record as the repository reads and writes it.
-/

namespace Remem

open Base Keys

/-- A string of the source: its length fits an `int`. -/
structure Text where
  bytes : Bytes
  fits : bytes.length < 2 ^ 63
  deriving DecidableEq

/-- `record.Fields`; a `float32` is kept as its bits, a duration as nanoseconds. -/
structure Fields where
  archived : Bool := false
  policy : Text
  importance : UInt32
  health : UInt32
  valence : UInt32
  arousal : UInt32
  accessedAt : Time
  accessCount : UInt32
  lastRecalledAt : Time
  nextAttentionAt : Time
  tags : List Bytes := []
  source : Bytes := []
  archivedAt : Time := .zero
  ttl : Int := 0
  protectedUntil : Time := .zero
  lastDecayAt : Time := .zero
  lastHealthCheckAt : Time := .zero
  deriving DecidableEq

theorem Text.nil_fits : ([] : Bytes).length < 2 ^ 63 := by decide

theorem shortTerm_fits : (ascii "short_term").length < 2 ^ 63 := by decide

def defaultPolicy : Text := ⟨ascii "short_term", shortTerm_fits⟩

def defaultImportance : UInt32 := 0x3F000000

def defaultHealth : UInt32 := 0x42C80000

/-- `WithDefaults`: an empty policy means that the whole group is unset. -/
def Fields.withDefaults (fields : Fields) : Fields :=
  if fields.policy.bytes ≠ [] then fields
  else { fields with
    policy := defaultPolicy
    importance := defaultImportance
    health := defaultHealth }

@[simp]
theorem Fields.withDefaults_accessCount (fields : Fields) :
    fields.withDefaults.accessCount = fields.accessCount := by
  unfold withDefaults
  split <;> rfl

@[simp]
theorem Fields.withDefaults_lastRecalledAt (fields : Fields) :
    fields.withDefaults.lastRecalledAt = fields.lastRecalledAt := by
  unfold withDefaults
  split <;> rfl

/-- `VectorContent`, the name of the vector of the content. -/
def vectorContent : Bytes := ascii "content"

/-- `record.Record`. `originalBody` is the body that the record was read from, and a
vector under a name may be nil. -/
structure Record where
  fields : Fields
  createdAt : Time
  updatedAt : Time
  originalBody : Option Bytes := none
  projected : Bool := false
  id : Id := .zero
  tenant : TenantId := []
  namespaceName : Namespace := []
  typ : RecordType := ⟨0⟩
  content : Bytes := []
  schemaVersion : UInt32 := 0
  vectors : OrderedMap Bytes (Option Vector) := .empty
  passages : Option (List PassageRow) := none
  deriving DecidableEq

namespace Record

/-- `namespace`. -/
def resolved (record : Record) : Namespace :=
  if record.namespaceName = [] then defaultNamespace else record.namespaceName

def contentVector (record : Record) : Option Vector := (record.vectors.get vectorContent).join

end Record

def bodyKey (tenant : TenantId) (ns : Namespace) (rid : Id) : Bytes :=
  Keys.record tenant ns .memory rid

/-- `VectorKey`, which is `vector.CanonicalKey`. -/
def vectorKey (tenant : TenantId) (ns : Namespace) (rid : Id) : Bytes :=
  Keys.vector tenant ns rid

end Remem
