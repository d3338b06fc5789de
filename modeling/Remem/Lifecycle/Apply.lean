import Remem.Record
import Remem.Events.Stream
import Remem.Base.Binary64

/-!
# What a memory is owed

Retention policies, and the pass that decides what a record is owed at an instant. The
pass changes the record it is given and returns the events that go with it. Go's
floating-point arithmetic and its formatting are parameters.
-/

namespace Remem

open Base Keys Events

def Time.orElse (time other : Time) : Time := if time.isZero then other else time

namespace Lifecycle

/-- What the lifecycle takes from Go's library. Numbers are kept as their bits. -/
structure Host where
  /-- `float32(math.Max(importance*math.Pow(factor, days), 0))`. -/
  decayed : (importance : UInt32) → (factor : UInt64) → (days : Int) → UInt32
  /-- `float32(math.Min(math.Max(health-loss*days, 0), MaxHealth))`. -/
  worn : (health : UInt32) → (loss : UInt64) → (days : Int) → UInt32
  /-- `health+RecallHealthBoost*n`, clamped into the scale. -/
  boosted : (health : UInt32) → (recalls : Nat) → UInt32
  /-- `f32s`. -/
  formatFloat : UInt32 → Bytes
  /-- `fmt.Sprintf`. -/
  sprintf : String → List Operand → Bytes

/-- `Day`, in nanoseconds. -/
def day : Int := 24 * 3600 * 1000000000

structure Policy where
  name : Bytes
  ttl : Option Int := none
  promoteAtRecalls : Option UInt32 := none
  promoteTo : Text := ⟨[], Text.nil_fits⟩
  importanceDecay : UInt64
  healthDecay : UInt64 := 0
  archiveAtHealth : Option UInt32 := none
  cleanupAfter : Option Int := none

def shortTerm : Text := ⟨ascii "short_term", shortTerm_fits⟩

def inert (name : Bytes) : Policy := { name, importanceDecay := Binary64.one }

structure Policies where
  table : OrderedMap Bytes Policy

namespace Policies

variable (policies : Policies)

def nameOf (name : Text) : Bytes :=
  if name.bytes = [] then defaultPolicy.bytes else name.bytes

def resolve (name : Text) : Policy :=
  (policies.table.get (nameOf name)).getD (inert (nameOf name))

def known (name : Text) : Bool := (policies.table.get (nameOf name)).isSome

end Policies

def effectiveTtl (policy : Policy) (record : Record) : Int :=
  if 0 < record.fields.ttl ∧ record.fields.policy = shortTerm then record.fields.ttl
  else policy.ttl.getD 0

def archivedAt (record : Record) : Time := record.fields.archivedAt.orElse record.updatedAt

def later (first second : Time) : Time := if first < second then second else first

def wholeDays (start stop : Time) : Int :=
  if start.isZero ∨ ¬ start < stop then 0 else (stop.sub start).tdiv day

structure Note where
  kind : Events.Kind
  actor : Bytes
  reason : Bytes
  before : OrderedMap Bytes Bytes
  after : OrderedMap Bytes Bytes

/-- `Result`: what one pass decided. -/
structure Decision where
  changed : Bool := false
  delete : Bool := false
  notes : List Note := []

def Decision.note (decision : Decision) (note : Note) : Decision :=
  { decision with changed := true, notes := decision.notes ++ [note] }

def only (name value : String) : OrderedMap Bytes Bytes :=
  OrderedMap.empty.set (ascii name) (ascii value)

def retire (record : Record) (now : Time) : Record :=
  { record with fields := { record.fields with archived := true, archivedAt := now } }

section Pass

variable (host : Host)

def recallPhrase (count : UInt32) : Option UInt32 → Bytes
  | none => ascii "no promotion available under this policy"
  | some threshold =>
    if count = 0 then ascii "no recalls"
    else host.sprintf "%d recalls, below the %d this policy promotes at"
      [.number count.toNat, .number threshold.toNat]

/-- The promotion of `expire`. -/
def promote (policy : Policy) (threshold : UInt32) (record : Record) (decision : Decision) :
    Record × Decision :=
  ({ record with fields := { record.fields with policy := policy.promoteTo, ttl := 0 } },
    decision.note
      { kind := .promoted
        actor := ascii "ttl"
        reason := host.sprintf
          "ttl elapsed with %d recalls, at or above the %d this policy promotes at"
          [.number record.fields.accessCount.toNat, .number threshold.toNat]
        before := OrderedMap.empty.set (ascii "policy") record.fields.policy.bytes
        after := OrderedMap.empty.set (ascii "policy") policy.promoteTo.bytes })

/-- The archiving of `expire`. -/
def outlive (policy : Policy) (record : Record) (now : Time) (decision : Decision) :
    Record × Decision :=
  (retire record now, decision.note
    { kind := .expired
      actor := ascii "ttl"
      reason := host.sprintf "ttl of %s elapsed with %s"
        [.number (effectiveTtl policy record),
          .bytes (recallPhrase host record.fields.accessCount policy.promoteAtRecalls)]
      before := only "archived" "false"
      after := only "archived" "true" })

/-- `expire`, where it applies. -/
def expire (policy : Policy) (record : Record) (now : Time) (decision : Decision) :
    Option (Record × Decision) :=
  let ttl := effectiveTtl policy record
  if ttl ≤ 0 ∨ now < record.createdAt + ttl then none
  else match policy.promoteAtRecalls with
    | some threshold =>
      if threshold ≤ record.fields.accessCount then
        some (promote host policy threshold record decision)
      else some (outlive host policy record now decision)
    | none => some (outlive host policy record now decision)

def decayImportance (policy : Policy) (record : Record) (now : Time) (decision : Decision) :
    Record × Decision :=
  if Binary64.atMost Binary64.one policy.importanceDecay then (record, decision)
  else
    let days := wholeDays (record.fields.lastDecayAt.orElse record.createdAt) now
    if days = 0 then (record, decision)
    else ({ record with fields := { record.fields with
        importance := host.decayed record.fields.importance policy.importanceDecay days
        lastDecayAt := now } }, { decision with changed := true })

def decayHealth (policy : Policy) (record : Record) (now : Time) (decision : Decision) :
    Record × Decision :=
  if Binary64.atMost policy.healthDecay 0 then (record, decision)
  else
    let reinforced := record.fields.lastRecalledAt.orElse record.fields.accessedAt
    let checked := record.fields.lastHealthCheckAt.orElse record.createdAt
    let days := wholeDays (later reinforced checked) now
    if days = 0 then (record, decision)
    else ({ record with fields := { record.fields with
        health := host.worn record.fields.health policy.healthDecay days
        lastHealthCheckAt := now } }, { decision with changed := true })

def archive (policy : Policy) (record : Record) (now : Time) (decision : Decision) :
    Record × Decision :=
  match policy.archiveAtHealth with
  | none => (record, decision)
  | some threshold =>
    if record.fields.archived ∨ Binary32.less threshold record.fields.health then
      (record, decision)
    else
      let before := host.formatFloat record.fields.health
      (retire record now, decision.note
        { kind := .archived
          actor := ascii "active_forgetting"
          reason := host.sprintf
            "health reached %s, at or below the %s this policy archives at"
            [.bytes before, .bytes (host.formatFloat threshold)]
          before := (only "archived" "false").set (ascii "health") before
          after := (only "archived" "true").set (ascii "health") before })

def cleanup (policy : Policy) (record : Record) (now : Time) (decision : Decision) : Decision :=
  match policy.cleanupAfter with
  | none => decision
  | some retention =>
    let archivedFor := now.sub (archivedAt record)
    if archivedFor < retention then decision
    else { decision with delete := true }.note
      { kind := .hardDeleted
        actor := ascii "cleanup"
        reason := host.sprintf "archived for %s, past this policy's %s retention"
          [.number (roundSecond archivedFor), .number retention]
        before := only "archived" "true"
        after := only "exists" "false" }

def apply (policies : Policies) (record : Record) (now : Time) : Record × Decision :=
  let policy := policies.resolve record.fields.policy
  if !policies.known record.fields.policy then (record, {})
  else if record.fields.archived then (record, cleanup host policy record now {})
  else match expire host policy record now {} with
    | some expired => expired
    | none =>
      if now < record.fields.protectedUntil then (record, {})
      else
        let (record, decision) := decayImportance host policy record now {}
        let (record, decision) := decayHealth host policy record now decision
        archive host policy record now decision

end Pass

end Lifecycle

end Remem
