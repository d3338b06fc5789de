import Remem.Graph.Edge
import Remem.Storage.Frame
import Remem.Keys.Identity

/-!
# The edge service

The writes of the edge service, each staged into a caller's transaction, and the
verification of the two edge spaces. A clock reading is an argument of the
operation that makes it; a cancelled context is not modelled.
-/

namespace Remem.Graph

open Base Keys Storage

variable {Strength : Type} [EdgeWeight Strength] (codec : BodyCodec Strength)

def neighbourRange (scope : Scope) (anchor : Id) : Direction → KeyRange
  | .into => edgesToRange scope.tenant scope.resolved anchor
  | _ => edgesFromRange scope.tenant scope.resolved anchor

/-- `scanNeighbours` over the rows of its iterator, with what its callback keeps. -/
def scanNeighbours {M : Type → Type} [Monad M] [MonadExcept Fault M] {Kept : Type}
    (anchor : Id) (direction : Direction)
    (visit : Kept → Edge Strength → M (Kept × Bool)) :
    Kept → List (Bytes × Bytes) → M Kept
  | kept, [] => pure kept
  | kept, (key, value) :: rest => do
      let (typ, far) ← Result.lift (parseEdgeKey key "graph.scanNeighbours")
      let (fromId, toId) := if direction = .into then (far, anchor) else (anchor, far)
      let edge ← Result.lift
        ((decodeBody codec value fromId toId typ).within "graph.scanNeighbours")
      let (kept, more) ← visit kept edge
      if more then scanNeighbours anchor direction visit kept rest else pure kept

section Writes

variable {Label : Type}

def stage (scope : Scope) (edge : Edge Strength) : TxM Label Unit := do
  Result.lift (scope.validate "graph.Store.Stage")
  Result.lift edge.validate
  let value ← Result.lift ((encodeBody codec edge).within "graph.Store.Stage")
  Tx.set (outKey scope edge.fromId edge.typ edge.toId) value
  Tx.set (inKey scope edge.fromId edge.typ edge.toId) value

def stageDelete (scope : Scope) (fromId toId : Id) (typ : RelationshipType) : TxM Label Unit := do
  Result.lift (scope.validate "graph.Store.StageDelete")
  if fromId = Id.zero ∨ toId = Id.zero then
    throw ⟨.invalid, "graph.Store.StageDelete", "removing an edge needs both endpoints", []⟩
  else if !RelationshipType.valid typ then
    throw ⟨.invalid, "graph.Store.StageDelete", "%q is not a relationship type",
      [.word (RelationshipType.name typ)]⟩
  else
    Tx.delete (outKey scope fromId typ toId)
    Tx.delete (inKey scope fromId typ toId)

/-- `service.scope`. -/
def serviceScope (context : Option TenantId) : Result Scope := do
  let tenant ← requireTenant context
  return ⟨tenant, defaultNamespace⟩

/-- `service.Add`; `created` and `updated` are its two clock readings. -/
def add (context : Option TenantId) (created updated : Time) (edge : Edge Strength) :
    TxM Label Unit := do
  let scope ← Result.lift (serviceScope context)
  Result.lift edge.validate
  let key := outKey scope edge.fromId edge.typ edge.toId
  let edge ← match ← Tx.get key with
    | some old =>
      -- a body that does not decode leaves the caller's creation time alone
      let edge := match decodeBody codec old edge.fromId edge.toId edge.typ with
        | .ok previous => { edge with createdAt := previous.createdAt }
        | .error _ => edge
      Tx.expect key old true
      pure edge
    | none =>
      Tx.expect key [] false
      if edge.createdAt.isZero then pure { edge with createdAt := created } else pure edge
  stage codec scope { edge with updatedAt := updated }

def update (context : Option TenantId) (updated : Time) (fromId toId : Id)
    (typ : RelationshipType) (strength : Strength) : TxM Label Unit := do
  let scope ← Result.lift (serviceScope context)
  let key := outKey scope fromId typ toId
  match ← Tx.get key with
  | none =>
    throw ⟨.notFound, "graph.Update", "there is no %s relationship from %s to %s to update",
      [.word (RelationshipType.name typ), .bytes fromId.bytes, .bytes toId.bytes]⟩
  | some old =>
    let edge ← Result.lift ((decodeBody codec old fromId toId typ).within "graph.Update")
    Tx.expect key old true
    stage codec scope { edge with strength, updatedAt := updated }

def remove (context : Option TenantId) (fromId toId : Id) (typ : RelationshipType) :
    TxM Label Unit := do
  let scope ← Result.lift (serviceScope context)
  stageDelete scope fromId toId typ

/-- `service.RemoveAll`. The scan reads the committed store. -/
def removeAll (context : Option TenantId) (fromId toId : Id) : TxM Label Nat := do
  let scope ← Result.lift (serviceScope context)
  Tx.within "graph.RemoveAll" do
    let rows ← Tx.scan (neighbourRange scope fromId .out)
    scanNeighbours codec fromId .out (fun removed edge =>
      if edge.toId ≠ toId then return (removed, true)
      else do
        stageDelete scope fromId toId edge.typ
        return (removed + 1, true)) 0 rows

/-- One direction of `RemoveEvery`. -/
def removeTouching (scope : Scope) (rid : Id) (removed : Nat) (direction : Direction) :
    TxM Label Nat :=
  Tx.within "graph.RemoveEvery" do
    let rows ← Tx.scan (neighbourRange scope rid direction)
    scanNeighbours codec rid direction (fun removed edge => do
      stageDelete scope edge.fromId edge.toId edge.typ
      return (removed + 1, true)) removed rows

def removeEvery (context : Option TenantId) (rid : Id) : TxM Label Nat := do
  let scope ← Result.lift (serviceScope context)
  let removed ← removeTouching codec scope rid 0 .out
  removeTouching codec scope rid removed .into

inductive Write (Strength : Type) where
  | add (context : Option TenantId) (created updated : Time) (edge : Edge Strength)
  | update (context : Option TenantId) (updated : Time) (fromId toId : Id)
      (typ : RelationshipType) (strength : Strength)
  | remove (context : Option TenantId) (fromId toId : Id) (typ : RelationshipType)
  | removeAll (context : Option TenantId) (fromId toId : Id)
  | removeEvery (context : Option TenantId) (rid : Id)

/-- The call inside a transaction; the removals that count answer their count. -/
def Write.perform : Write Strength → TxM Label (Option Nat)
  | add context created updated edge => do
      Graph.add codec context created updated edge
      return none
  | update context updated fromId toId typ strength => do
      Graph.update codec context updated fromId toId typ strength
      return none
  | remove context fromId toId typ => do
      Graph.remove context fromId toId typ
      return none
  | removeAll context fromId toId => some <$> Graph.removeAll codec context fromId toId
  | removeEvery context rid => some <$> Graph.removeEvery codec context rid

variable {codec}

end Writes

inductive FindingKind where
  | missingReverse
  | orphanReverse
  | reverseDisagrees
  | missingRecord
  | selfEdge
  deriving DecidableEq, Repr

/-- `Finding`; its detail is kept as a format and its operands. -/
structure Finding where
  kind : FindingKind
  fromId : Id
  toId : Id
  typ : RelationshipType
  detail : String
  operands : List Operand := []

def maxFindings : Nat := 1000

structure Report where
  tenant : TenantId
  edges : Nat := 0
  reverse : Nat := 0
  broken : Nat := 0
  findings : List Finding := []
  truncated : Bool := false

/-- `Report.add`: the count stays complete past the listing cap. -/
def Report.add (report : Report) (finding : Finding) : Report :=
  if report.findings.length < maxFindings then
    { report with
      broken := report.broken + 1
      findings := report.findings ++ [finding] }
  else { report with broken := report.broken + 1, truncated := true }

/-- `scanSpace`'s walk over the rows of one edge space. -/
def scanSpace {Kept : Type} (space : Space)
    (visit : Kept → Id → RelationshipType → Id → Bytes → Kept) :
    Kept → List (Bytes × Bytes) → Result Kept
  | kept, [] => .ok kept
  | kept, (key, value) :: rest => do
      let (anchor, typ, far) ← parseOutKey key "graph.Verify"
      let (fromId, toId) := if space = .edgeIn then (far, anchor) else (anchor, far)
      scanSpace space visit (visit kept fromId typ toId value) rest

section Verify

variable (store : Store) (scope : Scope)

/-- `recordChecker`. -/
def recordExists (rid : Id) : Bool :=
  (store.get (record scope.tenant scope.resolved .memory rid)).isSome

def checkEndpoint (fromId : Id) (typ : RelationshipType) (toId : Id) (report : Report)
    (endpoint : Id) : Report :=
  if recordExists store scope endpoint then report
  else report.add ⟨.missingRecord, fromId, toId, typ, "memory %s does not exist",
    [.bytes endpoint.bytes]⟩

/-- Pass one: the report and the reverse keys seen so far, at one canonical edge. -/
def visitOut (kept : Report × List Bytes) (fromId : Id) (typ : RelationshipType) (toId : Id)
    (value : Bytes) : Report × List Bytes :=
  let report := { kept.1 with edges := kept.1.edges + 1 }
  let report := if fromId = toId then
      report.add ⟨.selfEdge, fromId, toId, typ, "a memory is connected to itself", []⟩
    else report
  let report := [fromId, toId].foldl (checkEndpoint store scope fromId typ toId) report
  let reverseKey := inKey scope fromId typ toId
  let report := match store.get reverseKey with
    | none => report.add ⟨.missingReverse, fromId, toId, typ,
        "the edge has no entry in the reverse index; rebuild it", []⟩
    | some reverse =>
      if reverse ≠ value then
        report.add ⟨.reverseDisagrees, fromId, toId, typ,
          "the reverse entry holds different bytes from the edge it is derived from; rebuild it",
          []⟩
      else report
  (report, kept.2 ++ [reverseKey])

def visitIn (seen : List Bytes) (report : Report) (fromId : Id) (typ : RelationshipType)
    (toId : Id) (_ : Bytes) : Report :=
  let report := { report with reverse := report.reverse + 1 }
  if inKey scope fromId typ toId ∈ seen then report
  else report.add ⟨.orphanReverse, fromId, toId, typ,
    "the reverse index holds an entry with no edge behind it; rebuild it", []⟩

/-- `Verify` of one state of the store. -/
def verify : Result Report := do
  scope.validate "graph.Verify"
  let (report, seen) ← scanSpace .edgeOut (visitOut store scope) (⟨scope.tenant, 0, 0, 0, [], false⟩, [])
    (scanRange store (spaceRange scope.tenant scope.resolved .edgeOut))
  scanSpace .edgeIn (visitIn scope seen) report
    (scanRange store (spaceRange scope.tenant scope.resolved .edgeIn))

end Verify

end Remem.Graph
