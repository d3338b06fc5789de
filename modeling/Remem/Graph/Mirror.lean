import Remem.Graph.Service

/-!
# The two edge spaces mirror each other

Every write of the service stages a change of an out-row together with the same
change of its in-row. So whatever a transaction read, and whatever committed
between its reads and its commit, the in-edge space stays the image of the
out-edge space.
-/

namespace Remem.Graph

open Base Keys Storage List

variable {scope other : Scope} {fromId otherFrom toId otherTo : Id}
  {typ otherTyp : RelationshipType}

theorem outKey_inj_iff : outKey scope fromId typ toId = outKey other otherFrom otherTyp otherTo ↔
      scope.tenant = other.tenant ∧ scope.resolved = other.resolved ∧
        fromId = otherFrom ∧ typ = otherTyp ∧ toId = otherTo := by
  constructor
  · intro equal
    rcases beginKey_append_inj equal with ⟨tenants, namespaces, _, tails⟩
    exact ⟨tenants, namespaces, edge_tail_inj tails⟩
  · rintro ⟨tenants, namespaces, rfl, rfl, rfl⟩
    rw [outKey, outKey, tenants, namespaces]

theorem inKey_inj_iff : inKey scope fromId typ toId = inKey other otherFrom otherTyp otherTo ↔
      scope.tenant = other.tenant ∧ scope.resolved = other.resolved ∧
        fromId = otherFrom ∧ typ = otherTyp ∧ toId = otherTo := by
  constructor
  · intro equal
    rcases beginKey_append_inj equal with ⟨tenants, namespaces, _, tails⟩
    rcases edge_tail_inj tails with ⟨targets, types, sources⟩
    exact ⟨tenants, namespaces, sources, types, targets⟩
  · rintro ⟨tenants, namespaces, rfl, rfl, rfl⟩
    rw [inKey, inKey, tenants, namespaces]

theorem outKey_ne_inKey (scope other : Scope) (fromId otherFrom toId otherTo : Id)
    (typ otherTyp : RelationshipType) :
    outKey scope fromId typ toId ≠ inKey other otherFrom otherTyp otherTo := by
  intro equal
  rcases beginKey_append_inj equal with ⟨_, _, spaces, _⟩
  exact absurd spaces (by decide)

/-- The in-edge space of a scope is the image of its out-edge space, and both hold
edge rows only. -/
structure Mirrored (scope : Scope) (store : Store) : Prop where
  agree : ∀ fromId typ toId,
    store.get (inKey scope fromId typ toId) = store.get (outKey scope fromId typ toId)
  outShape : ∀ key value, store.get key = some value →
    (spaceRange scope.tenant scope.resolved .edgeOut).Contains key →
    ∃ fromId typ toId, key = outKey scope fromId typ toId
  inShape : ∀ key value, store.get key = some value →
    (spaceRange scope.tenant scope.resolved .edgeIn).Contains key →
    ∃ fromId typ toId, key = inKey scope fromId typ toId

/-- A change of an edge's out-row and the same change of its in-row. -/
inductive PairedOps : List Op → Prop where
  | nil : PairedOps []
  | set {ops : List Op} (scope : Scope) (fromId : Id) (typ : RelationshipType) (toId : Id)
      (value : Bytes) : PairedOps ops →
      PairedOps (ops ++ [.set (outKey scope fromId typ toId) value,
        .set (inKey scope fromId typ toId) value])
  | delete {ops : List Op} (scope : Scope) (fromId : Id) (typ : RelationshipType)
      (toId : Id) : PairedOps ops →
      PairedOps (ops ++ [.delete (outKey scope fromId typ toId),
        .delete (inKey scope fromId typ toId)])

def PairChanged (store after : Store) (scope : Scope) (fromId : Id) (typ : RelationshipType)
    (toId : Id) (changed : Option Bytes) : Prop :=
  ∀ key, after.get key =
    if key = inKey scope fromId typ toId then changed
    else if key = outKey scope fromId typ toId then changed
    else store.get key

theorem PairedOps.preserves {holds : Store → Prop} {ops : List Op} (paired : PairedOps ops)
    (keeps : ∀ store after scope fromId typ toId changed,
      PairChanged store after scope fromId typ toId changed → holds store → holds after)
    {store : Store} (held : holds store) : holds (ops.foldl Op.apply store) := by
  induction paired with
  | nil => exact held
  | set scope fromId typ toId value _ ih =>
    rw [foldl_append]
    refine keeps _ _ scope fromId typ toId (some value) ?_ ih
    intro key
    simp [Op.apply, OrderedMap.get_set]
  | delete scope fromId typ toId _ ih =>
    rw [foldl_append]
    refine keeps _ _ scope fromId typ toId none ?_ ih
    intro key
    simp [Op.apply, OrderedMap.get_erase]

section PairChanged

variable {store after : Store} {other : Scope} {fromId toId : Id} {typ : RelationshipType}
  {changed : Option Bytes} (pair : PairChanged store after other fromId typ toId changed)

include pair in
theorem PairChanged.rows (scope : Scope) (otherFrom : Id) (otherTyp : RelationshipType)
    (otherTo : Id) :
    (after.get (inKey scope otherFrom otherTyp otherTo) = changed ∧
      after.get (outKey scope otherFrom otherTyp otherTo) = changed) ∨
    (after.get (inKey scope otherFrom otherTyp otherTo) =
        store.get (inKey scope otherFrom otherTyp otherTo) ∧
      after.get (outKey scope otherFrom otherTyp otherTo) =
        store.get (outKey scope otherFrom otherTyp otherTo)) := by
  rw [pair, pair]
  have apart := outKey_ne_inKey scope other otherFrom fromId otherTo toId otherTyp typ
  have apart' := outKey_ne_inKey other scope fromId otherFrom toId otherTo typ otherTyp
  simp only [apart, apart'.symm, if_false, inKey_inj_iff, outKey_inj_iff]
  split
  · exact .inl ⟨rfl, rfl⟩
  · exact .inr ⟨rfl, rfl⟩

include pair in
theorem PairChanged.outShape {scope : Scope} (shaped : ∀ key value, store.get key = some value →
      (spaceRange scope.tenant scope.resolved .edgeOut).Contains key →
      ∃ fromId typ toId, key = outKey scope fromId typ toId) :
    ∀ key value, after.get key = some value →
      (spaceRange scope.tenant scope.resolved .edgeOut).Contains key →
      ∃ fromId typ toId, key = outKey scope fromId typ toId := by
  intro key value found inside
  rw [pair] at found
  split at found
  · next equal =>
    rw [equal, inKey, edgeIn, contains_spaceRange] at inside
    exact absurd inside.2.2 (by decide)
  split at found
  · next equal =>
    rw [equal, outKey, edgeOut, contains_spaceRange] at inside
    refine ⟨fromId, typ, toId, ?_⟩
    rw [equal, outKey_inj_iff]
    exact ⟨inside.1.symm, inside.2.1.symm, rfl, rfl, rfl⟩
  · exact shaped key value found inside

include pair in
theorem PairChanged.inShape {scope : Scope} (shaped : ∀ key value, store.get key = some value →
      (spaceRange scope.tenant scope.resolved .edgeIn).Contains key →
      ∃ fromId typ toId, key = inKey scope fromId typ toId) :
    ∀ key value, after.get key = some value →
      (spaceRange scope.tenant scope.resolved .edgeIn).Contains key →
      ∃ fromId typ toId, key = inKey scope fromId typ toId := by
  intro key value found inside
  rw [pair] at found
  split at found
  · next equal =>
    rw [equal, inKey, edgeIn, contains_spaceRange] at inside
    refine ⟨fromId, typ, toId, ?_⟩
    rw [equal, inKey_inj_iff]
    exact ⟨inside.1.symm, inside.2.1.symm, rfl, rfl, rfl⟩
  split at found
  · next equal =>
    rw [equal, outKey, edgeOut, contains_spaceRange] at inside
    exact absurd inside.2.2 (by decide)
  · exact shaped key value found inside

end PairChanged

theorem Mirrored.paired {scope : Scope} {store : Store} {ops : List Op}
    (mirrored : Mirrored scope store) (paired : PairedOps ops) :
    Mirrored scope (ops.foldl Op.apply store) := by
  refine paired.preserves ?_ mirrored
  intro store after other fromId typ toId changed pair mirrored
  refine ⟨?_, pair.outShape mirrored.outShape, pair.inShape mirrored.inShape⟩
  intro otherFrom otherTyp otherTo
  rcases pair.rows scope otherFrom otherTyp otherTo with ⟨inRow, outRow⟩ | ⟨inRow, outRow⟩
  · rw [inRow, outRow]
  · rw [inRow, outRow, mirrored.agree]

section Writes

variable {Strength : Type} {codec : BodyCodec Strength} {Label : Type} {holds : Store → Prop}

def StagesPairs {Value : Type} (holds : Store → Prop) (computation : TxM Label Value) : Prop :=
  Triple holds (fun batch => PairedOps batch.ops) computation fun _ batch => PairedOps batch.ops

theorem StagesPairs.bind {Value Other : Type} {computation : TxM Label Value}
    {continuation : Value → TxM Label Other} (first : StagesPairs holds computation)
    (next : ∀ value, StagesPairs holds (continuation value)) :
    StagesPairs holds (computation >>= continuation) :=
  Triple.keeps_bind first next

variable {Value : Type} (scope : Scope) (fromId : Id) (typ : RelationshipType) (toId : Id)

theorem StagesPairs.lift (result : Result Value) :
    StagesPairs holds (Result.lift result : TxM Label Value) :=
  Triple.lift fun _ paired => paired

theorem StagesPairs.pure (value : Value) : StagesPairs holds (Pure.pure value : TxM Label Value) :=
  Triple.pure fun _ paired => paired

theorem StagesPairs.throw (fault : Fault) :
    StagesPairs holds (MonadExcept.throw fault : TxM Label Value) :=
  Triple.throw fun _ paired => paired

theorem StagesPairs.get (key : Bytes) : StagesPairs holds (Tx.get key : TxM Label (Option Bytes)) :=
  Triple.get (fun _ _ paired _ => paired) fun _ _ paired _ _ => paired

theorem StagesPairs.expect (key value : Bytes) (present : Bool) :
    StagesPairs holds (Tx.expect key value present : TxM Label Unit) := by
  apply Triple.update
  intro batch paired
  rwa [Batch.expect_ops]

theorem StagesPairs.set (value : Bytes) : StagesPairs holds (do
      Tx.set (outKey scope fromId typ toId) value
      Tx.set (inKey scope fromId typ toId) value : TxM Label Unit) := by
  intro batch paired
  have pair := PairedOps.set scope fromId typ toId value paired
  change PairedOps ((batch.set _ value).set _ value).ops
  simpa [Batch.set] using pair

theorem StagesPairs.delete :
    StagesPairs holds (do
      Tx.delete (outKey scope fromId typ toId)
      Tx.delete (inKey scope fromId typ toId) : TxM Label Unit) := by
  intro batch paired
  have pair := PairedOps.delete scope fromId typ toId paired
  change PairedOps ((batch.delete _).delete _).ops
  simpa [Batch.delete] using pair

theorem stagesPairs_stageDelete (typ : RelationshipType) :
    StagesPairs holds (stageDelete scope fromId toId typ : TxM Label Unit) := by
  refine (StagesPairs.lift _).bind fun _ => ?_
  split
  · exact StagesPairs.throw _
  split
  · exact StagesPairs.throw _
  · exact StagesPairs.delete scope fromId typ toId

theorem stagesPairs_scanNeighbours {Kept : Type} (anchor : Id) (direction : Direction)
    {visit : Kept → Edge Strength → TxM Label (Kept × Bool)}
    (visits : ∀ kept edge, StagesPairs holds (visit kept edge))
    (kept : Kept) (rows : List (Bytes × Bytes)) :
    StagesPairs holds (scanNeighbours codec anchor direction visit kept rows) := by
  induction rows generalizing kept with
  | nil => exact StagesPairs.pure kept
  | cons row rest ih =>
    obtain ⟨key, value⟩ := row
    unfold scanNeighbours
    refine (StagesPairs.lift _).bind fun parsed => ?_
    refine (StagesPairs.lift _).bind fun edge => ?_
    refine (visits kept edge).bind ?_
    rintro ⟨next, more⟩
    cases more with
    | true => exact ih next
    | false => exact StagesPairs.pure _

theorem StagesPairs.scan (range : KeyRange) :
    StagesPairs holds (Tx.scan range : TxM Label (List (Bytes × Bytes))) :=
  Triple.scan fun _ _ paired _ => paired

theorem StagesPairs.within {computation : TxM Label Value} (op : String)
    (stages : StagesPairs holds computation) : StagesPairs holds (Tx.within op computation) :=
  Triple.within stages

theorem stagesPairs_removeAll (context : Option TenantId) (fromId toId : Id) :
    StagesPairs holds (removeAll codec context fromId toId : TxM Label Nat) := by
  refine (StagesPairs.lift _).bind fun scope => StagesPairs.within _ ?_
  refine (StagesPairs.scan _).bind fun rows => ?_
  apply stagesPairs_scanNeighbours
  intro removed edge
  split
  · exact StagesPairs.pure _
  · exact (stagesPairs_stageDelete _ _ _ _).bind fun _ => StagesPairs.pure _

theorem stagesPairs_removeTouching (rid : Id) (removed : Nat) (direction : Direction) :
    StagesPairs holds (removeTouching codec scope rid removed direction : TxM Label Nat) := by
  refine StagesPairs.within _ ((StagesPairs.scan _).bind fun rows => ?_)
  apply stagesPairs_scanNeighbours
  intro removed edge
  exact (stagesPairs_stageDelete _ _ _ _).bind fun _ => StagesPairs.pure _

variable [EdgeWeight Strength]

theorem stagesPairs_stage (scope : Scope) (edge : Edge Strength) :
    StagesPairs holds (stage codec scope edge : TxM Label Unit) := by
  refine (StagesPairs.lift _).bind fun _ => (StagesPairs.lift _).bind fun _ =>
    (StagesPairs.lift _).bind fun value => ?_
  exact StagesPairs.set scope edge.fromId edge.typ edge.toId value

theorem stagesPairs_add (context : Option TenantId) (created updated : Time)
    (edge : Edge Strength) :
    StagesPairs holds (add codec context created updated edge : TxM Label Unit) := by
  refine (StagesPairs.lift _).bind fun scope => (StagesPairs.lift _).bind fun _ =>
    (StagesPairs.get _).bind fun found => ?_
  cases found with
  | some old =>
    exact (StagesPairs.expect _ _ _).bind fun _ =>
      (StagesPairs.pure _).bind fun _ => stagesPairs_stage _ _
  | none =>
    refine (StagesPairs.expect _ _ _).bind fun _ => ?_
    split <;> exact stagesPairs_stage _ _

theorem stagesPairs_update (context : Option TenantId) (updated : Time) (fromId toId : Id)
    (typ : RelationshipType) (strength : Strength) :
    StagesPairs holds (update codec context updated fromId toId typ strength : TxM Label Unit) := by
  refine (StagesPairs.lift _).bind fun scope => (StagesPairs.get _).bind fun found => ?_
  cases found with
  | none => exact StagesPairs.throw _
  | some old =>
    exact (StagesPairs.lift _).bind fun edge => (StagesPairs.expect _ _ _).bind fun _ =>
      stagesPairs_stage _ _

theorem stagesPairs_perform (write : Write Strength) :
    StagesPairs holds (write.perform codec : TxM Label (Option Nat)) := by
  cases write with
  | add context created updated edge =>
    exact (stagesPairs_add _ _ _ _).bind fun _ => StagesPairs.pure _
  | update context updated fromId toId typ strength =>
    exact (stagesPairs_update _ _ _ _ _ _).bind fun _ => StagesPairs.pure _
  | remove context fromId toId typ =>
    refine StagesPairs.bind ?_ fun _ => StagesPairs.pure _
    exact (StagesPairs.lift _).bind fun scope => stagesPairs_stageDelete _ _ _ _
  | removeAll context fromId toId =>
    exact (stagesPairs_removeAll _ _ _).bind fun _ => StagesPairs.pure _
  | removeEvery context rid =>
    refine StagesPairs.bind ?_ fun _ => StagesPairs.pure _
    exact (StagesPairs.lift _).bind fun scope =>
      (stagesPairs_removeTouching _ _ _ _).bind fun _ =>
        stagesPairs_removeTouching _ _ _ _

end Writes

theorem length_edge_tail (anchor far : Id) (typ : RelationshipType) :
    (anchor.bytes ++ (uint16 typ.code ++ far.bytes)).length = edgeTail := by
  simp [anchor.width, far.width, uint16, edgeTail]
  omega

theorem parseOutKey_append (head : Bytes) (anchor far : Id) (typ : RelationshipType) (op : String) :
    parseOutKey (head ++ (anchor.bytes ++ (uint16 typ.code ++ far.bytes))) op =
      .ok (anchor, typ, far) := by
  have width := length_edge_tail anchor far typ
  have long : ¬ (head ++ (anchor.bytes ++ (uint16 typ.code ++ far.bytes))).length <
      edgeTail := by
    rw [length_append, width]
    omega
  have tail : (head ++ (anchor.bytes ++ (uint16 typ.code ++ far.bytes))).drop
      ((head ++ (anchor.bytes ++ (uint16 typ.code ++ far.bytes))).length - edgeTail) =
      anchor.bytes ++ (uint16 typ.code ++ far.bytes) := by
    rw [length_append, width, Nat.add_sub_cancel, drop_left]
  have codeWidth : (uint16 typ.code).length = 2 := length_bigEndian 2 _
  have farPart : (anchor.bytes ++ (uint16 typ.code ++ far.bytes)).drop (idLen + 2) = far.bytes := by
    rw [← append_assoc, drop_left']
    rw [length_append, anchor.width, codeWidth]
  have anchorPart : (anchor.bytes ++ (uint16 typ.code ++ far.bytes)).take idLen =
      anchor.bytes := take_left' anchor.width
  have typePart : tailType (anchor.bytes ++ (uint16 typ.code ++ far.bytes)) = typ := by
    obtain ⟨code⟩ := typ
    rw [tailType, drop_left' anchor.width, take_left' codeWidth, uint16,
      ofBigEndian_bigEndian, Nat.mod_eq_of_lt (show code.toNat < 256 ^ 2 from code.toNat_lt)]
    exact congrArg RelType.mk UInt16.ofNat_toNat
  rw [parseOutKey, if_neg long]
  simp only [tail, farPart, anchorPart, typePart]
  simp [Id.fromBytes, anchor.width, far.width]

def FindingKind.aboutReverse : FindingKind → Bool
  | missingReverse | orphanReverse | reverseDisagrees => true
  | missingRecord | selfEdge => false

def Report.Agrees (report : Report) : Prop :=
  ∀ finding ∈ report.findings, finding.kind.aboutReverse = false

theorem Report.Agrees.add {report : Report} (agrees : report.Agrees) {finding : Finding}
    (other : finding.kind.aboutReverse = false) : (report.add finding).Agrees := by
  unfold Report.add
  split
  · intro listed membership
    rcases mem_append.mp membership with earlier | new
    · exact agrees listed earlier
    · rw [mem_singleton.mp new]
      exact other
  · exact agrees

section Verify

variable {store : Store} {scope : Scope}

theorem Report.Agrees.checkEndpoint {report : Report} (agrees : report.Agrees)
    (fromId toId endpoint : Id) (typ : RelationshipType) :
    (checkEndpoint store scope fromId typ toId report endpoint).Agrees := by
  unfold Graph.checkEndpoint
  split
  · exact agrees
  · exact agrees.add rfl

theorem visitOut_agrees {kept : Report × List Bytes} {fromId toId : Id}
    {typ : RelationshipType} {value : Bytes} (agrees : kept.1.Agrees)
    (reverse : store.get (inKey scope fromId typ toId) = some value) :
    (visitOut store scope kept fromId typ toId value).1.Agrees := by
  have counted : Report.Agrees { kept.1 with edges := kept.1.edges + 1 } := agrees
  simp only [visitOut, reverse, foldl_cons, foldl_nil, ne_eq, not_true_eq_false, if_false]
  split
  · exact (((counted.add rfl).checkEndpoint _ _ _ _).checkEndpoint _ _ _ _)
  · exact ((counted.checkEndpoint _ _ _ _).checkEndpoint _ _ _ _)

@[simp]
theorem visitOut_seen (kept : Report × List Bytes) (fromId toId : Id)
    (typ : RelationshipType) (value : Bytes) :
    (visitOut store scope kept fromId typ toId value).2 =
      kept.2 ++ [inKey scope fromId typ toId] := rfl

theorem scanSpace_out (rows : List (Bytes × Bytes)) (kept : Report × List Bytes)
    (agrees : kept.1.Agrees)
    (mirrored : ∀ row ∈ rows, ∃ fromId typ toId, row.1 = outKey scope fromId typ toId ∧
      store.get (inKey scope fromId typ toId) = some row.2) :
    ∃ after, scanSpace .edgeOut (visitOut store scope) kept rows = .ok after ∧
      after.1.Agrees ∧ (∀ key ∈ kept.2, key ∈ after.2) ∧
      ∀ fromId typ toId value, (outKey scope fromId typ toId, value) ∈ rows →
        inKey scope fromId typ toId ∈ after.2 := by
  induction rows generalizing kept with
  | nil => exact ⟨kept, rfl, agrees, fun _ membership => membership, by simp⟩
  | cons row rest ih =>
    obtain ⟨key, value⟩ := row
    rcases mirrored _ mem_cons_self with ⟨fromId, typ, toId, rfl, reverse⟩
    have visited := visitOut_agrees agrees reverse
    rcases ih (visitOut store scope kept fromId typ toId value) visited
      (fun other membership => mirrored other (mem_cons_of_mem _ membership)) with
      ⟨after, walked, afterAgrees, carried, seen⟩
    refine ⟨after, ?_, afterAgrees, ?_, ?_⟩
    · rw [scanSpace, outKey, edgeOut, parseOutKey_append]
      exact walked
    · intro other membership
      exact carried other (by simp [membership])
    · intro otherFrom otherTyp otherTo otherValue membership
      rcases mem_cons.mp membership with equal | later
      · rcases outKey_inj_iff.mp (congrArg Prod.fst equal) with ⟨_, _, rfl, rfl, rfl⟩
        exact carried _ (by simp)
      · exact seen _ _ _ _ later

theorem scanSpace_in (rows : List (Bytes × Bytes)) (seen : List Bytes) (report : Report)
    (agrees : report.Agrees)
    (behind : ∀ row ∈ rows, ∃ fromId typ toId, row.1 = inKey scope fromId typ toId ∧
      inKey scope fromId typ toId ∈ seen) :
    ∃ after, scanSpace .edgeIn (visitIn scope seen) report rows = .ok after ∧ after.Agrees := by
  induction rows generalizing report with
  | nil => exact ⟨report, rfl, agrees⟩
  | cons row rest ih =>
    obtain ⟨key, value⟩ := row
    rcases behind _ mem_cons_self with ⟨fromId, typ, toId, rfl, found⟩
    have counted : Report.Agrees { report with reverse := report.reverse + 1 } := agrees
    rcases ih _ counted (fun other membership => behind other (mem_cons_of_mem _ membership)) with
      ⟨after, walked, afterAgrees⟩
    refine ⟨after, ?_, afterAgrees⟩
    rw [scanSpace, inKey, edgeIn, parseOutKey_append]
    simp only [bind, Except.bind, if_true, visitIn, found]
    exact walked

theorem verify_agrees (mirrored : Mirrored scope store) (tenanted : scope.tenant ≠ []) :
    ∃ report, verify store scope = .ok report ∧ report.Agrees := by
  have outRows : ∀ row ∈ scanRange store (spaceRange scope.tenant scope.resolved .edgeOut),
      ∃ fromId typ toId, row.1 = outKey scope fromId typ toId ∧
        store.get (inKey scope fromId typ toId) = some row.2 := by
    rintro ⟨key, value⟩ membership
    rcases OrderedMap.mem_scan.mp membership with ⟨found, inside⟩
    rcases mirrored.outShape key value found (of_decide_eq_true inside) with
      ⟨fromId, typ, toId, rfl⟩
    exact ⟨fromId, typ, toId, rfl, (mirrored.agree _ _ _).trans found⟩
  rcases scanSpace_out _ (⟨scope.tenant, 0, 0, 0, [], false⟩, []) (by simp [Report.Agrees])
    outRows with ⟨⟨report, seen⟩, walked, agrees, _, allSeen⟩
  have inRows : ∀ row ∈ scanRange store (spaceRange scope.tenant scope.resolved .edgeIn),
      ∃ fromId typ toId, row.1 = inKey scope fromId typ toId ∧
        inKey scope fromId typ toId ∈ seen := by
    rintro ⟨key, value⟩ membership
    rcases OrderedMap.mem_scan.mp membership with ⟨found, inside⟩
    rcases mirrored.inShape key value found (of_decide_eq_true inside) with
      ⟨fromId, typ, toId, rfl⟩
    refine ⟨fromId, typ, toId, rfl, allSeen fromId typ toId value ?_⟩
    refine OrderedMap.mem_scan.mpr ⟨(mirrored.agree _ _ _).symm.trans found, ?_⟩
    exact decide_eq_true ((contains_spaceRange _ _ _ _ _ _ _).mpr ⟨rfl, rfl, rfl⟩)
  rcases scanSpace_in _ seen report agrees inRows with ⟨after, finished, afterAgrees⟩
  refine ⟨after, ?_, afterAgrees⟩
  rw [verify, Scope.validate, if_neg tenanted]
  simp only [bind, Except.bind]
  rw [walked]
  exact finished

end Verify

section Runs

variable {Strength : Type} [EdgeWeight Strength] (codec : BodyCodec Strength)

theorem mirrored_of_empty {tenant : TenantId} {store : Store}
    (noRows : ∀ key value, store.get key = some value → ¬ (tenantRange tenant).Contains key) :
    Mirrored ⟨tenant, defaultNamespace⟩ store := by
  have absent : ∀ (ns : Namespace) (space : Space) (rest : Bytes),
      store.get (beginKey tenant ns space ++ rest) = none := by
    intro ns space rest
    rw [Option.eq_none_iff_forall_ne_some]
    intro value found
    exact noRows _ value found ((contains_tenantRange _ _ _ _ _).mpr rfl)
  have outside : ∀ key value space, store.get key = some value →
      ¬ (spaceRange tenant defaultNamespace space).Contains key := by
    intro key value space found inside
    rw [spaceRange, contains_prefixRange] at inside
    obtain ⟨rest, rfl⟩ := inside
    rw [show scopePrefix tenant defaultNamespace ++ [space.byte] ++ rest =
      beginKey tenant defaultNamespace space ++ rest from rfl, absent] at found
    cases found
  refine ⟨?_, ?_, ?_⟩
  · intro fromId typ toId
    rw [inKey, edgeIn, outKey, edgeOut, absent, absent]
  · intro key value found inside
    exact absurd inside (outside key value .edgeOut found)
  · intro key value found inside
    exact absurd inside (outside key value .edgeIn found)

theorem mirrored_run {initial : Store} {scope : Scope} (mirrored : Mirrored scope initial)
    (schedule : List (Action (List (Write Strength)))) :
    Mirrored scope ((transactions (Write.perform codec)).run initial schedule).state :=
  invariant_of_transactions (fun store _ => Mirrored scope store)
    (fun _ batch => PairedOps batch.ops) mirrored PairedOps.nil
    (fun write _ => stagesPairs_perform write)
    (fun _ _ _ _ paired held _ => held.paired paired) schedule

/-- From an empty tenant, in every schedule of any transactions of the service's
writes: the in-edge space is the image of the out-edge space, each pair of rows
holds identical bytes, and `Verify` reports no disagreement. -/
theorem edge_spaces_mirror (tenant : TenantId) (initial : Store)
    (noRows : ∀ key value, initial.get key = some value → ¬ (tenantRange tenant).Contains key)
    (schedule : List (Action (List (Write Strength)))) :
    let scope : Scope := ⟨tenant, defaultNamespace⟩
    let store := ((transactions (Write.perform codec)).run initial schedule).state
    (∀ fromId typ toId, store.get (inKey scope fromId typ toId) =
      store.get (outKey scope fromId typ toId)) ∧
    (∀ key value, (spaceRange tenant defaultNamespace .edgeIn).Contains key →
      (store.get key = some value ↔ ∃ fromId typ toId, key = inKey scope fromId typ toId ∧
        store.get (outKey scope fromId typ toId) = some value)) ∧
    (tenant ≠ [] → ∃ report, verify store scope = .ok report ∧
      ∀ finding ∈ report.findings, finding.kind ≠ .missingReverse ∧
        finding.kind ≠ .orphanReverse ∧ finding.kind ≠ .reverseDisagrees) := by
  intro scope store
  have mirrored : Mirrored scope store :=
    mirrored_run codec (mirrored_of_empty noRows) schedule
  refine ⟨mirrored.agree, ?_, ?_⟩
  · intro key value inside
    constructor
    · intro found
      rcases mirrored.inShape key value found inside with ⟨fromId, typ, toId, rfl⟩
      exact ⟨fromId, typ, toId, rfl, (mirrored.agree _ _ _).symm.trans found⟩
    · rintro ⟨fromId, typ, toId, rfl, found⟩
      exact (mirrored.agree _ _ _).trans found
  · intro tenanted
    rcases verify_agrees mirrored tenanted with ⟨report, verified, agrees⟩
    refine ⟨report, verified, ?_⟩
    intro finding membership
    have other := agrees finding membership
    refine ⟨?_, ?_, ?_⟩ <;>
    · intro bad
      rw [bad] at other
      cases other

end Runs

theorem edge_spaces_mirror_added :
    let scope : Scope := ⟨ascii "acme", defaultNamespace⟩
    let store := ((transactions (Write.perform percentCodec)).run .empty
      [.spawn [.add (some (ascii "acme")) 5 5 ⟨Id.filled 1, Id.filled 2, ⟨1⟩, 1 / 2, 0, 0, .empty⟩],
        .act 0, .act 0]).state
    store.get (outKey scope (Id.filled 1) ⟨1⟩ (Id.filled 2)) =
        some (Codec.headerFor Codec.codecEdgeProtobuf ++ [50]) ∧
      store.get (inKey scope (Id.filled 1) ⟨1⟩ (Id.filled 2)) =
        store.get (outKey scope (Id.filled 1) ⟨1⟩ (Id.filled 2)) := by
  refine ⟨by decide +kernel, ?_⟩
  exact (edge_spaces_mirror percentCodec (ascii "acme") .empty
    (fun key value found => by simp at found) _).1 _ _ _

end Remem.Graph
