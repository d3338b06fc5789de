import Remem.Graph.Mirror
import Remem.Storage.Do
import Remem.Storage.Engine

/-!
# Discovered links

A discovery run proposes edges from one record to others. Its transaction asks for each
pair whether any edge connects it, in either direction, and adds an edge where none does.
Every key that would have changed that answer is expected to be absent, so at the instant
of the commit no edge connects a pair that it links.
-/

namespace Remem.Graph

open Base Keys Storage List Batch

def relationshipTypes : List RelationshipType := RelationshipType.names.map Prod.fst

/-- The keys of the edges between two records, in the order `Linked` reads them. -/
def linkKeys (scope : Scope) (first second : Id) : List Bytes :=
  relationshipTypes.flatMap fun typ =>
    [outKey scope first typ second, outKey scope second typ first]

section Model

variable {Strength : Type} [EdgeWeight Strength] (codec : BodyCodec Strength) {Label : Type}

/-- The reads of `Linked`, up to the first key that is there. -/
def findLink : List Bytes → TxM Label Bool
  | [] => return false
  | key :: rest => do
      match ← Tx.get key with
      | some _ => return true
      | none => findLink rest

def linked (context : Option TenantId) (first second : Id) : TxM Label Bool := do
  let scope ← Result.lift (serviceScope context)
  if first = Id.zero ∨ second = Id.zero then
    throw ⟨.invalid, "graph.Linked", "a link check needs two records", []⟩
  else if first = second then
    throw ⟨.invalid, "graph.Linked",
      "a memory cannot be connected to itself, so it is never linked to itself", []⟩
  else
    let found ← findLink (linkKeys scope first second)
    if found then return true
    else
      (linkKeys scope first second).forM fun key => Tx.expect key [] false
      return false

/-- One proposal of `write`, with the clock readings of its `Add`. -/
def propose (context : Option TenantId) (subject : Id) (clock : Time × Time)
    (edge : Edge Strength) : TxM Label (Option (Edge Strength)) := do
  let found ← linked context subject edge.toId
  if found then return none
  else
    add codec context clock.1 clock.2 edge
    return some edge

/-- The body of `write`; it answers the edges it added. -/
def discover (context : Option TenantId) (subject : Id) (clock : Nat → Time × Time) :
    List (Edge Strength) → TxM Label (List (Edge Strength))
  | [] => return []
  | edge :: rest => do
      let added ← propose codec context subject (clock rest.length) edge
      let others ← discover context subject clock rest
      return added.toList ++ others

/-- A call of `write`: the edges that a strategy proposes for the subject, the clock readings
of each attempt, and after which attempts the context is found done. -/
structure Discovery (Strength : Type) where
  context : Option TenantId
  subject : Id
  proposed : List (Edge Strength)
  fromSubject : ∀ edge ∈ proposed, edge.fromId = subject
  clock : Nat → Nat → Time × Time
  cancelled : Nat → Bool

def Discovery.write (call : Discovery Strength) :
    StoreProgram (List (Edge Strength)) (Result Nat) :=
  if call.proposed = [] then return .ok 0
  else do
    let (result, _) ← retry (fun attempts => do
        let result ← attempt id
          (discover codec call.context call.subject (call.clock attempts) call.proposed)
        return (result, attempts + 1)) call.cancelled maxAttempts 0
    return result.map List.length

/-- What runs side by side: discovery runs, and transactions of the edge service's writes. -/
inductive LinkCall (Strength : Type) where
  | discover (call : Discovery Strength)
  | edit (writes : List (Write Strength))

/-- The program of a call. An edit is one transaction, which ends at the first write that
fails. -/
def LinkCall.program : LinkCall Strength → StoreProgram (List (Edge Strength)) (Result Nat)
  | discover call => call.write codec
  | edit writes => do
      let result ← attempt (fun _ => []) (writes.forM fun write => do
        let _ ← write.perform codec)
      return result.map fun _ => writes.length

end Model

def SamePair {Strength : Type} (first second : Edge Strength) : Prop :=
  (first.fromId = second.fromId ∧ first.toId = second.toId) ∨
    (first.fromId = second.toId ∧ first.toId = second.fromId)

theorem mem_relationshipTypes {typ : RelationshipType} :
    typ ∈ relationshipTypes ↔ RelationshipType.valid typ = true := by
  rw [RelationshipType.valid, Option.isSome_iff_ne_none, ne_eq, lookup_eq_none_iff]
  simp only [relationshipTypes, mem_map, not_forall, bne_iff_ne, ne_eq, not_not]
  exact ⟨fun ⟨entry, listed, same⟩ => ⟨entry, listed, same.symm⟩,
    fun ⟨entry, listed, same⟩ => ⟨entry, listed, same.symm⟩⟩

theorem mem_linkKeys {scope : Scope} {first second : Id} {key : Bytes} :
    key ∈ linkKeys scope first second ↔ ∃ typ, RelationshipType.valid typ = true ∧
      (key = outKey scope first typ second ∨ key = outKey scope second typ first) := by
  simp [linkKeys, mem_relationshipTypes]

section Holds

variable {Strength : Type}

/-- What the batch of a discovery transaction that has added the given edges is: it stages
their rows, expects nothing but absence, and expects it of every key between the records
that it links. -/
structure Links (scope : Scope) (added : List (Edge Strength)) (batch : Batch) : Prop where
  ops : ∀ op ∈ batch.ops, ∃ edge ∈ added, ∃ value,
    op = .set (outKey scope edge.fromId edge.typ edge.toId) value ∨
      op = .set (inKey scope edge.fromId edge.typ edge.toId) value
  staged : ∀ edge ∈ added, ∃ value,
    .set (outKey scope edge.fromId edge.typ edge.toId) value ∈ batch.ops
  absent : ∀ condition ∈ batch.conditions, condition.present = false
  expected : ∀ edge ∈ added, ∀ key ∈ linkKeys scope edge.fromId edge.toId,
    ∃ condition ∈ batch.conditions, condition.key = key
  valid : ∀ edge ∈ added, RelationshipType.valid edge.typ = true
  apart : added.Pairwise fun first second => ¬ SamePair first second

variable {scope : Scope} {added : List (Edge Strength)} {batch after : Batch}

theorem Links.of_eq (links : Links scope added batch) (ops : after.ops = batch.ops)
    (conditions : after.conditions = batch.conditions) : Links scope added after := by
  constructor
  · rw [ops]
    exact links.ops
  · rw [ops]
    exact links.staged
  · rw [conditions]
    exact links.absent
  · rw [conditions]
    exact links.expected
  · exact links.valid
  · exact links.apart

theorem links_nil : Links scope ([] : List (Edge Strength)) {} := by
  constructor <;> simp

theorem Links.staged_ne (links : Links scope added batch) (key : Bytes) :
    batch.staged key ≠ some none := by
  intro deleted
  obtain ⟨op, listed, _, value⟩ := mem_of_staged deleted
  obtain ⟨edge, _, written, rfl | rfl⟩ := links.ops op listed <;> cases value

variable {store : Store}

theorem Links.unlinked (links : Links scope added batch) (accepts : batch.Accepts store)
    {edge : Edge Strength} (listed : edge ∈ added) {key : Bytes}
    (between : key ∈ linkKeys scope edge.fromId edge.toId) : store.get key = none := by
  obtain ⟨condition, isCondition, rfl⟩ := links.expected edge listed key between
  have holds := accepts condition isCondition
  rw [Condition.holds, links.absent condition isCondition] at holds
  cases found : store.get condition.key with
  | none => rfl
  | some value =>
    rw [found] at holds
    cases holds

theorem Links.expect (links : Links scope added batch) (key : Bytes) :
    Links scope added (batch.expect key [] false) := by
  have grown : batch.Grows (· = key) (batch.expect key [] false) := .expect batch [] false rfl
  refine ⟨?_, ?_, ?_, ?_, links.valid, links.apart⟩
  · rw [expect_ops]
    exact links.ops
  · rw [expect_ops]
    exact links.staged
  · intro condition listed
    unfold Batch.expect at listed
    split at listed
    · exact links.absent condition listed
    split at listed
    · exact links.absent condition listed
    rcases mem_append.mp listed with earlier | new
    · exact links.absent condition earlier
    · rw [mem_singleton.mp new]
  · intro edge isAdded other between
    obtain ⟨condition, listed, same⟩ := links.expected edge isAdded other between
    exact ⟨condition, grown.conditions_subset listed, same⟩

theorem Links.of_op (links : Links scope added batch) (accepts : batch.Accepts store)
    {other : Scope} {first second : Id} {key : Bytes} {op : Op} (listed : op ∈ batch.ops)
    (isKey : op.key = key) (between : key ∈ linkKeys other first second) :
    (∃ edge ∈ added, key = outKey scope edge.fromId edge.typ edge.toId ∧
      ((edge.fromId = first ∧ edge.toId = second) ∨ (edge.fromId = second ∧ edge.toId = first))) ∧
      ∀ free ∈ linkKeys other first second, store.get free = none := by
  obtain ⟨typ, _, isOut⟩ := mem_linkKeys.mp between
  obtain ⟨edge, isAdded, value, rfl | rfl⟩ := links.ops op listed
  · have same : other.tenant = scope.tenant ∧ other.resolved = scope.resolved ∧
        ((edge.fromId = first ∧ edge.toId = second) ∨
          (edge.fromId = second ∧ edge.toId = first)) := by
      rcases isOut with rfl | rfl
      · obtain ⟨tenants, namespaces, sources, _, targets⟩ := outKey_inj_iff.mp isKey
        exact ⟨tenants.symm, namespaces.symm, .inl ⟨sources, targets⟩⟩
      · obtain ⟨tenants, namespaces, sources, _, targets⟩ := outKey_inj_iff.mp isKey
        exact ⟨tenants.symm, namespaces.symm, .inr ⟨sources, targets⟩⟩
    obtain ⟨tenants, namespaces, ends⟩ := same
    refine ⟨⟨edge, isAdded, isKey.symm, ends⟩, fun free isFree => ?_⟩
    apply links.unlinked accepts isAdded
    obtain ⟨otherTyp, isValid, isFreeKey⟩ := mem_linkKeys.mp isFree
    refine mem_linkKeys.mpr ⟨otherTyp, isValid, ?_⟩
    simp only [outKey, tenants, namespaces] at isFreeKey
    rcases ends with ⟨rfl, rfl⟩ | ⟨rfl, rfl⟩
    · exact isFreeKey
    · exact isFreeKey.symm
  · exfalso
    rcases isOut with rfl | rfl <;> exact outKey_ne_inKey _ _ _ _ _ _ _ _ isKey.symm

def LinkedOnce (scope : Scope) (first second : Id) (store : Store) : Prop :=
  ∀ key ∈ linkKeys scope first second, ∀ other ∈ linkKeys scope first second,
    store.get key ≠ none → store.get other ≠ none → key = other

/-- What discovery may make of the edges between two records: those that are linked stay as
they are, and those that are not are linked at most once. -/
structure LinksOnce (scope : Scope) (first second : Id) (before after : Store) : Prop where
  keeps : (∃ key ∈ linkKeys scope first second, before.get key ≠ none) →
    ∀ key ∈ linkKeys scope first second, after.get key = before.get key
  once : (∀ key ∈ linkKeys scope first second, before.get key = none) →
    LinkedOnce scope first second after

theorem LinksOnce.refl (scope : Scope) (first second : Id) (store : Store) :
    LinksOnce scope first second store store :=
  ⟨fun _ _ _ => rfl, fun free key listed _ _ present => absurd (free key listed) present⟩

theorem LinksOnce.trans {first second : Id} {before middle last : Store}
    (earlier : LinksOnce scope first second before middle)
    (later : LinksOnce scope first second middle last) :
    LinksOnce scope first second before last := by
  have carried : (∃ key ∈ linkKeys scope first second, middle.get key ≠ none) →
      ∀ key ∈ linkKeys scope first second, last.get key = middle.get key := later.keeps
  constructor
  · rintro ⟨key, listed, present⟩ other otherListed
    have same := earlier.keeps ⟨key, listed, present⟩
    rw [← same other otherListed]
    exact later.keeps ⟨key, listed, by rwa [same key listed]⟩ other otherListed
  intro free
  by_cases linkedNow : ∃ key ∈ linkKeys scope first second, middle.get key ≠ none
  · intro key listed other otherListed present otherPresent
    rw [carried linkedNow key listed] at present
    rw [carried linkedNow other otherListed] at otherPresent
    exact earlier.once free key listed other otherListed present otherPresent
  apply later.once
  intro key listed
  by_contra present
  exact linkedNow ⟨key, listed, present⟩

theorem Links.linksOnce (links : Links scope added batch) (accepts : batch.Accepts store)
    (other : Scope) (first second : Id) :
    LinksOnce other first second store (batch.effect store) := by
  constructor
  · rintro ⟨present, isPresent, found⟩ key listed
    refine get_effect_of_not_staged (fun op isOp isKey => found ?_) store
    exact (links.of_op accepts isOp isKey listed).2 present isPresent
  intro free
  have staged : ∀ key ∈ linkKeys other first second, (batch.effect store).get key ≠ none →
      ∃ op ∈ batch.ops, op.key = key := by
    intro key listed found
    by_contra noOp
    apply found
    rw [get_effect_of_not_staged fun op isOp isKey => noOp ⟨op, isOp, isKey⟩]
    exact free key listed
  intro key listed another anotherListed present anotherPresent
  obtain ⟨op, isOp, isKey⟩ := staged key listed present
  obtain ⟨anotherOp, isAnotherOp, isAnother⟩ := staged another anotherListed anotherPresent
  obtain ⟨⟨edge, isAdded, rfl, ends⟩, _⟩ := links.of_op accepts isOp isKey listed
  obtain ⟨⟨twin, isTwin, rfl, twinEnds⟩, _⟩ :=
    links.of_op accepts isAnotherOp isAnother anotherListed
  -- both edges are between the two records, so they are one edge
  have symmetric : Std.Symm fun first second : Edge Strength => ¬ SamePair first second :=
    ⟨fun _ _ apart same => apart (same.imp (fun ⟨sources, targets⟩ =>
      ⟨sources.symm, targets.symm⟩) fun ⟨sources, targets⟩ => ⟨targets.symm, sources.symm⟩)⟩
  have same : edge = twin := by
    by_contra different
    apply links.apart.forall isAdded isTwin different
    rcases ends with ⟨rfl, rfl⟩ | ⟨rfl, rfl⟩
    · exact twinEnds.imp (fun ⟨sources, targets⟩ => ⟨sources.symm, targets.symm⟩)
        fun ⟨sources, targets⟩ => ⟨targets.symm, sources.symm⟩
    · exact twinEnds.symm.imp (fun ⟨sources, targets⟩ => ⟨sources.symm, targets.symm⟩)
        fun ⟨sources, targets⟩ => ⟨targets.symm, sources.symm⟩
  rw [same]

end Holds

section Rules

variable {Strength : Type} {Label : Type} {scope : Scope} {added : List (Edge Strength)}
  {holds : Store → Prop}

def Unstaged (keys : List Bytes) (batch : Batch) : Prop :=
  ∀ key ∈ keys, batch.staged key = none

def Expected (keys : List Bytes) (batch : Batch) : Prop :=
  ∀ key ∈ keys, ∃ condition ∈ batch.conditions, condition.key = key

/-- The batch links the given edges, and holds that no edge is between the ends of one more. -/
def Clear (scope : Scope) (added : List (Edge Strength)) (edge : Edge Strength)
    (batch : Batch) : Prop :=
  Links scope added batch ∧ Unstaged (linkKeys scope edge.fromId edge.toId) batch ∧
    Expected (linkKeys scope edge.fromId edge.toId) batch

theorem triple_findLink (keys done : List Bytes) :
    Triple holds (fun batch => Links scope added batch ∧ Unstaged done batch)
      (findLink keys : TxM Label Bool)
      fun result batch => Links scope added batch ∧
        (result = .ok false → Unstaged (done ++ keys) batch) := by
  induction keys generalizing done with
  | nil =>
    refine Triple.pure fun batch held => ⟨held.1, fun _ => ?_⟩
    rw [append_nil]
    exact held.2
  | cons key rest ih =>
    have reads : Triple holds (fun batch => Links scope added batch ∧ Unstaged done batch)
        (Tx.get key : TxM Label (Option Bytes))
        fun result batch => Links scope added batch ∧
          (result = .ok none → Unstaged (done ++ [key]) batch) := by
      refine Triple.get ?_ ?_
      · intro batch value held isStaged
        refine ⟨held.1, fun same => ?_⟩
        cases same
        exact absurd isStaged (held.1.staged_ne key)
      intro batch store held unstaged _
      refine ⟨held.1.of_eq rfl rfl, fun _ other listed => ?_⟩
      rcases mem_append.mp listed with earlier | new
      · exact held.2 other earlier
      · rw [mem_singleton.mp new]
        exact unstaged
    refine reads.bind ?_ fun _ _ reached => ⟨reached.1, nofun⟩
    intro found
    cases found with
    | some value => exact Triple.pure fun batch reached => ⟨reached.1, nofun⟩
    | none =>
      have later := ih (done ++ [key])
      rw [append_assoc, singleton_append] at later
      exact later.strengthen fun batch reached => ⟨reached.1, reached.2 rfl⟩

theorem triple_expectAbsent {keys all : List Bytes} (subset : keys ⊆ all) (done : List Bytes) :
    Triple holds (fun batch => Links scope added batch ∧ Unstaged all batch ∧ Expected done batch)
      (keys.forM fun key => (Tx.expect key [] false : TxM Label Unit))
      fun result batch => result = .ok () → Links scope added batch ∧ Unstaged all batch ∧
        Expected (done ++ keys) batch := by
  induction keys generalizing done with
  | nil =>
    refine Triple.pure fun batch held _ => ?_
    rw [append_nil]
    exact held
  | cons key rest ih =>
    have expects : Triple holds
        (fun batch => Links scope added batch ∧ Unstaged all batch ∧ Expected done batch)
        (Tx.expect key [] false : TxM Label Unit)
        fun _ batch => Links scope added batch ∧ Unstaged all batch ∧
          Expected (done ++ [key]) batch := by
      refine Triple.update fun batch held => ?_
      obtain ⟨links, unstaged, expected⟩ := held
      refine ⟨links.expect key, fun other listed => ?_, fun other listed => ?_⟩
      · rw [Batch.staged, expect_ops]
        exact unstaged other listed
      rcases mem_append.mp listed with earlier | new
      · obtain ⟨condition, isCondition, same⟩ := expected other earlier
        exact ⟨condition, (Batch.Grows.expect batch [] false rfl).conditions_subset
          isCondition, same⟩
      · rw [mem_singleton.mp new]
        exact condition_of_expect (unstaged key (subset mem_cons_self)) [] false
    have later := ih (subset_of_cons_subset subset) (done ++ [key])
    rw [append_assoc, singleton_append] at later
    exact expects.bind (fun _ => later) (by rintro _ _ _ ⟨⟩)

variable {context : Option TenantId}

theorem triple_linked (isScope : serviceScope context = .ok scope) (first second : Id) :
    Triple holds (Links scope added) (linked context first second : TxM Label Bool)
      fun result batch => (∀ found, result = .ok found → Links scope added batch) ∧
        (result = .ok false → Unstaged (linkKeys scope first second) batch ∧
          Expected (linkKeys scope first second) batch) := by
  refine Triple.lift_bind ?_ fun _ _ _ => ⟨nofun, nofun⟩
  intro resolved same
  obtain rfl : scope = resolved := Except.ok.inj (isScope.symm.trans same)
  split
  · exact Triple.throw fun _ _ => ⟨nofun, nofun⟩
  split
  · exact Triple.throw fun _ _ => ⟨nofun, nofun⟩
  refine Triple.bind ((triple_findLink (linkKeys scope first second) []).strengthen
    fun batch links => ⟨links, fun key listed => by cases listed⟩) ?_
    fun _ _ _ => ⟨nofun, nofun⟩
  intro found
  cases found with
  | true => exact Triple.pure fun batch reached => ⟨fun _ _ => reached.1, nofun⟩
  | false =>
    refine Triple.bind ((triple_expectAbsent (List.Subset.refl _) []).strengthen
      fun batch reached => ⟨reached.1, reached.2 rfl, fun key listed => by cases listed⟩) ?_
      fun _ _ _ => ⟨nofun, nofun⟩
    intro _
    exact Triple.pure fun batch reached =>
      ⟨fun _ _ => (reached rfl).1, fun _ => (reached rfl).2⟩

variable [EdgeWeight Strength] {codec : BodyCodec Strength}

variable {edge : Edge Strength}

omit [EdgeWeight Strength] in
theorem Links.snoc {batch : Batch} (links : Links scope added batch)
    (valid : RelationshipType.valid edge.typ = true)
    (unstaged : Unstaged (linkKeys scope edge.fromId edge.toId) batch)
    (expected : Expected (linkKeys scope edge.fromId edge.toId) batch) (value : Bytes) :
    Links scope (added ++ [edge])
      ((batch.set (outKey scope edge.fromId edge.typ edge.toId) value).set
        (inKey scope edge.fromId edge.typ edge.toId) value) := by
  have ops : ((batch.set (outKey scope edge.fromId edge.typ edge.toId) value).set
      (inKey scope edge.fromId edge.typ edge.toId) value).ops = batch.ops ++
        [.set (outKey scope edge.fromId edge.typ edge.toId) value,
          .set (inKey scope edge.fromId edge.typ edge.toId) value] := by
    simp [Batch.set]
  constructor
  · intro op listed
    rw [ops] at listed
    rcases mem_append.mp listed with earlier | new
    · obtain ⟨other, isAdded, found⟩ := links.ops op earlier
      exact ⟨other, mem_append_left _ isAdded, found⟩
    · refine ⟨edge, by simp, value, ?_⟩
      simpa using new
  · intro other isAdded
    rw [ops]
    rcases mem_append.mp isAdded with earlier | new
    · obtain ⟨written, listed⟩ := links.staged other earlier
      exact ⟨written, mem_append_left _ listed⟩
    · rw [mem_singleton.mp new]
      exact ⟨value, by simp⟩
  · exact links.absent
  · intro other isAdded
    rcases mem_append.mp isAdded with earlier | new
    · exact links.expected other earlier
    · rw [mem_singleton.mp new]
      exact expected
  · intro other isAdded
    rcases mem_append.mp isAdded with earlier | new
    · exact links.valid other earlier
    · rwa [mem_singleton.mp new]
  · refine pairwise_append.mpr ⟨links.apart, pairwise_singleton _ _, ?_⟩
    intro other isAdded last isLast samePair
    rw [mem_singleton.mp isLast] at samePair
    obtain ⟨written, listed⟩ := links.staged other isAdded
    -- the row of the other edge is one of the keys that were read
    have between : outKey scope other.fromId other.typ other.toId ∈
        linkKeys scope edge.fromId edge.toId := by
      refine mem_linkKeys.mpr ⟨other.typ, links.valid other isAdded, ?_⟩
      rcases samePair with ⟨sources, targets⟩ | ⟨sources, targets⟩
      · exact .inl (by rw [sources, targets])
      · exact .inr (by rw [sources, targets])
    exact staged_eq_none_iff.mp (unstaged _ between) _ listed rfl

theorem triple_stage {stored : Edge Strength}
    (ends : stored.fromId = edge.fromId ∧ stored.typ = edge.typ ∧ stored.toId = edge.toId)
    (valid : RelationshipType.valid edge.typ = true) :
    Triple holds (Clear scope added edge) (stage codec scope stored : TxM Label Unit)
      fun result batch => result = .ok () → Links scope (added ++ [edge]) batch := by
  refine Triple.lift_bind (fun _ _ => ?_) fun _ _ _ => nofun
  refine Triple.lift_bind (fun _ _ => ?_) fun _ _ _ => nofun
  refine Triple.lift_bind (fun value _ => ?_) fun _ _ _ => nofun
  obtain ⟨sources, types, targets⟩ := ends
  rw [sources, types, targets]
  intro batch held _
  exact held.1.snoc valid held.2.1 held.2.2 value

theorem valid_of_validate (passed : edge.validate = .ok ()) :
    RelationshipType.valid edge.typ = true := by
  unfold Edge.validate at passed
  by_contra invalid
  simp only [Bool.not_eq_true] at invalid
  simp only [invalid, Bool.not_false, if_true] at passed
  split at passed
  · cases passed
  split at passed
  · cases passed
  · split at passed <;> cases passed

theorem triple_add (isScope : serviceScope context = .ok scope) {created updated : Time} :
    Triple holds (Clear scope added edge) (add codec context created updated edge : TxM Label Unit)
      fun result batch => result = .ok () → Links scope (added ++ [edge]) batch := by
  refine Triple.lift_bind ?_ fun _ _ _ => nofun
  intro resolved same
  obtain rfl : scope = resolved := Except.ok.inj (isScope.symm.trans same)
  refine Triple.lift_bind (fun _ valid => ?_) fun _ _ _ => nofun
  replace valid := valid_of_validate valid
  have keeps : ∀ value present, Triple holds (Clear scope added edge)
      (Tx.expect (outKey scope edge.fromId edge.typ edge.toId) value present : TxM Label Unit)
      fun _ batch => Clear scope added edge batch := by
    -- the key has a condition, so the one that is asked for now is ignored
    intro value present
    refine Triple.update fun batch held => ?_
    obtain ⟨condition, listed, isKey⟩ := held.2.2 _ (mem_linkKeys.mpr ⟨edge.typ, valid, .inl rfl⟩)
    have ignored : batch.expect (outKey scope edge.fromId edge.typ edge.toId) value present =
        batch := by
      unfold Batch.expect
      split
      · rfl
      · rw [if_pos]
        exact any_eq_true.mpr ⟨condition, listed, decide_eq_true isKey⟩
    rw [ignored]
    exact held
  have reads : Triple holds (Clear scope added edge)
      (Tx.get (outKey scope edge.fromId edge.typ edge.toId) : TxM Label (Option Bytes))
      fun _ batch => Clear scope added edge batch :=
    Triple.get (fun _ _ held _ => held) fun _ _ held _ _ => ⟨held.1.of_eq rfl rfl, held.2⟩
  refine reads.bind ?_ fun _ _ _ => nofun
  intro found
  cases found with
  | some old =>
    refine (keeps old true).bind ?_ fun _ _ _ => nofun
    intro _
    refine triple_stage ⟨?_, ?_, ?_⟩ valid
    all_goals
      dsimp only
      split <;> rfl
  | none =>
    refine (keeps [] false).bind ?_ fun _ _ _ => nofun
    intro _
    split <;> exact triple_stage ⟨rfl, rfl, rfl⟩ valid

theorem triple_propose (isScope : serviceScope context = .ok scope) {subject : Id}
    (fromSubject : edge.fromId = subject) {clock : Time × Time} :
    Triple holds (Links scope added)
      (propose codec context subject clock edge : TxM Label (Option (Edge Strength)))
      fun result batch => ∀ more, result = .ok more → Links scope (added ++ more.toList) batch := by
  subst fromSubject
  refine (triple_linked isScope edge.fromId edge.toId).bind ?_ fun _ _ _ _ => nofun
  intro found
  cases found with
  | true =>
    refine Triple.pure fun batch reached more same => ?_
    cases same
    rw [Option.toList_none, append_nil]
    exact reached.1 true rfl
  | false =>
    refine Triple.bind ((triple_add isScope).strengthen fun batch reached =>
      ⟨reached.1 false rfl, reached.2 rfl⟩) ?_ fun _ _ _ _ => nofun
    refine fun _ => Triple.pure fun batch reached more same => ?_
    cases same
    exact reached rfl

theorem triple_discover (isScope : serviceScope context = .ok scope) {subject : Id}
    {clock : Nat → Time × Time} {proposed : List (Edge Strength)}
    (fromSubject : ∀ edge ∈ proposed, edge.fromId = subject) :
    Triple holds (Links scope added)
      (discover codec context subject clock proposed : TxM Label (List (Edge Strength)))
      fun result batch => ∀ more, result = .ok more → Links scope (added ++ more) batch := by
  induction proposed generalizing added with
  | nil =>
    refine Triple.pure fun batch links more same => ?_
    cases same
    rwa [append_nil]
  | cons edge rest ih =>
    refine (triple_propose isScope (fromSubject edge mem_cons_self)).bind ?_ fun _ _ _ _ => nofun
    intro more
    refine Triple.bind ((ih fun later listed =>
      fromSubject later (mem_cons_of_mem _ listed)).strengthen
        fun batch reached => reached more rfl) ?_ fun _ _ _ _ => nofun
    refine fun others => Triple.pure fun batch reached all same => ?_
    cases same
    rw [← append_assoc]
    exact reached others rfl

end Rules

section Runs

variable {Strength : Type} [EdgeWeight Strength] (codec : BodyCodec Strength)

def LinkCall.Commits (call : LinkCall Strength) (payload : Labelled (List (Edge Strength))) :
    Prop :=
  match call with
  | discover call => ∃ scope, serviceScope call.context = .ok scope ∧
      Links scope payload.label payload.batch
  | edit _ => True

theorem performs_discover (call : Discovery Strength) (holds : Store → Prop)
    (refusal : Fault → Prop) :
    (call.write codec).Performs holds refusal
      (fun _ payload => (LinkCall.discover call).Commits payload) (fun _ _ => True) [] := by
  unfold Discovery.write
  split
  · trivial
  next isSome =>
  refine Program.Performs.bind (performs_retry (fun _ _ => True) ?_ _ _ _ trivial)
    fun _ _ _ => trivial
  intro attempts committed _
  refine Program.Performs.bind (performs_attempt ?_) fun _ _ _ => trivial
  cases isScope : serviceScope call.context with
  | ok scope =>
    have discovers : Triple holds (Links scope ([] : List (Edge Strength)))
        (discover codec call.context call.subject (call.clock attempts) call.proposed :
          TxM (List (Edge Strength)) (List (Edge Strength)))
        fun result batch => ∀ added, result = .ok added → Links scope added batch :=
      triple_discover isScope call.fromSubject
    refine (discovers.strengthen ?_).imp ?_
    · intro batch isEmpty
      rw [isEmpty]
      exact links_nil
    · intro result batch reached added same
      exact ⟨scope, isScope, reached added same⟩
  | error fault =>
    -- without a tenant the first proposal fails
    obtain ⟨edge, rest, isCons⟩ := exists_cons_of_ne_nil isSome
    have thrown : discover codec call.context call.subject (call.clock attempts)
        call.proposed = (throw fault : TxM (List (Edge Strength)) (List (Edge Strength))) := by
      rw [isCons, discover, propose, linked, isScope]
      rfl
    rw [thrown]
    exact Triple.throw fun _ _ _ => nofun

theorem performs_edit (writes : List (Write Strength)) (holds : Store → Prop)
    (refusal : Fault → Prop) :
    ((LinkCall.edit writes).program codec).Performs holds refusal
      (fun _ payload => (LinkCall.edit writes).Commits payload) (fun _ _ => True) [] := by
  refine Program.Performs.bind (performs_attempt ?_) fun _ _ _ => trivial
  have stages : StagesPairs holds (writes.forM fun write => do
      let _ ← (write.perform codec : TxM (List (Edge Strength)) (Option Nat))) := by
    induction writes with
    | nil => exact StagesPairs.pure ()
    | cons write rest ih =>
      exact ((stagesPairs_perform write).bind fun _ => StagesPairs.pure _).bind fun _ => ih
  refine (stages.strengthen ?_).imp fun _ _ _ _ _ => trivial
  intro batch isEmpty
  rw [isEmpty]
  exact .nil

theorem performs_link (call : LinkCall Strength) (holds : Store → Prop) (refusal : Fault → Prop) :
    (call.program codec).Performs holds refusal
      (fun _ payload => call.Commits payload) (fun _ _ => True) [] := by
  cases call with
  | discover call => exact performs_discover codec call holds refusal
  | edit writes => exact performs_edit codec writes holds refusal

/-- No discovery transaction links records that are linked when it commits, whatever else
runs; and where only discovery runs, records that are linked keep their edges and records
that are not are linked at most once. -/
theorem discovery_never_doubles (engine : Engine) (initial : Store)
    (schedule : List (Action (LinkCall Strength))) :
    let system := engine.system (LinkCall.program codec)
    let world := system.run initial schedule
    (∀ action entry call scope, entry ∈ system.committing world action →
      entry.call = .discover call → serviceScope call.context = .ok scope →
      ∀ first typ second, (∃ op ∈ entry.batch.batch.ops, op.key = outKey scope first typ second) →
      ∀ other, RelationshipType.valid other = true →
        world.state.get (outKey scope first other second) = none ∧
          world.state.get (outKey scope second other first) = none) ∧
    ((∀ action ∈ schedule, ∀ writes, action ≠ .spawn (.edit writes)) →
      ∀ scope first second, LinksOnce scope first second initial world.state) := by
  intro system world
  have committed : ∀ later, ∀ entry ∈ (system.run initial later).history,
      entry.call.Commits entry.batch :=
    fun later => engine.committed_of_performs
      (fun call => performs_link codec call _ _) initial later
  constructor
  · rintro action entry call scope commits isDiscovery isScope first typ second
      ⟨op, listed, isKey⟩ other valid
    obtain ⟨accepts, _, history⟩ := engine.step_of_committing commits
    have fits := committed (schedule ++ [action]) entry (by
      rw [System.run_append_singleton, history]
      exact mem_cons_self)
    rw [isDiscovery] at fits
    obtain ⟨same, isSame, links⟩ := fits
    obtain rfl : same = scope := Except.ok.inj (isSame.symm.trans isScope)
    have between : op.key ∈ linkKeys same first second := by
      obtain ⟨edge, isAdded, value, rfl | rfl⟩ := links.ops op listed
      · obtain ⟨_, _, sources, types, targets⟩ := outKey_inj_iff.mp isKey
        refine mem_linkKeys.mpr ⟨edge.typ, links.valid edge isAdded, .inl ?_⟩
        rw [Op.key, sources, targets]
      · exact absurd isKey.symm (outKey_ne_inKey _ _ _ _ _ _ _ _)
    obtain ⟨_, free⟩ := links.of_op accepts listed rfl between
    exact ⟨free _ (mem_linkKeys.mpr ⟨other, valid, .inl rfl⟩),
      free _ (mem_linkKeys.mpr ⟨other, valid, .inr rfl⟩)⟩
  · intro onlyDiscovery scope first second
    induction schedule using List.reverseRecOn with
    | nil => exact .refl scope first second initial
    | append_singleton schedule action ih =>
      have earlier := ih fun action listed =>
        onlyDiscovery action (mem_append_left _ listed)
      have last := committed (schedule ++ [action])
      change LinksOnce scope first second initial (system.run initial (schedule ++ [action])).state
      rw [System.run_append_singleton] at last ⊢
      rcases commitsWhole_step engine (LinkCall.program codec)
        (system.run initial schedule) action with
        ⟨same, _, _⟩ | ⟨index, thread, payload, _, found, _, accepts, effect, history, _⟩
      · rw [show (system.step _ action).state = _ from same]
        exact earlier
      · rw [show (system.step _ action).state = _ from effect]
        refine earlier.trans ?_
        have fits := last ⟨index, thread.call, payload⟩ (by
          rw [show (system.step _ action).history = _ from history]
          exact mem_cons_self)
        have spawned : thread.call ∈ schedule.filterMap Action.spawned := by
          have calls : (system.run initial schedule).threads.map Thread.call =
              schedule.filterMap Action.spawned := System.calls_run initial schedule
          rw [← calls]
          exact mem_map_of_mem (mem_of_getElem? found)
        cases isCall : thread.call with
        | discover call =>
          rw [isCall] at fits
          obtain ⟨_, _, links⟩ := fits
          exact links.linksOnce accepts scope first second
        | edit writes =>
          exfalso
          obtain ⟨spawn, listed, spawns⟩ := mem_filterMap.mp spawned
          rw [isCall] at spawns
          cases spawn with
          | spawn call =>
            cases spawns
            exact onlyDiscovery _ (mem_append_left _ listed) writes rfl
          | act index => cases spawns

end Runs

def sampleDiscovery (subject target : Id) : Discovery ℚ where
  context := some (ascii "acme")
  subject := subject
  proposed := [⟨subject, target, ⟨7⟩, 1 / 2, 0, 0, .empty⟩]
  fromSubject := by simp
  clock _ _ := (5, 5)
  cancelled _ := false

/-- Two runs find the two records of a pair unlinked from opposite ends; the first commits,
and the second conflicts, looks again and leaves the pair alone. -/
def race : List (Action (LinkCall ℚ)) :=
  [.spawn (.discover (sampleDiscovery (Id.filled 1) (Id.filled 2))),
    .spawn (.discover (sampleDiscovery (Id.filled 2) (Id.filled 1)))] ++
    List.replicate 17 (.act 0) ++ List.replicate 17 (.act 1) ++ [.act 0] ++
    List.replicate 20 (.act 1)

theorem discovery_never_doubles_race :
    let scope : Scope := ⟨ascii "acme", defaultNamespace⟩
    let world := (Engine.memkv.system (LinkCall.program percentCodec)).run .empty race
    world.state.get (outKey scope (Id.filled 1) ⟨7⟩ (Id.filled 2)) ≠ none ∧
      LinkedOnce scope (Id.filled 1) (Id.filled 2) world.state := by
  refine ⟨by decide +kernel, ?_⟩
  refine ((discovery_never_doubles percentCodec .memkv .empty race).2 ?_ _ _ _).once ?_
  · intro action listed writes isEdit
    subst isEdit
    simp [race] at listed
  · exact fun key _ => OrderedMap.get_empty key

end Remem.Graph
