import Remem.Events.Rules

/-!
# The stream only grows

Transactions append events, remove old ones and write records. An append chooses
its position by looking for a free one, and nothing at the commit checks that the
position is free still: two transactions can choose the same one. Where every
position is free when its event is committed, no event is lost and no two share a
position.
-/

namespace Remem.Events

open Base Keys Storage List Batch Triple

/-- One step of a transaction: a write to a stream, or a record write conditional on what
the record held. A string's length is an `int`. -/
inductive Operation where
  | append (event : Event) (fits : event.namespaceName.length < 2 ^ 63)
  | trim (scope : Scope) (cutoff : Time) (max : Int)
      (fits : scope.namespaceName.length < 2 ^ 63)
  | deleteSubject (scope : Scope) (fits : scope.namespaceName.length < 2 ^ 63)
  | writeRecord (tenant : TenantId) (ns : Namespace) (recordType : RecordType)
      (rid : Id) (original body : Option Bytes)

/-- The step in a transaction; an append answers its event. -/
def Operation.perform {Label : Type} (codec : EventCodec) : Operation → TxM Label (Option Event)
  | append event _ => some <$> Events.append codec event
  | trim scope cutoff max _ => do
      let _ ← Events.trim codec scope cutoff max
      return none
  | deleteSubject scope _ => do
      let _ ← Events.deleteSubject codec scope
      return none
  | writeRecord tenant ns recordType rid original body => do
      let key := record tenant ns recordType rid
      Tx.expect key (original.getD []) original.isSome
      match body with
      | some value => Tx.set key value
      | none => Tx.delete key
      return none

abbrev Work := List (Operation × Result (Option Event))

def appended (work : Work) : List Event :=
  work.filterMap fun step => match step.2 with
    | .ok (some event) => some event
    | _ => none

def Scope.Of (scope : Scope) (event : Event) : Prop :=
  scope.tenant = event.tenant ∧ scope.resolved = event.scope.resolved ∧
    scope.subject = event.subject

/-- The step removes events of this kind: a trim whose cutoff is after the event, or the
deletion of its subject. -/
def Operation.Covers : Operation → Event → Prop
  | trim scope cutoff _ _, event =>
    scope.Of event ∧ unixMilli event.instant < unixMilli cutoff
  | deleteSubject scope _, event => scope.Of event
  | _, _ => False

instance (scope : Scope) (event : Event) : Decidable (scope.Of event) :=
  inferInstanceAs (Decidable (_ ∧ _))

instance : ∀ (operation : Operation) (event : Event), Decidable (operation.Covers event)
  | .trim _ _ _ _, _ => inferInstanceAs (Decidable (_ ∧ _))
  | .deleteSubject _ _, _ => inferInstanceAs (Decidable (_ ∧ _ ∧ _))
  | .append _ _, _ => inferInstanceAs (Decidable False)
  | .writeRecord _ _ _ _ _ _, _ => inferInstanceAs (Decidable False)

def Operation.CoversKey : Operation → Bytes → Prop
  | trim scope cutoff _ _, key => ∃ ms seq, key = scope.key ms seq ∧ ms < unixMilli cutoff
  | deleteSubject scope _, key => ∃ ms seq, key = scope.key ms seq
  | _, _ => False

variable {operation : Operation} {event : Event}

theorem Operation.covers_of_coversKey (covers : operation.CoversKey event.key) :
    operation.Covers event := by
  cases operation with
  | append => exact covers
  | writeRecord => exact covers
  | trim scope cutoff max fits =>
    obtain ⟨ms, seq, same, before⟩ := covers
    obtain ⟨tenants, namespaces, subjects, instants, _⟩ := event_inj same
    exact ⟨⟨tenants.symm, namespaces.symm, subjects.symm⟩, instants ▸ before⟩
  | deleteSubject scope fits =>
    obtain ⟨ms, seq, same⟩ := covers
    obtain ⟨tenants, namespaces, subjects, _, _⟩ := event_inj same
    exact ⟨tenants.symm, namespaces.symm, subjects.symm⟩

theorem Operation.Covers.of_key_eq {first second : Event} (covers : operation.Covers first)
    (same : first.key = second.key) : operation.Covers second := by
  obtain ⟨tenants, namespaces, subjects, instants, _⟩ := Event.key_eq_iff.mp same
  cases operation with
  | append => exact covers
  | writeRecord => exact covers
  | trim scope cutoff max fits =>
    obtain ⟨⟨isTenant, isNamespace, isSubject⟩, before⟩ := covers
    exact ⟨⟨isTenant.trans tenants, isNamespace.trans namespaces, isSubject.trans subjects⟩,
      instants ▸ before⟩
  | deleteSubject scope fits =>
    obtain ⟨isTenant, isNamespace, isSubject⟩ := covers
    exact ⟨isTenant.trans tenants, isNamespace.trans namespaces, isSubject.trans subjects⟩

def RecordKey (key : Bytes) : Prop :=
  ∃ tenant ns recordType rid, key = record tenant ns recordType rid

theorem not_recordKey (event : Event) : ¬ RecordKey event.key := by
  rintro ⟨tenant, ns, recordType, rid, same⟩
  obtain ⟨_, _, spaces, _⟩ := beginKey_append_inj same
  exact absurd spaces (by decide)

/-- What a transaction has staged once it has appended these events and made these steps. -/
structure Staged (codec : EventCodec) (events : List Event) (steps : List Operation)
    (ops : List Op) : Prop where
  rows : ∀ event ∈ events, Written event ∧
    ∃ value, codec.marshal event.row = some value ∧ .set event.key value ∈ ops
  sets : ∀ key value, .set key value ∈ ops →
    RecordKey key ∨ ∃ event ∈ events, key = event.key ∧ codec.marshal event.row = some value
  deletes : ∀ key, .delete key ∈ ops → RecordKey key ∨ ∃ step ∈ steps, step.CoversKey key
  apart : events.Pairwise fun first second => first.key = second.key → .delete first.key ∈ ops

namespace Staged

variable {codec : EventCodec} {events : List Event} {steps : List Operation} {ops : List Op}

theorem nil : Staged codec [] [] [] := by
  constructor <;> simp

theorem step (staged : Staged codec events steps ops) (operation : Operation) :
    Staged codec events (steps ++ [operation]) ops where
  rows := staged.rows
  sets := staged.sets
  deletes key listed := by
    rcases staged.deletes key listed with isRecord | ⟨step, isStep, covers⟩
    · exact .inl isRecord
    · exact .inr ⟨step, mem_append_left _ isStep, covers⟩
  apart := staged.apart

theorem other (staged : Staged codec events steps ops) {op : Op}
    (setsRecord : ∀ key value, op = .set key value → RecordKey key)
    (deletesCovered : ∀ key, op = .delete key →
      RecordKey key ∨ ∃ step ∈ steps, step.CoversKey key) :
    Staged codec events steps (ops ++ [op]) where
  rows event isEvent := by
    obtain ⟨written, value, isValue, listed⟩ := staged.rows event isEvent
    exact ⟨written, value, isValue, mem_append_left _ listed⟩
  sets key value listed := by
    rcases mem_append.mp listed with earlier | new
    · exact staged.sets key value earlier
    · exact .inl (setsRecord key value (mem_singleton.mp new).symm)
  deletes key listed := by
    rcases mem_append.mp listed with earlier | new
    · exact staged.deletes key earlier
    · exact deletesCovered key (mem_singleton.mp new).symm
  apart := staged.apart.imp fun deleted same => mem_append_left _ (deleted same)

theorem append {batch : Batch} (staged : Staged codec events steps batch.ops) {event : Event}
    (written : Written event) {value : Bytes} (isValue : codec.marshal event.row = some value)
    (free : ∀ value, batch.staged event.key ≠ some (some value)) :
    Staged codec (events ++ [event]) steps (batch.ops ++ [.set event.key value]) where
  rows other isEvent := by
    rcases mem_append.mp isEvent with earlier | new
    · obtain ⟨otherWritten, otherValue, isOther, listed⟩ := staged.rows other earlier
      exact ⟨otherWritten, otherValue, isOther, mem_append_left _ listed⟩
    · cases mem_singleton.mp new
      exact ⟨written, value, isValue, mem_append_right _ mem_cons_self⟩
  sets key other listed := by
    rcases mem_append.mp listed with earlier | new
    · rcases staged.sets key other earlier with isRecord | ⟨event, isEvent, isRow⟩
      · exact .inl isRecord
      · exact .inr ⟨event, mem_append_left _ isEvent, isRow⟩
    · cases mem_singleton.mp new
      exact .inr ⟨event, mem_append_right _ mem_cons_self, rfl, isValue⟩
  deletes key listed := by
    rcases mem_append.mp listed with earlier | new
    · exact staged.deletes key earlier
    · cases mem_singleton.mp new
  apart := by
    rw [pairwise_append]
    refine ⟨staged.apart.imp fun deleted same => mem_append_left _ (deleted same),
      pairwise_singleton _ _, ?_⟩
    intro first isEvent second isNew same
    cases mem_singleton.mp isNew
    -- the row of the earlier event is staged and was read as absent, so it is deleted again
    obtain ⟨_, earlierValue, _, listed⟩ := staged.rows first isEvent
    cases found : batch.staged event.key with
    | none =>
      exact absurd same (staged_eq_none_iff.mp found _ listed)
    | some last =>
      cases last with
      | some last => exact absurd found (free last)
      | none =>
        obtain ⟨op, isOp, isKey, isNone⟩ := mem_of_staged found
        cases op with
        | set key value => cases isNone
        | delete key =>
          rw [same, ← isKey]
          exact mem_append_left _ isOp

end Staged

section Triples

variable {codec : EventCodec} {Label : Type} {holds : Store → Prop}
  {events : List Event} {steps : List Operation}

theorem triple_deleteListed {scope : Scope} {rows : List (Bytes × Bytes)} {more : Nat → Bool}
    (covered : ∀ row ∈ rows, ∀ event, unmarshal codec row.1 row.2 = .ok event →
      ∃ step ∈ steps, step.CoversKey (scope.key (unixMilli event.instant) event.seq)) :
    Triple holds (fun batch => Staged codec events steps batch.ops)
      (each codec (fun removed event => do
        deleteListed scope event
        return (removed + 1, more removed)) 0 rows : TxM Label Nat)
      fun _ batch => Staged codec events steps batch.ops := by
  apply triple_each
  rintro removed event ⟨row, listed, isEvent⟩
  refine keeps_bind (Triple.update fun batch staged => ?_)
    fun _ => Triple.pure fun _ staged => staged
  apply staged.other
  · exact fun _ _ => nofun
  · rintro key ⟨⟩
    exact .inr (covered row listed event isEvent)

theorem triple_trim (scope : Scope) (cutoff : Time) (max : Int)
    (fits : scope.namespaceName.length < 2 ^ 63)
    (isStep : .trim scope cutoff max fits ∈ steps) :
    Triple holds (fun batch => Staged codec events steps batch.ops)
      (trim codec scope cutoff max : TxM Label Nat)
      fun _ batch => Staged codec events steps batch.ops := by
  refine Triple.lift_bind (fun _ valid => ?_) fun _ _ staged => staged
  split
  · exact Triple.throw fun _ staged => staged
  refine scan_bind fun store _ => Triple.within (triple_deleteListed ?_)
  rintro ⟨key, value⟩ listed event decoded
  obtain ⟨_, inside⟩ := OrderedMap.mem_scan.mp listed
  obtain ⟨begins, before⟩ := contains_before_event (of_decide_eq_true inside)
  obtain ⟨ms, rfl, isInstant⟩ := key_of_unmarshal (Scope.tenantFits valid)
    (Scope.resolvedFits fits) begins decoded
  have earlier : ms < unixMilli cutoff := by
    rcases event_lt_event_iff.mp before with earlier | ⟨_, impossible⟩
    · exact earlier
    · exact absurd impossible (by simp)
  refine ⟨_, isStep, _, _, rfl, ?_⟩
  have small : ms.toNat < 2 ^ 63 :=
    (UInt64.lt_iff_toNat_lt.mp earlier).trans (Time.toUnixMs_lt cutoff)
  rwa [isInstant, unixMilli, fromUnixMilli, Time.toUnixMs_ofUnixMs small]

theorem triple_deleteSubject (scope : Scope) (fits : scope.namespaceName.length < 2 ^ 63)
    (isStep : .deleteSubject scope fits ∈ steps) :
    Triple holds (fun batch => Staged codec events steps batch.ops)
      (deleteSubject codec scope : TxM Label Nat)
      fun _ batch => Staged codec events steps batch.ops := by
  refine Triple.lift_bind (fun _ _ => ?_) fun _ _ staged => staged
  refine scan_bind fun store _ => Triple.within (triple_deleteListed ?_)
  intro row listed event decoded
  exact ⟨_, isStep, _, _, rfl⟩

theorem triple_append_staged (event : Event) (fits : event.namespaceName.length < 2 ^ 63) :
    Triple holds (fun batch => Staged codec events steps batch.ops)
      (append codec event : TxM Label Event)
      fun result batch => match result with
        | .ok event => Staged codec (events ++ [event]) steps batch.ops
        | .error _ => Staged codec events steps batch.ops := by
  refine (triple_append (fun _ _ _ _ staged => staged) fits).imp ?_
  intro result batch appended
  cases result with
  | error fault => exact appended
  | ok written =>
    obtain ⟨before, staged, appends⟩ := appended
    obtain ⟨value, isValue, rfl⟩ := appends.row
    exact staged.append appends.isWritten isValue appends.free

theorem appended_append (work : Work) (operation : Operation) (result : Result (Option Event)) :
    appended (work ++ [(operation, result)]) = appended work ++
      match result with
      | .ok (some event) => [event]
      | _ => [] := by
  rw [appended, filterMap_append]
  congr 1
  rcases result with fault | (none | event) <;> rfl

theorem triple_perform (operation : Operation) (work : Work) :
    Triple holds (fun batch => Staged codec (appended work) (work.map Prod.fst) batch.ops)
      (operation.perform codec : TxM Label (Option Event))
      fun result batch => Staged codec (appended (work ++ [(operation, result)]))
        ((work ++ [(operation, result)]).map Prod.fst) batch.ops := by
  simp only [appended_append, map_append, map_cons, map_nil]
  have grown : ∀ batch : Batch, Staged codec (appended work) (work.map Prod.fst) batch.ops →
      Staged codec (appended work) (work.map Prod.fst ++ [operation]) batch.ops :=
    fun _ staged => staged.step operation
  have isStep : operation ∈ work.map Prod.fst ++ [operation] := by simp
  cases operation with
  | append event fits =>
    refine Triple.bind ((triple_append_staged event fits).strengthen grown) (fun event => ?_) ?_
    · exact Triple.pure fun _ staged => staged
    · intro fault batch staged
      rwa [append_nil]
  | trim scope cutoff max fits =>
    simp only [Operation.perform]
    refine Triple.bind ((triple_trim scope cutoff max fits isStep).strengthen grown)
      (fun _ => Triple.pure fun _ staged => ?_) fun _ _ staged => ?_
    · rwa [append_nil]
    · rwa [append_nil]
  | deleteSubject scope fits =>
    refine Triple.bind ((triple_deleteSubject scope fits isStep).strengthen grown)
      (fun _ => Triple.pure fun _ staged => ?_) fun _ _ staged => ?_
    · rwa [append_nil]
    · rwa [append_nil]
  | writeRecord tenant ns recordType rid original body =>
    intro batch staged
    replace staged := grown batch staged
    have isRecord : RecordKey (record tenant ns recordType rid) :=
      ⟨_, _, _, _, rfl⟩
    cases body with
    | some value =>
      change Staged codec (appended work ++ []) _ ((batch.expect _ _ _).set _ value).ops
      rw [append_nil, Batch.set, expect_ops]
      refine staged.other ?_ (by rintro _ ⟨⟩)
      rintro _ _ ⟨⟩
      exact isRecord
    | none =>
      change Staged codec (appended work ++ []) _ ((batch.expect _ _ _).delete _).ops
      rw [append_nil, Batch.delete, expect_ops]
      refine staged.other (by rintro _ _ ⟨⟩) ?_
      rintro _ ⟨⟩
      exact .inl isRecord

end Triples

/-- The check that the code does not make: the position of every event is free in the
committed store, the transaction itself removes nothing there, and no removal that covers
the event was committed before. -/
def Fresh (payload : Labelled Work) (store : Store) (committed : List Work) : Prop :=
  ∀ event ∈ appended payload.label, store.get event.key = none ∧
    Op.delete event.key ∉ payload.batch.ops ∧
    ∀ work ∈ committed, ∀ step ∈ work, ¬ step.1.Covers event

instance (payload : Labelled Work) (store : Store) (committed : List Work) :
    Decidable (Fresh payload store committed) :=
  inferInstanceAs (Decidable (∀ event ∈ _, _ ∧ _ ∧ _))

/-- Where the store is the same from the scan to the commit, the position that `nextSeq` finds
is free in it, unless the transaction itself removes what is there. -/
theorem free_of_nextSeq (store : Store) (scope : Scope) (ms : UInt64) :
    Triple (· = store) (fun _ => True) (nextSeq scope ms : TxM Work UInt32) fun result batch =>
      ∀ seq, result = .ok seq → batch.staged (scope.key ms seq) ≠ some none →
        store.get (scope.key ms seq) = none := by
  have finds : Triple (· = store) (fun _ => True) (nextSeq scope ms : TxM Work UInt32)
      fun result batch => True ∧
        ∀ seq, result = .ok seq → Free (· = store) batch (scope.key ms seq) :=
    triple_nextSeq (fun _ _ _ _ _ => trivial) scope ms
  refine finds.imp fun result batch found seq isSeq kept => ?_
  obtain deleted | ⟨_, _, rfl, missing⟩ := found.2 seq isSeq
  · exact absurd deleted kept
  · exact missing

def Stored (codec : EventCodec) (store : Store) (event : Event) : Prop :=
  Written event ∧ ∃ value, store.get event.key = some value ∧ codec.marshal event.row = some value

structure Kept (codec : EventCodec) (store : Store) (committed : List Work) : Prop where
  stored : ∀ later work earlier event, committed = later ++ work :: earlier →
    event ∈ appended work →
    Stored codec store event ∨ ∃ work ∈ later, ∃ step ∈ work, step.1.Covers event
  apart : (committed.flatMap appended).Pairwise fun first second => first.key ≠ second.key

variable {codec : EventCodec} {store : Store} {committed : List Work} {work : Work} {batch : Batch}

theorem Staged.apart_of_fresh (staged : Staged codec (appended work) (work.map Prod.fst) batch.ops)
    (fresh : Fresh ⟨batch, work⟩ store committed) :
    (appended work).Pairwise fun first second => first.key ≠ second.key := by
  refine staged.apart.imp_of_mem ?_
  intro first second isFirst _ deleted same
  exact (fresh first isFirst).2.1 (deleted same)

theorem Staged.stored (staged : Staged codec (appended work) (work.map Prod.fst) batch.ops)
    (fresh : Fresh ⟨batch, work⟩ store committed) (isEvent : event ∈ appended work) :
    Stored codec (batch.effect store) event := by
  obtain ⟨written, value, isValue, listed⟩ := staged.rows event isEvent
  refine ⟨written, value, ?_, isValue⟩
  rw [get_effect]
  cases found : batch.staged event.key with
  | none => exact absurd rfl (staged_eq_none_iff.mp found _ listed)
  | some last =>
    obtain ⟨op, isOp, isKey, isLast⟩ := mem_of_staged found
    cases op with
    | delete key =>
      replace isKey : key = event.key := isKey
      exact absurd (isKey ▸ isOp) (fresh event isEvent).2.1
    | set key other =>
      replace isKey : key = event.key := isKey
      rcases staged.sets key other isOp with isRecord | ⟨writer, isWriter, sameKey, isRow⟩
      · exact absurd (isKey ▸ isRecord) (not_recordKey event)
      -- the staged row is that of an event at this position, and there is only this one
      have same : writer = event := by
        by_contra different
        have : Std.Symm fun first second : Event => first.key ≠ second.key :=
          ⟨fun _ _ => Ne.symm⟩
        exact (staged.apart_of_fresh fresh).forall isWriter isEvent different
          (sameKey.symm.trans isKey)
      rw [same, isValue] at isRow
      cases isRow
      cases isLast
      rfl

theorem Stored.commit (held : Stored codec store event)
    (staged : Staged codec (appended work) (work.map Prod.fst) batch.ops)
    (fresh : Fresh ⟨batch, work⟩ store committed) :
    Stored codec (batch.effect store) event ∨ ∃ step ∈ work, step.1.Covers event := by
  obtain ⟨written, value, found, isRow⟩ := held
  by_cases untouched : ∀ op ∈ batch.ops, op.key ≠ event.key
  · left
    exact ⟨written, value, by rw [get_effect_of_not_staged untouched, found], isRow⟩
  push Not at untouched
  obtain ⟨op, isOp, isKey⟩ := untouched
  cases op with
  | set key other =>
    replace isKey : key = event.key := isKey
    rcases staged.sets key other isOp with isRecord | ⟨writer, isWriter, sameKey, _⟩
    · exact absurd (isKey ▸ isRecord) (not_recordKey event)
    have free := (fresh writer isWriter).1
    rw [← sameKey, isKey, found] at free
    cases free
  | delete key =>
    replace isKey : key = event.key := isKey
    rcases staged.deletes key isOp with isRecord | ⟨step, isStep, covers⟩
    · exact absurd (isKey ▸ isRecord) (not_recordKey event)
    · obtain ⟨⟨operation, result⟩, isWork, rfl⟩ := mem_map.mp isStep
      exact .inr ⟨_, isWork, Operation.covers_of_coversKey (isKey ▸ covers)⟩

theorem Kept.ne_of_fresh (kept : Kept codec store committed)
    (fresh : Fresh ⟨batch, work⟩ store committed) {earlier : Event}
    (isEvent : event ∈ appended work) (isEarlier : earlier ∈ committed.flatMap appended) :
    event.key ≠ earlier.key := by
  intro same
  obtain ⟨free, _, uncovered⟩ := fresh event isEvent
  obtain ⟨past, isPast, isAppended⟩ := mem_flatMap.mp isEarlier
  obtain ⟨later, rest, rfl⟩ := append_of_mem isPast
  rcases kept.stored later past rest earlier rfl isAppended with
    ⟨_, value, found, _⟩ | ⟨removal, isRemoval, step, isStep, covers⟩
  · rw [same, found] at free
    cases free
  · exact uncovered removal (mem_append_left _ isRemoval) step isStep (covers.of_key_eq same.symm)

theorem Kept.commit (kept : Kept codec store committed)
    (staged : Staged codec (appended work) (work.map Prod.fst) batch.ops)
    (fresh : Fresh ⟨batch, work⟩ store committed) :
    Kept codec (batch.effect store) (work :: committed) where
  stored later past earlier event split isEvent := by
    cases later with
    | nil =>
      cases split
      exact .inl (staged.stored fresh isEvent)
    | cons newest later =>
      obtain ⟨rfl, before⟩ := List.cons.inj split
      rcases kept.stored later past earlier event before isEvent with
        held | ⟨removal, isRemoval, covers⟩
      · rcases held.commit staged fresh with still | ⟨step, isStep, covers⟩
        · exact .inl still
        · exact .inr ⟨_, mem_cons_self, step, isStep, covers⟩
      · exact .inr ⟨removal, mem_cons_of_mem _ isRemoval, covers⟩
  apart := by
    rw [flatMap_cons, pairwise_append]
    exact ⟨staged.apart_of_fresh fresh, kept.apart,
      fun event isEvent earlier isEarlier => kept.ne_of_fresh fresh isEvent isEarlier⟩

/-- The event is in its subject's stream, with the content it was appended with and its
instant to the millisecond. -/
def Present (codec : EventCodec) (store : Store) (event : Event) : Prop :=
  ∃ row ∈ scanRange store event.scope.range, unmarshal codec row.1 row.2 =
    .ok { event with instant := fromUnixMilli (unixMilli event.instant) }

theorem Stored.present (held : Stored codec store event) : Present codec store event := by
  obtain ⟨written, value, found, isRow⟩ := held
  refine ⟨(event.key, value), OrderedMap.mem_scan.mpr ⟨found, decide_eq_true ?_⟩,
    unmarshal_key written isRow⟩
  exact event.scope.contains_key _ _

/-- The stream is append-only where positions are fresh. In every schedule of transactions
each of whose commits finds the positions of its events free: every event of a committed
transaction is in its subject's stream with its content, unless a trim whose cutoff is after
it or a deletion of its subject was committed after it; and no two committed events share a
position. -/
theorem stream_append_only (codec : EventCodec) (initial : Store)
    (schedule : List (Action (List Operation)))
    (fresh : (transactions (Operation.perform codec)).Meets (ChecksWork Fresh)
      (System.start initial) schedule) :
    let world := (transactions (Operation.perform codec)).run initial schedule
    let committed : List Work := world.history.map fun entry => entry.batch.label
    (∀ later work earlier event, committed = later ++ work :: earlier →
      event ∈ appended work → Present codec world.state event ∨
        ∃ work ∈ later, ∃ step ∈ work, step.1.Covers event) ∧
    (committed.flatMap appended).Pairwise fun first second => first.key ≠ second.key := by
  intro world committed
  have start : Kept codec initial [] := by
    constructor <;> simp
  have kept : Kept codec world.state committed :=
    invariant_of_checked_transactions (Kept codec)
      (fun work batch => Staged codec (appended work) (work.map Prod.fst) batch.ops) Fresh
      start Staged.nil (fun operation work => triple_perform operation work)
      (fun work batch store committed staged kept _ fresh => kept.commit staged fresh)
      schedule fresh
  refine ⟨?_, kept.apart⟩
  intro later work earlier event split isEvent
  exact (kept.stored later work earlier event split isEvent).imp_left Stored.present

def sampleEvent (actor : Bytes) : Event :=
  { tenant := ascii "acme", namespaceName := defaultNamespace, subject := Id.filled 1
    instant := 5000000, kind := .updated, actor }

def firstAppend : Operation := .append (sampleEvent (ascii "ann")) (by decide)

def secondAppend : Operation := .append (sampleEvent (ascii "bob")) (by decide)

/-- One caller appends after the other has committed: both events are in the stream. -/
theorem stream_append_only_in_turn :
    let world := (transactions (Operation.perform blockCodec)).run .empty
      [.spawn [firstAppend], .act 0, .act 0, .act 0, .spawn [secondAppend], .act 1, .act 1, .act 1]
    let committed : List Work := world.history.map fun entry => entry.batch.label
    (∀ later work earlier event, committed = later ++ work :: earlier →
      event ∈ appended work → Present blockCodec world.state event ∨
        ∃ work ∈ later, ∃ step ∈ work, step.1.Covers event) ∧
    (committed.map appended) = [[{ sampleEvent (ascii "bob") with seq := 1 }],
      [sampleEvent (ascii "ann")]] := by
  refine ⟨(stream_append_only blockCodec .empty _ ?_).1, ?_⟩
  · decide +kernel
  · decide +kernel

/-- Both look for a position before either commits. Both commit, at the same position, and
the event of the first is gone, though nothing removed it. -/
theorem appended_event_lost :
    let world := (transactions (Operation.perform blockCodec)).run .empty
      [.spawn [firstAppend], .spawn [secondAppend], .act 0, .act 0, .act 1, .act 1, .act 0, .act 1]
    let committed : List Work := world.history.map fun entry => entry.batch.label
    committed.map appended = [[sampleEvent (ascii "bob")], [sampleEvent (ascii "ann")]] ∧
      (sampleEvent (ascii "ann")).key = (sampleEvent (ascii "bob")).key ∧
      ((scanRange world.state (sampleEvent (ascii "ann")).scope.range).map fun row =>
        (unmarshal blockCodec row.1 row.2).toOption) = [some (sampleEvent (ascii "bob"))] := by
  decide +kernel

end Remem.Events
