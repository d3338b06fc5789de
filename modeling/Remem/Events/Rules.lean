import Remem.Events.Stream
import Remem.Storage.Frame

/-!
# Rules for the stream

What a stored row says about its event, and a rule for each write to a stream. A rule
carries along any property of the batch that reading does not disturb.
-/

namespace Remem.Events

open Base Keys Storage

theorem Event.key_eq_iff {first second : Event} :
    first.key = second.key ↔
      first.tenant = second.tenant ∧ first.scope.resolved = second.scope.resolved ∧
        first.subject = second.subject ∧
        unixMilli first.instant = unixMilli second.instant ∧ first.seq = second.seq := by
  constructor
  · exact event_inj
  · rintro ⟨tenants, namespaces, subjects, instants, seqs⟩
    unfold Event.key Scope.key
    rw [show first.scope.tenant = second.scope.tenant from tenants, namespaces,
      show first.scope.subject = second.scope.subject from subjects, instants, seqs]

/-- An event as it was written: its strings fit and its namespace is resolved. -/
structure Written (event : Event) : Prop where
  tenantFits : event.tenant.length < 2 ^ 64
  namespaceFits : event.namespaceName.length < 2 ^ 64
  resolved : event.scope.resolved = event.namespaceName

theorem Scope.resolved_ne_nil (scope : Scope) : scope.resolved ≠ [] := by
  unfold Scope.resolved
  split
  · decide
  · assumption

variable {scope : Scope}

theorem Scope.resolved_of_resolved (other : Scope) (same : scope.namespaceName = other.resolved) :
    scope.resolved = scope.namespaceName := by
  rw [Scope.resolved, same, if_neg other.resolved_ne_nil]

variable {codec : EventCodec}

theorem Scope.tenantFits {op : String} (valid : scope.validate op = .ok ()) :
    scope.tenant.length < 2 ^ 64 := by
  unfold Scope.validate at valid
  split at valid
  · cases valid
  split at valid
  · cases valid
  · next identifier =>
    exact length_of_validIdentifier (by simpa using identifier)

theorem Scope.resolvedFits (fits : scope.namespaceName.length < 2 ^ 63) :
    scope.resolved.length < 2 ^ 64 := by
  unfold Scope.resolved
  split
  · decide
  · omega

variable {value : Bytes} {event : Event}

theorem key_of_unmarshal (tenantFits : scope.tenant.length < 2 ^ 64)
    (namespaceFits : scope.resolved.length < 2 ^ 64) {key : Bytes}
    (begins : beginKey scope.tenant scope.resolved .event ++ scope.subject.bytes <+: key)
    (decoded : unmarshal codec key value = .ok event) :
    ∃ ms, key = scope.key ms event.seq ∧ event.instant = fromUnixMilli ms := by
  unfold unmarshal at decoded
  cases isParsed : parseEvent key with
  | error fault =>
    rw [isParsed] at decoded
    cases decoded
  | ok parsed =>
    rw [isParsed] at decoded
    obtain ⟨_, _, _, same⟩ :=
      eq_event_of_parseEvent tenantFits namespaceFits begins isParsed
    simp only [bind, Except.bind] at decoded
    split at decoded
    · cases decoded
    · cases decoded
      exact ⟨parsed.tsUnixMs, same, rfl⟩

theorem Scope.contains_key (scope : Scope) (ms : UInt64) (seq : UInt32) :
    scope.range.Contains (scope.key ms seq) := by
  rw [Scope.range, contains_eventsForRange]
  refine ⟨uint64 ms ++ uint32 seq, ?_⟩
  rw [Scope.key, Keys.event, List.append_assoc]

theorem unmarshal_key (written : Written event) (isRow : codec.marshal event.row = some value) :
    unmarshal codec event.key value =
      .ok { event with instant := fromUnixMilli (unixMilli event.instant) } := by
  have key : event.key = Keys.event event.tenant event.namespaceName event.subject
      (unixMilli event.instant) event.seq := by
    rw [Event.key, Scope.key, written.resolved]
    rfl
  have parsed : parseEvent event.key = .ok ⟨event.tenant, event.namespaceName, event.subject,
      unixMilli event.instant, event.seq⟩ := by
    rw [key]
    exact parseEvent_event written.tenantFits written.namespaceFits
  simp only [unmarshal, parsed, bind, Except.bind, codec.unmarshal_marshal _ _ isRow]
  rfl

section Triples

variable {Label : Type} {holds : Store → Prop}

variable {Kept : Type}

theorem triple_each {keeps : Batch → Prop} {visit : Kept → Event → TxM Label (Kept × Bool)}
    {rows : List (Bytes × Bytes)}
    (visits : ∀ kept event, (∃ row ∈ rows, unmarshal codec row.1 row.2 = .ok event) → Triple holds
      keeps (visit kept event) fun _ batch => keeps batch)
    (kept : Kept) : Triple holds keeps (each codec visit kept rows) fun _ batch => keeps batch := by
  induction rows generalizing kept with
  | nil => exact Triple.pure fun _ held => held
  | cons row rest ih =>
    obtain ⟨key, value⟩ := row
    unfold each
    have first : Triple holds keeps (Result.lift (unmarshal codec key value) : TxM Label Event)
        fun result batch => keeps batch ∧ result = unmarshal codec key value :=
      Triple.lift fun _ held => ⟨held, rfl⟩
    refine first.bind ?_ fun _ _ held => held.1
    rintro event batch ⟨held, decoded⟩
    have visited := visits kept event ⟨_, List.mem_cons_self, decoded.symm⟩
    refine (visited.keeps_bind ?_) batch held
    rintro ⟨kept, more⟩
    dsimp only
    split
    · apply ih
      rintro kept event ⟨row, listed, isEvent⟩
      exact visits kept event ⟨row, List.mem_cons_of_mem _ listed, isEvent⟩
    · exact Triple.pure fun _ held => held

variable {kept : Batch → Prop}

/-- The transaction deletes at the key, or has found nothing there. -/
def Free (holds : Store → Prop) (batch : Batch) (key : Bytes) : Prop :=
  batch.staged key = some none ∨
    batch.staged key = none ∧ ∃ store, holds store ∧ store.get key = none

theorem triple_probeSeq (reads : ∀ batch key value, InSpace .event key → kept batch →
      kept { batch with reads := batch.reads ++ [(key, value)] })
    (scope : Scope) (ms : UInt64) (probes : Nat) (next : UInt32) :
    Triple holds kept (probeSeq scope ms probes next : TxM Label UInt32)
      fun result batch => kept batch ∧
        ∀ seq, result = .ok seq → Free holds batch (scope.key ms seq) := by
  induction probes generalizing next with
  | zero => exact Triple.throw fun _ held => ⟨held, fun _ => nofun⟩
  | succ probes ih =>
    have probed : Triple holds kept (Tx.get (scope.key ms next) : TxM Label (Option Bytes))
        fun result batch => kept batch ∧
          (result = .ok none → Free holds batch (scope.key ms next)) := by
      apply Triple.get
      · rintro batch value held found
        refine ⟨held, ?_⟩
        rintro ⟨⟩
        exact .inl found
      · rintro batch store held unstaged seen
        refine ⟨reads _ _ _ (inSpace_beginKey ..) held, fun missing => ?_⟩
        exact .inr ⟨unstaged, store, seen, Except.ok.inj missing⟩
    refine probed.bind (fun found => ?_) fun _ _ held => ⟨held.1, fun _ => nofun⟩
    cases found with
    | none =>
      refine Triple.pure ?_
      rintro batch ⟨held, free⟩
      refine ⟨held, ?_⟩
      rintro seq ⟨⟩
      exact free rfl
    | some value => exact (ih (next + 1)).strengthen fun _ held => held.1

theorem triple_nextSeq (reads : ∀ batch key value, InSpace .event key → kept batch →
      kept { batch with reads := batch.reads ++ [(key, value)] })
    (scope : Scope) (ms : UInt64) :
    Triple holds kept (nextSeq scope ms : TxM Label UInt32) fun result batch => kept batch ∧
        ∀ seq, result = .ok seq → Free holds batch (scope.key ms seq) := by
  refine Triple.scan_bind fun store _ => ?_
  cases (scanRange store ⟨scope.key ms 0, some (scope.key (ms + 1) 0)⟩).getLast? with
  | none => exact triple_probeSeq reads scope ms _ 0
  | some row =>
    refine Triple.lift_bind (fun parsed _ => ?_) fun _ _ held => ⟨held, fun _ => nofun⟩
    exact triple_probeSeq reads scope ms _ (parsed.seq + 1)

/-- What an append makes of a batch: the row of the event is staged, at a position that was
free. -/
structure Appends (codec : EventCodec) (event written : Event) (before after : Batch) : Prop where
  same : written = { event with namespaceName := event.scope.resolved, seq := written.seq }
  isWritten : Written written
  free : ∀ value, before.staged written.key ≠ some (some value)
  row : ∃ value, codec.marshal written.row = some value ∧ after = before.set written.key value

theorem triple_append (reads : ∀ batch key value, InSpace .event key → kept batch →
      kept { batch with reads := batch.reads ++ [(key, value)] })
    {event : Event} (fits : event.namespaceName.length < 2 ^ 63) :
    Triple holds kept (append codec event : TxM Label Event) fun result batch => match result with
        | .ok written => ∃ before, kept before ∧ Appends codec event written before batch
        | .error _ => kept batch := by
  refine Triple.lift_bind (fun _ valid => ?_) fun _ _ held => held
  split
  · exact Triple.throw fun _ held => held
  split
  · exact Triple.throw fun _ held => held
  refine Triple.lift_bind (fun _ _ => ?_) fun _ _ held => held
  refine (triple_nextSeq reads event.scope (unixMilli event.instant)).bind (fun seq => ?_)
    fun _ _ held => held.1
  refine Triple.lift_bind (fun value isValue => ?_) fun _ _ held => held.1
  rintro batch ⟨held, free⟩
  let written : Event := { event with namespaceName := event.scope.resolved, seq }
  have resolved : written.scope.resolved = event.scope.resolved :=
    Scope.resolved_of_resolved event.scope rfl
  have sameKey : written.key = event.scope.key (unixMilli event.instant) seq := by
    rw [Event.key, Scope.key, resolved]
    rfl
  have encoded : codec.marshal written.row = some value := by
    unfold marshal at isValue
    split at isValue
    · cases isValue
    next bytes marshalled =>
    cases isValue
    exact marshalled
  refine ⟨batch, held, rfl, ⟨Scope.tenantFits valid, Scope.resolvedFits fits, resolved⟩, ?_,
    value, encoded, rfl⟩
  intro other staged
  rw [sameKey] at staged
  obtain deleted | ⟨unstaged, _⟩ := free seq rfl
  · cases deleted.symm.trans staged
  · cases unstaged.symm.trans staged

end Triples

end Remem.Events
