import Remem.Attr.Indexer

/-!
# The attribute index is the projection of the live records

A staging reads the row it is about to replace, and its transaction commits only
where that row is still what it read. So the entries it withdraws are the ones
the store holds, and the derived rows stay exact over any interleaving.
-/

namespace Remem.Attr

open Base Keys Storage List OrderedMap Batch Option Function

variable {first second : Subject}

theorem rowKey_inj (equal : rowKey first = rowKey second) : first = second := by
  obtain ⟨tenants, namespaces, _, tails⟩ := beginKey_append_inj equal
  have rids : first.rid = second.rid := Keys.Id.ext tails
  cases first
  cases second
  simp_all

variable {slot : UInt16} {value : Value}

theorem indexKey_inj {other : UInt16} {otherValue : Value}
    (equal : indexKey first slot value = indexKey second other otherValue) :
    first = second ∧ slot = other := by
  obtain ⟨tenants, namespaces, _, tails⟩ := beginKey_append_inj equal
  obtain ⟨slots, values⟩ := uint16_selfDelimiting tails
  have rids : first.rid = second.rid := by
    apply Keys.Id.ext
    exact append_inj_right' values (first.rid.width.trans second.rid.width.symm)
  refine ⟨?_, slots⟩
  cases first
  cases second
  simp_all

variable {subject : Subject}

variable {tenant : TenantId} {ns : Namespace} {space : Space}

theorem contains_rowKey : (spaceRange tenant ns space).Contains (rowKey subject) ↔
      tenant = subject.tenant ∧ ns = subject.namespaceName ∧ space = .attrRow :=
  contains_spaceRange _ _ _ _ _ _ _

theorem contains_indexKey : (spaceRange tenant ns space).Contains (indexKey subject slot value) ↔
      tenant = subject.tenant ∧ ns = subject.namespaceName ∧ space = .attrIndex :=
  contains_spaceRange _ _ _ _ _ _ _

def Carries (subject : Subject) (slots : List SlotDef) (row : Option Row) (key : Bytes) : Prop :=
  ∃ declared ∈ slots, ∃ value, (row.bind fun row => row.get declared.slot.toNat) = some value ∧
      key = indexKey subject declared.slot value

variable {declared : SlotDef} {row : Option Row} {key : Bytes}

variable {slots : List SlotDef}

theorem carries_cons : Carries subject (declared :: slots) row key ↔
      Carries subject [declared] row key ∨ Carries subject slots row key := by
  simp [Carries]

theorem carries_singleton : Carries subject [declared] row key ↔ ∃ value,
      (row.bind fun row => row.get declared.slot.toNat) = some value ∧
        key = indexKey subject declared.slot value := by
  simp [Carries]

theorem not_carries_of_slot {other : Option Row} (carried : Carries subject [declared] row key)
    (apart : ∀ later ∈ slots, declared.slot ≠ later.slot) : ¬ Carries subject slots other key := by
  obtain ⟨value, _, rfl⟩ := carries_singleton.mp carried
  rintro ⟨later, membership, laterValue, _, equal⟩
  exact apart later membership (indexKey_inj equal).2

/-- The entries of the old row are gone, those of the new one are there and every
other key is as it was. -/
structure Reconciled (subject : Subject) (slots : List SlotDef) (old row : Option Row)
    (before after : Store) : Prop where
  present : ∀ key, Carries subject slots row key → after.get key = some []
  withdrawn : ∀ key, ¬ Carries subject slots row key → Carries subject slots old key →
    after.get key = none
  kept : ∀ key, ¬ Carries subject slots row key → ¬ Carries subject slots old key →
    after.get key = before.get key

theorem reconciled_stageEntry (subject : Subject) (declared : SlotDef) (old row : Option Row)
    (batch : Batch) (store : Store) :
    Reconciled subject [declared] old row (batch.effect store)
      ((stageEntry subject old row batch declared).effect store) := by
  unfold stageEntry
  constructor <;> intro key <;> simp only [carries_singleton]
  · rintro ⟨value, found, rfl⟩
    simp [found]
  · intro absent
    rintro ⟨value, found, rfl⟩
    cases new : row.bind fun row => row.get declared.slot.toNat with
    | none => simp [found]
    | some newValue =>
      have differs : indexKey subject declared.slot value ≠
          indexKey subject declared.slot newValue := fun equal => absent ⟨_, new, equal⟩
      have values : newValue ≠ value := by
        rintro rfl
        exact differs rfl
      simp [found, values, get_set_of_ne _ _ differs]
  · intro absent notOld
    cases new : row.bind fun row => row.get declared.slot.toNat with
    | none =>
      cases was : old.bind fun row => row.get declared.slot.toNat with
      | none => simp
      | some value =>
        have differs : key ≠ indexKey subject declared.slot value :=
          fun equal => notOld ⟨_, was, equal⟩
        simp [get_erase_of_ne _ differs]
    | some newValue =>
      have differs : key ≠ indexKey subject declared.slot newValue :=
        fun equal => absent ⟨_, new, equal⟩
      rw [effect_set, get_set_of_ne _ _ differs]
      cases was : old.bind fun row => row.get declared.slot.toNat with
      | none => rfl
      | some value =>
        have oldDiffers : key ≠ indexKey subject declared.slot value :=
          fun equal => notOld ⟨_, was, equal⟩
        simp only
        split
        · rw [effect_delete, get_erase_of_ne _ oldDiffers]
        · rfl

theorem Reconciled.cons {subject : Subject} {declared : SlotDef} {slots : List SlotDef}
    {old row : Option Row} {before middle after : Store}
    (apart : ∀ later ∈ slots, declared.slot ≠ later.slot)
    (first : Reconciled subject [declared] old row before middle)
    (rest : Reconciled subject slots old row middle after) :
    Reconciled subject (declared :: slots) old row before after where
  present key carried := by
    rcases carries_cons.mp carried with here | later
    · rw [rest.kept key (not_carries_of_slot here apart) (not_carries_of_slot here apart)]
      exact first.present key here
    · exact rest.present key later
  withdrawn key absent carried := by
    rw [carries_cons, not_or] at absent
    rcases carries_cons.mp carried with here | later
    · rw [rest.kept key absent.2 (not_carries_of_slot here apart)]
      exact first.withdrawn key absent.1 here
    · exact rest.withdrawn key absent.2 later
  kept key absent notOld := by
    rw [carries_cons, not_or] at absent notOld
    rw [rest.kept key absent.2 notOld.2, first.kept key absent.1 notOld.1]

theorem reconciled_foldl (subject : Subject) (slots : List SlotDef) (old row : Option Row)
    (apart : slots.Pairwise fun earlier later => earlier.slot ≠ later.slot)
    (batch : Batch) (store : Store) :
    Reconciled subject slots old row (batch.effect store)
      ((slots.foldl (stageEntry subject old row) batch).effect store) := by
  induction slots generalizing batch with
  | nil => constructor <;> simp [Carries]
  | cons declared slots ih =>
    obtain ⟨here, later⟩ := pairwise_cons.mp apart
    exact (reconciled_stageEntry subject declared old row batch store).cons here (ih later _)

theorem pairwise_indexedSlots (table : Slots) :
    table.indexedSlots.Pairwise fun earlier later => earlier.slot ≠ later.slot := by
  apply List.Pairwise.filter
  rw [pairwise_map]
  refine (pairwise_map.mp table.defs.nodup_keys).imp_of_mem ?_
  intro first second firstListed secondListed apart equal
  rw [← table.keyed first firstListed, ← table.keyed second secondListed, equal] at apart
  exact apart rfl

theorem get_of_mem_indexedSlots {table : Slots} (indexed : declared ∈ table.indexedSlots) :
    table.get declared.slot.toNat = some declared ∧ declared.retired = false := by
  obtain ⟨listed, live⟩ := mem_filter.mp indexed
  obtain ⟨entry, membership, rfl⟩ := mem_map.mp listed
  refine ⟨get_eq_some_iff.mpr ?_, by simpa using (Bool.and_eq_true_iff.mp live).2⟩
  rw [table.keyed entry membership]
  exact membership

section Staged

variable {table : Slots} {tenant : TenantId} {store : Store} {live : Live}

theorem Exact.old_values (exact : Exact table tenant store live)
    (declares : table.DeclaresProjection) {subject : Subject} (own : subject.tenant = tenant)
    {declared : SlotDef} (indexed : declared ∈ table.indexedSlots) :
    (((store.get (rowKey subject)).bind fun value => (decodeRow table value).toOption).bind
        fun row => row.get declared.slot.toNat) =
      (live subject).bind fun record => (project record).get declared.slot.toNat := by
  subst own
  obtain ⟨tenant, ns, rid⟩ := subject
  have inside : (spaceRange tenant ns .attrRow).Contains (rowKey ⟨tenant, ns, rid⟩) :=
    contains_rowKey.mpr ⟨rfl, rfl, rfl⟩
  cases alive : live ⟨tenant, ns, rid⟩ with
  | none =>
    have absent : store.get (rowKey ⟨tenant, ns, rid⟩) = none := by
      by_contra present
      obtain ⟨value, found⟩ := ne_none_iff_exists'.mp present
      obtain ⟨other, record, otherAlive, keys, _⟩ := (exact.rows ns _ value inside).mp found
      rw [← rowKey_inj keys, alive] at otherAlive
      cases otherAlive
    rw [absent]
    rfl
  | some record =>
    obtain ⟨bytes, encoded⟩ := project_encodes record table
    have found := (exact.rows ns _ bytes inside).mpr ⟨rid, record, alive, rfl, encoded⟩
    obtain ⟨after, decoded, values⟩ :=
      decodeRow_encode (project_declaredBy declares record) encoded
    obtain ⟨registered, current⟩ := get_of_mem_indexedSlots indexed
    rw [found, bind_some, decoded]
    change after.get declared.slot.toNat = (project record).get declared.slot.toNat
    rw [values, Row.liveAt, registered]
    simp [current]

variable {subject : Subject} {record : Option Record} {old : Option Row} {written after : Store}

theorem Exact.staged (exact : Exact table tenant store live) (declares : table.DeclaresProjection)
    (read : old = (store.get (rowKey subject)).bind fun value =>
      (decodeRow table value).toOption)
    {row : Option Bytes}
    (encoded : ∀ value, row = some value ↔ ∃ staged, record = some staged ∧
      (project staged).encode table = .ok value)
    (replaced : ∀ key, written.get key = if key = rowKey subject then row else store.get key)
    (reconciled : Reconciled subject table.indexedSlots old (record.map project) written after) :
    Exact table tenant after (Function.update live subject record) where
  rows ns key value inside := by
    have notEntry : ∀ row, ¬ Carries subject table.indexedSlots row key := by
      rintro row ⟨declared, _, entry, _, rfl⟩
      exact absurd (contains_indexKey.mp inside).2.2 (by decide)
    rw [reconciled.kept key (notEntry _) (notEntry _), replaced]
    by_cases same : key = rowKey subject
    · subst same
      obtain ⟨rfl, rfl, _⟩ := contains_rowKey.mp inside
      rw [if_pos rfl, encoded]
      constructor
      · rintro ⟨staged, rfl, written⟩
        exact ⟨subject.rid, staged, update_self .., rfl, written⟩
      · rintro ⟨rid, staged, alive, keys, written⟩
        rw [← rowKey_inj keys, update_self] at alive
        exact ⟨staged, alive, written⟩
    · rw [if_neg same, exact.rows ns key value inside]
      refine exists_congr fun rid => exists_congr fun staged => ?_
      by_cases self : (⟨tenant, ns, rid⟩ : Subject) = subject
      · subst self
        simp [same]
      · rw [update_of_ne self]
  entries ns key value inside := by
    have apart : key ≠ rowKey subject := by
      rintro rfl
      exact absurd (contains_rowKey.mp inside).2.2 (by decide)
    have before : written.get key = store.get key := by rw [replaced, if_neg apart]
    constructor
    · intro found
      by_cases new : Carries subject table.indexedSlots (record.map project) key
      · rw [reconciled.present key new] at found
        cases found
        obtain ⟨declared, indexed, entry, carried, rfl⟩ := new
        obtain ⟨rfl, rfl, _⟩ := contains_indexKey.mp inside
        cases record with
        | none => cases carried
        | some staged =>
          exact ⟨rfl, subject.rid, staged, declared, entry, update_self .., indexed, carried, rfl⟩
      by_cases was : Carries subject table.indexedSlots old key
      · rw [reconciled.withdrawn key new was] at found
        cases found
      rw [reconciled.kept key new was, before, exact.entries ns key value inside] at found
      obtain ⟨empty, rid, staged, declared, entry, alive, indexed, carried, rfl⟩ := found
      refine ⟨empty, rid, staged, declared, entry, ?_, indexed, carried, rfl⟩
      rw [update_of_ne, alive]
      -- an entry of the subject itself would be one of the row that was read
      rintro rfl
      refine was ⟨declared, indexed, entry, ?_, rfl⟩
      rw [read, exact.old_values declares rfl indexed, alive]
      exact carried
    · rintro ⟨rfl, rid, staged, declared, entry, alive, indexed, carried, rfl⟩
      by_cases self : (⟨tenant, ns, rid⟩ : Subject) = subject
      · subst self
        rw [update_self] at alive
        subst alive
        exact reconciled.present _ ⟨declared, indexed, entry, carried, rfl⟩
      have foreign : ∀ row, ¬ Carries subject table.indexedSlots row
          (indexKey ⟨tenant, ns, rid⟩ declared.slot entry) := by
        rintro row ⟨other, _, _, _, equal⟩
        exact self (indexKey_inj equal).1
      rw [update_of_ne self] at alive
      rw [reconciled.kept _ (foreign _) (foreign _), before, exact.entries ns _ _ inside]
      exact ⟨rfl, rid, staged, declared, entry, alive, indexed, carried, rfl⟩

end Staged

theorem stageEntry_extends (subject : Subject) (old row : Option Row) (batch : Batch)
    (declared : SlotDef) : batch.Extends (stageEntry subject old row batch declared) := by
  have same := Batch.Extends.refl batch
  unfold stageEntry
  cases old.bind fun row => row.get declared.slot.toNat with
  | none =>
    cases row.bind fun row => row.get declared.slot.toNat with
    | none => exact same
    | some newValue => exact same.set _ _
  | some oldValue =>
    cases row.bind fun row => row.get declared.slot.toNat with
    | none => exact same.delete _
    | some newValue =>
      by_cases changed : some newValue ≠ some oldValue
      · simp only [if_pos changed]
        exact (same.delete _).set _ _
      · simp only [if_neg changed]
        exact same.set _ _

theorem stageEntries_extends (table : Slots) (subject : Subject) (old row : Option Row)
    (batch : Batch) : batch.Extends (stageEntries table subject old row batch) := by
  unfold stageEntries
  induction table.indexedSlots generalizing batch with
  | nil => exact Batch.Extends.refl batch
  | cons declared slots ih =>
    exact (stageEntry_extends subject old row batch declared).trans (ih _)

section Transactions

variable (table : Slots) (tenant : TenantId)

/-- What holds of a batch between stagings: it has a condition only on rows it also
writes, and it keeps the derived rows exact wherever it commits. -/
structure Kept (done : List (Staging × Result Unit)) (batch : Batch) : Prop where
  staged : ∀ condition ∈ batch.conditions, ∃ op ∈ batch.ops, op.key = condition.key
  exact : ∀ store live, Exact table tenant store live → batch.Accepts store →
    Exact table tenant (batch.effect store) (done.foldl Staging.applyTo live)

/-- What holds once the current row is read and expected: the batch commits only
where its own view of the row is the one that was read. -/
structure Seen (done : List (Staging × Result Unit)) (key : Bytes) (value : Option Bytes)
    (batch : Batch) : Prop where
  staged : ∀ condition ∈ batch.conditions,
    condition.key = key ∨ ∃ op ∈ batch.ops, op.key = condition.key
  exact : ∀ store live, Exact table tenant store live → batch.Accepts store →
    Exact table tenant (batch.effect store) (done.foldl Staging.applyTo live)
  read : ∀ store, batch.Accepts store → (batch.effect store).get key = value

variable {table tenant} {Label : Type} {holds : Store → Prop} {done : List (Staging × Result Unit)}

variable {batch : Batch} {value : Option Bytes}

theorem Kept.expect (kept : Kept table tenant done batch) {key : Bytes}
    (view : batch.staged key = some value ∨ batch.staged key = none) :
    Seen table tenant done key value (batch.expect key (value.getD []) value.isSome) where
  staged condition membership := by
    rw [expect_ops]
    exact (mem_conditions_expect membership).symm.imp_right (kept.staged condition)
  exact store live held accepts := by
    rw [effect_expect]
    exact kept.exact store live held (accepts_of_expect accepts)
  read store accepts := by
    rw [effect_expect, get_effect]
    rcases view with staged | unstaged
    · rw [staged, getD_some]
    rw [unstaged, getD_none]
    have untouched := staged_eq_none_iff.mp unstaged
    have fresh : ∀ condition ∈ batch.conditions, condition.key ≠ key := by
      intro condition membership same
      obtain ⟨op, listed, sameKey⟩ := kept.staged condition membership
      exact untouched op listed (sameKey.trans same)
    rw [get_of_accepts_expect untouched fresh accepts]
    cases value <;> rfl

theorem triple_currentRow (key : Bytes) :
    Triple holds (Kept table tenant done) (currentRow table key : TxM Label (Option Row))
      fun result batch => ∃ value, Seen table tenant done key value batch ∧
        result = .ok (value.bind fun value => (decodeRow table value).toOption) := by
  have reads : Triple holds (Kept table tenant done) (Tx.get key : TxM Label (Option Bytes))
      fun result batch => ∃ value, result = .ok value ∧ Kept table tenant done batch ∧
        (batch.staged key = some value ∨ batch.staged key = none) := by
    apply Triple.get
    · exact fun batch value kept staged => ⟨value, rfl, kept, .inl staged⟩
    · exact fun batch store kept unstaged _ =>
        ⟨_, rfl, ⟨kept.staged, kept.exact⟩, .inr unstaged⟩
  refine Triple.bind reads ?_ ?_
  · intro found batch
    rintro ⟨value, equal, kept, view⟩
    cases equal
    cases found with
    | none => exact ⟨none, kept.expect view, rfl⟩
    | some value => exact ⟨some value, kept.expect view, rfl⟩
  · rintro fault batch ⟨value, impossible, _⟩
    cases impossible

theorem Seen.staged_row {written : Batch} {subject : Subject} (record : Option Record)
    (row : Option Bytes) (op : Op) (seen : Seen table tenant done (rowKey subject) value batch)
    (declares : table.DeclaresProjection)
    (encoded : ∀ value, row = some value ↔ ∃ staged, record = some staged ∧ (project staged).encode
      table = .ok value)
    (conditions : written.conditions = batch.conditions) (ops : written.ops = batch.ops ++ [op])
    (key : op.key = rowKey subject) (writes : op.value = row) :
    Kept table tenant (done ++ [(⟨subject, record⟩, .ok ())])
      (stageEntries table subject (value.bind fun value => (decodeRow table value).toOption)
        (record.map project) written) := by
  have grown := stageEntries_extends table subject
    (value.bind fun value => (decodeRow table value).toOption) (record.map project) written
  constructor
  · intro condition membership
    rw [grown.conditions, conditions] at membership
    rcases seen.staged condition membership with own | ⟨earlier, listed, same⟩
    · refine ⟨op, grown.ops.subset ?_, key.trans own.symm⟩
      simp [ops]
    · refine ⟨earlier, grown.ops.subset ?_, same⟩
      simp [ops, listed]
  · intro store live held accepts
    have earlier : batch.Accepts store := by
      rw [grown.accepts, Batch.Accepts, conditions] at accepts
      exact accepts
    have applied : written.effect store = op.apply (batch.effect store) := by
      simp [Batch.effect, ops]
    rw [foldl_append]
    refine (seen.exact store live held earlier).staged declares ?_ encoded ?_
      (reconciled_foldl subject _ _ _ (pairwise_indexedSlots table) written store)
    · rw [seen.read store earlier]
    · intro other
      rw [applied, Op.get_apply, key, writes]

theorem triple_stage (declares : table.DeclaresProjection) (staging : Staging) :
    Triple holds (Kept table tenant done) (staging.perform table : TxM Label Unit)
      fun result batch => Kept table tenant (done ++ [(staging, result)]) batch := by
  obtain ⟨subject, record⟩ := staging
  change Triple holds _ (stage table subject record : TxM Label Unit) _
  refine Triple.bind (triple_currentRow (rowKey subject)) ?_ ?_
  · intro old
    cases record with
    | none =>
      rintro batch ⟨value, seen, equal⟩
      cases equal
      exact seen.staged_row none none (.delete (rowKey subject)) declares (by simp)
        rfl rfl rfl rfl
    | some record =>
      obtain ⟨bytes, encoded⟩ := project_encodes record table
      let seen (batch : Batch) : Prop := ∃ value,
        Seen table tenant done (rowKey subject) value batch ∧
          Except.ok old = (.ok (value.bind fun value => (decodeRow table value).toOption) :
            Result (Option Row))
      have total : Triple holds seen
          (Tx.within "attr.Indexer.Stage" (Result.lift ((project record).encode table)) :
            TxM Label Bytes)
          fun result batch => result = .ok bytes ∧ seen batch := by
        apply Triple.within
        rw [encoded]
        exact Triple.lift fun batch held => ⟨rfl, held⟩
      refine Triple.bind total ?_ ?_
      · rintro written batch ⟨equal, value, read, rows⟩
        cases equal
        cases rows
        refine read.staged_row (some record) (some bytes) (.set (rowKey subject) bytes)
          declares ?_ rfl rfl rfl rfl
        simp [encoded]
      · rintro fault batch ⟨impossible, _⟩
        cases impossible
  · rintro fault batch ⟨value, _, impossible⟩
    cases impossible

theorem exact_of_empty {store : Store}
    (empty : ∀ key, (tenantRange tenant).Contains key → store.get key = none) :
    Exact table tenant store fun _ => none := by
  have absent : ∀ ns space key value, (spaceRange tenant ns space).Contains key →
      store.get key ≠ some value := by
    intro ns space key value inside found
    rw [spaceRange, contains_prefixRange] at inside
    have whole : (tenantRange tenant).Contains key := by
      rw [tenantRange, contains_prefixRange]
      refine List.IsPrefix.trans ?_ inside
      rw [scopePrefix, append_assoc]
      exact prefix_append _ _
    rw [empty key whole] at found
    cases found
  constructor
  · intro ns key value inside
    simpa using absent ns _ key value inside
  · intro ns key value inside
    simpa using absent ns _ key value inside

end Transactions

/-- Over every interleaving of transactions of `Stage`, on any records of any tenant,
the rows and the index entries of a tenant that started empty are exactly those of
its live records. -/
theorem attribute_index_exact (table : Slots) (declares : table.DeclaresProjection)
    (tenant : TenantId) (initial : Store)
    (empty : ∀ key, (tenantRange tenant).Contains key → initial.get key = none)
    (schedule : List (Action (List Staging))) :
    let world := (transactions (Staging.perform table)).run initial schedule
    Exact table tenant world.state
      (liveAfter (world.history.map fun entry => entry.batch.label)) := by
  refine invariant_of_transactions
    (fun store committed => Exact table tenant store (liveAfter committed))
    (Kept table tenant) (exact_of_empty empty) ?_ ?_ ?_ schedule
  · exact ⟨by simp, fun store live held _ => held⟩
  · exact fun staging done => triple_stage declares staging
  · exact fun done batch store committed kept held accepts =>
      kept.exact store (liveAfter committed) held accepts

def plainRecord : Record :=
  { fields :=
      { policy := ⟨[], Text.nil_fits⟩
        importance := 0
        health := 0
        valence := 0
        arousal := 0
        accessedAt := .zero
        accessCount := 0
        lastRecalledAt := .zero
        nextAttentionAt := .zero }
    createdAt := 0
    updatedAt := 0 }

/-- Two transactions stage one record; the first commits and the second, which read
before that, conflicts. -/
def racingSchedule : List (Action (List Staging)) :=
  let staging : Staging := ⟨⟨ascii "acme", defaultNamespace, Id.filled 1⟩, some plainRecord⟩
  [.spawn [staging], .spawn [staging], .act 0, .act 1, .act 0, .act 1]

theorem attribute_index_exact_race : ∃ registered, table = .ok registered ∧
    let world := (transactions (Staging.perform registered)).run .empty racingSchedule
    world.history.length = 1 ∧ Exact registered (ascii "acme") world.state
        (liveAfter (world.history.map fun entry => entry.batch.label)) := by
  obtain ⟨registered, built, declares⟩ := table_registers
  have commits : table.toOption.all (fun registered =>
      ((transactions (Staging.perform registered)).run .empty racingSchedule).history.length
        = 1) = true := by
    decide +kernel
  rw [built] at commits
  exact ⟨registered, built, of_decide_eq_true commits,
    attribute_index_exact registered declares (ascii "acme") .empty (fun _ _ => rfl) racingSchedule⟩

end Remem.Attr
