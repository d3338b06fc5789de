import Remem.Jobs.Queue
import Remem.Storage.Transaction

/-!
# What the queue keeps

Abstractly the queue of a tenant keeps at most one job under each id. The store
represents such a ledger when the rows of the tenant's job space are the jobs of the
ledger, each at its own key. Writing a row, removing one and touching anything else
are the three ways a store changes, and each is a change of the ledger.
-/

namespace Remem.Jobs

open Base Keys Storage OrderedMap Function

def InSpace (tenant : TenantId) (key : Bytes) : Prop :=
  beginKey tenant defaultNamespace .job <+: key

structure IsRow (codec : JobCodec) (tenant : TenantId) (store : Store) (job : Job) : Prop where
  found : ∃ value, store.get job.stored = some value ∧ Stored codec job.stored value job
  tenant : job.tenant = tenant
  namespaceName : job.resolved = defaultNamespace

abbrev Ledger := Id → Option Job

/-- The rows of the tenant's job space are the jobs of the ledger. -/
structure Represents (codec : JobCodec) (tenant : TenantId) (store : Store) (ledger : Ledger) :
    Prop where
  decodes : ∀ key value, store.get key = some value → InSpace tenant key →
    ∃ job, Stored codec key value job ∧ ledger job.jid = some job
  rows : ∀ jid job, ledger jid = some job → job.jid = jid ∧ IsRow codec tenant store job

variable {codec : JobCodec} {tenant : TenantId} {store : Store} {ledger : Ledger}
  {job : Job} {key value : Bytes}

theorem inSpace_key (isKey : job.key = .ok key) :
    InSpace tenant key ↔ job.tenant = tenant ∧ job.resolved = defaultNamespace := by
  obtain ⟨_, due, _, rfl⟩ := Job.key_eq_ok_iff.mp isKey
  have delimits := beginKey_selfDelimiting.isPrefix_iff ((tenant, defaultNamespace), Space.job)
    ((job.tenant, job.resolved), Space.job)
    (job.state.partition.byte :: (uint64 (unixMilli due) ++ job.jid.bytes))
  rw [InSpace, Keys.job, delimits]
  simp [eq_comm]

theorem jid_eq_of_key {other : Job} (isKey : job.key = .ok key) (otherKey : other.key = .ok key) :
    job.jid = other.jid := by
  obtain ⟨_, due, _, place⟩ := Job.key_eq_ok_iff.mp isKey
  obtain ⟨_, otherDue, _, otherPlace⟩ := Job.key_eq_ok_iff.mp otherKey
  exact (job_inj (place.symm.trans otherPlace)).2.2.2.2

theorem IsRow.isKey (row : IsRow codec tenant store job) : job.key = .ok job.stored := by
  obtain ⟨value, _, stored⟩ := row.found
  exact (unmarshal_place stored.read).1

theorem IsRow.inSpace (row : IsRow codec tenant store job) : InSpace tenant job.stored :=
  (inSpace_key row.isKey).mpr ⟨row.tenant, row.namespaceName⟩

theorem Stored.eq {other : Job} (stored : Stored codec key value job)
    (read : unmarshal codec key value = .ok other) : other = job :=
  Except.ok.inj (read.symm.trans stored.read)

namespace Represents

theorem ledger_eq (represents : Represents codec tenant store ledger)
    (found : store.get key = some value) (read : unmarshal codec key value = .ok job)
    (inside : InSpace tenant key) : ledger job.jid = some job := by
  obtain ⟨other, stored, listed⟩ := represents.decodes key value found inside
  rw [stored.eq read]
  exact listed

theorem set (represents : Represents codec tenant store ledger) (isKey : job.key = .ok key)
    (written : marshal codec job = .ok value) (inside : InSpace tenant key)
    (absent : ledger job.jid = none) :
    Represents codec tenant (store.set key value)
      (Function.update ledger job.jid (some (job.settled key))) where
  decodes other row found otherInside := by
    by_cases same : other = key
    · subst same
      rw [get_set_self] at found
      cases found
      exact ⟨_, stored_settled isKey written, update_self ..⟩
    rw [get_set_of_ne _ _ same] at found
    obtain ⟨listed, stored, isListed⟩ := represents.decodes other row found otherInside
    refine ⟨listed, stored, ?_⟩
    rw [update_of_ne, isListed]
    intro sameId
    rw [sameId, absent] at isListed
    cases isListed
  rows jid listed isListed := by
    obtain ⟨tenants, namespaces⟩ := (inSpace_key isKey).mp inside
    by_cases same : jid = job.jid
    · subst same
      rw [update_self] at isListed
      cases isListed
      refine ⟨rfl, ⟨value, ?_, stored_settled isKey written⟩, tenants, ?_⟩
      · exact get_set_self _ _ _
      · rw [settled_resolved, namespaces]
    rw [update_of_ne same] at isListed
    obtain ⟨isId, row⟩ := represents.rows jid listed isListed
    refine ⟨isId, ?_, row.tenant, row.namespaceName⟩
    obtain ⟨rowValue, found, stored⟩ := row.found
    refine ⟨rowValue, ?_, stored⟩
    rw [get_set_of_ne, found]
    intro sameKey
    have sameId := jid_eq_of_key (sameKey ▸ row.isKey) isKey
    exact same (isId ▸ sameId)

theorem erase (represents : Represents codec tenant store ledger)
    (listed : ledger job.jid = some job) :
    Represents codec tenant (store.erase job.stored) (Function.update ledger job.jid none) where
  decodes other row found otherInside := by
    by_cases same : other = job.stored
    · subst same
      rw [get_erase_self] at found
      cases found
    rw [get_erase_of_ne _ same] at found
    obtain ⟨listed', stored, isListed⟩ := represents.decodes other row found otherInside
    refine ⟨listed', stored, ?_⟩
    rw [update_of_ne, isListed]
    intro sameId
    rw [sameId, listed] at isListed
    cases isListed
    exact same (unmarshal_place stored.read).2.symm
  rows jid other isListed := by
    by_cases same : jid = job.jid
    · subst same
      rw [update_self] at isListed
      cases isListed
    rw [update_of_ne same] at isListed
    obtain ⟨isId, row⟩ := represents.rows jid other isListed
    refine ⟨isId, ?_, row.tenant, row.namespaceName⟩
    obtain ⟨rowValue, found, stored⟩ := row.found
    refine ⟨rowValue, ?_, stored⟩
    rw [get_erase_of_ne, found]
    intro sameKey
    have jobRow := (represents.rows _ _ listed).2
    have sameId := jid_eq_of_key (sameKey ▸ row.isKey) jobRow.isKey
    exact same (isId ▸ sameId)

theorem congr (represents : Represents codec tenant store ledger) {after : Store}
    (same : ∀ key, InSpace tenant key → after.get key = store.get key) :
    Represents codec tenant after ledger where
  decodes key value found inside := by
    rw [same key inside] at found
    exact represents.decodes key value found inside
  rows jid job listed := by
    obtain ⟨isId, row⟩ := represents.rows jid job listed
    refine ⟨isId, ?_, row.tenant, row.namespaceName⟩
    obtain ⟨value, found, stored⟩ := row.found
    exact ⟨value, by rw [same _ row.inSpace, found], stored⟩

theorem empty (free : ∀ key, InSpace tenant key → store.get key = none) :
    Represents codec tenant store fun _ => none where
  decodes key value found inside := by
    rw [free key inside] at found
    cases found
  rows jid job listed := by cases listed

theorem existsUnique_row (represents : Represents codec tenant store ledger) {jid : Id}
    (listed : ledger jid = some job) :
    ∃! row : Bytes × Bytes, store.get row.1 = some row.2 ∧ InSpace tenant row.1 ∧
      ∃ read, unmarshal codec row.1 row.2 = .ok read ∧ read.jid = jid := by
  obtain ⟨isId, row⟩ := represents.rows jid job listed
  obtain ⟨value, found, stored⟩ := row.found
  refine ⟨(job.stored, value), ⟨found, row.inSpace, job, stored.read, isId⟩, ?_⟩
  rintro ⟨otherKey, otherValue⟩ ⟨otherFound, otherInside, other, read, otherId⟩
  have same := represents.ledger_eq otherFound read otherInside
  rw [otherId, listed] at same
  cases same
  have place : job.stored = otherKey := (unmarshal_place read).2
  dsimp only at otherFound
  rw [← place, found] at otherFound
  cases otherFound
  rw [place]

end Represents

end Remem.Jobs
