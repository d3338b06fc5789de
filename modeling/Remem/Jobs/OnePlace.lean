import Remem.Jobs.Scans

/-!
# A job is in exactly one place

Whatever calls run side by side, the store represents a ledger for every tenant: it lists
the jobs that were enqueued and not reaped, and each has one row. The ledger also
follows who holds each job, which the fencing of lost claims rests on.
-/

namespace Remem.Jobs

open Base Keys Storage List Function Batch Option

abbrev History := List (Entry Call (Labelled Deed))

def deeds (history : History) : List Deed := history.map fun entry => entry.batch.label

def Enqueued (done : List Deed) (tenant : TenantId) (jid : Id) : Prop :=
  ∃ jobs, .enqueued jobs ∈ done ∧ (tenant, jid) ∈ jobs

def Reaped (done : List Deed) (tenant : TenantId) (jid : Id) : Prop :=
  ∃ jobs, .reaped jobs ∈ done ∧ (tenant, jid) ∈ jobs

def leaseOf (tenant : TenantId) (jid : Id) : List Deed → Option (Option Id)
  | [] => none
  | .claimed other otherJid token :: done =>
    if other = tenant ∧ otherJid = jid then some (some token) else leaseOf tenant jid done
  | .ended other otherJid _ :: done =>
    if other = tenant ∧ otherJid = jid then some none else leaseOf tenant jid done
  | .enqueued _ :: done => leaseOf tenant jid done
  | .kept _ _ _ :: done => leaseOf tenant jid done
  | .reaped _ :: done => leaseOf tenant jid done

structure Tracks (tenant : TenantId) (ledger : Ledger) (done : List Deed) : Prop where
  live : ∀ jid, (ledger jid).isSome = true ↔ Enqueued done tenant jid ∧ ¬ Reaped done tenant jid
  reaped : ∀ jid, Reaped done tenant jid → Enqueued done tenant jid
  claimed : ∀ jid, leaseOf tenant jid done ≠ none → Enqueued done tenant jid
  lease : ∀ jid job token, ledger jid = some job → leaseOf tenant jid done = some token →
    job.token = token

/-- What every store of a run keeps, with the commits that made it. -/
structure Kept (codec : JobCodec) (store : Store) (history : History) : Prop where
  attempts : ∀ entry ∈ history, entry.call.Attempts codec entry.batch
  placed : ∀ tenant namespaceName key, beginKey tenant namespaceName .job <+: key →
    namespaceName ≠ defaultNamespace → store.get key = none
  ledgers : ∀ tenant, ∃ ledger, Represents codec tenant store ledger ∧
    Tracks tenant ledger (deeds history)

variable {codec : JobCodec} {store : Store} {history : History} {tenant : TenantId}
  {ledger : Ledger} {done : List Deed} {batch : Batch} {cur next : Job}

theorem Kept.orderly (kept : Kept codec store history) : Orderly codec store := by
  intro tenant
  obtain ⟨ledger, represents, _⟩ := kept.ledgers tenant
  exact ⟨ledger, represents⟩

variable {deed : Deed}

theorem enqueued_cons {jid : Id} : Enqueued (deed :: done) tenant jid ↔
    (∃ jobs, deed = .enqueued jobs ∧ (tenant, jid) ∈ jobs) ∨ Enqueued done tenant jid := by
  simp only [Enqueued, mem_cons, or_and_right, exists_or]
  constructor <;> rintro (⟨jobs, same, listed⟩ | earlier)
  · exact .inl ⟨jobs, same.symm, listed⟩
  · exact .inr earlier
  · exact .inl ⟨jobs, same.symm, listed⟩
  · exact .inr earlier

theorem reaped_cons {jid : Id} : Reaped (deed :: done) tenant jid ↔
    (∃ jobs, deed = .reaped jobs ∧ (tenant, jid) ∈ jobs) ∨ Reaped done tenant jid := by
  simp only [Reaped, mem_cons, or_and_right, exists_or]
  constructor <;> rintro (⟨jobs, same, listed⟩ | earlier)
  · exact .inl ⟨jobs, same.symm, listed⟩
  · exact .inr earlier
  · exact .inl ⟨jobs, same.symm, listed⟩
  · exact .inr earlier

variable {key : Bytes}

theorem get_of_condition (accepts : batch.Accepts store) {value : Bytes}
    (condition : ⟨key, value, true⟩ ∈ batch.conditions) : store.get key = some value := by
  have held := accepts _ condition
  unfold Condition.holds at held
  cases found : store.get key with
  | none => simp [found] at held
  | some value => simpa [found] using held

theorem Kept.inSpace (kept : Kept codec store history) {value : Bytes} {job : Job}
    (found : store.get key = some value) (read : unmarshal codec key value = .ok job) :
    InSpace job.tenant key := by
  have isKey := (unmarshal_place read).1
  apply (inSpace_key isKey).mpr
  refine ⟨rfl, ?_⟩
  by_contra elsewhere
  obtain ⟨_, due, _, place⟩ := Job.key_eq_ok_iff.mp isKey
  have absent := kept.placed job.tenant job.resolved key (place ▸ prefix_append _ _) elsewhere
  rw [found] at absent
  cases absent

theorem Moves.found (moves : Moves codec batch cur next) (accepts : batch.Accepts store) :
    ∃ value, store.get cur.stored = some value ∧ unmarshal codec cur.stored value = .ok cur := by
  obtain ⟨oldValue, _, _, _, read, _, _, condition, _⟩ := moves
  exact ⟨oldValue, get_of_condition accepts condition, read⟩

theorem Moves.settles (moves : Moves codec batch cur next) (inside : InSpace cur.tenant cur.stored)
    (represents : Represents codec cur.tenant store ledger) (accepts : batch.Accepts store) :
    ledger cur.jid = some cur ∧ ∃ newKey, next.key = .ok newKey ∧
      Represents codec cur.tenant (batch.effect store)
        (Function.update ledger cur.jid (some (next.settled newKey))) := by
  obtain ⟨value, found, read⟩ := moves.found accepts
  have listed := represents.ledger_eq found read inside
  obtain ⟨_, newKey, newValue, extra, _, ⟨isKey, written⟩, ⟨jid, tenants, resolved⟩, _, ops,
    outside⟩ := moves
  refine ⟨listed, newKey, isKey, ?_⟩
  have erased := represents.erase listed
  have newInside : InSpace cur.tenant newKey := by
    apply (inSpace_key isKey).mpr
    exact ⟨tenants, resolved.trans ((inSpace_key (unmarshal_place read).1).mp inside).2⟩
  have moved := erased.set isKey written newInside (by rw [jid]; exact update_self ..)
  rw [jid, update_idem] at moved
  apply moved.congr
  intro key keyInside
  have effect : batch.effect store =
      (⟨extra, [], []⟩ : Batch).effect ((store.erase cur.stored).set newKey newValue) := by
    rw [Batch.effect, ops]
    rfl
  rw [effect, get_effect_of_not_staged]
  rintro op listed rfl
  exact outside op listed cur.tenant defaultNamespace keyInside

theorem token_settled (job : Job) (key : Bytes) : (job.settled key).token = job.token := by
  cases lease : job.lease <;> simp [Job.token, Job.settled, lease]

theorem Moves.represents (moves : Moves codec batch cur next)
    (inside : InSpace cur.tenant cur.stored)
    (represents : Represents codec cur.tenant store ledger) (accepts : batch.Accepts store) :
    ledger cur.jid = some cur ∧ ∃ after, after.token = next.token ∧
      Represents codec cur.tenant (batch.effect store)
        (Function.update ledger cur.jid (some after)) := by
  obtain ⟨listed, newKey, _, settled⟩ := moves.settles inside represents accepts
  exact ⟨listed, next.settled newKey, token_settled next newKey, settled⟩

theorem Moves.represents_other (moves : Moves codec batch cur next)
    (other : tenant ≠ cur.tenant) (represents : Represents codec tenant store ledger) :
    Represents codec tenant (batch.effect store) ledger := by
  obtain ⟨_, newKey, newValue, extra, read, ⟨isKey, _⟩, ⟨_, tenants, _⟩, _, ops, outside⟩ := moves
  apply represents.congr
  intro key keyInside
  apply get_effect_of_not_staged
  intro op listed sameKey
  rw [ops, mem_cons, mem_cons] at listed
  subst sameKey
  rcases listed with rfl | rfl | later
  · exact other ((inSpace_key (unmarshal_place read).1).mp keyInside).1.symm
  · exact other (((inSpace_key isKey).mp keyInside).1.symm.trans tenants)
  · exact outside op later tenant defaultNamespace keyInside

theorem Tracks.move (tracks : Tracks tenant ledger done) {after : Job}
    (listed : ledger cur.jid = some cur) (notEnqueued : ∀ jobs, deed ≠ .enqueued jobs)
    (notReaped : ∀ jobs, deed ≠ .reaped jobs)
    (others : ∀ jid, jid ≠ cur.jid → leaseOf tenant jid (deed :: done) = leaseOf tenant jid done)
    (own : ∀ token, leaseOf tenant cur.jid (deed :: done) = some token → after.token = token) :
    Tracks tenant (Function.update ledger cur.jid (some after)) (deed :: done) := by
  have enqueued : ∀ jid, Enqueued (deed :: done) tenant jid ↔ Enqueued done tenant jid := by
    simp [enqueued_cons, notEnqueued]
  have reaped : ∀ jid, Reaped (deed :: done) tenant jid ↔ Reaped done tenant jid := by
    simp [reaped_cons, notReaped]
  have isLive := (tracks.live cur.jid).mp (by rw [listed]; rfl)
  constructor
  · intro jid
    rw [enqueued, reaped, ← tracks.live]
    by_cases same : jid = cur.jid
    · rw [same, update_self, listed]
      rfl
    · rw [update_of_ne same]
  · intro jid
    rw [enqueued, reaped]
    exact tracks.reaped jid
  · intro jid claimed
    rw [enqueued]
    by_cases same : jid = cur.jid
    · rw [same]
      exact isLive.1
    · rw [others jid same] at claimed
      exact tracks.claimed jid claimed
  · intro jid job token isJob isToken
    by_cases same : jid = cur.jid
    · rw [same, update_self] at isJob
      cases isJob
      exact own token (same ▸ isToken)
    rw [update_of_ne same] at isJob
    rw [others jid same] at isToken
    exact tracks.lease jid job token isJob isToken

theorem Tracks.elsewhere (tracks : Tracks tenant ledger done)
    (notEnqueued : ∀ jobs, deed = .enqueued jobs → ∀ jid, (tenant, jid) ∉ jobs)
    (notReaped : ∀ jobs, deed = .reaped jobs → ∀ jid, (tenant, jid) ∉ jobs)
    (leases : ∀ jid, leaseOf tenant jid (deed :: done) = leaseOf tenant jid done) :
    Tracks tenant ledger (deed :: done) := by
  have enqueued : ∀ jid, Enqueued (deed :: done) tenant jid ↔ Enqueued done tenant jid := by
    intro jid
    rw [enqueued_cons, or_iff_right]
    rintro ⟨jobs, isDeed, listed⟩
    exact notEnqueued jobs isDeed jid listed
  have reaped : ∀ jid, Reaped (deed :: done) tenant jid ↔ Reaped done tenant jid := by
    intro jid
    rw [reaped_cons, or_iff_right]
    rintro ⟨jobs, isDeed, listed⟩
    exact notReaped jobs isDeed jid listed
  constructor
  · intro jid
    rw [enqueued, reaped]
    exact tracks.live jid
  · intro jid
    rw [enqueued, reaped]
    exact tracks.reaped jid
  · intro jid
    rw [enqueued, leases]
    exact tracks.claimed jid
  · intro jid
    rw [leases]
    exact tracks.lease jid

theorem placed_effect (placed : ∀ tenant ns key, beginKey tenant ns .job <+: key →
      ns ≠ defaultNamespace → store.get key = none)
    (inside : ∀ op ∈ batch.ops, ∀ tenant ns,
      beginKey tenant ns .job <+: op.key → ns = defaultNamespace) :
    ∀ tenant ns key, beginKey tenant ns .job <+: key →
      ns ≠ defaultNamespace → (batch.effect store).get key = none := by
  intro tenant ns key begins elsewhere
  rw [get_effect_of_not_staged, placed tenant ns key begins elsewhere]
  rintro op listed rfl
  exact elsewhere (inside op listed tenant ns begins)

theorem namespace_of_key {job : Job} {ns : Namespace} (isKey : job.key = .ok key)
    (begins : beginKey tenant ns .job <+: key) : ns = job.resolved := by
  obtain ⟨_, due, _, rfl⟩ := Job.key_eq_ok_iff.mp isKey
  have delimits := beginKey_selfDelimiting.isPrefix_iff ((tenant, ns), Space.job)
    ((job.tenant, job.resolved), Space.job)
    (job.state.partition.byte :: (uint64 (unixMilli due) ++ job.jid.bytes))
  rw [Keys.job, delimits] at begins
  simp only [Prod.mk.injEq] at begins
  exact begins.1.2

variable {index : Nat} {call : Call}

theorem Kept.move (kept : Kept codec store history) (moves : Moves codec batch cur next)
    (accepts : batch.Accepts store) (attempts : call.Attempts codec ⟨batch, deed⟩)
    (notEnqueued : ∀ jobs, deed ≠ .enqueued jobs) (notReaped : ∀ jobs, deed ≠ .reaped jobs)
    (others : ∀ tenant jid, (tenant ≠ cur.tenant ∨ jid ≠ cur.jid) → leaseOf tenant jid (deed ::
      deeds history) = leaseOf tenant jid (deeds history))
    (own : ∀ token, leaseOf cur.tenant cur.jid (deed :: deeds history) = some token → next.token =
      token ∨ (next.token = cur.token ∧ leaseOf cur.tenant cur.jid (deeds history) = some token)) :
    Kept codec (batch.effect store) (⟨index, call, ⟨batch, deed⟩⟩ :: history) := by
  obtain ⟨_, found, read⟩ := moves.found accepts
  have inside := kept.inSpace found read
  constructor
  · intro entry member
    rcases mem_cons.mp member with rfl | earlier
    · exact attempts
    · exact kept.attempts entry earlier
  · apply placed_effect kept.placed
    obtain ⟨_, newKey, _, extra, _, ⟨isKey, _⟩, ⟨_, _, resolved⟩, _, ops, outside⟩ := moves
    have isPlaced := (inSpace_key (unmarshal_place read).1).mp inside
    intro op listed tenant ns begins
    rw [ops, mem_cons, mem_cons] at listed
    rcases listed with rfl | rfl | later
    · rw [namespace_of_key (unmarshal_place read).1 begins, isPlaced.2]
    · rw [namespace_of_key isKey begins, resolved, isPlaced.2]
    · exact absurd begins (outside op later tenant ns)
  · intro tenant
    obtain ⟨ledger, represents, tracks⟩ := kept.ledgers tenant
    by_cases same : tenant = cur.tenant
    · subst same
      obtain ⟨listed, after, token, moved⟩ := moves.represents inside represents accepts
      refine ⟨_, moved, tracks.move listed notEnqueued notReaped ?_ ?_⟩
      · exact fun jid different => others _ jid (.inr different)
      intro lease isLease
      rw [token]
      rcases own lease isLease with granted | ⟨unchanged, before⟩
      · exact granted
      · rw [unchanged]
        exact tracks.lease _ _ _ listed before
    · refine ⟨ledger, moves.represents_other same represents, tracks.elsewhere ?_ ?_ ?_⟩
      · exact fun jobs isDeed => absurd isDeed (notEnqueued jobs)
      · exact fun jobs isDeed => absurd isDeed (notReaped jobs)
      · exact fun jid => others tenant jid (.inl same)

theorem Represents.enqueue (rows : List (Job × Bytes × Bytes))
    (written : ∀ row ∈ rows, row.1.key = .ok row.2.1 ∧ marshal codec row.1 = .ok row.2.2 ∧
      row.1.resolved = defaultNamespace)
    (distinct : (rows.map fun row => (row.1.tenant, row.1.jid)).Nodup)
    (fresh : ∀ row ∈ rows, row.1.tenant = tenant → ledger row.1.jid = none)
    (represents : Represents codec tenant store ledger) :
    ∃ after, Represents codec tenant
        ((rows.map fun row => Op.set row.2.1 row.2.2).foldl Op.apply store) after ∧
      ∀ jid, if (tenant, jid) ∈ rows.map (fun row => (row.1.tenant, row.1.jid))
        then (after jid).isSome = true else after jid = ledger jid := by
  induction rows generalizing store ledger with
  | nil => exact ⟨ledger, represents, fun _ => rfl⟩
  | cons row rest ih =>
    obtain ⟨isKey, isWritten, resolved⟩ := written row mem_cons_self
    rw [map_cons, nodup_cons] at distinct
    have writtenRest := forall_mem_of_forall_mem_cons written
    have freshRest := forall_mem_of_forall_mem_cons fresh
    rw [map_cons, foldl_cons]
    by_cases same : row.1.tenant = tenant
    · subst same
      have absent := fresh row mem_cons_self rfl
      have placed : InSpace row.1.tenant row.2.1 := (inSpace_key isKey).mpr ⟨rfl, resolved⟩
      obtain ⟨after, isAfter, listed⟩ := ih writtenRest distinct.2 (by
          intro other isOther tenants
          rw [update_of_ne, freshRest other isOther tenants]
          intro sameId
          apply distinct.1
          rw [← tenants, ← sameId]
          exact mem_map_of_mem isOther)
        (represents.set isKey isWritten placed absent)
      refine ⟨after, isAfter, fun jid => ?_⟩
      have grown := listed jid
      by_cases later : (row.1.tenant, jid) ∈ rest.map fun row => (row.1.tenant, row.1.jid)
      · rw [if_pos later] at grown
        rw [map_cons, if_pos (mem_cons_of_mem _ later)]
        exact grown
      rw [if_neg later] at grown
      by_cases first : jid = row.1.jid
      · subst first
        rw [map_cons, if_pos mem_cons_self, grown, update_self]
        rfl
      rw [update_of_ne first] at grown
      rw [map_cons, if_neg, grown]
      rw [mem_cons, not_or]
      exact ⟨fun equal => first (Prod.ext_iff.mp equal).2, later⟩
    · obtain ⟨after, isAfter, listed⟩ := ih writtenRest distinct.2 freshRest
        (represents.congr fun key inside => by
          apply OrderedMap.get_set_of_ne
          rintro rfl
          exact same ((inSpace_key isKey).mp inside).1)
      refine ⟨after, isAfter, fun jid => ?_⟩
      have other : (tenant, jid) ≠ (row.1.tenant, row.1.jid) :=
        fun equal => same (Prod.ext_iff.mp equal).1.symm
      rw [map_cons]
      simp only [mem_cons, other, false_or]
      exact listed jid

variable {jobs : List (TenantId × Id)}

theorem Tracks.enqueue (tracks : Tracks tenant ledger done) {after : Ledger}
    (fresh : ∀ jid, (tenant, jid) ∈ jobs → ¬ Enqueued done tenant jid)
    (listed : ∀ jid, if (tenant, jid) ∈ jobs then (after jid).isSome = true else after jid = ledger
      jid) : Tracks tenant after (.enqueued jobs :: done) := by
  have enqueued : ∀ jid, Enqueued (.enqueued jobs :: done) tenant jid ↔
      (tenant, jid) ∈ jobs ∨ Enqueued done tenant jid := by
    intro jid
    rw [enqueued_cons]
    simp
  have reaped : ∀ jid, Reaped (.enqueued jobs :: done) tenant jid ↔ Reaped done tenant jid := by
    simp [reaped_cons]
  constructor
  · intro jid
    have now := listed jid
    rw [enqueued, reaped]
    split at now
    · next isNew =>
      have notReaped := fun isReaped => fresh jid isNew (tracks.reaped jid isReaped)
      exact ⟨fun _ => ⟨.inl isNew, notReaped⟩, fun _ => now⟩
    next isOld =>
    rw [now, or_iff_right isOld]
    exact tracks.live jid
  · intro jid
    rw [enqueued, reaped]
    exact fun isReaped => .inr (tracks.reaped jid isReaped)
  · intro jid claimed
    rw [enqueued]
    exact .inr (tracks.claimed jid claimed)
  · intro jid job token isJob isToken
    have now := listed jid
    have wasEnqueued := tracks.claimed jid (by
      rw [show leaseOf tenant jid done = some token from isToken]
      exact some_ne_none _)
    rw [if_neg fun isNew => fresh jid isNew wasEnqueued] at now
    exact tracks.lease jid job token (now ▸ isJob) isToken

theorem Kept.enqueue (kept : Kept codec store history)
    (attempts : call.Attempts codec ⟨batch, .enqueued jobs⟩) (distinct : jobs.Nodup)
    (fresh : ∀ job ∈ jobs, ¬ Enqueued (deeds history) job.1 job.2) :
    Kept codec (batch.effect store) (⟨index, call, ⟨batch, .enqueued jobs⟩⟩ :: history) := by
  obtain ⟨rows, rfl, ops, written⟩ := attempts.fits
  constructor
  · intro entry member
    rcases mem_cons.mp member with rfl | earlier
    · exact attempts
    · exact kept.attempts entry earlier
  · apply placed_effect kept.placed
    intro op staged tenant ns begins
    rw [ops] at staged
    obtain ⟨row, listed, rfl⟩ := mem_map.mp staged
    obtain ⟨isKey, _, resolved⟩ := written row listed
    rw [namespace_of_key isKey begins, resolved]
  · intro tenant
    obtain ⟨ledger, represents, tracks⟩ := kept.ledgers tenant
    obtain ⟨after, isAfter, listed⟩ := represents.enqueue rows written distinct (by
      rintro row listed rfl
      have isFresh := fresh _ (mem_map_of_mem listed)
      apply eq_none_iff_forall_ne_some.mpr
      intro job isJob
      exact isFresh ((tracks.live row.1.jid).mp (by rw [isJob]; rfl)).1)
    refine ⟨after, ?_, tracks.enqueue (fun jid isNew => fresh _ isNew) listed⟩
    rw [Batch.effect, ops]
    exact isAfter

theorem get_deletes (stale : List Queue.Candidate) (store : Store) (key : Bytes) :
    ((stale.map fun row => Op.delete row.key).foldl Op.apply store).get key =
      if key ∈ stale.map Queue.Candidate.key then none else store.get key := by
  induction stale generalizing store with
  | nil => simp
  | cons row rest ih =>
    rw [map_cons, foldl_cons, ih, Op.get_apply]
    simp only [Op.key, Op.value, map_cons, mem_cons]
    split_ifs <;> simp_all

theorem Represents.reap (represents : Represents codec tenant store ledger)
    {stale : List Queue.Candidate}
    (found : ∀ row ∈ stale, store.get row.key = some row.value ∧
      unmarshal codec row.key row.value = .ok row.job ∧ InSpace row.job.tenant row.key) :
    Represents codec tenant ((stale.map fun row => Op.delete row.key).foldl Op.apply store)
      fun jid => if (tenant, jid) ∈ stale.map (fun row => (row.job.tenant, row.job.jid))
        then none else ledger jid where
  decodes key value isFound inside := by
    rw [get_deletes] at isFound
    split at isFound
    · cases isFound
    next kept =>
    obtain ⟨job, stored, listed⟩ := represents.decodes key value isFound inside
    refine ⟨job, stored, ?_⟩
    rw [if_neg, listed]
    intro isStale
    obtain ⟨row, isRow, same⟩ := mem_map.mp isStale
    obtain ⟨tenants, jid⟩ := Prod.ext_iff.mp same
    obtain ⟨rowFound, read, rowInside⟩ := found row isRow
    replace tenants : row.job.tenant = tenant := tenants
    have rowListed := represents.ledger_eq rowFound read (tenants ▸ rowInside)
    rw [show row.job.jid = job.jid from jid, listed] at rowListed
    cases rowListed
    apply kept
    rw [← (unmarshal_place stored.read).2, (unmarshal_place read).2]
    exact mem_map_of_mem isRow
  rows jid job listed := by
    split at listed
    · cases listed
    next kept =>
    obtain ⟨isId, row⟩ := represents.rows jid job listed
    refine ⟨isId, ?_, row.tenant, row.namespaceName⟩
    obtain ⟨value, isFound, stored⟩ := row.found
    refine ⟨value, ?_, stored⟩
    rw [get_deletes, if_neg, isFound]
    intro isStale
    obtain ⟨other, isOther, same⟩ := mem_map.mp isStale
    obtain ⟨otherFound, read, _⟩ := found other isOther
    rw [same, isFound] at otherFound
    cases otherFound
    rw [same] at read
    have sameJob := stored.eq read
    apply kept
    rw [← row.tenant, ← isId, ← sameJob]
    exact mem_map_of_mem isOther

theorem Tracks.reap (tracks : Tracks tenant ledger done)
    (listed : ∀ jid, (tenant, jid) ∈ jobs → (ledger jid).isSome = true) :
    Tracks tenant (fun jid => if (tenant, jid) ∈ jobs then none else ledger jid)
      (.reaped jobs :: done) := by
  have enqueued : ∀ jid, Enqueued (.reaped jobs :: done) tenant jid ↔ Enqueued done tenant jid := by
    simp [enqueued_cons]
  have reaped : ∀ jid, Reaped (.reaped jobs :: done) tenant jid ↔
      (tenant, jid) ∈ jobs ∨ Reaped done tenant jid := by
    intro jid
    rw [reaped_cons]
    simp
  constructor
  · intro jid
    rw [enqueued, reaped]
    by_cases isStale : (tenant, jid) ∈ jobs
    · simp [isStale]
    · simpa [isStale] using tracks.live jid
  · intro jid isReaped
    rw [enqueued]
    rcases (reaped jid).mp isReaped with isStale | earlier
    · exact ((tracks.live jid).mp (listed jid isStale)).1
    · exact tracks.reaped jid earlier
  · intro jid claimed
    rw [enqueued]
    exact tracks.claimed jid claimed
  · intro jid job token isJob isToken
    split at isJob
    · cases isJob
    · exact tracks.lease jid job token isJob isToken

theorem Kept.reap (kept : Kept codec store history)
    (attempts : call.Attempts codec ⟨batch, .reaped jobs⟩) (accepts : batch.Accepts store) :
    Kept codec (batch.effect store) (⟨index, call, ⟨batch, .reaped jobs⟩⟩ :: history) := by
  obtain ⟨stale, rfl, ops, read⟩ := attempts.fits
  have found : ∀ row ∈ stale, store.get row.key = some row.value ∧
      unmarshal codec row.key row.value = .ok row.job ∧ InSpace row.job.tenant row.key := by
    intro row listed
    obtain ⟨isRead, condition⟩ := read row listed
    have isFound := get_of_condition accepts condition
    exact ⟨isFound, isRead, kept.inSpace isFound isRead⟩
  have effect : batch.effect store =
      (stale.map fun row => Op.delete row.key).foldl Op.apply store := by
    rw [Batch.effect, ops]
  constructor
  · intro entry member
    rcases mem_cons.mp member with rfl | earlier
    · exact attempts
    · exact kept.attempts entry earlier
  · intro tenant ns key begins elsewhere
    rw [effect, get_deletes, kept.placed tenant ns key begins elsewhere, ite_self]
  intro tenant
  obtain ⟨ledger, represents, tracks⟩ := kept.ledgers tenant
  rw [effect]
  refine ⟨_, represents.reap found, tracks.reap ?_⟩
  intro jid isStale
  obtain ⟨row, listed, same⟩ := mem_map.mp isStale
  obtain ⟨rfl, rfl⟩ := Prod.ext_iff.mp same
  obtain ⟨isFound, isRead, inside⟩ := found row listed
  rw [represents.ledger_eq isFound isRead inside]
  rfl

variable {payload : Labelled Deed}

theorem Kept.commit (kept : Kept codec store history) (attempts : call.Attempts codec payload)
    (accepts : payload.batch.Accepts store) (distinct : call.enqueues.Nodup)
    (fresh : ∀ jobs, payload.label = .enqueued jobs → ∀ job ∈ jobs, ¬ Enqueued (deeds history)
      job.1 job.2) :
    Kept codec (payload.batch.effect store) (⟨index, call, payload⟩ :: history) := by
  obtain ⟨batch, deed⟩ := payload
  have fits := attempts.fits
  cases deed with
  | enqueued jobs =>
    apply kept.enqueue attempts
    · rw [attempts.enqueues jobs rfl]
      exact distinct
    · exact fresh jobs rfl
  | claimed tenant jid token =>
    obtain ⟨cur, next, moves, rfl, rfl, granted⟩ := fits
    apply kept.move moves accepts attempts nofun nofun
    · intro tenant jid different
      rw [leaseOf, if_neg]
      rintro ⟨rfl, rfl⟩
      exact different.elim (absurd rfl) (absurd rfl)
    · intro lease isLease
      rw [leaseOf, if_pos ⟨rfl, rfl⟩] at isLease
      exact .inl (granted.trans (Option.some.inj isLease))
  | kept tenant jid presented =>
    obtain ⟨cur, next, moves, rfl, rfl, unchanged, _⟩ := fits
    apply kept.move moves accepts attempts nofun nofun
    · exact fun _ _ _ => rfl
    · exact fun lease isLease => .inr ⟨unchanged, isLease⟩
  | ended tenant jid presented =>
    obtain ⟨cur, next, moves, rfl, rfl, granted, _⟩ := fits
    apply kept.move moves accepts attempts nofun nofun
    · intro tenant jid different
      rw [leaseOf, if_neg]
      rintro ⟨rfl, rfl⟩
      exact different.elim (absurd rfl) (absurd rfl)
    · intro lease isLease
      rw [leaseOf, if_pos ⟨rfl, rfl⟩] at isLease
      exact .inl (granted.trans (Option.some.inj isLease))
  | reaped jobs => exact kept.reap attempts accepts

theorem fresh_of_view {queue : Queue} {born : History} {committed : List (Labelled Deed)}
    (attempts : ∀ entry ∈ history, entry.call.Attempts codec entry.batch)
    (view : queue.system.View index call born committed history)
    (may : call.May codec committed payload) (jobs : List (TenantId × Id))
    (isLabel : payload.label = .enqueued jobs) :
    ∀ job ∈ jobs, ¬ Enqueued (deeds history) job.1 job.2 := by
  rintro ⟨tenant, jid⟩ isNew ⟨others, isDeed, listed⟩
  obtain ⟨entry, isEntry, isOther⟩ := mem_map.mp isDeed
  rw [may.enqueues jobs isLabel] at isNew
  have enqueues := (attempts entry isEntry).enqueues others isOther
  by_cases own : entry.thread = index
  · have empty := view.own
    rw [may.first jobs isLabel, map_eq_nil_iff, filter_eq_nil_iff] at empty
    exact empty entry isEntry (decide_eq_true own)
  · exact view.apart entry isEntry own (tenant, jid) (enqueues ▸ listed) isNew

def Vacant (store : Store) : Prop :=
  ∀ tenant ns key, beginKey tenant ns .job <+: key → store.get key = none

theorem Vacant.kept (vacant : Vacant store) : Kept codec store [] where
  attempts entry member := by cases member
  placed tenant ns key begins _ := vacant tenant ns key begins
  ledgers tenant := by
    refine ⟨fun _ => none, Represents.empty fun key inside => vacant _ _ key inside, ?_⟩
    constructor <;> simp [Enqueued, Reaped, leaseOf, deeds]

theorem refusal_of_commit {fault : Fault} (failed : payload.batch.commit store = .error fault) :
    Refusal fault := by
  by_cases accepts : payload.batch.Accepts store
  · rw [commit_of_accepts accepts] at failed
    cases failed
  rw [commit_conflict accepts] at failed
  cases failed
  rfl

theorem kept_run (queue : Queue) {initial : Store} (vacant : Vacant initial)
    (schedule : List (Action Call))
    (distinct : queue.system.Distinct (queue.system.run initial schedule)) :
    System.Sound queue.system System.Unchecked (Kept queue.codec) (fun _ _ _ _ _ => Quiet)
      (queue.system.run initial schedule) := by
  apply System.sound_run _ _ _ vacant.kept _ schedule distinct (queue.system.meets_unchecked _ _)
  intro index call born store _ legal _
  apply System.Safe.of_performs (performs_body ?_ legal)
  · exact fun _ _ _ failed => refusal_of_commit failed
  · intro committed payload store history after may kept view applied _
    obtain ⟨accepts, rfl⟩ := commit_eq_ok_iff.mp applied
    exact kept.commit may.toAttempts accepts legal.1 (fresh_of_view kept.attempts view may)
  · rintro store ⟨history, kept, _⟩
    exact kept.orderly

/-- A job is in exactly one place. From an empty job space, in every schedule of calls that
enqueue under ids of their own into the default namespace: a job enqueued and not reaped has
one row, every row of a job space is at the key of the job it reads as, which is such a job,
and no commit is of a call that returned an error. -/
theorem job_in_one_place (queue : Queue) (initial : Store) (vacant : Vacant initial)
    (schedule : List (Action Call))
    (distinct : queue.system.Distinct (queue.system.run initial schedule)) :
    let world := queue.system.run initial schedule
    (∀ tenant jid, Enqueued (deeds world.history) tenant jid →
      ¬ Reaped (deeds world.history) tenant jid →
      ∃! row : Bytes × Bytes, world.state.get row.1 = some row.2 ∧ InSpace tenant row.1 ∧
        ∃ job, unmarshal queue.codec row.1 row.2 = .ok job ∧ job.jid = jid) ∧
    (∀ tenant key value, world.state.get key = some value → InSpace tenant key →
      ∃ job, unmarshal queue.codec key value = .ok job ∧ job.key = .ok key ∧
        job.tenant = tenant ∧ Enqueued (deeds world.history) tenant job.jid ∧
        ¬ Reaped (deeds world.history) tenant job.jid) ∧
    (∀ index thread answer, world.threads[index]? = some thread →
      thread.program = .ret answer → answer.fault ≠ none →
      ∀ entry ∈ world.history, entry.thread ≠ index) := by
  intro world
  have sound := kept_run queue vacant schedule distinct
  refine ⟨?_, ?_, ?_⟩
  · intro tenant jid enqueued notReaped
    obtain ⟨ledger, represents, tracks⟩ := sound.holds.ledgers tenant
    obtain ⟨job, listed⟩ := isSome_iff_exists.mp ((tracks.live jid).mpr ⟨enqueued, notReaped⟩)
    exact represents.existsUnique_row listed
  · intro tenant key value found inside
    obtain ⟨ledger, represents, tracks⟩ := sound.holds.ledgers tenant
    obtain ⟨job, stored, listed⟩ := represents.decodes key value found inside
    obtain ⟨enqueued, notReaped⟩ := (tracks.live job.jid).mp (by rw [listed]; rfl)
    exact ⟨job, stored.read, (unmarshal_place stored.read).1,
      (represents.rows _ _ listed).2.tenant, enqueued, notReaped⟩
  · intro index thread answer isThread finished failed entry member own
    obtain ⟨_, _, _, quiet⟩ := sound.answered isThread finished
    replace quiet : thread.committed = [] := quiet failed
    have none := (sound.view index thread isThread).own
    rw [quiet, map_eq_nil_iff, filter_eq_nil_iff] at none
    exact none entry member (decide_eq_true own)

def sampleJob : Job where
  jid := Id.zero
  tenant := ascii "acme"
  typ := ascii "text.rebuild"

def claimedRun : List (Action Call) :=
  [.spawn (.submit 1000000000 sampleJob (Id.filled 1)), .act 0,
    .spawn (.claim 2000000000 (ascii "acme") (ascii "worker") [] 1 fun _ => Id.filled 9),
    .act 1, .act 1]

theorem distinct_claimedRun (queue : Queue) (initial : Store) :
    queue.system.Distinct (queue.system.run initial claimedRun) := by
  rw [System.Distinct, System.calls_run]
  constructor
  · intro call listed
    rcases mem_cons.mp listed with rfl | later
    · exact ⟨nodup_singleton _, by decide⟩
    · rw [mem_singleton.mp later]
      exact ⟨nodup_nil, fun _ listed => absurd listed not_mem_nil⟩
  · exact pairwise_pair.mpr fun _ _ => not_mem_nil

theorem job_in_one_place_claimed :
    let queue : Queue := ⟨blockCodec, 60000000000⟩
    let world := queue.system.run .empty claimedRun
    deeds world.history = [.claimed (ascii "acme") (Id.filled 1) (Id.filled 9),
        .enqueued [(ascii "acme", Id.filled 1)]] ∧
      ∃! row : Bytes × Bytes, world.state.get row.1 = some row.2 ∧ InSpace (ascii "acme") row.1 ∧
        ∃ job, unmarshal queue.codec row.1 row.2 = .ok job ∧ job.jid = Id.filled 1 := by
  intro queue world
  have done : deeds world.history = [.claimed (ascii "acme") (Id.filled 1) (Id.filled 9),
      .enqueued [(ascii "acme", Id.filled 1)]] := by
    decide +kernel
  refine ⟨done, (job_in_one_place queue .empty ?_ claimedRun
    (distinct_claimedRun queue .empty)).1 _ _ ?_ ?_⟩
  · exact fun _ _ _ _ => rfl
  · rw [done]
    exact ⟨_, mem_cons_of_mem _ mem_cons_self, mem_cons_self⟩
  · rw [done]
    rintro ⟨jobs, isDeed, _⟩
    simp at isDeed

end Remem.Jobs
