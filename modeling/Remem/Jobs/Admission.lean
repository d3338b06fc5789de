import Remem.Base.Solo
import Remem.Jobs.OnePlace

/-!
# Enqueueing a job that is there already

A transaction that enqueues a job commits only if there is no row at the key of the job. The
key holds the partition and the due time beside the id, so this keeps out a second job of the
same id only as long as the first one is still where the second one would be put.
-/

namespace Remem.Jobs

open Base Keys Storage List

variable {queue : Queue} {now : Time}

/-- The transaction has left the key alone, or does not commit where the key is taken. -/
structure Guards (tx : Batch) (key : Bytes) : Prop where
  staged : ∀ op ∈ tx.ops, op.key = key → ⟨key, [], false⟩ ∈ tx.conditions
  only : ∀ condition ∈ tx.conditions, condition.key = key → condition = ⟨key, [], false⟩

variable {tx : Batch} {key : Bytes}

theorem Guards.expect (guards : Guards tx key) (other : Bytes) :
    Guards (tx.expect other [] false) key ∧
      (other = key → ⟨key, [], false⟩ ∈ (tx.expect other [] false).conditions) := by
  unfold Batch.expect
  split
  · next staged =>
    refine ⟨guards, ?_⟩
    rintro rfl
    obtain ⟨op, isOp, same⟩ := any_eq_true.mp staged
    exact guards.staged op isOp (of_decide_eq_true same)
  split
  · next conditioned =>
    refine ⟨guards, ?_⟩
    rintro rfl
    obtain ⟨condition, isCondition, same⟩ := any_eq_true.mp conditioned
    rw [← guards.only condition isCondition (of_decide_eq_true same)]
    exact isCondition
  refine ⟨⟨?_, ?_⟩, ?_⟩
  · exact fun op isOp same => mem_append_left _ (guards.staged op isOp same)
  · intro condition isCondition same
    rcases mem_append.mp isCondition with old | new
    · exact guards.only condition old same
    cases mem_singleton.mp new
    cases same
    rfl
  · rintro rfl
    exact mem_append_right _ (mem_singleton.mpr rfl)

variable {after : Batch} {job staged : Job} {drawn : Id}

theorem conditions_subset_enqueue
    (accepted : queue.enqueue now drawn job tx = .ok (staged, after)) :
    tx.conditions ⊆ after.conditions := by
  obtain ⟨key, value, _, _, _, rfl⟩ := staged_of_enqueue accepted
  exact Batch.conditions_subset_expect tx key [] false

theorem Guards.enqueue (guards : Guards tx key)
    (accepted : queue.enqueue now drawn job tx = .ok (staged, after)) :
    Guards after key ∧
      ((Queue.fill now drawn job).key = .ok key → ⟨key, [], false⟩ ∈ after.conditions) := by
  obtain ⟨other, value, isKey, _, _, rfl⟩ := staged_of_enqueue accepted
  obtain ⟨guards, recorded⟩ := guards.expect other
  refine ⟨⟨fun op isOp same => ?_, guards.only⟩, fun isSame => ?_⟩
  · rcases mem_append.mp isOp with old | new
    · exact guards.staged op old same
    · rw [mem_singleton.mp new] at same
      exact recorded same
  · exact recorded (Except.ok.inj (isKey.symm.trans isSame))

variable {jobs : List (Job × Id)} {done result : List Job}

theorem conditions_subset_enqueueAll
    (accepted : queue.enqueueAll now jobs done tx = .ok (result, after)) :
    tx.conditions ⊆ after.conditions := by
  induction jobs generalizing done tx with
  | nil =>
    cases accepted
    exact List.Subset.refl _
  | cons first rest ih =>
    unfold Queue.enqueueAll at accepted
    split at accepted
    · cases accepted
    · next staged between enqueued =>
      exact List.Subset.trans (conditions_subset_enqueue enqueued) (ih accepted)

theorem Guards.enqueueAll (guards : Guards tx key)
    (accepted : queue.enqueueAll now jobs done tx = .ok (result, after)) {submitted : Job × Id}
    (listed : submitted ∈ jobs) (isKey : (Queue.fill now submitted.2 submitted.1).key = .ok key) :
    ⟨key, [], false⟩ ∈ after.conditions := by
  induction jobs generalizing done tx with
  | nil => cases listed
  | cons first rest ih =>
    unfold Queue.enqueueAll at accepted
    split at accepted
    · cases accepted
    next staged between enqueued =>
    obtain ⟨guarded, recorded⟩ := guards.enqueue enqueued
    rcases mem_cons.mp listed with rfl | tail
    · exact conditions_subset_enqueueAll accepted (recorded isKey)
    · exact ih guarded accepted tail

/-- There is a row at the key of the job value once it is filled in. -/
def Taken (now : Time) (store : Store) (submitted : Job × Id) : Prop :=
  ∃ key, (Queue.fill now submitted.2 submitted.1).key = .ok key ∧ store.get key ≠ none

theorem mem_conditions_enqueue (accepted : queue.enqueue now drawn job tx = .ok (staged, after))
    {condition : Condition} (listed : condition ∈ after.conditions) :
    condition ∈ tx.conditions ∨
      ∃ key, (Queue.fill now drawn job).key = .ok key ∧ condition = ⟨key, [], false⟩ := by
  obtain ⟨key, value, isKey, _, _, rfl⟩ := staged_of_enqueue accepted
  replace listed : condition ∈ (tx.expect key [] false).conditions := listed
  unfold Batch.expect at listed
  split at listed
  · exact .inl listed
  split at listed
  · exact .inl listed
  · rcases mem_append.mp listed with old | new
    · exact .inl old
    · exact .inr ⟨key, isKey, mem_singleton.mp new⟩

theorem mem_conditions_enqueueAll
    (accepted : queue.enqueueAll now jobs done tx = .ok (result, after)) {condition : Condition}
    (listed : condition ∈ after.conditions) :
    condition ∈ tx.conditions ∨ ∃ submitted ∈ jobs, ∃ key,
      (Queue.fill now submitted.2 submitted.1).key = .ok key ∧ condition = ⟨key, [], false⟩ := by
  induction jobs generalizing done tx with
  | nil =>
    cases accepted
    exact .inl listed
  | cons first rest ih =>
    unfold Queue.enqueueAll at accepted
    split at accepted
    · cases accepted
    next staged between enqueued =>
    rcases ih accepted with old | ⟨submitted, isLater, found⟩
    · exact (mem_conditions_enqueue enqueued old).imp_right fun found =>
        ⟨first, mem_cons_self, found⟩
    · exact .inr ⟨submitted, mem_cons_of_mem _ isLater, found⟩

theorem commit_of_present {store : Store} {before final : Batch} {submitted : Job × Id}
    (listed : submitted ∈ jobs) (isKey : (Queue.fill now submitted.2 submitted.1).key = .ok key)
    (present : store.get key ≠ none) (unstaged : ∀ op ∈ before.ops, op.key ≠ key)
    (unconditioned : ∀ condition ∈ before.conditions, condition.key ≠ key)
    (accepted : queue.enqueueAll now jobs done before = .ok (result, after))
    (goesOn : after.conditions ⊆ final.conditions) :
    final.commit store =
      .error ⟨.conflict, "memkv.Batch.Commit", "conditional write conflict", []⟩ := by
  have guards : Guards before key :=
    ⟨fun op isOp same => absurd same (unstaged op isOp),
      fun condition isCondition same => absurd same (unconditioned condition isCondition)⟩
  have recorded := goesOn (guards.enqueueAll accepted listed isKey)
  rw [Batch.commit, if_neg]
  intro holds
  have absent := all_eq_true.mp holds _ recorded
  obtain ⟨value, found⟩ := Option.ne_none_iff_exists'.mp present
  rw [Condition.holds, found] at absent
  cases absent

/-- A transaction that enqueues jobs fails with a conflict exactly where the store has a row at the
key of one of them: where the row of a job with that id is at the partition and the time that the
job value is filled in with. It fails so along with whatever else the transaction stages, unless
that is on the key itself. -/
theorem enqueue_conflicts_at_row (queue : Queue) (store : Store) (now : Time)
    (jobs : List (Job × Id)) :
    (∀ done after, queue.enqueueAll now jobs [] {} = .ok (done, after) →
      (after.commit store =
          .error ⟨.conflict, "memkv.Batch.Commit", "conditional write conflict", []⟩ ↔
        ∃ submitted ∈ jobs, Taken now store submitted)) ∧
    ∀ submitted ∈ jobs, ∀ (before after final : Batch) done key,
      (Queue.fill now submitted.2 submitted.1).key = .ok key → store.get key ≠ none →
      (∀ op ∈ before.ops, op.key ≠ key) →
      (∀ condition ∈ before.conditions, condition.key ≠ key) →
      queue.enqueueAll now jobs [] before = .ok (done, after) →
      after.conditions ⊆ final.conditions →
      final.commit store =
        .error ⟨.conflict, "memkv.Batch.Commit", "conditional write conflict", []⟩ := by
  refine ⟨fun done after accepted => ⟨fun conflict => ?_, ?_⟩,
    fun submitted listed before after final done key => commit_of_present listed⟩
  · by_contra free
    rw [Batch.commit, if_pos] at conflict
    · cases conflict
    refine all_eq_true.mpr fun condition listed => ?_
    obtain old | ⟨submitted, isJob, key, isKey, rfl⟩ := mem_conditions_enqueueAll accepted listed
    · cases old
    have absent : store.get key = none := by
      by_contra present
      exact free ⟨submitted, isJob, key, isKey, present⟩
    rw [Condition.holds, absent]
    rfl
  · rintro ⟨submitted, listed, key, isKey, present⟩
    exact @commit_of_present _ _ _ _ _ _ _ _ {} after _ listed isKey present
      (fun _ impossible => absurd impossible not_mem_nil)
      (fun _ impossible => absurd impossible not_mem_nil) accepted (List.Subset.refl _)

def namedJob : Job := { sampleJob with jid := Id.filled 1 }

/-- The job is submitted twice at the same instant. -/
theorem enqueue_conflicts_at_row_pending :
    let queue : Queue := ⟨blockCodec, 60000000000⟩
    let world := queue.system.run .empty [.spawn (.submit 1000000000 namedJob Id.zero), .act 0]
    ∃ done tx, queue.enqueueAll 1000000000 [(namedJob, Id.zero)] [] {} = .ok (done, tx) ∧
      tx.commit world.state =
        .error ⟨.conflict, "memkv.Batch.Commit", "conditional write conflict", []⟩ := by
  intro queue world
  refine ⟨_, _, rfl, ?_⟩
  refine ((enqueue_conflicts_at_row queue world.state 1000000000 [(namedJob, Id.zero)]).1
    _ _ rfl).mpr ⟨_, mem_cons_self,
      Keys.job (ascii "acme") defaultNamespace .pending 1000 (Id.filled 1), ?_, ?_⟩ <;>
    decide +kernel

/-- The rows of the store that read as a job with the id. -/
def rowsOf (codec : JobCodec) (store : Store) (tenant : TenantId) (jid : Id) :
    List (Bytes × Bytes) :=
  store.entries.filter fun entry => match unmarshal codec entry.1 entry.2 with
    | .ok job => decide (job.tenant = tenant ∧ job.jid = jid)
    | .error _ => false

/-- A job that a worker has claimed is enqueued again: its row is at another key by then, the
transaction commits, and the id has two rows. -/
theorem enqueue_again_commits :
    let queue : Queue := ⟨blockCodec, 60000000000⟩
    let world := queue.system.run .empty claimedRun
    let ended := (queue.enqueueTransaction 2000000000 [(namedJob, Id.zero)]).alone
      (fun payload store => payload.batch.commit store) world.state
    (rowsOf queue.codec world.state (ascii "acme") (Id.filled 1)).length = 1 ∧
      ended.answer.fault = none ∧
      (rowsOf queue.codec ended.state (ascii "acme") (Id.filled 1)).length = 2 := by
  decide +kernel

end Remem.Jobs
