import Remem.Jobs.Deeds

/-!
# What the scanning calls attempt

Claiming, reclaiming and reaping act on the rows a scan found, one after the other or in
one batch; enqueueing stages rows of its own. In an orderly store no call meets an error
once it has moved a row.
-/

namespace Remem.Jobs

open Base Keys Storage List

variable {queue : Queue} {call : Call}

variable {types : List Bytes} {want : Int}

theorem dueLoop_spec {rows : List (Bytes × Bytes)} {examined : Nat}
    {out result : List Queue.Candidate}
    (ran : queue.dueLoop types want rows examined out = .ok result) :
    ∃ found, result = out ++ found ∧ (found.map fun row => (row.key, row.value)).Sublist rows ∧
      (∀ row ∈ found, unmarshal queue.codec row.key row.value = .ok row.job) ∧
      (found = [] ∨ examined + found.length ≤ claimScanCap) := by
  induction rows generalizing examined out with
  | nil =>
    cases ran
    exact ⟨[], by simp, by simp, by simp, .inl rfl⟩
  | cons row rows ih =>
    obtain ⟨key, value⟩ := row
    unfold Queue.dueLoop at ran
    split at ran
    · cases ran
      exact ⟨[], by simp, by simp, by simp, .inl rfl⟩
    next within =>
    split at ran
    · cases ran
    next job read =>
    split at ran
    · obtain ⟨found, same, listed, reads, bound⟩ := ih ran
      exact ⟨found, same, listed.cons _, reads, bound.imp_right fun _ => by omega⟩
    dsimp only at ran
    split at ran
    · cases ran
      refine ⟨[⟨key, value, job⟩], rfl, ?_, ?_, .inr ?_⟩
      · simp
      · simpa using read
      · simp only [length_singleton]
        omega
    obtain ⟨found, same, listed, reads, bound⟩ := ih ran
    refine ⟨⟨key, value, job⟩ :: found, ?_, listed.cons_cons _, ?_, .inr ?_⟩
    · rw [same, append_assoc, singleton_append]
    · intro row member
      rcases mem_cons.mp member with rfl | later
      · exact read
      · exact reads row later
    · rw [length_cons]
      rcases bound with rfl | bound
      · simp only [length_nil]
        omega
      · omega

/-- The candidates of a scan: stored rows at different keys, no more than the cap. -/
structure Scanned (codec : JobCodec) (candidates : List Queue.Candidate) : Prop where
  stored : ∀ row ∈ candidates, Stored codec row.key row.value row.job
  apart : candidates.Pairwise fun first second => first.key ≠ second.key
  capped : candidates.length ≤ claimScanCap

theorem scanned_due {store : Store} (written : Written queue.codec store) {tenant : TenantId}
    {part : JobState} {bound : UInt64} {candidates : List Queue.Candidate}
    (ran : queue.dueLoop types want (scanRange store (jobDueRange tenant defaultNamespace part
      bound)) 0 [] = .ok candidates) : Scanned queue.codec candidates := by
  obtain ⟨found, rfl, listed, reads, capped⟩ := dueLoop_spec ran
  refine ⟨?_, ?_, ?_⟩
  · intro row member
    have inRange := listed.subset (mem_map_of_mem member)
    obtain ⟨inStore, inside⟩ := OrderedMap.mem_scan.mp inRange
    have inSpace : InSpace tenant row.key :=
      (prefix_append _ _).trans (isPrefix_of_contains_jobDueRange (of_decide_eq_true inside))
    obtain ⟨job, stored⟩ := written tenant row.key row.value inStore inSpace
    rw [stored.eq (reads row member)]
    exact stored
  · have sorted := (OrderedMap.sorted_scan store _).sublist listed
    rw [pairwise_map] at sorted
    exact sorted.imp fun less => ne_of_lt less
  · rcases capped with rfl | capped
    · exact Nat.zero_le _
    · omega

variable {codec : JobCodec}

variable {key value : Bytes} {job : Job}

theorem exists_marshal (next : Job) (stored : Stored codec key value job) (jid : next.jid = job.jid)
    (tenant : next.tenant = job.tenant) (ns : next.namespaceName = job.namespaceName)
    (typ : next.typ = job.typ) (payload : next.payload = job.payload)
    (state : next.state.known = true)
    (error : next.lastError = job.lastError ∨ validUtf8 next.lastError = true)
    (owner : ∀ lease, next.lease = some lease → validUtf8 lease.owner = true) :
    ∃ bytes, marshal codec next = .ok bytes := by
  obtain ⟨valid, encoded⟩ := marshal_eq_ok_iff.mp stored.written
  have resolved : next.resolved = job.resolved := by
    rw [Job.resolved, Job.resolved, ns]
  have texts := (codec.marshals job.row).mp (by rw [encoded]; rfl)
  have nextTexts : ∀ text ∈ next.row.texts, validUtf8 text = true := by
    intro text listed
    simp only [JobRow.texts, mem_append, mem_cons, not_mem_nil, or_false,
      Option.mem_toList, Option.map_eq_some_iff] at listed
    rcases listed with (rfl | rfl | rfl) | ⟨row, isRow, rfl⟩
    · change validUtf8 next.typ = true
      rw [typ]
      exact texts _ (by simp [JobRow.texts, Job.row])
    · change validUtf8 next.lastError = true
      rcases error with same | valid
      · rw [same]
        exact texts _ (by simp [JobRow.texts, Job.row])
      · exact valid
    · change validUtf8 next.resolved = true
      rw [resolved]
      exact texts _ (by simp [JobRow.texts, Job.row])
    · obtain ⟨lease, holds, rfl⟩ := Option.map_eq_some_iff.mp isRow
      exact owner lease holds
  obtain ⟨bytes, isBytes⟩ := Option.isSome_iff_exists.mp ((codec.marshals next.row).mpr nextTexts)
  refine ⟨bytes, marshal_eq_ok_iff.mpr ⟨?_, isBytes⟩⟩
  exact ⟨jid ▸ valid.jid, tenant ▸ valid.tenant, resolved ▸ valid.namespaceName,
    typ ▸ valid.typ, state, payload ▸ valid.payload⟩

theorem exists_key (next : Job) (tenanted : next.tenant ≠ [])
    (leased : next.state = .running → next.lease ≠ none) : ∃ key, next.key = .ok key := by
  have isDue : ∃ due, next.due = some due := by
    unfold Job.due
    split
    · next running =>
      have isRunning : next.state = .running := by
        by_contra other
        unfold State.partition at running
        rw [if_neg other] at running
        split at running <;> cases running
      obtain ⟨lease, holds⟩ := Option.ne_none_iff_exists'.mp (leased isRunning)
      exact ⟨lease.expiresAt, by rw [holds]; rfl⟩
    · split <;> exact ⟨_, rfl⟩
  obtain ⟨due, isDue⟩ := isDue
  exact ⟨_, Job.key_eq_ok_iff.mpr ⟨tenanted, due, isDue, rfl⟩⟩

theorem Stored.tenanted (stored : Stored codec key value job) : job.tenant ≠ [] :=
  (Job.key_eq_ok_iff.mp (unmarshal_place stored.read).1).1

theorem owner_of_marshal {next : Job} {bytes : Bytes} {lease : Lease}
    (written : marshal codec next = .ok bytes) (holds : next.lease = some lease) :
    validUtf8 lease.owner = true := by
  have encoded := (marshal_eq_ok_iff.mp written).2
  apply (codec.marshals next.row).mp (by rw [encoded]; rfl)
  simp [JobRow.texts, Job.row, holds, Lease.row]

section Performs

variable {holds : Store → Prop} {committed : List (Labelled Deed)} {post : Result Job →
  List (Labelled Deed) → Prop}

theorem performs_move {oldKey oldValue newKey : Bytes} {next : Job} {deed : Deed}
    (isKey : next.key = .ok newKey)
    (refused : ∀ fault, marshal queue.codec next = .error fault → post (.error fault) committed)
    (may : ∀ newValue, marshal queue.codec next = .ok newValue → call.May queue.codec committed
        ⟨Queue.moveBatch oldKey oldValue newKey newValue, deed⟩ ∧
      post (.ok { next with stored := newKey })
        (⟨Queue.moveBatch oldKey oldValue newKey newValue, deed⟩ :: committed))
    (conflicts : ∀ fault, Refusal fault → post (.error fault) committed) :
    Program.Performs holds Refusal (call.May queue.codec) post
      (queue.move oldKey oldValue next deed) committed := by
  unfold Queue.move
  rw [isKey]
  dsimp only
  cases written : marshal queue.codec next with
  | error fault => exact refused fault written
  | ok newValue =>
    obtain ⟨allowed, moved⟩ := may newValue written
    exact Program.performs_attempt_bind allowed moved conflicts

def DrawnBefore (call : Call) (drawn : Nat) (committed : List (Labelled Deed)) : Prop :=
  ∀ earlier ∈ committed, ∀ tenant jid token, earlier.label = .claimed tenant jid token →
    ∃ before < drawn, call.Draws before token

theorem DrawnBefore.succ {drawn : Nat} (before : DrawnBefore call drawn committed) :
    DrawnBefore call (drawn + 1) committed := by
  intro earlier member tenant jid token isLabel
  obtain ⟨index, less, draws⟩ := before earlier member tenant jid token isLabel
  exact ⟨index, Nat.lt_succ_of_lt less, draws⟩

variable {now : Time} {tenant : TenantId}

variable {owner : Bytes} {types : List Bytes} {n : Int} {tokens : Nat → Id}

/-- The owner's name is the same for every candidate, so it is refused on the first one or
on none. -/
theorem performs_claimLoop (isCall : call = .claim now tenant owner types n tokens)
    (candidates : List Queue.Candidate) (drawn : Nat) (out : List Job)
    (stored : ∀ row ∈ candidates, Stored queue.codec row.key row.value row.job)
    (capped : drawn + candidates.length ≤ claimScanCap) (before : DrawnBefore call drawn committed)
    (named : committed = [] ∨ validUtf8 owner = true) :
    Program.Performs holds Refusal (call.May queue.codec) Quiet
      (queue.claimLoop now owner n tokens candidates drawn out) committed := by
  induction candidates generalizing drawn out committed with
  | nil => exact fun failed => absurd rfl failed
  | cons row rows ih =>
    obtain ⟨rowStored, restStored⟩ := forall_mem_cons.mp stored
    rw [length_cons] at capped
    have draws : call.Draws drawn (tokens drawn) :=
      ⟨by omega, now, tenant, owner, types, n, tokens, isCall, rfl⟩
    obtain ⟨newKey, isKey⟩ := exists_key (queue.leased now owner (tokens drawn) row.job)
      rowStored.tenanted nofun
    unfold Queue.claimLoop
    split
    · exact fun failed => absurd rfl failed
    -- after the move the loop goes on, or stops with nothing committed
    let post : Result Job → List (Labelled Deed) → Prop := fun result committed =>
      DrawnBefore call (drawn + 1) committed ∧ (committed = [] ∨ validUtf8 owner = true) ∧
        ∀ fault, result = .error fault → fault.kind ≠ .conflict → committed = []
    have moves : Program.Performs holds Refusal (call.May queue.codec) post
        (queue.move row.key row.value (queue.leased now owner (tokens drawn) row.job)
          (.claimed row.job.tenant row.job.jid (tokens drawn))) committed := by
      apply performs_move isKey
      · intro fault failed
        refine ⟨before.succ, named, fun _ _ _ => ?_⟩
        rcases named with nothing | valid
        · exact nothing
        obtain ⟨bytes, written⟩ := exists_marshal
          (queue.leased now owner (tokens drawn) row.job) rowStored
          rfl rfl rfl rfl rfl rfl (.inl rfl) (by rintro _ ⟨⟩; exact valid)
        rw [written] at failed
        cases failed
      · intro newValue written
        have moved : Moves queue.codec (Queue.moveBatch row.key row.value newKey newValue)
            row.job (queue.leased now owner (tokens drawn) row.job) := by
          have place := (unmarshal_place rowStored.read).2
          have read := rowStored.read
          rw [← place] at read ⊢
          exact moves_moveBatch read isKey written rfl rfl rfl
        refine ⟨⟨⟨⟨_, _, moved, rfl, rfl, rfl⟩, nofun, ?_⟩, nofun, ?_⟩, ?_,
          .inr (owner_of_marshal written rfl), nofun⟩
        · rintro _ _ _ ⟨⟩
          exact ⟨drawn, draws⟩
        · rintro _ _ _ ⟨⟩
          exact ⟨drawn, draws, before⟩
        · intro earlier member tenant jid token isLabel
          rcases mem_cons.mp member with rfl | old
          · cases isLabel
            exact ⟨drawn, Nat.lt_succ_self _, draws⟩
          · exact before.succ earlier old tenant jid token isLabel
      · intro fault refused
        refine ⟨before.succ, named, ?_⟩
        rintro _ ⟨⟩ other
        exact absurd refused other
    apply moves.bind
    rintro result after ⟨drawnBefore, stillNamed, quiet⟩
    cases result with
    | error fault =>
      dsimp only
      split
      · exact ih (drawn + 1) out restStored (by omega) drawnBefore stillNamed
      · next other => exact fun _ => quiet fault rfl other
    | ok job =>
      exact ih (drawn + 1) _ restStored (by omega) drawnBefore stillNamed

theorem performs_claim (isCall : call = .claim now tenant owner types n tokens)
    (orderly : ∀ store, holds store → Orderly queue.codec store) :
    Program.Performs holds Refusal (call.May queue.codec) Quiet
      (queue.claim now tenant owner types n tokens) [] := by
  unfold Queue.claim
  split
  · exact fun _ => rfl
  split
  · exact fun _ => rfl
  split
  · exact fun failed => absurd rfl failed
  apply Program.performs_observe_bind
  intro store met
  split
  · exact fun _ => rfl
  next candidates scanned =>
  have scan := scanned_due (orderly store met).written scanned
  have perm := perm_insertionSort
    (fun first second : Queue.Candidate => second.job.priority ≤ first.job.priority)
    candidates
  apply performs_claimLoop isCall
  · exact fun row member => scan.stored row (perm.mem_iff.mp member)
  · rw [Nat.zero_add, Queue.byPriority, perm.length_eq]
    exact scan.capped
  · exact fun _ member => absurd member not_mem_nil
  · exact .inl rfl

theorem validUtf8_reclaimed (now : Time) (job : Job) :
    validUtf8 (Queue.reclaimed now job).lastError = true := by
  have small : ∀ text : Bytes, text.all (fun byte => byte < 0x80) = true →
      ∀ byte ∈ text, byte < 0x80 := by
    intro text all byte member
    exact of_decide_eq_true (all_eq_true.mp all byte member)
  apply validUtf8_of_ascii
  intro byte member
  unfold Queue.reclaimed at member
  split at member
  · simp only [mem_append, or_assoc] at member
    rcases member with text | digits | text | digits | text
    · exact small _ (by decide) byte text
    · exact decimal_ascii _ byte digits
    · exact small _ (by decide) byte text
    · exact decimal_ascii _ byte digits
    · exact small _ (by decide) byte text
  simp only [mem_append, or_assoc] at member
  rcases member with text | digits | text
  · exact small _ (by decide) byte text
  · exact decimal_ascii _ byte digits
  · exact small _ (by decide) byte text

theorem performs_reclaimLoop (candidates : List Queue.Candidate) (moved : Nat)
    (stored : ∀ row ∈ candidates, Stored queue.codec row.key row.value row.job) :
    Program.Performs holds Refusal (call.May queue.codec) Quiet
      (queue.reclaimLoop now candidates moved) committed := by
  induction candidates generalizing moved committed with
  | nil => exact fun failed => absurd rfl failed
  | cons row rows ih =>
    obtain ⟨rowStored, restStored⟩ := forall_mem_cons.mp stored
    have same : (Queue.reclaimed now row.job).jid = row.job.jid ∧
        (Queue.reclaimed now row.job).tenant = row.job.tenant ∧
        (Queue.reclaimed now row.job).namespaceName = row.job.namespaceName ∧
        (Queue.reclaimed now row.job).typ = row.job.typ ∧
        (Queue.reclaimed now row.job).payload = row.job.payload ∧
        (Queue.reclaimed now row.job).lease = none ∧
        (Queue.reclaimed now row.job).state ≠ .running ∧
        (Queue.reclaimed now row.job).state.known = true := by
      unfold Queue.reclaimed
      split <;> exact ⟨rfl, rfl, rfl, rfl, rfl, rfl, nofun, rfl⟩
    obtain ⟨jid, tenant, ns, typ, payload, lease, notRunning, known⟩ := same
    obtain ⟨newKey, isKey⟩ := exists_key (Queue.reclaimed now row.job)
      (tenant ▸ rowStored.tenanted) fun running => absurd running notRunning
    obtain ⟨bytes, written⟩ := exists_marshal (Queue.reclaimed now row.job) rowStored jid
      tenant ns typ payload known (.inr (validUtf8_reclaimed now row.job))
      (fun held holds => by rw [lease] at holds; cases holds)
    let post : Result Job → List (Labelled Deed) → Prop := fun result _ =>
      ∀ fault, result = .error fault → fault.kind = .conflict
    have moves : Program.Performs holds Refusal (call.May queue.codec) post
        (queue.move row.key row.value (Queue.reclaimed now row.job)
          (.ended row.job.tenant row.job.jid none)) committed := by
      apply performs_move isKey
      · intro fault failed
        rw [written] at failed
        cases failed
      · intro newValue written
        refine ⟨may_of_fits
          ⟨row.job, Queue.reclaimed now row.job, ?_, rfl, rfl, ?_, nofun⟩ nofun nofun, nofun⟩
        · have place := (unmarshal_place rowStored.read).2
          have read := rowStored.read
          rw [← place] at read ⊢
          apply moves_moveBatch read isKey written jid tenant
          rw [Job.resolved, Job.resolved, ns]
        · rw [Job.token, lease]
          rfl
      · rintro fault refused _ ⟨⟩
        exact refused
    unfold Queue.reclaimLoop
    apply moves.bind
    intro result after conflicts
    cases result with
    | error fault =>
      dsimp only
      rw [if_pos (conflicts fault rfl)]
      exact ih moved restStored
    | ok job => exact ih _ restStored

variable {limit : Int}

theorem performs_reclaim (orderly : ∀ store, holds store → Orderly queue.codec store) :
    Program.Performs holds Refusal (call.May queue.codec) Quiet
      (queue.reclaim now tenant limit) [] := by
  unfold Queue.reclaim
  split
  · exact fun _ => rfl
  split
  · exact fun failed => absurd rfl failed
  apply Program.performs_observe_bind
  intro store met
  split
  · exact fun _ => rfl
  · next lapsed scanned =>
    exact performs_reclaimLoop _ _ (scanned_due (orderly store met).written scanned).stored

theorem reapBatch_spec (stale : List Queue.Candidate) (tx : Batch)
    (apart : stale.Pairwise fun first second => first.key ≠ second.key)
    (unstaged : ∀ row ∈ stale, ∀ op ∈ tx.ops, op.key ≠ row.key)
    (fresh : ∀ row ∈ stale, ∀ condition ∈ tx.conditions, condition.key ≠ row.key) :
    let after := stale.foldl (fun tx candidate =>
      (tx.expect candidate.key candidate.value true).delete candidate.key) tx
    after.ops = tx.ops ++ stale.map (fun row => .delete row.key) ∧
      after.conditions = tx.conditions ++ stale.map (fun row => ⟨row.key, row.value, true⟩) := by
  induction stale generalizing tx with
  | nil => simp
  | cons row rows ih =>
    obtain ⟨first, rest⟩ := pairwise_cons.mp apart
    have recorded : tx.expect row.key row.value true =
        { tx with conditions := tx.conditions ++ [⟨row.key, row.value, true⟩] } := by
      rw [Batch.expect, if_neg (by simpa using unstaged row mem_cons_self),
        if_neg (by simpa using fresh row mem_cons_self)]
    obtain ⟨ops, conditions⟩ := ih ((tx.expect row.key row.value true).delete row.key) rest (by
        intro other member op listed
        rw [recorded, Batch.delete, mem_append, mem_singleton] at listed
        rcases listed with old | rfl
        · exact unstaged other (mem_cons_of_mem _ member) op old
        · exact first other member)
      (by
        intro other member condition listed
        rw [recorded] at listed
        rcases mem_append.mp listed with old | new
        · exact fresh other (mem_cons_of_mem _ member) condition old
        · rw [mem_singleton.mp new]
          exact first other member)
    rw [foldl_cons]
    rw [recorded] at ops conditions
    refine ⟨?_, ?_⟩
    · rw [recorded, ops]
      simp [Batch.delete]
    · rw [recorded, conditions]
      simp [Batch.delete]

theorem performs_reap {cutoff : Time} (orderly : ∀ store, holds store → Orderly queue.codec store) :
    Program.Performs holds Refusal (call.May queue.codec) Quiet
      (queue.reap cutoff tenant limit) [] := by
  unfold Queue.reap
  split
  · exact fun _ => rfl
  split
  · exact fun failed => absurd rfl failed
  apply Program.performs_observe_bind
  intro store met
  split
  · exact fun _ => rfl
  · exact fun failed => absurd rfl failed
  next stale _ scanned =>
  have scan := scanned_due (orderly store met).written scanned
  obtain ⟨ops, conditions⟩ := reapBatch_spec stale {} scan.apart nofun nofun
  apply Program.performs_attempt_bind
  · refine may_of_fits ⟨stale, rfl, ops, ?_⟩ nofun nofun
    intro row member
    refine ⟨(scan.stored row member).read, ?_⟩
    rw [Queue.reapBatch, conditions]
    exact mem_append_right _ (mem_map_of_mem member)
  · exact fun failed => absurd rfl failed
  · exact fun _ _ _ => rfl

variable {drawn : Id} {tx after : Batch} {job : Job}

variable {staged : Job}

theorem staged_of_enqueue (accepted : queue.enqueue now drawn job tx = .ok (staged, after)) :
    ∃ key value, (Queue.fill now drawn job).key = .ok key ∧
      marshal queue.codec (Queue.fill now drawn job) = .ok value ∧
      staged = { Queue.fill now drawn job with stored := key } ∧
      after = (tx.expect key [] false).set key value := by
  unfold Queue.enqueue at accepted
  dsimp only at accepted
  split at accepted
  · cases accepted
  split at accepted
  · cases accepted
  next key isKey =>
  split at accepted
  · cases accepted
  next value written =>
  cases accepted
  exact ⟨key, value, isKey, written, rfl, rfl⟩

theorem enqueue_spec (placed : job.resolved = defaultNamespace)
    (accepted : queue.enqueue now drawn job tx = .ok (staged, after)) :
    ∃ filled key value, after.ops = tx.ops ++ [.set key value] ∧
      (staged.tenant, staged.jid) = (filled.tenant, filled.jid) ∧
      (filled.tenant, filled.jid) = (job.tenant, if job.jid = Id.zero then drawn else job.jid) ∧
      filled.key = .ok key ∧ marshal queue.codec filled = .ok value ∧
      filled.resolved = defaultNamespace := by
  obtain ⟨key, value, isKey, written, rfl, rfl⟩ := staged_of_enqueue accepted
  refine ⟨Queue.fill now drawn job, key, value, ?_, rfl, rfl, isKey, written, ?_⟩
  · simp [Batch.set]
  · have same : (Queue.fill now drawn job).namespaceName = job.resolved := rfl
    rw [Job.resolved, same, placed]
    rfl

variable {jobs : List (Job × Id)}

theorem enqueueAll_spec {done result : List Job}
    (placed : ∀ submitted ∈ jobs, submitted.1.resolved = defaultNamespace)
    (accepted : queue.enqueueAll now jobs done tx = .ok (result, after)) :
    ∃ rows : List (Job × Bytes × Bytes), result.map (fun job => (job.tenant, job.jid)) =
        done.map (fun job => (job.tenant, job.jid)) ++
          rows.map (fun row => (row.1.tenant, row.1.jid)) ∧
      rows.map (fun row => (row.1.tenant, row.1.jid)) =
        jobs.map (fun submitted => (submitted.1.tenant,
          if submitted.1.jid = Id.zero then submitted.2 else submitted.1.jid)) ∧
      after.ops = tx.ops ++ rows.map (fun row => .set row.2.1 row.2.2) ∧
      ∀ row ∈ rows, row.1.key = .ok row.2.1 ∧ marshal queue.codec row.1 = .ok row.2.2 ∧
        row.1.resolved = defaultNamespace := by
  induction jobs generalizing done tx with
  | nil =>
    cases accepted
    exact ⟨[], by simp⟩
  | cons submitted jobs ih =>
    obtain ⟨job, drawn⟩ := submitted
    unfold Queue.enqueueAll at accepted
    split at accepted
    · cases accepted
    next staged between enqueued =>
    obtain ⟨filled, key, value, ops, sameStaged, sameFilled, isKey, written, resolved⟩ :=
      enqueue_spec (placed _ mem_cons_self) enqueued
    obtain ⟨rows, results, ids, restOps, good⟩ := ih
      (fun submitted member => placed submitted (mem_cons_of_mem _ member)) accepted
    refine ⟨(filled, key, value) :: rows, ?_, ?_, ?_, ?_⟩
    · rw [results]
      simp [sameStaged]
    · rw [map_cons, map_cons, ids, sameFilled]
    · rw [restOps, ops, append_assoc]
      rfl
    · intro row member
      rcases mem_cons.mp member with rfl | later
      · exact ⟨isKey, written, resolved⟩
      · exact good row later

theorem performs_enqueueTransaction (isCall : call = .enqueue now jobs)
    (placed : ∀ submitted ∈ jobs, submitted.1.resolved = defaultNamespace) :
    Program.Performs holds Refusal (call.May queue.codec) Quiet
      (queue.enqueueTransaction now jobs) [] := by
  unfold Queue.enqueueTransaction
  split
  · exact fun _ => rfl
  next done tx accepted =>
  obtain ⟨rows, results, ids, ops, good⟩ := enqueueAll_spec placed accepted
  rw [map_nil, nil_append] at results
  apply Program.performs_attempt_bind
  · refine ⟨⟨⟨rows, results, ops, good⟩, ?_, nofun⟩, fun _ _ => rfl, nofun⟩
    rintro _ ⟨⟩
    rw [results, ids, isCall]
    rfl
  · exact fun failed => absurd rfl failed
  · exact fun _ _ _ => rfl

theorem performs_submit (isCall : call = .submit now job drawn)
    (placed : job.resolved = defaultNamespace) :
    Program.Performs holds Refusal (call.May queue.codec) Quiet
      (queue.submit now job drawn) [] := by
  unfold Queue.submit
  split
  · exact fun _ => rfl
  split
  · exact fun _ => rfl
  next staged tx accepted =>
  obtain ⟨filled, key, value, ops, sameStaged, sameFilled, isKey, written, resolved⟩ :=
    enqueue_spec placed accepted
  apply Program.performs_attempt_bind
  · refine ⟨⟨⟨[(filled, key, value)], by rw [sameStaged]; rfl, ops, ?_⟩, ?_, nofun⟩,
      fun _ _ => rfl, nofun⟩
    · rintro row member
      rw [mem_singleton.mp member]
      exact ⟨isKey, written, resolved⟩
    · rintro _ ⟨⟩
      rw [sameStaged, sameFilled, isCall]
      rfl
  · exact fun failed => absurd rfl failed
  · exact fun _ _ _ => rfl

theorem performs_body (orderly : ∀ store, holds store → Orderly queue.codec store)
    (legal : queue.system.legal call) :
    Program.Performs holds Refusal (call.May queue.codec) Quiet (call.body queue) [] := by
  obtain ⟨_, placed⟩ := legal
  cases isCall : call with
  | enqueue now jobs =>
    rw [isCall] at placed
    exact performs_enqueueTransaction rfl placed
  | submit now job drawn =>
    rw [isCall] at placed
    exact performs_submit rfl (placed _ mem_cons_self)
  | claim now tenant owner types n tokens => exact performs_claim rfl orderly
  | renew now held => exact performs_renew
  | save now held cursor => exact performs_save
  | complete now later held run =>
    change Program.Performs _ _ _ _ (queue.finish now later held .completed [] run) _
    exact performs_finish
  | fail now later jitter held cause run => exact performs_fail
  | release now held => exact performs_release
  | reclaim now tenant limit => exact performs_reclaim orderly
  | cancel now later tenant jid localLease runId processed changed => exact performs_cancel
  | reap cutoff tenant limit => exact performs_reap orderly

end Performs

end Remem.Jobs
