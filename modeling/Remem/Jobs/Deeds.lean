import Remem.Jobs.Ledger

/-!
# What the calls of the queue attempt

Every commit a call attempts is one of a few shapes, and a call that ends with an error
has committed nothing. Both are read off the calls one by one here; what follows for
a store under any interleaving needs the shapes alone.
-/

namespace Remem.Jobs

open Base Keys Storage List Program

/-- The batch rewrites the row of one job as another of the same id, and touches no other
row of a job space. -/
def Moves (codec : JobCodec) (batch : Batch) (cur next : Job) : Prop :=
  ∃ oldValue newKey newValue extra, unmarshal codec cur.stored oldValue = .ok cur ∧
    (next.key = .ok newKey ∧ marshal codec next = .ok newValue) ∧
    (next.jid = cur.jid ∧ next.tenant = cur.tenant ∧ next.resolved = cur.resolved) ∧
    ⟨cur.stored, oldValue, true⟩ ∈ batch.conditions ∧
    batch.ops = .delete cur.stored :: .set newKey newValue :: extra ∧
    ∀ op ∈ extra, ∀ tenant ns, ¬ beginKey tenant ns .job <+: op.key

def Job.token (job : Job) : Option Id := job.lease.map Lease.token

def Job.Fenced (job : Job) (presented : Option Id) : Prop :=
  ∀ token, presented = some token → job.token = some token

/-- What a batch has to be for its deed to be what it does. -/
def Deed.Fits (codec : JobCodec) (batch : Batch) : Deed → Prop
  | enqueued jobs => ∃ rows : List (Job × Bytes × Bytes),
      jobs = rows.map (fun row => (row.1.tenant, row.1.jid)) ∧
      batch.ops = rows.map (fun row => .set row.2.1 row.2.2) ∧
      ∀ row ∈ rows, row.1.key = .ok row.2.1 ∧ marshal codec row.1 = .ok row.2.2 ∧
        row.1.resolved = defaultNamespace
  | claimed tenant jid token => ∃ cur next, Moves codec batch cur next ∧
      cur.tenant = tenant ∧ cur.jid = jid ∧ next.token = some token
  | kept tenant jid presented => ∃ cur next, Moves codec batch cur next ∧
      cur.tenant = tenant ∧ cur.jid = jid ∧ next.token = cur.token ∧ cur.Fenced presented
  | ended tenant jid presented => ∃ cur next, Moves codec batch cur next ∧
      cur.tenant = tenant ∧ cur.jid = jid ∧ next.token = none ∧ cur.Fenced presented
  | reaped jobs => ∃ stale : List Queue.Candidate,
      jobs = stale.map (fun row => (row.job.tenant, row.job.jid)) ∧
      batch.ops = stale.map (fun row => .delete row.key) ∧
      ∀ row ∈ stale, unmarshal codec row.key row.value = .ok row.job ∧
        ⟨row.key, row.value, true⟩ ∈ batch.conditions

def Call.Draws (call : Call) (drawn : Nat) (token : Id) : Prop :=
  drawn < claimScanCap ∧ ∃ now tenant owner types n tokens,
    call = .claim now tenant owner types n tokens ∧ token = tokens drawn

structure Call.Attempts (codec : JobCodec) (call : Call) (payload : Labelled Deed) : Prop where
  fits : payload.label.Fits codec payload.batch
  enqueues : ∀ jobs, payload.label = .enqueued jobs → jobs = call.enqueues
  draws : ∀ tenant jid token, payload.label = .claimed tenant jid token →
    ∃ drawn, call.Draws drawn token

/-- What a call may attempt after its own commits: it enqueues in its first, and goes
through its draws in order, so it grants no token twice. -/
structure Call.May (codec : JobCodec) (call : Call) (committed : List (Labelled Deed))
    (payload : Labelled Deed) : Prop extends call.Attempts codec payload where
  first : ∀ jobs, payload.label = .enqueued jobs → committed = []
  ordered : ∀ tenant jid token, payload.label = .claimed tenant jid token →
    ∃ drawn, call.Draws drawn token ∧ ∀ earlier ∈ committed,
      ∀ otherTenant otherJid other, earlier.label = .claimed otherTenant otherJid other →
        ∃ before < drawn, call.Draws before other

def Quiet (answer : Answer) (committed : List (Labelled Deed)) : Prop :=
  answer.fault ≠ none → committed = []

def Refusal (fault : Fault) : Prop := fault.kind = .conflict

def Orderly (codec : JobCodec) (store : Store) : Prop :=
  ∀ tenant, ∃ ledger, Represents codec tenant store ledger

def Written (codec : JobCodec) (store : Store) : Prop :=
  ∀ tenant key value, store.get key = some value → InSpace tenant key →
    ∃ job, Stored codec key value job

variable {codec : JobCodec}

theorem Orderly.written {store : Store} (orderly : Orderly codec store) : Written codec store := by
  intro tenant key value found inside
  obtain ⟨ledger, represents⟩ := orderly tenant
  obtain ⟨job, stored, _⟩ := represents.decodes key value found inside
  exact ⟨job, stored⟩

variable {queue : Queue} {held cur next : Job} {key value : Bytes}

theorem not_isPrefix_jobRun (tenant runTenant : TenantId) (ns runNamespace : Namespace)
    (finished : UInt64) (runId : Id) :
    ¬ beginKey tenant ns .job <+: jobRun runTenant runNamespace finished runId := by
  have delimits := beginKey_selfDelimiting.isPrefix_iff ((tenant, ns), Space.job)
    ((runTenant, runNamespace), Space.jobRun) (uint64 finished ++ runId.bytes)
  rw [jobRun, delimits]
  simp [Space.job, Space.jobRun]

variable {newKey : Bytes}

theorem moves_moveBatch (read : unmarshal codec cur.stored value = .ok cur) {newValue : Bytes}
    (isKey : next.key = .ok newKey) (written : marshal codec next = .ok newValue)
    (jid : next.jid = cur.jid) (tenant : next.tenant = cur.tenant)
    (ns : next.resolved = cur.resolved) :
    Moves codec (Queue.moveBatch cur.stored value newKey newValue) cur next := by
  refine ⟨value, newKey, newValue, [], read, ⟨isKey, written⟩, ⟨jid, tenant, ns⟩, ?_, ?_, ?_⟩
  · simp [Queue.moveBatch, Batch.expect, Batch.delete, Batch.set]
  · simp [Queue.moveBatch, Batch.expect, Batch.delete, Batch.set]
  · intro op listed
    cases listed

theorem accepts_moveBatch {store : Store} (found : store.get key = some value) (newKey newValue :
      Bytes) : (Queue.moveBatch key value newKey newValue).Accepts store := by
  intro condition listed
  simp only [Queue.moveBatch, Batch.expect, Batch.delete, Batch.set, any_nil,
    Bool.false_eq_true, if_false, nil_append, mem_singleton] at listed
  rw [listed, Condition.holds, found]
  simp

variable {tx : Batch}

theorem Moves.alongside (moves : Moves codec tx cur next)
    (outside : ∀ tenant ns, ¬ beginKey tenant ns .job <+: key) :
    Moves codec ((tx.expect key [] false).set key value) cur next := by
  obtain ⟨oldValue, newKey, newValue, extra, read, wrote, same, condition, ops, others⟩ := moves
  refine ⟨oldValue, newKey, newValue, extra ++ [.set key value], read, wrote, same, ?_, ?_, ?_⟩
  · unfold Batch.expect Batch.set
    split
    · exact condition
    split
    · exact condition
    · exact mem_append_left _ condition
  · simp [Batch.set, ops]
  · intro op listed
    rcases mem_append.mp listed with earlier | last
    · exact others op earlier
    · rw [mem_singleton.mp last]
      exact outside

variable {later : Time} {run : Option Run}

theorem moves_stageRun {after : Batch} (moves : Moves queue.codec tx cur next)
    (staged : queue.stageRun held next later tx run = .ok after) :
    Moves queue.codec after cur next := by
  unfold Queue.stageRun at staged
  split at staged
  · cases staged
    exact moves
  split at staged
  · cases staged
  dsimp only at staged
  split at staged
  · cases staged
  · cases staged
    exact moves.alongside fun _ _ => not_isPrefix_jobRun _ _ _ _ _ _

theorem fenced_of_fence {op : String} (passed : Queue.fence op held cur = .ok ()) :
    cur.Fenced held.token := by
  intro token presented
  obtain ⟨lease, holds, rfl⟩ := Option.map_eq_some_iff.mp presented
  unfold Queue.fence at passed
  rw [holds] at passed
  dsimp only at passed
  split at passed
  · cases passed
  next current isCurrent =>
  split at passed
  · cases passed
  next same =>
  rw [not_not] at same
  rw [Job.token, isCurrent, Option.map_some, same]

theorem prepare_eq_ok {apply : Job → Job}
    (prepared : queue.prepare held apply run later value = .ok (cur, next, newKey, tx)) :
    unmarshal queue.codec held.stored value = .ok cur ∧ cur.Fenced held.token ∧
      next = apply cur ∧ next.key = .ok newKey ∧ ∃ newValue, marshal queue.codec next = .ok newValue ∧
        queue.stageRun held next later (Queue.moveBatch held.stored value newKey newValue) run =
          .ok tx := by
  unfold Queue.prepare at prepared
  split at prepared
  · cases prepared
  next read isRead =>
  split at prepared
  · cases prepared
  next passed =>
  dsimp only at prepared
  split at prepared
  · cases prepared
  next place isPlace =>
  split at prepared
  · cases prepared
  next written isWritten =>
  split at prepared
  · cases prepared
  next after staged =>
  cases prepared
  exact ⟨isRead, fenced_of_fence passed, rfl, isPlace, written, isWritten, staged⟩

theorem prepare_spec {apply : Job → Job}
    (same : ∀ job, (apply job).jid = job.jid ∧ (apply job).tenant = job.tenant ∧ (apply
      job).namespaceName = job.namespaceName)
    (prepared : queue.prepare held apply run later value = .ok (cur, next, newKey, tx)) :
    unmarshal queue.codec held.stored value = .ok cur ∧ next = apply cur ∧
      cur.Fenced held.token ∧ Moves queue.codec tx cur next := by
  obtain ⟨isRead, fenced, rfl, isPlace, written, isWritten, staged⟩ := prepare_eq_ok prepared
  obtain ⟨jid, tenant, ns⟩ := same cur
  have stored := (unmarshal_place isRead).2
  refine ⟨isRead, rfl, fenced, moves_stageRun ?_ staged⟩
  rw [← stored] at isRead ⊢
  apply moves_moveBatch isRead isPlace isWritten jid tenant
  rw [Job.resolved, Job.resolved, ns]

section Performs

variable {holds : Store → Prop} {call : Call}

theorem may_of_fits {committed : List (Labelled Deed)} {payload : Labelled Deed}
    (fits : payload.label.Fits queue.codec payload.batch)
    (notEnqueued : ∀ jobs, payload.label ≠ .enqueued jobs)
    (notClaimed : ∀ tenant jid token, payload.label ≠ .claimed tenant jid token) :
    call.May queue.codec committed payload :=
  ⟨⟨fits, fun jobs isLabel => absurd isLabel (notEnqueued jobs),
    fun tenant jid token isLabel => absurd isLabel (notClaimed tenant jid token)⟩,
    fun jobs isLabel => absurd isLabel (notEnqueued jobs),
    fun tenant jid token isLabel => absurd isLabel (notClaimed tenant jid token)⟩

variable {apply : Job → Job} {run : Option Run} {later : Time}

theorem performs_transition {deed : TenantId → Id → Option Id → Deed}
    (same : ∀ job, (apply job).jid = job.jid ∧ (apply job).tenant = job.tenant ∧ (apply
      job).namespaceName = job.namespaceName)
    (may : ∀ cur batch, Moves queue.codec batch cur (apply cur) → cur.Fenced held.token → call.May
      queue.codec [] ⟨batch, deed cur.tenant cur.jid held.token⟩) :
    Program.Performs holds Refusal (call.May queue.codec)
      (fun answer committed => Quiet (.job answer) committed)
      (queue.transition held apply run later deed) [] := by
  unfold Queue.transition
  dsimp only
  split
  · exact fun _ => rfl
  split
  · exact fun _ => rfl
  apply performs_observe_bind
  intro store _
  cases store.get held.stored with
  | none => exact fun _ => rfl
  | some value =>
    dsimp only
    split
    · exact fun _ => rfl
    next cur next newKey tx prepared =>
    obtain ⟨_, rfl, fenced, moves⟩ := prepare_spec same prepared
    apply performs_attempt_bind (may cur tx moves fenced)
    · exact fun failed => absurd rfl failed
    · exact fun _ _ _ => rfl

theorem performs_kept
    (same : ∀ job, (apply job).jid = job.jid ∧ (apply job).tenant = job.tenant ∧ (apply
      job).namespaceName = job.namespaceName)
    (token : ∀ job, (apply job).token = job.token) :
    Program.Performs holds Refusal (call.May queue.codec)
      (fun answer committed => Quiet (.job answer) committed)
      (queue.transition held apply run later .kept) [] := by
  apply performs_transition same
  intro cur batch moves fenced
  exact may_of_fits ⟨cur, _, moves, rfl, rfl, token cur, fenced⟩ nofun nofun

theorem performs_ended
    (same : ∀ job, (apply job).jid = job.jid ∧ (apply job).tenant = job.tenant ∧ (apply
      job).namespaceName = job.namespaceName)
    (token : ∀ job, (apply job).token = none) :
    Program.Performs holds Refusal (call.May queue.codec)
      (fun answer committed => Quiet (.job answer) committed)
      (queue.transition held apply run later .ended) [] := by
  apply performs_transition same
  intro cur batch moves fenced
  exact may_of_fits ⟨cur, _, moves, rfl, rfl, token cur, fenced⟩ nofun nofun

variable {now : Time}

theorem performs_finish {state : State} {lastError : Bytes} :
    Program.Performs holds Refusal (call.May queue.codec) Quiet
      (queue.finish now later held state lastError run) [] := by
  unfold Queue.finish
  split
  · exact fun _ => rfl
  apply (performs_ended _ _).bind
  · exact fun _ _ quiet => quiet
  · exact fun _ => ⟨rfl, rfl, rfl⟩
  · exact fun _ => rfl

theorem performs_renew :
    Program.Performs holds Refusal (call.May queue.codec) Quiet (queue.renew now held) [] := by
  unfold Queue.renew
  split
  · exact fun _ => rfl
  apply (performs_kept _ _).bind
  · exact fun _ _ quiet => quiet
  · exact fun _ => ⟨rfl, rfl, rfl⟩
  · intro job
    cases lease : job.lease <;> simp [Job.token, Queue.renewed, lease]

theorem performs_save {cursor : Bytes} : Program.Performs holds Refusal (call.May queue.codec) Quiet
      (queue.save now held cursor) [] := by
  unfold Queue.save
  split
  · exact fun _ => rfl
  split
  · exact fun _ => rfl
  apply (performs_kept _ _).bind
  · exact fun _ _ quiet => quiet
  · exact fun _ => ⟨rfl, rfl, rfl⟩
  · exact fun _ => rfl

theorem performs_release :
    Program.Performs holds Refusal (call.May queue.codec) Quiet (queue.release now held) [] := by
  unfold Queue.release
  apply (performs_ended _ _).bind
  · exact fun _ _ quiet => quiet
  · exact fun _ => ⟨rfl, rfl, rfl⟩
  · exact fun _ => rfl

theorem performs_fail {jitter : Int} {cause : Option Bytes} :
    Program.Performs holds Refusal (call.May queue.codec) Quiet
      (queue.fail now later jitter held cause run) [] := by
  unfold Queue.fail
  dsimp only
  split
  · exact performs_finish
  apply (performs_ended _ _).bind
  · exact fun _ _ quiet => quiet
  · exact fun _ => ⟨rfl, rfl, rfl⟩
  · exact fun _ => rfl

theorem performs_getFrom {tenant : TenantId} {jid : Id} (parts : List JobState) :
    Program.Performs holds Refusal (call.May queue.codec) (fun _ committed => committed = [])
      (queue.getFrom tenant jid parts) [] := by
  induction parts with
  | nil => exact rfl
  | cons part parts ih =>
    unfold Queue.getFrom
    apply performs_observe_bind
    intro store _
    split
    · exact rfl
    · exact rfl
    · exact ih

theorem performs_cancel {tenant : TenantId} {jid localLease runId : Id}
    {processed changed : Option UInt64} :
    Program.Performs holds Refusal (call.May queue.codec) Quiet
      (queue.cancel now later tenant jid localLease runId processed changed) [] := by
  have got : Program.Performs holds Refusal (call.May queue.codec)
      (fun _ committed => committed = []) (queue.get tenant jid) [] := by
    unfold Queue.get
    split
    · exact rfl
    · exact performs_getFrom _
  unfold Queue.cancel
  apply got.bind
  rintro found committed rfl
  cases found with
  | error fault => exact fun _ => rfl
  | ok job =>
    dsimp only
    split
    · exact fun _ => rfl
    apply (performs_ended _ _).bind
    · exact fun _ _ quiet => quiet
    · exact fun _ => ⟨rfl, rfl, rfl⟩
    · exact fun _ => rfl

end Performs

end Remem.Jobs
