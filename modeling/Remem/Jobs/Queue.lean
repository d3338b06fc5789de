import Remem.Jobs.Codec
import Remem.Storage.Batch

/-!
# The job queue

Each call of the queue as a program over the store: what it reads and what it attempts
to commit. Nothing is assumed to hold between two steps of a call; the per-tenant gate
of the source only spares contention. Clock readings, drawn ids and the jitter of a
retry are arguments. `Deed` says of a commit what its call did with it.
-/

namespace Remem.Jobs

open Base Keys Storage

/-- What a commit of the queue did. A move says which token, if any, its caller presented. -/
inductive Deed where
  | enqueued (jobs : List (TenantId × Id))
  | claimed (tenant : TenantId) (jid token : Id)
  | kept (tenant : TenantId) (jid : Id) (token : Option Id)
  | ended (tenant : TenantId) (jid : Id) (token : Option Id)
  | reaped (jobs : List (TenantId × Id))
  deriving DecidableEq

abbrev QueueProgram := StoreProgram Deed

/-- `Queue`: its codec and how long a claim lasts. -/
structure Queue where
  codec : JobCodec
  lease : Int

/-- What a call answers: the job as the caller's pointer is left, the jobs claimed, or how
many were moved; and the error returned with it. -/
inductive Answer where
  | job (result : Result Job)
  | jobs (jobs : List Job) (fault : Option Fault)
  | count (number : Nat) (fault : Option Fault)

def Answer.fault : Answer → Option Fault
  | job (.ok _) => none
  | job (.error fault) => some fault
  | jobs _ fault => fault
  | count _ fault => fault

def claimScanCap : Nat := 1024

def maxCheckpointBytes : Nat := 65536

namespace Queue

variable (queue : Queue)

/-- What `Enqueue` fills in. -/
def fill (now : Time) (drawn : Id) (job : Job) : Job :=
  { job with
    jid := if job.jid = Id.zero then drawn else job.jid
    namespaceName := if job.namespaceName = [] then defaultNamespace else job.namespaceName
    state := if job.state = .unset then .pending else job.state
    runAt := if job.runAt.isZero then now else job.runAt
    maxAttempts := if job.maxAttempts = 0 then defaultMaxAttempts else job.maxAttempts
    createdAt := if job.createdAt.isZero then now else job.createdAt
    updatedAt := if job.updatedAt.isZero then now else job.updatedAt }

/-- `Enqueue` into a transaction. -/
def enqueue (now : Time) (drawn : Id) (job : Job) (tx : Batch) : Result (Job × Batch) :=
  let job := fill now drawn job
  if job.state ≠ .pending ∧ job.state ≠ .retry then
    .error ⟨.invalid, "jobs.Enqueue",
      "a job is enqueued pending, not %s; a running or finished job is written by a transition",
      [.word job.state.name]⟩
  else match job.key with
    | .error fault => .error fault
    | .ok key =>
      match marshal queue.codec job with
      | .error fault => .error fault
      | .ok value =>
        .ok ({ job with stored := key }, (tx.expect key [] false).set key value)

/-- Every job of a transaction, up to the first that is refused. -/
def enqueueAll (now : Time) : List (Job × Id) → List Job → Batch → Result (List Job × Batch)
  | [], done, tx => .ok (done, tx)
  | (job, drawn) :: rest, done, tx =>
    match queue.enqueue now drawn job tx with
    | .error fault => .error fault
    | .ok (job, tx) => enqueueAll now rest (done ++ [job]) tx

/-- A transaction of jobs: it is closed where one of them is refused. -/
def enqueueTransaction (now : Time) (jobs : List (Job × Id)) : QueueProgram Answer :=
  match queue.enqueueAll now jobs [] {} with
  | .error fault => .ret (.jobs [] (some fault))
  | .ok (done, tx) => do
      match ← Program.attempt ⟨tx, .enqueued (done.map fun job => (job.tenant, job.jid))⟩ with
      | .error fault => return .jobs done (some fault)
      | .ok () => return .jobs done none

def submit (now : Time) (job : Job) (drawn : Id) : QueueProgram Answer :=
  if job.tenant = [] then
    .ret (.job (.error ⟨.invalid, "jobs.Submit", "a job requires a tenant (Invariant 1)", []⟩))
  else match queue.enqueue now drawn job {} with
    | .error fault => .ret (.job (.error fault))
    | .ok (job, tx) => do
        match ← Program.attempt ⟨tx, .enqueued [(job.tenant, job.jid)]⟩ with
        | .error fault => return .job (.error fault)
        | .ok () => return .job (.ok job)

structure Candidate where
  key : Bytes
  value : Bytes
  job : Job

def wanted (typ : Bytes) (types : List Bytes) : Bool := types = [] || types.contains typ

/-- The loop of `due` over the rows of its range. -/
def dueLoop (types : List Bytes) (want : Int) :
    List (Bytes × Bytes) → (examined : Nat) → List Candidate → Result (List Candidate)
  | [], _, out => .ok out
  | (key, value) :: rest, examined, out =>
    if claimScanCap < examined + 1 then .ok out
    else match unmarshal queue.codec key value with
      | .error fault => .error fault
      | .ok job =>
        if !wanted job.typ types then dueLoop types want rest (examined + 1) out
        else
          let out := out ++ [⟨key, value, job⟩]
          if 0 < want ∧ out.length = want then .ok out
          else dueLoop types want rest (examined + 1) out

def due (tenant : TenantId) (part : JobState) (bound : Time) (types : List Bytes)
    (want : Int) : QueueProgram (Result (List Candidate)) :=
  Program.observe fun store =>
    queue.dueLoop types want
      (scanRange store (jobDueRange tenant defaultNamespace part (unixMilli bound))) 0 []

def moveBatch (oldKey oldValue newKey newValue : Bytes) : Batch :=
  ((({} : Batch).expect oldKey oldValue true).delete oldKey).set newKey newValue

def move (oldKey oldValue : Bytes) (next : Job) (deed : Deed) : QueueProgram (Result Job) :=
  match next.key with
  | .error fault => .ret (.error fault)
  | .ok newKey =>
    match marshal queue.codec next with
    | .error fault => .ret (.error fault)
    | .ok newValue => do
        match ← Program.attempt ⟨moveBatch oldKey oldValue newKey newValue, deed⟩ with
        | .error fault => return .error fault
        | .ok () => return .ok { next with stored := newKey }

def leased (now : Time) (owner : Bytes) (token : Id) (job : Job) : Job :=
  { job with
    state := .running
    attempts := job.attempts + 1
    updatedAt := now
    lease := some ⟨owner, now + queue.lease, token⟩ }

/-- The loop of `Claim` over its candidates: a conflict means that somebody else took the
job. -/
def claimLoop (now : Time) (owner : Bytes) (n : Int) (tokens : Nat → Id) :
    List Candidate → (drawn : Nat) → List Job → QueueProgram Answer
  | [], _, out => .ret (.jobs out none)
  | candidate :: rest, drawn, out =>
    if out.length = n then .ret (.jobs out none)
    else do
      let token := tokens drawn
      match ← queue.move candidate.key candidate.value (queue.leased now owner token candidate.job)
          (.claimed candidate.job.tenant candidate.job.jid token) with
      | .error fault =>
        if fault.kind = .conflict then claimLoop now owner n tokens rest (drawn + 1) out
        else return .jobs out (some fault)
      | .ok job => claimLoop now owner n tokens rest (drawn + 1) (out ++ [job])

/-- `sort.SliceStable` by priority, highest first. -/
def byPriority (candidates : List Candidate) : List Candidate :=
  candidates.insertionSort fun first second => second.job.priority ≤ first.job.priority

def claim (now : Time) (tenant : TenantId) (owner : Bytes) (types : List Bytes) (n : Int)
    (tokens : Nat → Id) : QueueProgram Answer :=
  if tenant = [] then
    .ret (.jobs [] (some ⟨.invalid, "jobs.Claim",
      "a claim requires a tenant: there is no unscoped read path (Invariant 1)", []⟩))
  else if owner = [] then
    .ret (.jobs [] (some ⟨.invalid, "jobs.Claim", "a claim requires an owner to lease to", []⟩))
  else if n ≤ 0 then .ret (.jobs [] none)
  else do
    match ← queue.due tenant .pending now types n with
    | .error fault => return .jobs [] (some fault)
    | .ok candidates => queue.claimLoop now owner n tokens (byPriority candidates) 0 []

def fence (op : String) (held cur : Job) : Result Unit :=
  match held.lease with
  | none => .ok ()
  | some lease =>
    match cur.lease with
    | none =>
      .error ⟨.conflict, op, "job %s is no longer leased; this worker's claim has been reclaimed",
        [.bytes held.jid.bytes]⟩
    | some current =>
      if current.token ≠ lease.token then
        .error ⟨.conflict, op,
          "job %s is leased to %s under a newer token; this worker's claim was reclaimed",
          [.bytes held.jid.bytes, .bytes current.owner]⟩
      else .ok ()

def stageRun (held next : Job) (later : Time) (tx : Batch) : Option Run → Result Batch
  | none => .ok tx
  | some run =>
    if run.rid = Id.zero ∨ run.tenant ≠ held.tenant ∨ run.jobId ≠ held.jid ∨
        run.typ ≠ held.typ ∨ run.attempt ≠ next.attempts ∨ run.outcome ≠ next.state then
      .error ⟨.invalid, "jobs.transition",
        "an atomic attempt record must identify the transitioned job, attempt and outcome", []⟩
    else
      let run := { run with
        namespaceName := if run.namespaceName = [] then defaultNamespace else run.namespaceName
        finishedAt := if run.finishedAt.isZero then later else run.finishedAt }
      let key := jobRun run.tenant defaultNamespace (unixMilli run.finishedAt) run.rid
      match marshalRun queue.codec run with
      | .error fault => .error fault
      | .ok value => .ok ((tx.expect key [] false).set key value)

/-- `transitionWithRun` once it has read the row: what it goes on to attempt. -/
def prepare (held : Job) (apply : Job → Job) (run : Option Run) (later : Time)
    (value : Bytes) : Result (Job × Job × Bytes × Batch) :=
  match unmarshal queue.codec held.stored value with
  | .error fault => .error fault
  | .ok cur =>
    match fence "jobs.transition" held cur with
    | .error fault => .error fault
    | .ok () =>
      let next := apply cur
      match next.key with
      | .error fault => .error fault
      | .ok newKey =>
        match marshal queue.codec next with
        | .error fault => .error fault
        | .ok newValue =>
          match queue.stageRun held next later
              (moveBatch held.stored value newKey newValue) run with
          | .error fault => .error fault
          | .ok tx => .ok (cur, next, newKey, tx)

/-- `transitionWithRun`. -/
def transition (held : Job) (apply : Job → Job) (run : Option Run) (later : Time)
    (deed : TenantId → Id → Option Id → Deed) : QueueProgram (Result Job) :=
  let op := "jobs.transition"
  if held.tenant = [] then
    .ret (.error ⟨.invalid, op, "a job transition requires a tenant", []⟩)
  else if held.stored = [] then
    .ret (.error ⟨.invalid, op, "job %s has never been stored, so there is no row to move",
      [.bytes held.jid.bytes]⟩)
  else do
    match ← Program.observe fun store : Store => store.get held.stored with
    | none =>
      return .error ⟨.conflict, op,
        "job %s is no longer where this worker left it: it was reclaimed, cancelled or " ++
          "already finished", [.bytes held.jid.bytes]⟩
    | some value =>
      match queue.prepare held apply run later value with
      | .error fault => return .error fault
      | .ok (cur, next, newKey, tx) =>
        match ← Program.attempt ⟨tx, deed cur.tenant cur.jid (held.lease.map Lease.token)⟩ with
        | .error fault => return .error fault
        | .ok () => return .ok { next with stored := newKey }

def finished (now : Time) (state : State) (lastError : Bytes) (job : Job) : Job :=
  { job with
    state
    lease := none
    updatedAt := now
    lastError :=
      if state = .completed then []
      else if lastError = [] then job.lastError
      else lastError }

/-- `finishWithRun`. -/
def finish (now later : Time) (held : Job) (state : State) (lastError : Bytes)
    (run : Option Run) : QueueProgram Answer :=
  if !state.terminal then
    .ret (.job (.error ⟨.invalid, "jobs.finish", "%s is not a terminal state", [.word state.name]⟩))
  else do
    return .job (← queue.transition held (finished now state lastError) run later .ended)

/-- `CompleteWithRun`; `Complete` records no attempt. -/
def complete (now later : Time) (held : Job) (run : Option Run) : QueueProgram Answer :=
  queue.finish now later held .completed [] run

def renewed (now : Time) (job : Job) : Job :=
  { job with
    lease := job.lease.map fun lease => { lease with expiresAt := now + queue.lease }
    updatedAt := now }

def renew (now : Time) (held : Job) : QueueProgram Answer :=
  if held.lease = none then
    .ret (.job (.error ⟨.invalid, "jobs.Renew", "job %s holds no lease to renew",
      [.bytes held.jid.bytes]⟩))
  else do
    return .job (← queue.transition held (queue.renewed now) none now .kept)

def save (now : Time) (held : Job) (cursor : Bytes) : QueueProgram Answer :=
  if held.lease = none then
    .ret (.job (.error ⟨.invalid, "jobs.Save",
      "job %s is not leased to anybody; only the worker holding a job records its progress",
      [.bytes held.jid.bytes]⟩))
  else if maxCheckpointBytes < cursor.length then
    .ret (.job (.error ⟨.invalid, "jobs.Save",
      "the checkpoint is %d bytes, the limit is %d; a cursor is a position, not a working set",
      [.number cursor.length, .number maxCheckpointBytes]⟩))
  else do
    return .job (← queue.transition held
      (fun job => { job with checkpoint := cursor, updatedAt := now }) none now .kept)

def released (now : Time) (job : Job) : Job :=
  { job with
    state := .pending
    lease := none
    runAt := now
    updatedAt := now
    attempts := if 0 < job.attempts then job.attempts - 1 else job.attempts }

def release (now : Time) (held : Job) : QueueProgram Answer := do
  return .job (← queue.transition held (released now) none now .ended)

/-- `RetryBase`, in nanoseconds. -/
def retryBase : Int := 1000000000

/-- `RetryCap`, in nanoseconds. -/
def retryCap : Int := 600000000000

/-- `BackoffWindow`; a duration is an `int64`. -/
def backoffWindow (attempt : UInt32) : Int :=
  let attempt := if attempt < 1 then 1 else attempt
  let shift := (attempt - 1).toNat
  if 40 < shift then retryCap
  else
    let window := (retryBase * 2 ^ shift).bmod (2 ^ 64)
    if retryCap < window ∨ window ≤ 0 then retryCap else window

/-- `BackoffDelay`, given what was drawn for the second half of the window. -/
def backoffDelay (attempt : UInt32) (jitter : Int) : Int := backoffWindow attempt / 2 + jitter

/-- `FailWithRun`; `Fail` records no attempt. -/
def fail (now later : Time) (jitter : Int) (held : Job) (cause : Option Bytes)
    (run : Option Run) : QueueProgram Answer :=
  let reason := cause.getD (ascii "the handler failed without saying why")
  if held.maxAttempts ≤ held.attempts then queue.finish now later held .failed reason run
  else do
    return .job (← queue.transition held (fun job => { job with
        state := .retry
        lease := none
        runAt := now + backoffDelay held.attempts jitter
        updatedAt := now
        lastError := reason }) run later .ended)

def reclaimed (now : Time) (job : Job) : Job :=
  if job.maxAttempts ≤ job.attempts then
    { job with
      updatedAt := now
      state := .failed
      lease := none
      lastError := ascii "the lease expired on attempt " ++ decimal job.attempts.toNat ++
        ascii " of " ++ decimal job.maxAttempts.toNat ++
        ascii (" and there are no attempts left; " ++
          "the worker holding it stopped without completing or failing it") }
  else
    { job with
      updatedAt := now
      state := .pending
      lease := none
      runAt := now
      lastError := ascii "the lease expired on attempt " ++ decimal job.attempts.toNat ++
        ascii "; the job was reclaimed" }

/-- The loop of `Reclaim`: a conflict means that the owner renewed or finished first. -/
def reclaimLoop (now : Time) : List Candidate → (moved : Nat) → QueueProgram Answer
  | [], moved => .ret (.count moved none)
  | candidate :: rest, moved => do
      match ← queue.move candidate.key candidate.value (reclaimed now candidate.job)
          (.ended candidate.job.tenant candidate.job.jid none) with
      | .error fault =>
        if fault.kind = .conflict then reclaimLoop now rest moved
        else return .count moved (some fault)
      | .ok _ => reclaimLoop now rest (moved + 1)

def reclaim (now : Time) (tenant : TenantId) (limit : Int) : QueueProgram Answer :=
  if tenant = [] then
    .ret (.count 0 (some ⟨.invalid, "jobs.Reclaim",
      "reclaiming requires a tenant: there is no unscoped read path (Invariant 1)", []⟩))
  else if limit ≤ 0 then .ret (.count 0 none)
  else do
    match ← queue.due tenant .running now [] limit with
    | .error fault => return .count 0 (some fault)
    | .ok lapsed => queue.reclaimLoop now lapsed 0

/-- The loop of `Get` over one partition. -/
def findJob (jid : Id) : List (Bytes × Bytes) → Result (Option Job)
  | [] => .ok none
  | (key, value) :: rest =>
    match parseJob key with
    | .error fault => .error fault
    | .ok parsed =>
      if parsed.jid ≠ jid then findJob jid rest
      else match unmarshal queue.codec key value with
        | .error fault => .error fault
        | .ok job => .ok (some job)

def getFrom (tenant : TenantId) (jid : Id) : List JobState → QueueProgram (Result Job)
  | [] => .ret (.error ⟨.notFound, "jobs.Get", "no job %s in tenant %s",
      [.bytes jid.bytes, .bytes tenant]⟩)
  | part :: rest => do
      match ← Program.observe fun store =>
          queue.findJob jid (scanRange store (jobStateRange tenant defaultNamespace part)) with
      | .error fault => return .error fault
      | .ok (some job) => return .ok job
      | .ok none => getFrom tenant jid rest

def get (tenant : TenantId) (jid : Id) : QueueProgram (Result Job) :=
  if tenant = [] then
    .ret (.error ⟨.invalid, "jobs.Get",
      "reading a job requires a tenant: there is no unscoped read path (Invariant 1)", []⟩)
  else queue.getFrom tenant jid [.pending, .running, .done]

/-- `id.ID.Time`: the milliseconds at the head of a version 7 id. -/
def idTime (token : Id) : Time :=
  if token.bytes.getD 6 0 / 16 ≠ 7 then .zero
  else .ofUnixMilli (ofBigEndian (token.bytes.take 6))

/-- The attempt that `cancelWithCounts` records of a running job. -/
def cancelledRun (now : Time) (localLease runId : Id) (processed changed : Option UInt64)
    (job : Job) (lease : Lease) : Run :=
  let counted : Bool := localLease = Id.zero || lease.token = localLease
  let started := idTime lease.token
  { rid := runId
    jobId := job.jid
    tenant := job.tenant
    namespaceName := job.namespaceName
    typ := job.typ
    attempt := job.attempts
    startedAt := if started.isZero || now < started then job.updatedAt else started
    finishedAt := now
    outcome := .cancelled
    error := ascii "cancelled by an operator"
    owner := lease.owner
    recordsProcessed := if counted then processed else none
    recordsChanged := if counted then changed else none }

/-- `cancelWithCounts`; `Cancel` has no counts and no lease of its own. -/
def cancel (now later : Time) (tenant : TenantId) (jid localLease runId : Id)
    (processed changed : Option UInt64) : QueueProgram Answer := do
  match ← queue.get tenant jid with
  | .error fault => return .job (.error fault)
  | .ok job =>
    if job.state.terminal then
      return .job (.error ⟨.conflict, "jobs.Cancel",
        "job %s already finished as %s and cannot be cancelled",
        [.bytes jid.bytes, .word job.state.name]⟩)
    else
      let run := if job.state = .running then
          job.lease.map (cancelledRun now localLease runId processed changed job)
        else none
      return .job (← queue.transition job (fun job => { job with
          state := .cancelled
          lease := none
          updatedAt := now
          lastError := ascii "cancelled by an operator" }) run later .ended)

def reapBatch (stale : List Candidate) : Batch :=
  stale.foldl (fun tx candidate =>
    (tx.expect candidate.key candidate.value true).delete candidate.key) {}

def reap (before : Time) (tenant : TenantId) (limit : Int) : QueueProgram Answer :=
  if tenant = [] then
    .ret (.count 0 (some ⟨.invalid, "jobs.Reap",
      "reaping requires a tenant: there is no unscoped read path (Invariant 1)", []⟩))
  else if limit ≤ 0 then .ret (.count 0 none)
  else do
    match ← queue.due tenant .done before [] limit with
    | .error fault => return .count 0 (some fault)
    | .ok [] => return .count 0 none
    | .ok stale =>
      match ← Program.attempt ⟨reapBatch stale,
          .reaped (stale.map fun candidate => (candidate.job.tenant, candidate.job.jid))⟩ with
      | .error fault => return .count 0 (some fault)
      | .ok () => return .count stale.length none

end Queue

inductive Call where
  | enqueue (now : Time) (jobs : List (Job × Id))
  | submit (now : Time) (job : Job) (drawn : Id)
  | claim (now : Time) (tenant : TenantId) (owner : Bytes) (types : List Bytes) (n : Int)
      (tokens : Nat → Id)
  | renew (now : Time) (held : Job)
  | save (now : Time) (held : Job) (cursor : Bytes)
  | complete (now later : Time) (held : Job) (run : Option Run)
  | fail (now later : Time) (jitter : Int) (held : Job) (cause : Option Bytes)
      (run : Option Run)
  | release (now : Time) (held : Job)
  | reclaim (now : Time) (tenant : TenantId) (limit : Int)
  | cancel (now later : Time) (tenant : TenantId) (jid localLease runId : Id)
      (processed changed : Option UInt64)
  | reap (before : Time) (tenant : TenantId) (limit : Int)

namespace Call

def body (queue : Queue) : Call → QueueProgram Answer
  | enqueue now jobs => queue.enqueueTransaction now jobs
  | submit now job drawn => queue.submit now job drawn
  | claim now tenant owner types n tokens => queue.claim now tenant owner types n tokens
  | renew now held => queue.renew now held
  | save now held cursor => queue.save now held cursor
  | complete now later held run => queue.complete now later held run
  | fail now later jitter held cause run => queue.fail now later jitter held cause run
  | release now held => queue.release now held
  | reclaim now tenant limit => queue.reclaim now tenant limit
  | cancel now later tenant jid localLease runId processed changed =>
    queue.cancel now later tenant jid localLease runId processed changed
  | reap before tenant limit => queue.reap before tenant limit

/-- The jobs a call enqueues, each with the id drawn for it in case it has none. -/
def submitted : Call → List (Job × Id)
  | enqueue _ jobs => jobs
  | submit _ job drawn => [(job, drawn)]
  | _ => []

def enqueues (call : Call) : List (TenantId × Id) :=
  call.submitted.map fun (job, drawn) =>
    (job.tenant, if job.jid = Id.zero then drawn else job.jid)

end Call

/-- Calls of the queue, any number of them side by side. Every job is enqueued under an id
of its own, into the default namespace. -/
def Queue.system (queue : Queue) : System Call Store (Labelled Deed) Fault Answer where
  apply payload store := payload.batch.commit store
  body := Call.body queue
  legal call := call.enqueues.Nodup ∧ ∀ submitted ∈ call.submitted,
    submitted.1.resolved = defaultNamespace
  distinct first second := ∀ job ∈ first.enqueues, job ∉ second.enqueues
  distinct_symm _ _ apart job enqueued other := apart job other enqueued

end Remem.Jobs
