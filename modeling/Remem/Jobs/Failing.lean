import Remem.Jobs.Deeds
import Remem.Jobs.Pool

/-!
# What the pool records of an attempt

One worker runs a handler and records what became of it. The text of the handler's error goes
into two rows of one transaction, and both are protobuf: text that is not UTF-8 is refused, and
the pool only logs that.
-/

namespace Remem.Jobs

open Base Keys Storage List

/-- How a handler ends: what its error says, or how `%v` shows what it panicked with. -/
inductive Handled where
  | returned
  | failed (message : Bytes)
  | panicked (shown : Bytes)
  deriving DecidableEq

/-- `invoke`: what the error of the attempt says. The registry may know no handler, and says
so. -/
def invoke : Except Bytes Handled → Option Bytes
  | .error message => some message
  | .ok .returned => none
  | .ok (.failed message) => some message
  | .ok (.panicked shown) => some (ascii "the handler panicked: " ++ shown)

/-- `runningJob`: the job as its last transition left it, and what was copied when it was
launched. -/
structure RunningJob where
  job : Job
  jid : Id
  tenant : TenantId
  typ : Bytes
  handled : Job
  lost : Bool := false
  processed : Option UInt64 := none
  changed : Option UInt64 := none

/-- What `launch` makes of a claimed job. -/
def launch (job : Job) : RunningJob where
  job
  jid := job.jid
  tenant := job.tenant
  typ := job.typ
  handled := job

structure Readings where
  started : Time
  finished : Time
  now : Time
  later : Time
  jitter : Int
  runId : Id

namespace PoolConfig

variable (config : PoolConfig)

def attempt (running : RunningJob) (readings : Readings) (number : UInt32) (outcome : State)
    (cause : Bytes) : Run where
  rid := readings.runId
  jobId := running.jid
  tenant := running.tenant
  namespaceName := running.handled.namespaceName
  typ := running.typ
  attempt := number
  startedAt := readings.started
  finishedAt := readings.finished
  outcome
  error := cause
  owner := config.owner
  recordsProcessed := running.processed
  recordsChanged := running.changed

def failure (running : RunningJob) (readings : Readings) (cause : Bytes) : Run :=
  { config.attempt running readings 0 .retry cause with
    attempt := running.job.attempts
    outcome := if running.job.maxAttempts ≤ running.job.attempts then .failed else .retry }

/-- `execute`: what the queue answered when the outcome was recorded, which is only logged. -/
def execute (running : RunningJob) (draining : Bool) (readings : Readings)
    (handler : Except Bytes Handled) : QueueProgram (Option Answer) :=
  if running.lost then .ret none
  else match invoke handler with
    | some cause =>
      if draining then do
        return some (← config.queue.release readings.now running.job)
      else do
        return some (← config.queue.fail readings.now readings.later readings.jitter running.job
          (some cause) (some (config.failure running readings cause)))
    | none => do
        return some (← config.queue.complete readings.now readings.later running.job
          (some { config.attempt running readings 0 .completed [] with
            attempt := running.job.attempts }))

end PoolConfig

def RunRow.texts (row : RunRow) : List Bytes := [row.typ, row.error, row.owner, row.namespaceName]

def JobCodec.WritesRuns (codec : JobCodec) : Prop :=
  ∀ row, (codec.marshalRun row).isSome = true ↔ ∀ text ∈ row.texts, validUtf8 text = true

variable {codec : JobCodec} {queue : Queue} {job next : Job} {value cause : Bytes}

theorem marshal_texts (written : marshal codec job = .ok value) {text : Bytes}
    (listed : text ∈ job.row.texts) : validUtf8 text = true := by
  obtain ⟨_, bytes⟩ := marshal_eq_ok_iff.mp written
  exact (codec.marshals job.row).mp (Option.isSome_iff_exists.mpr ⟨_, bytes⟩) text listed

theorem marshal_of_valid (valid : job.Valid) (texts : ∀ text ∈ job.row.texts, validUtf8 text =
      true) :
    ∃ bytes, marshal codec job = .ok bytes := by
  obtain ⟨bytes, marshalled⟩ := Option.isSome_iff_exists.mp ((codec.marshals job.row).mpr texts)
  exact ⟨bytes, marshal_eq_ok_iff.mpr ⟨valid, marshalled⟩⟩

theorem marshalRun_of_valid (writes : codec.WritesRuns) {run : Run}
    (typed : parseType run.typ = .ok run.typ) (known : run.outcome.known = true)
    (texts : ∀ text ∈ [run.typ, run.error, run.owner, run.namespaceName], validUtf8 text = true) :
    ∃ bytes, marshalRun codec run = .ok bytes := by
  unfold marshalRun
  rw [typed]
  dsimp only
  rw [known]
  obtain ⟨bytes, marshalled⟩ := Option.isSome_iff_exists.mp ((writes
    ⟨run.jobId.bytes, run.typ, run.attempt, unixMilli run.startedAt, unixMilli run.finishedAt,
      run.outcome.code.toUInt32, run.error, run.owner, run.namespaceName, run.recordsProcessed,
      run.recordsChanged⟩).mpr texts)
  exact ⟨bytes, by rw [marshalled]; rfl⟩

def afterFailure (readings : Readings) (held : Job) (cause : Bytes) : Job → Job :=
  if held.maxAttempts ≤ held.attempts then Queue.finished readings.now .failed cause
  else fun job =>
    { job with
      state := .retry
      lease := none
      runAt := readings.now + Queue.backoffDelay held.attempts readings.jitter
      updatedAt := readings.now
      lastError := cause }

theorem fail_eq (readings : Readings) (held : Job) (cause : Bytes) (run : Option Run) :
    queue.fail readings.now readings.later readings.jitter held (some cause) run =
      (do return .job (← queue.transition held (afterFailure readings held cause) run
        readings.later .ended)) := by
  unfold Queue.fail afterFailure
  dsimp only [Option.getD_some]
  split
  · rfl
  · rfl

structure Fails (held job next : Job) (cause : Bytes) : Prop where
  jid : next.jid = job.jid
  tenant : next.tenant = job.tenant
  resolved : next.resolved = job.resolved
  typ : next.typ = job.typ
  payload : next.payload = job.payload
  attempts : next.attempts = job.attempts
  lease : next.lease = none
  lastError : next.lastError = cause ∨ cause = [] ∧ next.lastError = job.lastError
  state : next.state = if held.maxAttempts ≤ held.attempts then .failed else .retry

theorem fails_afterFailure (readings : Readings) (held job : Job) (cause : Bytes) :
    Fails held job (afterFailure readings held cause job) cause := by
  unfold afterFailure
  split
  · next used =>
    refine ⟨rfl, rfl, rfl, rfl, rfl, rfl, rfl, ?_, (if_pos used).symm⟩
    unfold Queue.finished
    by_cases silent : cause = []
    · exact .inr ⟨silent, by simp [silent, State.failed, State.completed]⟩
    · exact .inl (by simp [silent, State.failed, State.completed])
  · next left => exact ⟨rfl, rfl, rfl, rfl, rfl, rfl, rfl, .inl rfl, (if_neg left).symm⟩

namespace Fails

variable {held : Job}

theorem known (fails : Fails held job next cause) : next.state.known = true := by
  rw [fails.state]
  split <;> decide

theorem partition_ne_running (fails : Fails held job next cause) :
    next.state.partition ≠ .running := by
  rw [fails.state]
  split <;> decide

theorem valid (fails : Fails held job next cause) (valid : job.Valid) : next.Valid where
  jid := fails.jid ▸ valid.jid
  tenant := fails.tenant ▸ valid.tenant
  namespaceName := fails.resolved ▸ valid.namespaceName
  typ := fails.typ ▸ valid.typ
  state := fails.known
  payload := fails.payload ▸ valid.payload

theorem key (fails : Fails held job next cause) (tenanted : job.tenant ≠ []) :
    ∃ newKey, next.key = .ok newKey := by
  have due : ∃ due, next.due = some due := by
    unfold Job.due
    rw [if_neg fails.partition_ne_running]
    split
    · exact ⟨_, rfl⟩
    · exact ⟨_, rfl⟩
  obtain ⟨due, isDue⟩ := due
  exact ⟨_, Job.key_eq_ok_iff.mpr ⟨fails.tenant ▸ tenanted, due, isDue, rfl⟩⟩

theorem written (fails : Fails held job next cause) (written : marshal codec job = .ok value)
    (isText : validUtf8 cause = true) : ∃ newValue, marshal codec next = .ok newValue := by
  apply marshal_of_valid (fails.valid (marshal_eq_ok_iff.mp written).1)
  intro text listed
  have texts : next.row.texts = [job.typ, next.lastError, job.resolved] := by
    unfold Job.row JobRow.texts
    simp only [fails.lease, fails.typ, fails.resolved, Option.map_none, Option.toList_none,
      append_nil]
  rw [texts] at listed
  simp only [mem_cons, not_mem_nil, or_false] at listed
  rcases listed with rfl | rfl | rfl
  · exact marshal_texts written (by simp [JobRow.texts, Job.row])
  · rcases fails.lastError with same | ⟨_, same⟩
    · rwa [same]
    · rw [same]
      exact marshal_texts written (by simp [JobRow.texts, Job.row])
  · exact marshal_texts written (by simp [JobRow.texts, Job.row])

end Fails

/-- The worker holds the job: the row at its key is the one written for it, its lease is the
pool's, and it is still the job that was launched. -/
structure Holding (config : PoolConfig) (running : RunningJob) (value : Bytes) : Prop where
  isKey : running.job.key = .ok running.job.stored
  written : marshal config.queue.codec running.job = .ok value
  state : running.job.state = .running
  owner : running.job.lease.map Lease.owner = some config.owner
  jid : running.jid = running.job.jid
  tenant : running.tenant = running.job.tenant
  typ : running.typ = running.job.typ
  resolved : running.handled.resolved = running.job.resolved

variable {config : PoolConfig} {running : RunningJob} {readings : Readings}

def storedRun (config : PoolConfig) (running : RunningJob) (readings : Readings) (cause : Bytes) :
    Run :=
  { config.failure running readings cause with
    namespaceName := running.handled.resolved
    finishedAt := if readings.finished.isZero then readings.later else readings.finished }

def runKey (running : RunningJob) (readings : Readings) : Bytes :=
  jobRun running.tenant defaultNamespace
    (unixMilli (if readings.finished.isZero then readings.later else readings.finished))
    readings.runId

theorem fence_settled (op : String) (job : Job) (key : Bytes) :
    Queue.fence op job (job.settled key) = .ok () := by
  unfold Queue.fence Job.settled
  cases job.lease with
  | none => rfl
  | some lease => exact if_neg (not_not.mpr rfl)

namespace Holding

variable (holding : Holding config running value)
include holding

theorem tenanted : running.job.tenant ≠ [] := (Job.key_eq_ok_iff.mp holding.isKey).1

theorem stored : Stored config.queue.codec running.job.stored value
    (running.job.settled running.job.stored) :=
  stored_settled holding.isKey holding.written

theorem stored_ne_nil : running.job.stored ≠ [] := by
  obtain ⟨_, due, _, place⟩ := Job.key_eq_ok_iff.mp holding.isKey
  intro empty
  have lengths := congrArg List.length (place.symm.trans empty)
  rw [Keys.job, length_append, length_cons] at lengths
  simp at lengths

theorem written_run (readings : Readings) (writes : config.queue.codec.WritesRuns) (isText :
      validUtf8 cause = true) :
    ∃ bytes, marshalRun config.queue.codec (storedRun config running readings cause) = .ok bytes := by
  obtain ⟨valid, _⟩ := marshal_eq_ok_iff.mp holding.written
  apply marshalRun_of_valid writes
  · change parseType running.typ = .ok running.typ
    rw [holding.typ, valid.typ]
  · change (if running.job.maxAttempts ≤ running.job.attempts then State.failed
      else State.retry).known = true
    split <;> decide
  intro text listed
  change text ∈ [running.typ, cause, config.owner, running.handled.resolved] at listed
  rw [holding.typ, holding.resolved] at listed
  simp only [mem_cons, not_mem_nil, or_false] at listed
  rcases listed with rfl | rfl | rfl | rfl
  · exact marshal_texts holding.written (by simp [JobRow.texts, Job.row])
  · exact isText
  · obtain ⟨lease, leased, isOwner⟩ := Option.map_eq_some_iff.mp holding.owner
    apply marshal_texts holding.written
    simp [JobRow.texts, Job.row, leased, Lease.row, isOwner]
  · exact marshal_texts holding.written (by simp [JobRow.texts, Job.row])

theorem stageRun_eq (drawn : readings.runId ≠ Id.zero) {tx : Batch} {bytes : Bytes}
    (fails : Fails running.job (running.job.settled running.job.stored) next cause)
    (marshalled : marshalRun config.queue.codec (storedRun config running readings cause) =
      .ok bytes) :
    config.queue.stageRun running.job next readings.later tx
        (some (config.failure running readings cause)) =
      .ok ((tx.expect (runKey running readings) [] false).set (runKey running readings) bytes) := by
  have identified : ¬ ((config.failure running readings cause).rid = Id.zero ∨
      (config.failure running readings cause).tenant ≠ running.job.tenant ∨
      (config.failure running readings cause).jobId ≠ running.job.jid ∨
      (config.failure running readings cause).typ ≠ running.job.typ ∨
      (config.failure running readings cause).attempt ≠ next.attempts ∨
      (config.failure running readings cause).outcome ≠ next.state) := by
    rw [fails.attempts, fails.state]
    simp only [PoolConfig.failure, PoolConfig.attempt, holding.tenant, holding.jid, holding.typ]
    simp [drawn, Job.settled]
  unfold Queue.stageRun
  dsimp only
  rw [if_neg identified]
  split
  · next fault failed => cases failed.symm.trans marshalled
  next value succeeded =>
  cases succeeded.symm.trans marshalled
  rfl

end Holding

def failureBatch (key value newKey newValue attemptKey attemptValue : Bytes) : Batch :=
  ((Queue.moveBatch key value newKey newValue).expect attemptKey [] false).set attemptKey
    attemptValue

variable {key newKey : Bytes}

theorem effect_failureBatch (value newValue attemptValue : Bytes) {attemptKey : Bytes}
    (moved : key ≠ newKey) (apart : key ≠ attemptKey) (newApart : newKey ≠ attemptKey)
    (store : Store) :
    let after := (failureBatch key value newKey newValue attemptKey attemptValue).effect store
    after.get key = none ∧ after.get newKey = some newValue ∧
      after.get attemptKey = some attemptValue := by
  have effect : (failureBatch key value newKey newValue attemptKey attemptValue).effect store =
      ((store.erase key).set newKey newValue).set attemptKey attemptValue := by
    simp [failureBatch, Queue.moveBatch]
  dsimp only
  rw [effect]
  refine ⟨?_, ?_, OrderedMap.get_set_self _ _ _⟩
  · rw [OrderedMap.get_set_of_ne _ _ apart, OrderedMap.get_set_of_ne _ _ moved,
      OrderedMap.get_erase_self]
  · rw [OrderedMap.get_set_of_ne _ _ newApart, OrderedMap.get_set_self]

theorem accepts_failureBatch {newValue attemptKey attemptValue : Bytes} {store : Store}
    (found : store.get key = some value) (free : store.get attemptKey = none) :
    (failureBatch key value newKey newValue attemptKey attemptValue).Accepts store := by
  have accepts := accepts_moveBatch found newKey newValue
  intro condition listed
  change condition ∈ ((Queue.moveBatch key value newKey newValue).expect attemptKey []
    false).conditions at listed
  unfold Batch.expect at listed
  split at listed
  · exact accepts condition listed
  split at listed
  · exact accepts condition listed
  rcases mem_append.mp listed with earlier | last
  · exact accepts condition earlier
  · rw [mem_singleton.mp last, Condition.holds, free]
    rfl

theorem Holding.prepare_eq (holding : Holding config running value)
    (writes : config.queue.codec.WritesRuns) (drawn : readings.runId ≠ Id.zero)
    (isText : validUtf8 cause = true) :
    let cur := running.job.settled running.job.stored
    let next := afterFailure readings running.job cause cur
    ∃ newKey newValue bytes, next.key = .ok newKey ∧
      marshal config.queue.codec next = .ok newValue ∧
      marshalRun config.queue.codec (storedRun config running readings cause) = .ok bytes ∧
      config.queue.prepare running.job (afterFailure readings running.job cause)
          (some (config.failure running readings cause)) readings.later value =
        .ok (cur, next, newKey, failureBatch running.job.stored value newKey newValue
          (runKey running readings) bytes) := by
  dsimp only
  have fails := fails_afterFailure readings running.job
    (running.job.settled running.job.stored) cause
  obtain ⟨newKey, isKey⟩ := fails.key holding.tenanted
  obtain ⟨newValue, written⟩ := fails.written holding.stored.written isText
  obtain ⟨bytes, recorded⟩ := holding.written_run readings writes isText
  refine ⟨newKey, newValue, bytes, isKey, written, recorded, ?_⟩
  unfold Queue.prepare
  rw [holding.stored.read]
  dsimp only
  rw [fence_settled]
  dsimp only
  rw [isKey]
  dsimp only
  rw [written]
  dsimp only
  rw [holding.stageRun_eq drawn fails recorded]
  rfl

variable {moments : List (Moment Store (Labelled Deed) Fault)}

theorem runs_execute {handler : Except Bytes Handled} {answer : Option Answer}
    (kept : running.lost = false) (isCause : invoke handler = some cause)
    (runs : (config.execute running false readings handler).Runs moments answer) :
    ∃ result, (config.queue.transition running.job (afterFailure readings running.job cause)
      (some (config.failure running readings cause)) readings.later .ended).Runs moments result ∧
      answer = some (.job result) := by
  unfold PoolConfig.execute at runs
  rw [kept, isCause] at runs
  simp only [Bool.false_eq_true, if_false] at runs
  rw [fail_eq] at runs
  obtain ⟨_, _, _, rfl, failed, logs⟩ := runs.of_bind
  obtain ⟨rfl, rfl⟩ := Program.runs_ret_iff.mp logs
  obtain ⟨result, _, _, rfl, transition, answers⟩ := failed.of_bind
  obtain ⟨rfl, rfl⟩ := Program.runs_ret_iff.mp answers
  rw [append_nil, append_nil]
  exact ⟨result, transition, rfl⟩

/-- The worker's reads and refusals are those of a store in which the row stays as it is and
that has no such attempt. -/
structure Undisturbed (running : RunningJob) (readings : Readings) (value : Bytes)
    (moments : List (Moment Store (Labelled Deed) Fault)) : Prop where
  observed : ∀ store, .observed store ∈ moments → store.get running.job.stored = some value
  refused : ∀ payload fault, .refused payload fault ∈ moments → ∃ store : Store,
    store.get running.job.stored = some value ∧ store.get (runKey running readings) = none ∧
      payload.batch.commit store = .error fault

theorem runs_transition {apply : Job → Job} {run : Option Run} {later : Time}
    {deed : TenantId → Id → Option Id → Deed} {result : Result Job}
    (holding : Holding config running value)
    (undisturbed : Undisturbed running readings value moments)
    (runs : (config.queue.transition running.job apply run later deed).Runs moments result) :
    ∃ seen rest, moments = .observed seen :: rest ∧
      match config.queue.prepare running.job apply run later value with
      | .error fault => rest = [] ∧ result = .error fault
      | .ok (_, _, _, tx) => ∃ label, rest = [.committed ⟨tx, label⟩] ∨
          ∃ fault late, rest = .refused ⟨tx, label⟩ fault :: late := by
  unfold Queue.transition at runs
  dsimp only at runs
  rw [if_neg holding.tenanted, if_neg holding.stored_ne_nil] at runs
  obtain ⟨seen, rest, rfl, goesOn⟩ := runs.observe_bind
  rw [undisturbed.observed seen mem_cons_self] at goesOn
  dsimp only at goesOn
  refine ⟨seen, rest, rfl, ?_⟩
  cases prepared : config.queue.prepare running.job apply run later value with
  | error fault =>
    rw [prepared] at goesOn
    exact Program.runs_ret_iff.mp goesOn
  | ok made =>
    obtain ⟨cur, next, newKey, tx⟩ := made
    rw [prepared] at goesOn
    refine ⟨deed cur.tenant cur.jid (running.job.lease.map Lease.token), ?_⟩
    rcases goesOn.attempt_bind with ⟨late, rfl, answers⟩ | ⟨fault, late, rfl, _⟩
    · rw [(Program.runs_ret_iff.mp answers).1]
      exact .inl rfl
    · exact .inr ⟨fault, late, rfl⟩

/-- The job has left the running partition, and the attempt is recorded with it: one batch does
both, in whatever store it is committed. -/
structure Recorded (config : PoolConfig) (running : RunningJob) (readings : Readings)
    (cause : Bytes) (batch : Batch) (next : Job) (newKey : Bytes) : Prop where
  jid : next.jid = running.job.jid
  tenant : next.tenant = running.job.tenant
  attempts : next.attempts = running.job.attempts
  state : next.state = if running.job.maxAttempts ≤ running.job.attempts then .failed else .retry
  left : ∀ store, (batch.effect store).get running.job.stored = none
  moved : ∃ newValue, Stored config.queue.codec newKey newValue next ∧
    ∀ store, (batch.effect store).get newKey = some newValue
  attempt : ∃ bytes, marshalRun config.queue.codec (storedRun config running readings cause) =
    .ok bytes ∧ ∀ store, (batch.effect store).get (runKey running readings) = some bytes

theorem ne_runKey (isKey : job.key = .ok key) (running : RunningJob) (readings : Readings) :
    key ≠ runKey running readings := by
  obtain ⟨_, due, _, rfl⟩ := Job.key_eq_ok_iff.mp isKey
  intro same
  apply not_isPrefix_jobRun job.tenant running.tenant job.resolved defaultNamespace
    (unixMilli (if readings.finished.isZero then readings.later else readings.finished))
    readings.runId
  change _ <+: runKey running readings
  rw [← same, Keys.job]
  exact prefix_append _ _

theorem Holding.stored_ne (holding : Holding config running value) (isKey : next.key = .ok newKey)
    (apart : next.state.partition ≠ .running) : running.job.stored ≠ newKey := by
  obtain ⟨_, due, _, place⟩ := Job.key_eq_ok_iff.mp holding.isKey
  obtain ⟨_, newDue, _, newPlace⟩ := Job.key_eq_ok_iff.mp isKey
  rintro same
  have states := (job_inj (place.symm.trans (same.trans newPlace))).2.2.1
  apply apart
  rw [← states, holding.state]
  rfl

theorem recorded_of_text {handler : Except Bytes Handled} {answer : Option Answer}
    (writes : config.queue.codec.WritesRuns) (holding : Holding config running value)
    (kept : running.lost = false) (drawn : readings.runId ≠ Id.zero)
    (isCause : invoke handler = some cause) (isText : validUtf8 cause = true)
    (runs : (config.execute running false readings handler).Runs moments answer)
    (undisturbed : Undisturbed running readings value moments) :
    ∃ seen payload next newKey, moments = [.observed seen, .committed payload] ∧
      Recorded config running readings cause payload.batch next newKey := by
  obtain ⟨result, transition, _⟩ := runs_execute kept isCause runs
  obtain ⟨newKey, newValue, bytes, isKey, written, recorded, prepared⟩ :=
    holding.prepare_eq writes drawn isText
  obtain ⟨seen, rest, rfl, goesOn⟩ := runs_transition holding undisturbed transition
  rw [prepared] at goesOn
  obtain ⟨label, rfl | ⟨fault, late, rfl⟩⟩ := goesOn
  · have fails := fails_afterFailure readings running.job
      (running.job.settled running.job.stored) cause
    have effects := effect_failureBatch value newValue bytes
      (holding.stored_ne isKey fails.partition_ne_running)
      (ne_runKey holding.isKey running readings) (ne_runKey isKey running readings)
    let next := afterFailure readings running.job cause (running.job.settled running.job.stored)
    exact ⟨seen, _, next.settled newKey, newKey, rfl, fails.jid, fails.tenant, fails.attempts, fails.state,
      fun store => (effects store).1,
      ⟨newValue, stored_settled isKey written, fun store => (effects store).2.1⟩,
      ⟨bytes, recorded, fun store => (effects store).2.2⟩⟩
  · obtain ⟨store, found, free, refuses⟩ := undisturbed.refused _ fault
      (mem_cons_of_mem _ mem_cons_self)
    rw [Batch.commit_of_accepts (accepts_failureBatch found free)] at refuses
    cases refuses

theorem prepare_refused (notText : validUtf8 cause = false) (run : Option Run) :
    ∃ fault, config.queue.prepare running.job (afterFailure readings running.job cause) run
      readings.later value = .error fault := by
  cases prepared : config.queue.prepare running.job (afterFailure readings running.job cause) run
      readings.later value with
  | error fault => exact ⟨fault, rfl⟩
  | ok made =>
    obtain ⟨cur, next, newKey, tx⟩ := made
    obtain ⟨_, _, rfl, _, newValue, written, _⟩ := prepare_eq_ok prepared
    have isText : validUtf8 (afterFailure readings running.job cause cur).lastError = true :=
      marshal_texts written (by simp [JobRow.texts, Job.row])
    rcases (fails_afterFailure readings running.job cur cause).lastError with same | ⟨silent, _⟩
    · rw [same, notText] at isText
      cases isText
    · rw [silent] at notText
      cases notText

theorem uncommitted_of_not_text {handler : Except Bytes Handled} {answer : Option Answer}
    (holding : Holding config running value) (kept : running.lost = false)
    (isCause : invoke handler = some cause) (notText : validUtf8 cause = false)
    (runs : (config.execute running false readings handler).Runs moments answer)
    (undisturbed : Undisturbed running readings value moments) :
    ∃ seen, moments = [.observed seen] := by
  obtain ⟨result, transition, _⟩ := runs_execute kept isCause runs
  obtain ⟨seen, rest, rfl, goesOn⟩ := runs_transition holding undisturbed transition
  obtain ⟨fault, refused⟩ := prepare_refused notText (some (config.failure running readings cause))
  rw [refused] at goesOn
  exact ⟨seen, by rw [goesOn.1]⟩

/-- A handler fails: where its error is text, and only there, the worker reads the row once and
commits one batch, which moves the job out of the running partition and records the attempt.
Otherwise it commits nothing. -/
theorem failed_attempt_recorded (config : PoolConfig) (running : RunningJob) (readings : Readings)
    (value cause : Bytes) (handler : Except Bytes Handled)
    (moments : List (Moment Store (Labelled Deed) Fault)) (answer : Option Answer)
    (writes : config.queue.codec.WritesRuns) (holding : Holding config running value)
    (kept : running.lost = false) (drawn : readings.runId ≠ Id.zero)
    (isCause : invoke handler = some cause)
    (runs : (config.execute running false readings handler).Runs moments answer)
    (undisturbed : Undisturbed running readings value moments) :
    ((∃ seen payload next newKey, moments = [.observed seen, .committed payload] ∧
        Recorded config running readings cause payload.batch next newKey) ↔
      validUtf8 cause = true) ∧
    (validUtf8 cause = false → ∃ seen, moments = [.observed seen]) := by
  refine ⟨⟨?_, fun isText =>
    recorded_of_text writes holding kept drawn isCause isText runs undisturbed⟩, fun notText =>
      uncommitted_of_not_text holding kept isCause notText runs undisturbed⟩
  rintro ⟨seen, payload, next, newKey, isRun, _⟩
  by_contra notText
  obtain ⟨_, isOther⟩ := uncommitted_of_not_text holding kept isCause
    (Bool.eq_false_iff.mpr notText) runs undisturbed
  cases isRun.symm.trans isOther

def RunRow.blocks (row : RunRow) : List Bytes :=
  [row.jobId, row.typ, numberBlock row.attempt.toUInt64, numberBlock row.startedAtUnixMs,
    numberBlock row.finishedAtUnixMs, numberBlock row.outcome.toUInt64, row.error, row.owner,
    row.namespaceName] ++ (row.recordsProcessed.map numberBlock).toList ++
    (row.recordsChanged.map numberBlock).toList

def attemptCodec : JobCodec :=
  { blockCodec with
    marshalRun := fun row =>
      if row.texts.all validUtf8 then some (packBlocks row.blocks) else none }

theorem writesRuns_attemptCodec : attemptCodec.WritesRuns := by
  intro row
  rw [← all_eq_true]
  change (if row.texts.all validUtf8 then some (packBlocks row.blocks) else none).isSome = true ↔ _
  split <;> simp_all

def attemptPool : PoolConfig where
  queue := ⟨attemptCodec, 60000000000⟩
  listing _ := .ok [ascii "acme"]
  owner := ascii "worker"

def runningSample : RunningJob := launch
  { jid := Id.filled 1
    tenant := ascii "acme"
    typ := ascii "text.rebuild"
    state := .running
    attempts := 1
    maxAttempts := 6
    lease := some ⟨ascii "worker", 62000000000, Id.filled 2⟩
    stored := Keys.job (ascii "acme") defaultNamespace .running 62000 (Id.filled 1) }

def sampleReadings : Readings :=
  ⟨2000000000, 3000000000, 3000000000, 3000000000, 0, Id.filled 3⟩

def runningValue : Bytes := packBlocks runningSample.job.row.blocks

def runningStore : Store := OrderedMap.empty.set runningSample.job.stored runningValue

theorem holding_sample : Holding attemptPool runningSample runningValue :=
  ⟨by decide +kernel, by decide +kernel, rfl, rfl, rfl, rfl, rfl, rfl⟩

def sampleRun (handler : Except Bytes Handled) : List (Moment Store (Labelled Deed) Fault) :=
  (attemptPool.execute runningSample false sampleReadings handler).trace
    (fun payload store => payload.batch.commit store) runningStore

def Moment.leavesRow : Moment Store (Labelled Deed) Fault → Bool
  | .observed store => decide (store.get runningSample.job.stored = some runningValue)
  | .committed _ => true
  | .refused _ _ => false

theorem undisturbed_of_leavesRow (leaves : moments.all Moment.leavesRow = true) :
    Undisturbed runningSample sampleReadings runningValue moments where
  observed store listed := of_decide_eq_true (all_eq_true.mp leaves _ listed)
  refused payload fault listed := by
    have refuses := all_eq_true.mp leaves _ listed
    cases refuses

/-- A handler panics with `boom`. -/
theorem failed_attempt_recorded_panic : ∃ seen payload next newKey,
    sampleRun (.ok (.panicked (ascii "boom"))) = [.observed seen, .committed payload] ∧
      Recorded attemptPool runningSample sampleReadings (ascii "the handler panicked: boom")
        payload.batch next newKey :=
  (failed_attempt_recorded attemptPool runningSample sampleReadings runningValue
    (ascii "the handler panicked: boom") (.ok (.panicked (ascii "boom"))) _ _
    writesRuns_attemptCodec holding_sample rfl (by decide) (by decide)
    (Program.runs_alone _ _ runningStore) (undisturbed_of_leavesRow (by decide +kernel))).1.mpr
    (by decide +kernel)

/-- The error is one byte that is not UTF-8: nothing is committed, and the job stays where it
is. -/
theorem failed_attempt_unrecorded : ∃ (config : PoolConfig) (running : RunningJob)
    (readings : Readings) (value : Bytes) (handler : Except Bytes Handled)
    (moments : List (Moment Store (Labelled Deed) Fault)) (answer : Option Answer),
    config.queue.codec.WritesRuns ∧ Holding config running value ∧ running.lost = false ∧
      readings.runId ≠ Id.zero ∧ invoke handler ≠ none ∧
      (config.execute running false readings handler).Runs moments answer ∧
      Undisturbed running readings value moments ∧
      ∀ payload, .committed payload ∉ moments := by
  let handler : Except Bytes Handled := .ok (.failed [0xFF])
  have runs : (attemptPool.execute runningSample false sampleReadings handler).Runs
      (sampleRun handler) _ := Program.runs_alone _ _ runningStore
  have undisturbed : Undisturbed runningSample sampleReadings runningValue (sampleRun handler) :=
    undisturbed_of_leavesRow (by decide +kernel)
  refine ⟨attemptPool, runningSample, sampleReadings, runningValue, handler, sampleRun handler, _,
    writesRuns_attemptCodec, holding_sample, rfl, by decide, nofun, runs, undisturbed, ?_⟩
  obtain ⟨seen, isRun⟩ := uncommitted_of_not_text holding_sample rfl rfl (by decide) runs
    undisturbed
  rw [isRun]
  simp

end Remem.Jobs
