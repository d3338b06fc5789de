import Remem.Jobs.Job
import Remem.Base.Blocks

/-!
# The stored form of jobs

A job's row is protobuf. The tenant and the id are in the key only, and a row whose key
and body disagree is refused. The protobuf encoding is a parameter that is known to
refuse text that is not UTF-8, and nothing else, and to read back what it wrote.
-/

namespace Remem.Jobs

open Base Keys

/-- `pb.Lease`. -/
structure LeaseRow where
  owner : Bytes
  expiresAtUnixMs : UInt64
  token : Bytes
  deriving DecidableEq

/-- `pb.Job`. -/
structure JobRow where
  typ : Bytes
  payload : Bytes
  state : UInt32
  attempts : UInt32
  maxAttempts : UInt32
  runAtUnixMs : UInt64
  lease : Option LeaseRow
  checkpoint : Bytes
  lastError : Bytes
  priority : Int32
  createdAtUnixMs : UInt64
  updatedAtUnixMs : UInt64
  namespaceName : Bytes
  deriving DecidableEq

def JobRow.texts (row : JobRow) : List Bytes :=
  [row.typ, row.lastError, row.namespaceName] ++ (row.lease.map LeaseRow.owner).toList

/-- `pb.Run`. -/
structure RunRow where
  jobId : Bytes
  typ : Bytes
  attempt : UInt32
  startedAtUnixMs : UInt64
  finishedAtUnixMs : UInt64
  outcome : UInt32
  error : Bytes
  owner : Bytes
  namespaceName : Bytes
  recordsProcessed : Option UInt64
  recordsChanged : Option UInt64

structure JobCodec where
  marshal : JobRow → Option Bytes
  unmarshal : Bytes → Option JobRow
  marshalRun : RunRow → Option Bytes
  marshals : ∀ row, (marshal row).isSome = true ↔ ∀ text ∈ row.texts, validUtf8 text = true
  unmarshal_marshal : ∀ row bytes, marshal row = some bytes → unmarshal bytes = some row

def JobRow.blocks (row : JobRow) : List Bytes :=
  [row.typ, row.payload, numberBlock row.state.toUInt64, numberBlock row.attempts.toUInt64,
    numberBlock row.maxAttempts.toUInt64, numberBlock row.runAtUnixMs, row.checkpoint,
    row.lastError, numberBlock row.priority.toUInt32.toUInt64, numberBlock row.createdAtUnixMs,
    numberBlock row.updatedAtUnixMs, row.namespaceName] ++
  match row.lease with
  | none => []
  | some lease => [lease.owner, numberBlock lease.expiresAtUnixMs, lease.token]

def JobRow.ofBlocks : List Bytes → Option JobRow
  | typ :: payload :: state :: attempts :: maxAttempts :: runAt :: checkpoint :: lastError ::
      priority :: createdAt :: updatedAt :: namespaceName :: lease =>
      some {
        typ, payload, checkpoint, lastError, namespaceName
        state := (ofNumberBlock state).toUInt32
        attempts := (ofNumberBlock attempts).toUInt32
        maxAttempts := (ofNumberBlock maxAttempts).toUInt32
        runAtUnixMs := ofNumberBlock runAt
        lease := match lease with
          | [owner, expiresAt, token] => some ⟨owner, ofNumberBlock expiresAt, token⟩
          | _ => none
        priority := (ofNumberBlock priority).toUInt32.toInt32
        createdAtUnixMs := ofNumberBlock createdAt
        updatedAtUnixMs := ofNumberBlock updatedAt }
  | _ => none

theorem JobRow.ofBlocks_blocks (row : JobRow) : JobRow.ofBlocks row.blocks = some row := by
  obtain ⟨_, _, _, _, _, _, lease, _, _, _, _, _, _⟩ := row
  cases lease <;> simp [blocks, ofBlocks]

/-- A plain encoding, for evaluating the model; it writes no attempts. -/
def blockCodec : JobCodec where
  marshal row := if row.texts.all validUtf8 then some (packBlocks row.blocks) else none
  unmarshal bytes := (unpackBlocks bytes).bind JobRow.ofBlocks
  marshalRun _ := none
  marshals row := by
    rw [← List.all_eq_true]
    split <;> simp_all
  unmarshal_marshal row bytes marshalled := by
    split at marshalled
    · cases marshalled
      rw [unpackBlocks_packBlocks, Option.bind_some, JobRow.ofBlocks_blocks]
    · cases marshalled

/-- `Run`: one execution attempt. -/
structure Run where
  rid : Id
  jobId : Id
  tenant : TenantId
  namespaceName : Namespace
  typ : Bytes
  attempt : UInt32
  startedAt : Time
  finishedAt : Time
  outcome : State
  error : Bytes
  owner : Bytes
  recordsProcessed : Option UInt64 := none
  recordsChanged : Option UInt64 := none

def Lease.row (lease : Lease) : LeaseRow :=
  ⟨lease.owner, unixMilli lease.expiresAt, lease.token.bytes⟩

def Job.row (job : Job) : JobRow where
  typ := job.typ
  payload := job.payload
  state := job.state.code.toUInt32
  attempts := job.attempts
  maxAttempts := job.maxAttempts
  runAtUnixMs := unixMilli job.runAt
  lease := job.lease.map Lease.row
  checkpoint := job.checkpoint
  lastError := job.lastError
  priority := job.priority.toInt32
  createdAtUnixMs := unixMilli job.createdAt
  updatedAtUnixMs := unixMilli job.updatedAt
  namespaceName := job.resolved

section

variable (codec : JobCodec)

def marshal (job : Job) : Result Bytes :=
  match job.validate with
  | .error fault => .error fault
  | .ok () =>
    match codec.marshal job.row with
    | none => .error ⟨.invalid, "jobs.Marshal", "encoding the job: %w", []⟩
    | some bytes => .ok bytes

def readLease (jid : Id) : Option LeaseRow → Result (Option Lease)
  | none => .ok none
  | some row =>
    match Id.fromBytes row.token with
    | .error _ =>
      .error ⟨.corruption, "jobs.Unmarshal",
        "the lease on job %s holds a malformed fencing token", [.bytes jid.bytes]⟩
    | .ok token => .ok (some ⟨row.owner, fromUnixMilli row.expiresAtUnixMs, token⟩)

def jobOfRow (key : Bytes) (parsed : JobKey) (row : JobRow) (lease : Option Lease) : Job where
  jid := parsed.jid
  tenant := parsed.tenant
  namespaceName := if row.namespaceName = [] then parsed.namespaceName else row.namespaceName
  typ := row.typ
  payload := row.payload
  state := ⟨row.state.toUInt8⟩
  attempts := row.attempts
  maxAttempts := row.maxAttempts
  runAt := fromUnixMilli row.runAtUnixMs
  lease := lease
  checkpoint := row.checkpoint
  lastError := row.lastError
  priority := row.priority.toInt8
  createdAt := fromUnixMilli row.createdAtUnixMs
  updatedAt := fromUnixMilli row.updatedAtUnixMs
  stored := key

/-- The checks `Unmarshal` makes of a decoded job against its key. -/
def checkPlace (key : Bytes) (parsed : JobKey) (job : Job) : Result Job :=
  let op := "jobs.Unmarshal"
  if job.state.partition ≠ parsed.state then
    .error ⟨.corruption, op, "job %s is stored in the %s partition but its row says %s",
      [.bytes job.jid.bytes, .number parsed.state.byte.toNat, .word job.state.name]⟩
  else match job.key with
    | .error _ =>
      .error ⟨.corruption, op, "job %s cannot say where it belongs: %w", [.bytes job.jid.bytes]⟩
    | .ok want =>
      if want ≠ key then
        .error ⟨.corruption, op, "job %s is stored due at %d but its row puts it elsewhere",
          [.bytes job.jid.bytes, .number parsed.dueUnixMs.toNat]⟩
      else .ok job

def unmarshal (key value : Bytes) : Result Job :=
  match parseJob key with
  | .error fault => .error fault
  | .ok parsed =>
    match codec.unmarshal value with
    | none =>
      .error ⟨.corruption, "jobs.Unmarshal", "the job row at %x does not decode: %w", [.bytes key]⟩
    | some row =>
      match readLease parsed.jid row.lease with
      | .error fault => .error fault
      | .ok lease => checkPlace key parsed (jobOfRow key parsed row lease)

def marshalRun (run : Run) : Result Bytes :=
  match parseType run.typ with
  | .error fault => .error fault
  | .ok _ =>
    if !run.outcome.known then
      .error ⟨.invalid, "jobs.marshalRun", "attempt outcome %d is not a job state",
        [.number run.outcome.code.toNat]⟩
    else
      match codec.marshalRun ⟨run.jobId.bytes, run.typ, run.attempt, unixMilli run.startedAt,
          unixMilli run.finishedAt, run.outcome.code.toUInt32, run.error, run.owner,
          run.namespaceName, run.recordsProcessed, run.recordsChanged⟩ with
      | none => .error ⟨.invalid, "jobs.marshalRun", "encoding the attempt: %w", []⟩
      | some bytes => .ok bytes

end

def settleTime (time : Time) : Time := fromUnixMilli (unixMilli time)

/-- What a job becomes once it is stored: its instants are whole milliseconds. -/
def Job.settled (job : Job) (key : Bytes) : Job :=
  { job with
    namespaceName := job.resolved
    runAt := settleTime job.runAt
    lease := job.lease.map fun lease => { lease with expiresAt := settleTime lease.expiresAt }
    createdAt := settleTime job.createdAt
    updatedAt := settleTime job.updatedAt
    stored := key }

variable {codec : JobCodec} {job : Job} {key value : Bytes}

theorem unmarshal_corrupt {fault : Fault}
    (refused : unmarshal codec key value = .error fault) : fault.kind = .corruption := by
  unfold unmarshal at refused
  split at refused
  · next fault isFault =>
    cases refused
    exact parseJob_corrupt isFault
  split at refused
  · cases refused
    rfl
  split at refused
  · next isFault =>
    cases refused
    unfold readLease at isFault
    split at isFault
    · cases isFault
    · split at isFault <;> cases isFault
      rfl
  unfold checkPlace at refused
  split at refused
  · cases refused
    rfl
  split at refused
  · cases refused
    rfl
  · split at refused <;> cases refused
    rfl

theorem resolved_ne_nil (job : Job) : job.resolved ≠ [] := by
  unfold Job.resolved
  split
  · decide
  · assumption

theorem settled_resolved (job : Job) (key : Bytes) : (job.settled key).resolved = job.resolved :=
  if_neg (resolved_ne_nil job)

@[simp]
theorem unixMilli_settleTime (time : Time) : unixMilli (settleTime time) = unixMilli time :=
  unixMilli_fromUnixMilli time

theorem settled_row (job : Job) (key : Bytes) : (job.settled key).row = job.row := by
  unfold Job.row
  rw [settled_resolved]
  cases lease : job.lease <;> simp [Job.settled, Lease.row, lease]

theorem settled_validate (job : Job) (key : Bytes) : (job.settled key).validate = job.validate := by
  unfold Job.validate
  rw [settled_resolved]
  rfl

theorem settled_marshal (codec : JobCodec) (job : Job) (key : Bytes) :
    marshal codec (job.settled key) = marshal codec job := by
  rw [marshal, marshal, settled_row, settled_validate]

theorem settled_key (isKey : job.key = .ok key) : (job.settled key).key = .ok key := by
  rw [Job.key_eq_ok_iff] at isKey ⊢
  obtain ⟨tenanted, due, isDue, place⟩ := isKey
  refine ⟨tenanted, settleTime due, ?_, ?_⟩
  · unfold Job.due at isDue ⊢
    change (if job.state.partition = .running then _ else
      if job.state.partition = .done then _ else _) = _
    split
    · next running =>
      rw [if_pos running, Option.map_eq_some_iff] at isDue
      obtain ⟨lease, held, rfl⟩ := isDue
      simp [Job.settled, held]
    next notRunning =>
    rw [if_neg notRunning] at isDue
    split
    · next done =>
      rw [if_pos done] at isDue
      cases isDue
      rfl
    next notDone =>
    rw [if_neg notDone] at isDue
    cases isDue
    rfl
  · rw [settled_resolved, unixMilli_settleTime]
    exact place

/-- What `Validate` has checked. -/
structure Job.Valid (job : Job) : Prop where
  jid : job.jid ≠ Id.zero
  tenant : validIdentifier job.tenant = true
  namespaceName : validIdentifier job.resolved = true
  typ : parseType job.typ = .ok job.typ
  state : job.state.known = true
  payload : job.payload.length ≤ maxPayloadBytes

theorem parseType_eq {name : Bytes} {parsed : Bytes} (accepted : parseType name = .ok parsed) :
    parsed = name := by
  unfold parseType at accepted
  dsimp only at accepted
  split at accepted
  · cases accepted
  split at accepted
  · cases accepted
  split at accepted
  · cases accepted
  · cases accepted
    rfl

theorem validate_eq_ok_iff : job.validate = .ok () ↔ job.Valid := by
  constructor
  · intro accepted
    unfold Job.validate at accepted
    dsimp only at accepted
    split at accepted
    · cases accepted
    next identified =>
    split at accepted
    · cases accepted
    next tenanted =>
    split at accepted
    · cases accepted
    next named =>
    split at accepted
    · cases accepted
    next parsed typed =>
    split at accepted
    · cases accepted
    next known =>
    split at accepted
    · cases accepted
    next small =>
    simp only [Bool.or_eq_true, decide_eq_true_eq, Bool.not_eq_true',
      not_or, Bool.not_eq_false] at tenanted named known
    rw [parseType_eq typed] at typed
    exact ⟨identified, tenanted.2, named, typed, known, not_lt.mp small⟩
  · rintro ⟨identified, tenant, named, typed, known, small⟩
    have tenanted : job.tenant ≠ [] := by
      rintro empty
      rw [empty] at tenant
      cases tenant
    simp [Job.validate, identified, tenant, named, typed, known, not_lt.mpr small, tenanted]

theorem marshal_eq_ok_iff : marshal codec job = .ok value ↔
    job.Valid ∧ codec.marshal job.row = some value := by
  unfold marshal
  rw [← validate_eq_ok_iff]
  cases job.validate with
  | error fault => simp
  | ok _ => cases codec.marshal job.row <;> simp

theorem readLease_row (job : Job) (key : Bytes) :
    readLease job.jid job.row.lease = .ok (job.settled key).lease := by
  unfold Job.row Job.settled
  cases job.lease with
  | none => rfl
  | some lease => simp [readLease, Lease.row, fromBytes_bytes, settleTime]

/-- A row that was written for a job and reads back as it. -/
structure Stored (codec : JobCodec) (key value : Bytes) (job : Job) : Prop where
  read : unmarshal codec key value = .ok job
  written : marshal codec job = .ok value

theorem stored_settled (isKey : job.key = .ok key) (written : marshal codec job = .ok value) :
    Stored codec key value (job.settled key) := by
  refine ⟨?_, by rw [settled_marshal, written]⟩
  obtain ⟨valid, bytes⟩ := marshal_eq_ok_iff.mp written
  obtain ⟨_, due, _, place⟩ := Job.key_eq_ok_iff.mp isKey
  have parsed : parseJob key = .ok ⟨job.tenant, job.resolved, job.state.partition,
      unixMilli due, job.jid⟩ := by
    rw [place]
    exact parseJob_job (length_of_validIdentifier valid.tenant)
      (length_of_validIdentifier valid.namespaceName) (State.partition_known _) _ _
  have decoded : jobOfRow key
      ⟨job.tenant, job.resolved, job.state.partition, unixMilli due, job.jid⟩
      job.row (job.settled key).lease = job.settled key := by
    simp [jobOfRow, Job.settled, Job.row, settleTime, resolved_ne_nil]
  unfold unmarshal
  rw [parsed]
  dsimp only
  rw [codec.unmarshal_marshal _ _ bytes]
  dsimp only
  rw [readLease_row job key]
  dsimp only
  rw [decoded, checkPlace, if_neg (by simp [Job.settled]), settled_key isKey]
  simp

theorem unmarshal_place (read : unmarshal codec key value = .ok job) :
    job.key = .ok key ∧ job.stored = key := by
  unfold unmarshal at read
  split at read
  · cases read
  split at read
  · cases read
  split at read
  · cases read
  unfold checkPlace at read
  dsimp only at read
  split at read
  · cases read
  split at read
  · cases read
  next want isWant =>
  split at read
  · cases read
  next same =>
  cases read
  rw [not_not] at same
  exact ⟨same ▸ isWant, rfl⟩

theorem parseJob_of_unmarshal (read : unmarshal codec key value = .ok job) :
    ∃ parsed, parseJob key = .ok parsed ∧ parsed.jid = job.jid := by
  unfold unmarshal at read
  split at read
  · cases read
  next parsed isParsed =>
  refine ⟨parsed, isParsed, ?_⟩
  split at read
  · cases read
  split at read
  · cases read
  unfold checkPlace at read
  dsimp only at read
  split at read
  · cases read
  split at read
  · cases read
  split at read
  · cases read
  · cases read
    rfl

end Remem.Jobs
