import Remem.Keys.Parse
import Remem.Time
import Remem.Base.Utf8

/-!
# Jobs

One unit of background work, its checks, and the key its row lives at.
-/

namespace Remem.Jobs

open Base Keys

/-- `State`: any byte can be stored, the named ones are in use. -/
structure State where
  code : UInt8
  deriving DecidableEq, Repr

namespace State

def unset : State := ⟨0⟩
def pending : State := ⟨1⟩
def running : State := ⟨2⟩
def retry : State := ⟨3⟩
def completed : State := ⟨4⟩
def failed : State := ⟨5⟩
def cancelled : State := ⟨6⟩

/-- `stateNames`. -/
def names : List (State × String) :=
  [(pending, "pending"), (running, "running"), (retry, "retry"),
   (completed, "completed"), (failed, "failed"), (cancelled, "cancelled")]

/-- Whether `stateNames` names the state. -/
def known (state : State) : Bool := (names.lookup state).isSome

/-- `String`. -/
def name (state : State) : String := (names.lookup state).getD "unknown"

def terminal (state : State) : Bool :=
  state = completed || state = failed || state = cancelled

def partition (state : State) : JobState :=
  if state = running then .running
  else if state.terminal then .done
  else .pending

theorem partition_known (state : State) : state.partition.known = true := by
  unfold partition
  split
  · rfl
  · split <;> rfl

end State

def maxTypeLen : Nat := 64

/-- A byte that `ParseType` lets into a type name. -/
def typeByte (byte : UInt8) : Bool :=
  (97 ≤ byte && byte ≤ 122) || (48 ≤ byte && byte ≤ 57) || byte = 95 || byte = 46

def parseType (name : Bytes) : Result Bytes :=
  let op := "jobs.ParseType"
  if name = [] then .error ⟨.invalid, op, "a job type must not be empty", []⟩
  else if maxTypeLen < name.length then
    .error ⟨.invalid, op, "job type %q is %d bytes, the limit is %d",
      [.bytes name, .number name.length, .number maxTypeLen]⟩
  else match name.find? fun byte => !typeByte byte with
    | some byte =>
      .error ⟨.invalid, op, "job type %q contains %q; only [a-z0-9_.] is allowed",
        [.bytes name, .bytes (runeBytes byte)]⟩
    | none => .ok name

def maxPayloadBytes : Nat := 65536

def defaultMaxAttempts : UInt32 := 6

structure Lease where
  owner : Bytes
  expiresAt : Time
  token : Id
  deriving DecidableEq, Repr

/-- `Job`. `stored` is the key it was last read from or written at, empty for a job that
has never been written. -/
structure Job where
  jid : Id
  tenant : TenantId
  namespaceName : Namespace := []
  typ : Bytes
  payload : Bytes := []
  state : State := .unset
  attempts : UInt32 := 0
  maxAttempts : UInt32 := 0
  runAt : Time := .zero
  lease : Option Lease := none
  checkpoint : Bytes := []
  lastError : Bytes := []
  priority : Int8 := 0
  createdAt : Time := .zero
  updatedAt : Time := .zero
  stored : Bytes := []
  deriving DecidableEq, Repr

def unixMilli (time : Time) : UInt64 := time.toUnixMs

def fromUnixMilli (milliseconds : UInt64) : Time := .ofUnixMs milliseconds

namespace Job

/-- `namespace`. -/
def resolved (job : Job) : Namespace :=
  if job.namespaceName = [] then defaultNamespace else job.namespaceName

/-- `Key`: where the row of the job lives, given its state. -/
def key (job : Job) : Result Bytes :=
  let op := "jobs.Job.Key"
  if job.tenant = [] then
    .error ⟨.invalid, op, "a job key requires a tenant (Invariant 1)", []⟩
  else
    let part := job.state.partition
    let dueAt (due : Time) : Bytes :=
      Keys.job job.tenant job.resolved part (Jobs.unixMilli due) job.jid
    if part = .running then
      match job.lease with
      | none =>
        .error ⟨.invalid, op,
          "a running job has no lease, so there is no expiry to order it by", []⟩
      | some lease => .ok (dueAt lease.expiresAt)
    else if part = .done then .ok (dueAt job.updatedAt)
    else .ok (dueAt job.runAt)

def validate (job : Job) : Result Unit :=
  let op := "jobs.Job.Validate"
  if job.jid = Id.zero then .error ⟨.invalid, op, "a job needs an id", []⟩
  else if job.tenant = [] || !validIdentifier job.tenant then
    .error ⟨.invalid, op, "tenant %q is not a valid tenant id", [.bytes job.tenant]⟩
  else if !validIdentifier job.resolved then
    .error ⟨.invalid, op, "namespace %q is malformed", [.bytes job.resolved]⟩
  else match parseType job.typ with
    | .error fault => .error fault
    | .ok _ =>
      if !job.state.known then
        .error ⟨.invalid, op, "state %d is not a job state", [.number job.state.code.toNat]⟩
      else if maxPayloadBytes < job.payload.length then
        .error ⟨.invalid, op,
          "payload is %d bytes, the limit is %d; a payload is a reference to work, not the work",
          [.number job.payload.length, .number maxPayloadBytes]⟩
      else .ok ()

end Job

theorem unixMilli_fromUnixMilli (time : Time) :
    unixMilli (fromUnixMilli (unixMilli time)) = unixMilli time :=
  Time.toUnixMs_ofUnixMs time.toUnixMs_lt

def Job.due (job : Job) : Option Time :=
  if job.state.partition = .running then job.lease.map Lease.expiresAt
  else if job.state.partition = .done then some job.updatedAt
  else some job.runAt

theorem Job.key_eq_ok_iff {job : Job} {key : Bytes} :
    job.key = .ok key ↔ job.tenant ≠ [] ∧ ∃ due, job.due = some due ∧
      key = Keys.job job.tenant job.resolved job.state.partition (Jobs.unixMilli due) job.jid := by
  unfold Job.key Job.due
  by_cases tenanted : job.tenant = []
  · simp [tenanted]
  simp only [tenanted, if_false]
  split
  · cases job.lease with
    | none => simp
    | some lease => simp [tenanted, eq_comm]
  · split <;> simp [tenanted, eq_comm]

end Remem.Jobs
