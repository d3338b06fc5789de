import Remem.Jobs.Lookups
import Remem.Jobs.Pauses

/-!
# Recurring jobs and repairs

A tick of the scheduler goes through the recurring types that are due and, for each, through the
tenants: where no job of the type is outstanding it submits one. A repair asked for by a search
checks and submits likewise, on its own. The calls a tick makes are parameters, in any monad, so
that a tick is both a program over the store and a walk over given answers.
-/

namespace Remem.Jobs

open Base Keys Storage

/-- `Entry` of a recurring type. -/
structure Recurring where
  typ : Bytes
  every : Int
  maxAttempts : UInt32
  priority : Int8
  deriving DecidableEq

/-- When each type is due next: `next`, a map that starts empty. -/
abbrev DueTimes := Bytes → Option Time

def waits (due : Option Time) (now : Time) : Bool :=
  match due with
  | none => false
  | some due => now < due

def advance (due : Option Time) (now : Time) (every : Int) : Time :=
  match due with
  | none => now + every
  | some due => if due + every < now then now + every else due + every

def Recurring.job (entry : Recurring) (now : Time) (tenant : TenantId) : Job where
  jid := Id.zero
  tenant
  namespaceName := defaultNamespace
  typ := entry.typ
  maxAttempts := entry.maxAttempts
  priority := entry.priority
  runAt := now

section Tick

variable {m : Type → Type} [Monad m] (hasOutstanding : TenantId → Bytes → m (Result Bool))
  (submitUnlessPaused : Job → m (Result Bool)) (now : Time)

def visitTenant (entry : Recurring) (tenant : TenantId) : m (Result Bool) := do
  match ← hasOutstanding tenant entry.typ with
  | .error fault => return .error fault
  | .ok true => return .ok false
  | .ok false => submitUnlessPaused (entry.job now tenant)

/-- `ForEach` of the directory with what a tick does, up to the first error. -/
def fanOut (entry : Recurring) : List TenantId → (enqueued : Nat) → m (Nat × Option Fault)
  | [], enqueued => return (enqueued, none)
  | tenant :: rest, enqueued => do
      match ← visitTenant hasOutstanding submitUnlessPaused now entry tenant with
      | .error fault => return (enqueued, some fault)
      | .ok queued => fanOut entry rest (if queued then enqueued + 1 else enqueued)

/-- `Tick`, over the types that are left: the due times, how many jobs were written, and the
error that ended it. -/
def tick (tenants : List TenantId) :
    List Recurring → DueTimes → (enqueued : Nat) → m (DueTimes × Nat × Option Fault)
  | [], next, enqueued => return (next, enqueued, none)
  | entry :: rest, next, enqueued =>
    if waits (next entry.typ) now then tick tenants rest next enqueued
    else do
      let next := Function.update next entry.typ (some (advance (next entry.typ) now entry.every))
      match ← fanOut hasOutstanding submitUnlessPaused now entry tenants enqueued with
      | (enqueued, some fault) => return (next, enqueued, some fault)
      | (enqueued, none) => tick tenants rest next enqueued

end Tick

def repairJob (tenant : TenantId) (typ : Bytes) : Job where
  jid := Id.zero
  tenant
  namespaceName := defaultNamespace
  typ
  maxAttempts := 2

/-- The goroutine of `repairs.schedule`, once it is past the gate in memory. -/
def Queue.repair (queue : Queue) (tenant : TenantId) (typ : Bytes) (now : Time) (drawn : Id) :
    QueueProgram (Result Bool) := do
  match ← queue.hasOutstanding tenant typ with
  | .error fault => return .error fault
  | .ok true => return .ok false
  | .ok false =>
    let answer ← queue.submit now (repairJob tenant typ) drawn
    match answer.fault with
    | some fault => return .error fault
    | none => return .ok true

inductive RepairCall where
  | repair (tenant : TenantId) (typ : Bytes) (now : Time) (drawn : Id)
  | tick (now : Time) (recurring : List Recurring) (tenants : List TenantId) (next : DueTimes)
      (draws : TenantId → Bytes → PauseCodec.Readings × Id)
  | work (call : Call)

inductive RepairAnswer where
  | repaired (result : Result Bool)
  | ticked (next : DueTimes) (enqueued : Nat) (fault : Option Fault)
  | worked (answer : Answer)

inductive RepairDeed where
  | submitted (tenant : TenantId) (typ : Bytes)
  | worked (deed : Deed)
  deriving DecidableEq

namespace RepairCall

def body (codec : PauseCodec) (queue : Queue) : RepairCall → StoreProgram RepairDeed RepairAnswer
  | repair tenant typ now drawn => do
      return .repaired (← (queue.repair tenant typ now drawn).mapBatch fun payload =>
        ⟨payload.batch, .submitted tenant typ⟩)
  | tick now recurring tenants next draws => do
      let (next, enqueued, fault) ← Jobs.tick
        (fun tenant typ => (queue.hasOutstanding tenant typ).mapBatch fun payload =>
          ⟨payload.batch, .worked payload.label⟩)
        (fun job => (codec.submitUnlessPaused queue (draws job.tenant job.typ).1 job
          (draws job.tenant job.typ).2).mapBatch fun payload =>
            ⟨payload.batch, .submitted job.tenant job.typ⟩)
        now tenants recurring next 0
      return .ticked next enqueued fault
  | work call => do
      return .worked (← (call.body queue).mapBatch fun payload =>
        ⟨payload.batch, .worked payload.label⟩)

def Legal : RepairCall → Prop
  | work (.complete _ _ held _) => held.lease ≠ none
  | work (.fail _ _ _ held _ _) => held.lease ≠ none
  | work (.release _ held) => held.lease ≠ none
  | work call => call.submitted = []
  | _ => True

end RepairCall

/-- Any number of repairs, ticks and workers on one store. -/
def Queue.repairSystem (queue : Queue) (codec : PauseCodec) :
    System RepairCall Store (Labelled RepairDeed) Fault RepairAnswer where
  apply payload store := payload.batch.commit store
  body := RepairCall.body codec queue
  legal := RepairCall.Legal
  distinct _ _ := True
  distinct_symm _ _ _ := trivial

end Remem.Jobs
