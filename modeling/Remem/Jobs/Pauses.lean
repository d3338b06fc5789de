import Remem.Base.Performing
import Remem.Jobs.Admission
import Remem.Keys.Reading

/-!
# Pauses of the schedule

An operator's pause of one type in one tenant is a row with an expiry. The scheduler's enqueue
reads the row and turns what it found, that there is none or that it has expired, into a
condition of its commit. The per-tenant gate is not modelled; clock readings and drawn ids are
arguments, and the protobuf encoding of a row is a parameter.
-/

namespace Remem.Jobs

open Base Keys Storage Program

/-- `MaxPauseDuration`, in nanoseconds. -/
def maxPauseDuration : Int := 7 * 24 * 3600 * 1000000000

structure Pause where
  tenant : TenantId
  namespaceName : Namespace := defaultNamespace
  typ : Bytes
  expiresAt : Time
  setBy : Bytes := []
  setAt : Time
  deriving DecidableEq

def Pause.active (pause : Pause) (now : Time) : Bool := now < pause.expiresAt

/-- `pb.Pause`. -/
structure PauseRow where
  typ : Bytes
  expiresAtUnixMs : UInt64
  setBy : Bytes
  setAtUnixMs : UInt64
  deriving DecidableEq

structure PauseCodec where
  marshal : PauseRow → Option Bytes
  unmarshal : Bytes → Option PauseRow
  unmarshal_marshal : ∀ row bytes, marshal row = some bytes → unmarshal bytes = some row

inductive PauseDeed where
  | scheduled (tenant : TenantId) (jid : Id)
  | paused (tenant : TenantId) (typ : Bytes)
  | resumed (tenant : TenantId) (typ : Bytes)
  | reaped (keys : List Bytes)
  deriving DecidableEq

abbrev PauseProgram := StoreProgram PauseDeed

def pauseKey (op : String) (tenant : TenantId) (typ : Bytes) : Result Bytes :=
  if tenant = [] || !validIdentifier tenant then
    .error ⟨.invalid, op,
      "tenant %q is not a valid tenant id; a pause is per tenant (Invariant 1)", [.bytes tenant]⟩
  else match parseType typ with
    | .error fault => .error fault
    | .ok _ => .ok (jobPause tenant defaultNamespace typ)

namespace PauseCodec

variable (codec : PauseCodec)

def marshalPause (pause : Pause) : Result Bytes :=
  match codec.marshal
      ⟨pause.typ, unixMilli pause.expiresAt, pause.setBy, unixMilli pause.setAt⟩ with
  | none => .error ⟨.invalid, "jobs.marshalPause", "encoding the pause: %w", []⟩
  | some bytes => .ok bytes

def unmarshalPause (key value : Bytes) : Result Pause :=
  let op := "jobs.unmarshalPause"
  match parseJobPause key with
  | .error fault => .error fault
  | .ok ⟨tenant, namespaceName, typ⟩ =>
    match codec.unmarshal value with
    | none => .error ⟨.corruption, op, "the pause row at %x does not decode: %w", [.bytes key]⟩
    | some row =>
      if row.typ ≠ typ then
        .error ⟨.corruption, op, "the pause stored under %s says it pauses %s",
          [.bytes typ, .bytes row.typ]⟩
      else .ok
        { tenant, namespaceName, typ
          expiresAt := fromUnixMilli row.expiresAtUnixMs
          setBy := row.setBy
          setAt := fromUnixMilli row.setAtUnixMs }

/-- `Pause` of the queue. -/
def pause (now : Time) (tenant : TenantId) (typ : Bytes) (expiry : Time) (setBy : Bytes) :
    PauseProgram (Result Pause) :=
  let op := "jobs.Pause"
  match pauseKey op tenant typ with
  | .error fault => .ret (.error fault)
  | .ok key =>
    if expiry.isZero then
      .ret (.error ⟨.invalid, op, "a pause needs an expiry: a suppression that never lifts " ++
        "outlives the memory of setting it", []⟩)
    else if ¬ now < expiry then
      .ret (.error ⟨.invalid, op, "the pause expiry %s is not in the future; it is now %s",
        [.number expiry, .number now]⟩)
    else if maxPauseDuration < expiry - now then
      .ret (.error ⟨.invalid, op,
        "the pause would last %s, and the longest this server supports is %s; " ++
          "to stop this work for longer, turn its subsystem off in configuration",
        [.number (roundSecond (expiry.sub now)), .number maxPauseDuration]⟩)
    else
      let pause : Pause := { tenant, typ, expiresAt := expiry, setBy, setAt := now }
      match codec.marshalPause pause with
      | .error fault => .ret (.error fault)
      | .ok value => do
          match ← Program.attempt ⟨({} : Batch).set key value, .paused tenant typ⟩ with
          | .error fault => return .error fault
          | .ok () => return .ok pause

def resume (tenant : TenantId) (typ : Bytes) : PauseProgram (Result Unit) :=
  match pauseKey "jobs.Resume" tenant typ with
  | .error fault => .ret (.error fault)
  | .ok key => Program.attempt ⟨({} : Batch).delete key, .resumed tenant typ⟩

def pauseOf (now : Time) (tenant : TenantId) (typ : Bytes) : PauseProgram (Result Pause) :=
  let op := "jobs.PauseOf"
  match pauseKey op tenant typ with
  | .error fault => .ret (.error fault)
  | .ok key => do
      match ← Program.observe fun store : Store => store.get key with
      | none => return .error ⟨.notFound, op, "job type %s is not paused in tenant %s",
          [.bytes typ, .bytes tenant]⟩
      | some value =>
        match codec.unmarshalPause key value with
        | .error fault => return .error fault
        | .ok pause =>
          if !pause.active now then
            return .error ⟨.notFound, op,
              "job type %s is not paused in tenant %s; its pause expired at %s",
              [.bytes typ, .bytes tenant, .number pause.expiresAt]⟩
          else return .ok pause

def pausedNow (now : Time) (tenant : TenantId) (typ : Bytes) : PauseProgram (Result Bool) := do
  match ← codec.pauseOf now tenant typ with
  | .ok _ => return .ok true
  | .error fault => if fault.kind = .notFound then return .ok false else return .error fault

/-- The loop of `ReapPauses` over the rows of the space. -/
def staleLoop (cutoff : Time) (limit : Int) :
    List (Bytes × Bytes) → List (Bytes × Bytes) → Result (List (Bytes × Bytes))
  | [], stale => .ok stale
  | (key, value) :: rest, stale =>
    if ¬ stale.length < limit then .ok stale
    else match codec.unmarshalPause key value with
      | .error fault => .error fault
      | .ok pause =>
        if pause.expiresAt < cutoff then staleLoop cutoff limit rest (stale ++ [(key, value)])
        else staleLoop cutoff limit rest stale

def reapPauses (cutoff : Time) (tenant : TenantId) (limit : Int) : PauseProgram (Result Nat) :=
  if tenant = [] then
    .ret (.error ⟨.invalid, "jobs.ReapPauses",
      "reaping requires a tenant: there is no unscoped read path (Invariant 1)", []⟩)
  else if limit ≤ 0 then .ret (.ok 0)
  else do
    match ← Program.observe fun store => codec.staleLoop cutoff limit
        (scanRange store (spaceRange tenant defaultNamespace .jobPause)) [] with
    | .error fault => return .error fault
    | .ok [] => return .ok 0
    | .ok stale =>
      let tx := stale.foldl (fun tx row => (tx.expect row.1 row.2 true).delete row.1) ({} : Batch)
      match ← Program.attempt ⟨tx, .reaped (stale.map Prod.fst)⟩ with
      | .error fault => return .error fault
      | .ok () => return .ok stale.length

/-- What a scheduled submission reads from the clock: for the pause it found, for the job it
enqueues, and for the pause it looks for after a conflict. -/
structure Readings where
  checkedAt : Time
  enqueuedAt : Time
  recheckedAt : Time
  deriving DecidableEq

def submitConditional (queue : Queue) (readings : Readings) (job : Job) (drawn : Id)
    (pause expected : Bytes) (present : Bool) : PauseProgram (Result Bool) :=
  match queue.enqueue readings.enqueuedAt drawn job (({} : Batch).expect pause expected present) with
  | .error fault => .ret (.error fault)
  | .ok (staged, tx) => do
      match ← Program.attempt ⟨tx, .scheduled staged.tenant staged.jid⟩ with
      | .ok () => return .ok true
      | .error fault =>
        if fault.kind = .conflict then
          match ← codec.pausedNow readings.recheckedAt job.tenant job.typ with
          | .ok true => return .ok false
          | _ => return .error fault
        else return .error fault

def submitUnlessPaused (queue : Queue) (readings : Readings) (job : Job) (drawn : Id) :
    PauseProgram (Result Bool) :=
  match pauseKey "jobs.SubmitUnlessPaused" job.tenant job.typ with
  | .error fault => .ret (.error fault)
  | .ok key => do
      match ← Program.observe fun store : Store => store.get key with
      | none => codec.submitConditional queue readings job drawn key [] false
      | some value =>
        match codec.unmarshalPause key value with
        | .error fault => return .error fault
        | .ok pause =>
          if pause.active readings.checkedAt then return .ok false
          else codec.submitConditional queue readings job drawn key value true

end PauseCodec

inductive PauseCall where
  | submitUnlessPaused (readings : PauseCodec.Readings) (job : Job) (drawn : Id)
  | pause (now : Time) (tenant : TenantId) (typ : Bytes) (expiry : Time) (setBy : Bytes)
  | resume (tenant : TenantId) (typ : Bytes)
  | reapPauses (cutoff : Time) (tenant : TenantId) (limit : Int)
  deriving DecidableEq

inductive PauseAnswer where
  | submitted (result : Result Bool)
  | paused (result : Result Pause)
  | resumed (result : Result Unit)
  | reaped (result : Result Nat)

def PauseCall.body (codec : PauseCodec) (queue : Queue) : PauseCall → PauseProgram PauseAnswer
  | submitUnlessPaused readings job drawn => do
      return .submitted (← codec.submitUnlessPaused queue readings job drawn)
  | pause now tenant typ expiry setBy => do
      return .paused (← codec.pause now tenant typ expiry setBy)
  | resume tenant typ => do return .resumed (← PauseCodec.resume tenant typ)
  | reapPauses cutoff tenant limit => do return .reaped (← codec.reapPauses cutoff tenant limit)

/-- Calls that pause, resume, reap and submit, any number of them side by side. -/
def PauseCodec.system (codec : PauseCodec) (queue : Queue) :
    System PauseCall Store (Labelled PauseDeed) Fault PauseAnswer where
  apply payload store := payload.batch.commit store
  body := PauseCall.body codec queue
  legal _ := True
  distinct _ _ := True
  distinct_symm _ _ _ := trivial

variable {codec : PauseCodec} {queue : Queue} {readings : PauseCodec.Readings} {job : Job}
  {drawn : Id}

/-- The batch commits only where there is no pause, or the one that was found to have
expired. -/
def Unpaused (codec : PauseCodec) (readings : PauseCodec.Readings) (job : Job) (batch : Batch) :
    Prop :=
  let key := jobPause job.tenant defaultNamespace job.typ
  ⟨key, [], false⟩ ∈ batch.conditions ∨ ∃ value pause, ⟨key, value, true⟩ ∈ batch.conditions ∧
      codec.unmarshalPause key value = .ok pause ∧ pause.active readings.checkedAt = false

def PauseCall.May (codec : PauseCodec) : PauseCall → List (Labelled PauseDeed) →
    Labelled PauseDeed → Prop
  | submitUnlessPaused readings job _, _, payload => Unpaused codec readings job payload.batch
  | _, _, _ => True

def PauseCall.Post (_ : PauseCall) (answer : PauseAnswer) (committed : List (Labelled PauseDeed)) :
    Prop :=
  answer = .submitted (.ok false) → committed = []

theorem pauseKey_eq {op : String} {tenant : TenantId} {typ key : Bytes}
    (isKey : pauseKey op tenant typ = .ok key) : key = jobPause tenant defaultNamespace typ := by
  unfold pauseKey at isKey
  split at isKey
  · cases isKey
  split at isKey
  · cases isKey
  · cases isKey
    rfl

theorem observes_pausedNow (now : Time) (tenant : TenantId) (typ : Bytes) :
    (codec.pausedNow now tenant typ).Observes (fun _ => True) (fun _ => True) := by
  have pauseOf : (codec.pauseOf now tenant typ).Observes (fun _ => True) (fun _ => True) := by
    unfold PauseCodec.pauseOf
    dsimp only
    split
    · trivial
    apply observes_observe_bind
    intro store _
    split
    · trivial
    split
    · trivial
    · split <;> trivial
  refine pauseOf.bind fun answer _ => ?_
  split
  · trivial
  · split <;> trivial

section Submissions

variable {may : List (Labelled PauseDeed) → Labelled PauseDeed → Prop}

theorem performs_submitConditional {pause expected : Bytes} {present : Bool}
    (allowed : ∀ staged tx, queue.enqueue readings.enqueuedAt drawn job
      (({} : Batch).expect pause expected present) = .ok (staged, tx) →
      may [] ⟨tx, .scheduled staged.tenant staged.jid⟩) :
    Program.Performs (fun _ => True) (fun _ => True) may
      (fun result committed => result = .ok false → committed = [])
      (codec.submitConditional queue readings job drawn pause expected present) [] := by
  unfold PauseCodec.submitConditional
  split
  · exact nofun
  next staged tx accepted =>
  apply performs_attempt_bind (allowed staged tx accepted)
  · exact nofun
  intro fault _
  dsimp only
  split
  · refine ((observes_pausedNow _ _ _).performs []).bind fun paused committed none => ?_
    split
    · exact fun _ => none.2
    · exact nofun
  · exact nofun

theorem performs_submitUnlessPaused
    (allowed : ∀ expected present staged tx, queue.enqueue readings.enqueuedAt drawn job
      (({} : Batch).expect (jobPause job.tenant defaultNamespace job.typ) expected present) =
        .ok (staged, tx) →
      Unpaused codec readings job tx → may [] ⟨tx, .scheduled staged.tenant staged.jid⟩) :
    Program.Performs (fun _ => True) (fun _ => True) may
      (fun result committed => result = .ok false → committed = [])
      (codec.submitUnlessPaused queue readings job drawn) [] := by
  have recorded : ∀ expected present staged tx, queue.enqueue readings.enqueuedAt drawn job
      (({} : Batch).expect (jobPause job.tenant defaultNamespace job.typ) expected present) =
        .ok (staged, tx) →
      ⟨jobPause job.tenant defaultNamespace job.typ, expected, present⟩ ∈ tx.conditions :=
    fun expected present staged tx accepted =>
      conditions_subset_enqueue accepted (List.mem_singleton.mpr rfl)
  unfold PauseCodec.submitUnlessPaused
  split
  · exact nofun
  next key isKey =>
  obtain rfl := pauseKey_eq isKey
  apply performs_observe_bind
  intro store _
  split
  · exact performs_submitConditional fun staged tx accepted =>
      allowed _ _ staged tx accepted (.inl (recorded _ _ staged tx accepted))
  next value _ =>
  split
  · exact nofun
  next pause read =>
  split
  · exact fun _ => rfl
  next inactive =>
  refine performs_submitConditional fun staged tx accepted =>
    allowed _ _ staged tx accepted (.inr ⟨value, pause, ?_, read, ?_⟩)
  · exact recorded _ _ staged tx accepted
  · exact Bool.eq_false_iff.mpr inactive

end Submissions

theorem performs_pauseCall (call : PauseCall) :
    (call.body codec queue).Performs (fun _ => True) (fun _ => True) (call.May codec) call.Post
      [] := by
  cases call with
  | submitUnlessPaused readings job drawn =>
    have submits : Program.Performs (fun _ => True) (fun _ => True)
        (PauseCall.May codec (.submitUnlessPaused readings job drawn))
        (fun result committed => result = .ok false → committed = [])
        (codec.submitUnlessPaused queue readings job drawn) [] :=
      performs_submitUnlessPaused fun _ _ _ _ _ unpaused => unpaused
    refine submits.bind fun result committed paused => ?_
    rintro ⟨⟩
    exact paused rfl
  | pause now tenant typ expiry setBy =>
    exact (performs_trivially _ _).bind fun _ _ _ => nofun
  | resume tenant typ => exact (performs_trivially _ _).bind fun _ _ _ => nofun
  | reapPauses cutoff tenant limit =>
    exact (performs_trivially _ _).bind fun _ _ _ => nofun

theorem Unpaused.expired {batch : Batch} (unpaused : Unpaused codec readings job batch)
    {store : Store} (accepts : batch.Accepts store) {value : Bytes} {pause : Pause}
    (found : store.get (jobPause job.tenant defaultNamespace job.typ) = some value)
    (read : codec.unmarshalPause (jobPause job.tenant defaultNamespace job.typ) value =
      .ok pause) : ¬ readings.checkedAt < pause.expiresAt := by
  rcases unpaused with absent | ⟨expected, known, present, isKnown, inactive⟩
  · have held := accepts _ absent
    rw [Condition.holds, found] at held
    cases held
  cases found.symm.trans (get_of_condition accepts present)
  cases read.symm.trans isKnown
  exact of_decide_eq_false inactive

/-- A pause stops the schedule. In every schedule of calls that pause, resume, reap and submit,
when the scheduler's submission commits its job the store has no pause of the type whose expiry
is after what the submission has read from the clock; and a submission that returns false and no
error has committed nothing. -/
theorem pause_stops_schedule (codec : PauseCodec) (queue : Queue) (initial : Store)
    (schedule : List (Action PauseCall)) :
    let world := (codec.system queue).run initial schedule
    (∀ action entry readings job drawn, (codec.system queue).committing world action = some entry →
      entry.call = .submitUnlessPaused readings job drawn →
      readings.checkedAt ≤ readings.enqueuedAt →
      ∀ value pause, world.state.get (jobPause job.tenant defaultNamespace job.typ) = some value →
        codec.unmarshalPause (jobPause job.tenant defaultNamespace job.typ) value = .ok pause →
        ¬ readings.checkedAt < pause.expiresAt ∧ ¬ readings.enqueuedAt < pause.expiresAt) ∧
    (∀ thread ∈ world.threads, ∀ readings job drawn,
      thread.call = .submitUnlessPaused readings job drawn →
      thread.program = .ret (.submitted (.ok false)) → thread.committed = []) := by
  intro world
  have performing : System.Performing (PauseCall.May codec) PauseCall.Post world :=
    @System.performing_run _ _ _ _ _ (codec.system queue) _ _ performs_pauseCall initial schedule
  refine ⟨?_, ?_⟩
  · intro action entry readings job drawn commits isCall monotone value pause found read
    obtain ⟨committed, after, may, applied⟩ := performing.committing commits
    rw [isCall] at may
    have expired := Unpaused.expired may (Batch.commit_eq_ok_iff.mp applied).1 found read
    exact ⟨expired, fun late => expired (monotone.trans_lt late)⟩
  · intro thread listed readings job drawn _ finished
    exact performing.answered listed finished rfl

def blockPauseCodec : PauseCodec where
  marshal row := some (packBlocks [row.typ, numberBlock row.expiresAtUnixMs, row.setBy,
    numberBlock row.setAtUnixMs])
  unmarshal bytes := match unpackBlocks bytes with
    | some [typ, expiresAt, setBy, setAt] =>
      some ⟨typ, ofNumberBlock expiresAt, setBy, ofNumberBlock setAt⟩
    | _ => none
  unmarshal_marshal row bytes marshalled := by
    cases marshalled
    simp

/-- The type is paused for two seconds, and the scheduler submits a job of it once the pause
has expired. -/
def expiredRun : List (Action PauseCall) :=
  [.spawn (.pause 1000000000 (ascii "acme") (ascii "text.rebuild") 3000000000 (ascii "root")),
    .act 0,
    .spawn (.submitUnlessPaused ⟨4000000000, 5000000000, 5000000000⟩ sampleJob (Id.filled 1)),
    .act 1]

/-- The submission commits at the expired row. -/
theorem pause_stops_schedule_expired :
    let queue : Queue := ⟨blockCodec, 60000000000⟩
    let system := blockPauseCodec.system queue
    let world := system.run .empty expiredRun
    let key := jobPause (ascii "acme") defaultNamespace (ascii "text.rebuild")
    ∃ entry value pause, system.committing world (.act 1) = some entry ∧
      world.state.get key = some value ∧ blockPauseCodec.unmarshalPause key value = .ok pause ∧
      ¬ (4000000000 : Time) < pause.expiresAt ∧ ¬ (5000000000 : Time) < pause.expiresAt := by
  intro queue system world key
  have commits : (system.committing world (.act 1)).map Entry.call =
      some (.submitUnlessPaused ⟨4000000000, 5000000000, 5000000000⟩ sampleJob (Id.filled 1)) := by
    decide +kernel
  have found : (do (blockPauseCodec.unmarshalPause key (← world.state.get key)).toOption) =
      some ⟨ascii "acme", defaultNamespace, ascii "text.rebuild", 3000000000, ascii "root",
        1000000000⟩ := by
    decide +kernel
  obtain ⟨entry, isEntry, isCall⟩ := Option.map_eq_some_iff.mp commits
  obtain ⟨value, isValue, read⟩ := Option.bind_eq_some_iff.mp found
  cases result : blockPauseCodec.unmarshalPause key value with
  | error fault =>
    rw [result] at read
    cases read
  | ok pause =>
    exact ⟨entry, value, pause, isEntry, isValue, result, (pause_stops_schedule blockPauseCodec
      queue .empty expiredRun).1 (.act 1) entry _ sampleJob _ isEntry isCall (by decide) value
        pause isValue result⟩

end Remem.Jobs
