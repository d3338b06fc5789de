import Remem.Jobs.Lookups
import Remem.Jobs.Rewrites
import Remem.Jobs.Scheduler

/-!
# One repair at a time

A repair or a tick submits a job once it has found none of its type outstanding. The check and
the submission are two steps, and what the check found need not hold when the job is committed.
Where it does, a tenant has one outstanding job of the type at most, whatever workers do to it.
-/

namespace Remem.Jobs

open Base Keys Storage List OrderedMap Batch Program

variable {queue : Queue} {codec : JobCodec} {tenant : TenantId} {typ : Bytes} {store : Store}
  {job held cur next : Job} {run : Option Run} {batch : Batch} {call : Call}

theorem Held.eq_of_stored {other : Job} (isHeld : Held codec tenant store job)
    (otherHeld : Held codec tenant store other) (same : job.stored = other.stored) :
    job = other := by
  obtain ⟨key, value, found, _, read⟩ := isHeld
  obtain ⟨otherKey, otherValue, otherFound, _, otherRead⟩ := otherHeld
  obtain rfl : key = otherKey := by
    rw [← (unmarshal_place read).2, ← (unmarshal_place otherRead).2, same]
  cases found.symm.trans otherFound
  exact Except.ok.inj (read.symm.trans otherRead)

theorem held_set {key value : Bytes} (isKey : next.key = .ok key)
    (written : marshal codec next = .ok value)
    (isHeld : Held codec tenant (store.set key value) job) :
    (job = next.settled key ∧ next.tenant = tenant ∧ next.resolved = defaultNamespace) ∨
      Held codec tenant store job ∧ job.stored ≠ key := by
  obtain ⟨place, row, found, inside, read⟩ := isHeld
  by_cases same : place = key
  · subst same
    rw [get_set_self] at found
    cases found
    refine .inl ⟨?_, (inSpace_key isKey).mp inside⟩
    exact Except.ok.inj (read.symm.trans (stored_settled isKey written).read)
  rw [get_set_of_ne _ _ same] at found
  refine .inr ⟨⟨place, row, found, inside, read⟩, ?_⟩
  rw [(unmarshal_place read).2]
  exact same

theorem Moves.rows (moves : Moves codec batch cur next)
    (isHeld : Held codec tenant (batch.effect store) job) :
    (∃ newKey, next.key = .ok newKey ∧ job = next.settled newKey ∧ next.tenant = tenant ∧
      next.resolved = defaultNamespace) ∨
      Held codec tenant store job ∧ job.stored ≠ cur.stored := by
  obtain ⟨_, newKey, newValue, extra, _, ⟨isKey, written⟩, _, _, ops, outside⟩ := moves
  have effect : batch.effect store =
      (⟨extra, [], []⟩ : Batch).effect ((store.erase cur.stored).set newKey newValue) := by
    rw [Batch.effect, ops]
    rfl
  obtain ⟨key, value, found, inside, read⟩ := isHeld
  rw [effect, get_effect_of_not_staged] at found
  · rcases held_set isKey written ⟨key, value, found, inside, read⟩ with new | ⟨old, _⟩
    · exact .inl ⟨newKey, isKey, new⟩
    obtain ⟨place, row, isRow, placed, isRead⟩ := old
    have elsewhere : place ≠ cur.stored := by
      rintro rfl
      rw [get_erase_self] at isRow
      cases isRow
    rw [get_erase_of_ne _ elsewhere] at isRow
    refine .inr ⟨⟨place, row, isRow, placed, isRead⟩, ?_⟩
    rw [(unmarshal_place isRead).2]
    exact elsewhere
  · rintro op listed rfl
    exact outside op listed tenant defaultNamespace inside

theorem get_of_removals {keys : List Bytes} {key value : Bytes}
    (found : ((⟨keys.map .delete, [], []⟩ : Batch).effect store).get key = some value) :
    store.get key = some value := by
  induction keys generalizing store with
  | nil => exact found
  | cons first rest ih =>
    have erased : (store.erase first).get key = some value := ih found
    by_cases same : key = first
    · rw [same, get_erase_self] at erased
      cases erased
    · rwa [get_erase_of_ne _ same] at erased

theorem held_of_reapBatch {stale : List Queue.Candidate}
    (apart : stale.Pairwise fun first second => first.key ≠ second.key)
    (isHeld : Held codec tenant ((Queue.reapBatch stale).effect store) job) :
    Held codec tenant store job := by
  obtain ⟨key, value, found, inside, read⟩ := isHeld
  obtain ⟨ops, _⟩ := reapBatch_spec stale {} apart nofun nofun
  refine ⟨key, value, ?_, inside, read⟩
  apply @get_of_removals store (stale.map Queue.Candidate.key)
  rw [Queue.reapBatch, Batch.effect, ops] at found
  rw [Batch.effect, map_map]
  exact found

structure Live (codec : JobCodec) (tenant : TenantId) (typ : Bytes) (store : Store) (job : Job) :
    Prop where
  held : Held codec tenant store job
  typ : job.typ = typ
  outstanding : job.state.partition ≠ .done

theorem live_iff : Live codec tenant typ store job ↔ job.typ = typ ∧
    ∃ part ∈ [JobState.pending, JobState.running],
      ∃ row ∈ scanRange store (jobStateRange tenant defaultNamespace part),
        unmarshal codec row.1 row.2 = .ok job := by
  constructor
  · rintro ⟨held, isType, outstanding⟩
    refine ⟨isType, job.state.partition, ?_, held.mem_scan⟩
    revert outstanding
    unfold State.partition
    split
    · decide
    split
    · exact fun isDone => absurd rfl isDone
    · decide
  · rintro ⟨isType, part, scanned, row, listed, read⟩
    obtain ⟨held, isPart⟩ := held_of_mem_scan listed read
    refine ⟨held, isType, ?_⟩
    rw [isPart]
    rcases mem_pair.mp scanned with rfl | rfl <;> decide

/-- The tenant has at most one outstanding job of the type, and only running ones of the type
are leased. -/
structure Tidy (codec : JobCodec) (tenant : TenantId) (typ : Bytes) (store : Store) : Prop where
  single : ∀ first second, Live codec tenant typ store first → Live codec tenant typ store second →
    first.stored = second.stored
  leased : ∀ job, Held codec tenant store job → job.typ = typ → job.lease ≠ none →
    job.state.partition = .running

theorem lease_of_fenced (fenced : cur.Fenced held.token) (leased : held.lease ≠ none) :
    cur.lease ≠ none := by
  obtain ⟨lease, isLease⟩ := Option.ne_none_iff_exists'.mp leased
  have carries := fenced lease.token (by rw [Job.token, isLease]; rfl)
  intro none
  rw [Job.token, none] at carries
  cases carries

theorem Call.Rewrites.outstanding (rewrites : call.Rewrites queue held cur next run)
    (legal : (RepairCall.work call).Legal) (isKey : cur.key = .ok cur.stored)
    (leased : cur.lease ≠ none → cur.state.partition = .running) : cur.state.partition ≠ .done := by
  have ofFenced : held.lease ≠ none → cur.Fenced held.token → cur.state.partition ≠ .done := by
    intro presents fenced isDone
    rw [leased (lease_of_fenced fenced presents)] at isDone
    cases isDone
  cases rewrites with
  | claim drawn waiting =>
    rw [waiting]
    decide
  | renew presents _ fenced => exact ofFenced presents fenced
  | save presents _ fenced => exact ofFenced presents fenced
  | complete _ fenced => exact ofFenced legal fenced
  | exhaust _ fenced _ => exact ofFenced legal fenced
  | retry _ fenced _ => exact ofFenced legal fenced
  | release _ fenced => exact ofFenced legal fenced
  | reclaim running =>
    rw [running]
    decide
  | cancel heldKey place _ live =>
    obtain ⟨_, due, _, isPlace⟩ := Job.key_eq_ok_iff.mp heldKey
    obtain ⟨_, curDue, _, isCurPlace⟩ := Job.key_eq_ok_iff.mp isKey
    rw [place, isPlace] at isCurPlace
    rw [← (job_inj isCurPlace).2.2.1]
    unfold State.partition
    split
    · decide
    · rw [live]
      decide

theorem Call.Rewrites.leased (rewrites : call.Rewrites queue held cur next run)
    (leased : cur.lease ≠ none → cur.state.partition = .running) (isLeased : next.lease ≠ none) :
    next.state.partition = .running := by
  cases rewrites with
  | claim drawn waiting => rfl
  | renew _ _ _ =>
    refine leased fun none => isLeased ?_
    rw [Queue.renewed, none]
    rfl
  | save _ _ _ => exact leased isLeased
  | reclaim running =>
    unfold Queue.reclaimed at isLeased
    split at isLeased <;> exact absurd rfl isLeased
  | _ => exact absurd rfl isLeased

namespace Tidy

variable {after : Store}

theorem fewer (fewer : ∀ job, Held codec tenant after job → Held codec tenant store job)
    (tidy : Tidy codec tenant typ store) : Tidy codec tenant typ after where
  single first second isFirst isSecond := tidy.single first second
    ⟨fewer first isFirst.held, isFirst.typ, isFirst.outstanding⟩
    ⟨fewer second isSecond.held, isSecond.typ, isSecond.outstanding⟩
  leased job isHeld := tidy.leased job (fewer job isHeld)

theorem replace (fresh : Job)
    (rows : ∀ job, Held codec tenant after job → job = fresh ∨ Held codec tenant store job)
    (others : Live codec tenant typ after fresh → ∀ job, Held codec tenant after job → job ≠ fresh
      → ¬ Live codec tenant typ store job)
    (leased : Held codec tenant after fresh → fresh.typ = typ → fresh.lease ≠ none →
      fresh.state.partition = .running)
    (tidy : Tidy codec tenant typ store) : Tidy codec tenant typ after where
  single first second isFirst isSecond := by
    have apart : ∀ one other, Live codec tenant typ after one → Live codec tenant typ after other →
        one = fresh → one.stored = other.stored := by
      rintro one other isOne isOther rfl
      by_cases same : other = one
      · rw [same]
      · have old := (rows other isOther.held).resolve_left same
        exact (others isOne other isOther.held same ⟨old, isOther.typ, isOther.outstanding⟩).elim
    rcases rows first isFirst.held with isFresh | oldFirst
    · exact apart first second isFirst isSecond isFresh
    rcases rows second isSecond.held with isFresh | oldSecond
    · exact (apart second first isSecond isFirst isFresh).symm
    · exact tidy.single first second ⟨oldFirst, isFirst.typ, isFirst.outstanding⟩
        ⟨oldSecond, isSecond.typ, isSecond.outstanding⟩
  leased job isHeld isType isLeased := by
    rcases rows job isHeld with rfl | old
    · exact leased isHeld isType isLeased
    · exact tidy.leased job old isType isLeased

theorem move (tidy : Tidy queue.codec tenant typ store) (legal : (RepairCall.work call).Legal)
    (moved : call.Moved queue batch held cur next run) (accepts : batch.Accepts store) :
    Tidy queue.codec tenant typ (batch.effect store) := by
  obtain ⟨value, found, read⟩ := moved.moves.found accepts
  obtain ⟨isKey, _⟩ := unmarshal_place read
  obtain ⟨_, sameTenant, sameNamespace, sameType⟩ := moved.1.same
  obtain ⟨_, _, newKey, newValue, _, _, nextKey, written, _⟩ := id moved
  -- the row of the job before the move, where the one after it is in the tenant
  have before : Held queue.codec tenant (batch.effect store) (next.settled newKey) →
      Held queue.codec tenant store cur := by
    rintro ⟨key, row, _, inside, isRow⟩
    obtain ⟨tenants, namespaces⟩ := (inSpace_key (unmarshal_place isRow).1).mp inside
    rw [settled_resolved, Job.resolved, sameNamespace] at namespaces
    exact ⟨cur.stored, value, found,
      (inSpace_key isKey).mpr ⟨sameTenant.symm.trans tenants, namespaces⟩, read⟩
  have leased : Held queue.codec tenant (batch.effect store) (next.settled newKey) →
      next.typ = typ → cur.lease ≠ none → cur.state.partition = .running :=
    fun isHeld isType => tidy.leased cur (before isHeld) (sameType.symm.trans isType)
  refine tidy.replace (next.settled newKey) ?_ ?_ ?_
  · intro job isHeld
    rcases moved.moves.rows isHeld with ⟨key, isNext, rfl, _⟩ | ⟨old, _⟩
    · cases nextKey.symm.trans isNext
      exact .inl rfl
    · exact .inr old
  · intro fresh job isHeld other live
    have curLive : Live queue.codec tenant typ store cur := by
      refine ⟨before fresh.held, sameType.symm.trans fresh.typ, ?_⟩
      exact moved.1.outstanding legal isKey (leased fresh.held fresh.typ)
    rcases moved.moves.rows isHeld with ⟨key, isNext, rfl, _⟩ | ⟨_, elsewhere⟩
    · cases nextKey.symm.trans isNext
      exact other rfl
    · exact elsewhere (tidy.single job cur live curLive)
  · intro fresh isType isLeased
    refine moved.1.leased (leased fresh isType) fun none => isLeased ?_
    change next.lease.map _ = _
    rw [none]
    rfl

theorem work {deed : Deed} (tidy : Tidy queue.codec tenant typ store)
    (legal : (RepairCall.work call).Legal) (does : call.Does queue ⟨batch, deed⟩)
    (accepts : batch.Accepts store) : Tidy queue.codec tenant typ (batch.effect store) := by
  cases does with
  | enqueues staged =>
    have nothing : call.submitted = [] := by
      cases call <;> first | rfl | exact legal
    rw [nothing] at staged
    cases staged
    exact tidy
  | moves moved => exact tidy.move legal moved accepts
  | reaps read apart => exact tidy.fewer fun job => held_of_reapBatch apart

end Tidy

def Submits (queue : Queue) (tenant : TenantId) (typ : Bytes) (batch : Batch) : Prop :=
  ∃ job key value, job.tenant = tenant ∧ job.typ = typ ∧ job.lease = none ∧ job.key = .ok key ∧
    marshal queue.codec job = .ok value ∧ batch.ops = [.set key value]

theorem submits_of_enqueue {now : Time} {drawn : Id} {staged : Job} {tx : Batch}
    (accepted : queue.enqueue now drawn job tx = .ok (staged, batch)) (nothing : tx.ops = [])
    (unleased : job.lease = none) : Submits queue job.tenant job.typ batch := by
  obtain ⟨key, value, isKey, written, _, rfl⟩ := staged_of_enqueue accepted
  refine ⟨Queue.fill now drawn job, key, value, rfl, rfl, unleased, isKey, written, ?_⟩
  rw [Batch.set, expect_ops, nothing]
  rfl

theorem Tidy.submit (tidy : Tidy queue.codec tenant typ store) {other : TenantId} {otherTyp : Bytes}
    (submits : Submits queue other otherTyp batch)
    (stillNone : other = tenant → otherTyp = typ → ∀ job, ¬ Live queue.codec tenant typ store job) :
    Tidy queue.codec tenant typ (batch.effect store) := by
  obtain ⟨fresh, key, value, rfl, rfl, unleased, isKey, written, ops⟩ := submits
  have effect : batch.effect store = store.set key value := by
    rw [Batch.effect, ops]
    rfl
  rw [effect]
  refine tidy.replace (fresh.settled key) ?_ ?_ ?_
  · intro job isHeld
    rcases held_set isKey written isHeld with ⟨isFresh, _⟩ | ⟨old, _⟩
    · exact .inl isFresh
    · exact .inr old
  · intro isFresh job _ _
    obtain ⟨place, row, _, inside, isRow⟩ := isFresh.held
    obtain ⟨tenants, _⟩ := (inSpace_key (unmarshal_place isRow).1).mp inside
    exact stillNone tenants isFresh.typ job
  · intro _ _ isLeased
    refine absurd ?_ isLeased
    change fresh.lease.map _ = _
    rw [unleased]
    rfl

variable {moments : List (Moment Store (Labelled Deed) Fault)}

theorem searchFrom_missed {look : List (Bytes × Bytes) → Result (Option Job)}
    {missing fault : Fault} {parts : List JobState}
    (runs : (Queue.searchFrom look missing tenant parts).Runs moments (.error fault))
    (still : ∀ moment ∈ moments, moment = .observed store)
    (sound : ∀ rows, look rows ≠ .error fault) :
    ∀ part ∈ parts, look (scanRange store (jobStateRange tenant defaultNamespace part)) =
      .ok none := by
  induction parts generalizing moments with
  | nil => exact nofun
  | cons part parts ih =>
    obtain ⟨seen, rest, rfl, continues⟩ := runs.observe_bind
    cases still _ mem_cons_self
    split at continues
    · next isFault =>
      obtain ⟨_, ⟨⟩⟩ := runs_ret_iff.mp continues
      exact absurd isFault (sound _)
    · obtain ⟨_, ⟨⟩⟩ := runs_ret_iff.mp continues
    next nothing =>
    intro other listed
    rcases mem_cons.mp listed with rfl | tail
    · exact nothing
    · exact ih continues (fun moment later => still moment (mem_cons_of_mem _ later)) other tail

theorem none_of_hasOutstanding (runs : (queue.hasOutstanding tenant typ).Runs moments (.ok false))
    (still : ∀ moment ∈ moments, moment = .observed store) :
    ¬ Live queue.codec tenant typ store job := by
  intro live
  obtain ⟨isType, part, scanned, row, listed, read⟩ := live_iff.mp live
  obtain ⟨answer, early, late, rfl, searched, answered⟩ := runs.of_bind
  cases answer with
  | ok found =>
    obtain ⟨_, ⟨⟩⟩ := runs_ret_iff.mp answered
  | error fault =>
    have missing : fault.kind = .notFound := by
      by_contra other
      dsimp only at answered
      rw [if_neg other] at answered
      obtain ⟨_, ⟨⟩⟩ := runs_ret_iff.mp answered
    unfold Queue.outstanding at searched
    split at searched
    · obtain ⟨_, ⟨⟩⟩ := runs_ret_iff.mp searched
      cases missing
    have nothing := searchFrom_missed searched
      (fun moment listed => still moment (mem_append_left _ listed))
      (fun rows isFault => by
        obtain ⟨_, ran, row, _, refused⟩ | ⟨_, ran, _⟩ := findType_cases queue typ rows
        · cases ran.symm.trans isFault
          rw [unmarshal_corrupt refused] at missing
          cases missing
        · cases ran.symm.trans isFault)
    obtain ⟨_, ran, _⟩ | ⟨_, ran, _, missed⟩ := findType_cases queue typ
      (scanRange store (jobStateRange tenant defaultNamespace part))
    · cases ran.symm.trans (nothing part scanned)
    cases ran.symm.trans (nothing part scanned)
    exact missed rfl row listed job read isType

def Offers (queue : Queue) (payload : Labelled RepairDeed) : Prop :=
  ∃ tenant typ, payload.label = .submitted tenant typ ∧ Submits queue tenant typ payload.batch

def RepairCall.May (queue : Queue) : RepairCall → Labelled RepairDeed → Prop
  | work call, payload =>
    ∃ deed, payload.label = .worked deed ∧ call.Does queue ⟨payload.batch, deed⟩
  | _, payload => Offers queue payload

abbrev Offering (queue : Queue) {Answer : Type} (program : StoreProgram RepairDeed Answer)
    (committed : List (Labelled RepairDeed)) : Prop :=
  program.Performs (fun _ => True) (fun _ => True) (fun _ => Offers queue) (fun _ _ => True)
    committed

theorem observes_searchFrom (look : List (Bytes × Bytes) → Result (Option Job)) (missing : Fault)
    (parts : List JobState) :
    (Queue.searchFrom look missing tenant parts).Observes (fun _ => True) (fun _ => True) := by
  induction parts with
  | nil => trivial
  | cons part parts ih =>
    apply observes_observe_bind
    intro state _
    split
    · trivial
    · trivial
    · exact ih

theorem observes_hasOutstanding (queue : Queue) (tenant : TenantId) (typ : Bytes) :
    (queue.hasOutstanding tenant typ).Observes (fun _ => True) (fun _ => True) := by
  have searches : (queue.outstanding tenant typ).Observes (fun _ => True) (fun _ => True) := by
    unfold Queue.outstanding
    split
    · trivial
    · exact observes_searchFrom _ _ _
  refine searches.bind fun answer _ => ?_
  split
  · trivial
  · split <;> trivial

section Tick

variable {hasOutstanding : TenantId → Bytes → StoreProgram RepairDeed (Result Bool)}
  {submit : Job → StoreProgram RepairDeed (Result Bool)}
  (looks : ∀ tenant typ committed, Offering queue (hasOutstanding tenant typ) committed)
  (submits : ∀ job committed, job.lease = none → Offering queue (submit job) committed)
  (now : Time)

include looks submits

theorem offering_visitTenant (entry : Recurring) (tenant : TenantId)
    (committed : List (Labelled RepairDeed)) :
    Offering queue (visitTenant hasOutstanding submit now entry tenant) committed := by
  refine (looks tenant entry.typ committed).bind fun answer committed _ => ?_
  split
  · trivial
  · trivial
  · exact submits _ committed rfl

theorem offering_fanOut (entry : Recurring) (tenants : List TenantId) (enqueued : Nat)
    (committed : List (Labelled RepairDeed)) :
    Offering queue (fanOut hasOutstanding submit now entry tenants enqueued) committed := by
  induction tenants generalizing enqueued committed with
  | nil => trivial
  | cons tenant rest ih =>
    refine (offering_visitTenant looks submits now entry tenant committed).bind
      fun answer committed _ => ?_
    split
    · trivial
    · exact ih _ _

theorem offering_tick (tenants : List TenantId) (recurring : List Recurring) (next : DueTimes)
    (enqueued : Nat) (committed : List (Labelled RepairDeed)) :
    Offering queue (tick hasOutstanding submit now tenants recurring next enqueued) committed := by
  induction recurring generalizing next enqueued committed with
  | nil => trivial
  | cons entry rest ih =>
    unfold tick
    split
    · exact ih _ _ _
    refine (offering_fanOut looks submits now entry tenants enqueued committed).bind
      fun answer committed _ => ?_
    split
    · trivial
    · exact ih _ _ _

end Tick

theorem submits_submit {now : Time} {drawn : Id} (unleased : job.lease = none)
    (committed : List (Labelled Deed)) :
    (queue.submit now job drawn).Performs (fun _ => True) (fun _ => True)
      (fun _ payload => Submits queue job.tenant job.typ payload.batch) (fun _ _ => True)
      committed := by
  unfold Queue.submit
  split
  · trivial
  split
  · trivial
  next staged tx accepted =>
  apply performs_attempt_bind
  · exact submits_of_enqueue accepted rfl unleased
  · trivial
  · exact fun _ _ => trivial

theorem performs_repairCall (codec : PauseCodec) (queue : Queue) (call : RepairCall) :
    (call.body codec queue).Performs (fun _ => True) (fun _ => True) (fun _ => call.May queue)
      (fun _ _ => True) [] := by
  cases call with
  | repair tenant typ now drawn =>
    have repairs : Program.Performs (fun _ => True) (fun _ => True)
        (fun _ (payload : Labelled Deed) => Submits queue tenant typ payload.batch)
        (fun _ _ => True) (queue.repair tenant typ now drawn) [] := by
      refine ((observes_hasOutstanding queue tenant typ).performs []).bind
        fun answer committed _ => ?_
      split
      · trivial
      · trivial
      refine (@submits_submit queue (repairJob tenant typ) now drawn rfl committed).bind
        fun answer committed _ => ?_
      split <;> trivial
    refine (repairs.mapBatch (fun payload submits => ?_) []).bind fun _ _ _ => trivial
    exact ⟨tenant, typ, rfl, submits⟩
  | tick now recurring tenants next draws =>
    refine (offering_tick ?_ ?_ now tenants recurring next 0 []).bind fun _ _ _ => trivial
    · intro tenant typ committed
      have looks : Program.Performs (fun _ => True) (fun _ => True)
          (fun _ (_ : Labelled Deed) => False) (fun _ _ => True)
          (queue.hasOutstanding tenant typ) [] :=
        ((observes_hasOutstanding queue tenant typ).performs []).imp fun _ _ _ => trivial
      exact looks.mapBatch (fun _ => False.elim) committed
    · intro job committed unleased
      have submits : Program.Performs (fun _ => True) (fun _ => True)
          (fun _ (payload : Labelled PauseDeed) =>
            Submits queue job.tenant job.typ payload.batch)
          (fun result committed => result = .ok false → committed = [])
          (codec.submitUnlessPaused queue (draws job.tenant job.typ).1 job
            (draws job.tenant job.typ).2) [] :=
        performs_submitUnlessPaused fun expected present staged tx accepted _ =>
          submits_of_enqueue accepted rfl unleased
      refine (submits.imp fun _ _ _ => trivial).mapBatch (fun payload isSubmission => ?_) committed
      exact ⟨job.tenant, job.typ, rfl, isSubmission⟩
  | work call =>
    refine ((doing_body queue call []).mapBatch (fun payload does => ?_) []).bind
      fun _ _ _ => trivial
    exact ⟨payload.label, rfl, does⟩

/-- When a job of the type is submitted for the tenant, none is outstanding there, as its check
had found. -/
def StillNone (codec : JobCodec) (tenant : TenantId) (typ : Bytes)
    (entry : Entry RepairCall (Labelled RepairDeed)) (store : Store)
    (_ : List (Entry RepairCall (Labelled RepairDeed))) : Prop :=
  entry.batch.label = .submitted tenant typ → ∀ job, ¬ Live codec tenant typ store job

instance StillNone.decidable (codec : JobCodec) (tenant : TenantId) (typ : Bytes)
    (entry : Entry RepairCall (Labelled RepairDeed)) (store : Store)
    (history : List (Entry RepairCall (Labelled RepairDeed))) :
    Decidable (StillNone codec tenant typ entry store history) :=
  decidable_of_iff (entry.batch.label = .submitted tenant typ →
    ∀ part ∈ [JobState.pending, JobState.running],
      ∀ row ∈ scanRange store (jobStateRange tenant defaultNamespace part),
        ∀ job ∈ (unmarshal codec row.1 row.2).toOption, job.typ ≠ typ) <| by
    refine imp_congr_right fun _ => ⟨?_, ?_⟩
    · intro nothing job live
      obtain ⟨isType, part, scanned, row, listed, read⟩ := live_iff.mp live
      exact nothing part scanned row listed job (by rw [read]; rfl) isType
    intro nothing part scanned row listed job read isType
    refine nothing job (live_iff.mpr ⟨isType, part, scanned, row, listed, ?_⟩)
    cases unmarshalled : unmarshal codec row.1 row.2 with
    | error fault =>
      rw [unmarshalled] at read
      cases read
    | ok found =>
      rw [unmarshalled] at read
      cases read
      rfl

theorem tidy_run {pauses : PauseCodec} {initial : Store}
    (initially : Tidy queue.codec tenant typ initial) (schedule : List (Action RepairCall))
    (distinct : (queue.repairSystem pauses).Distinct
      ((queue.repairSystem pauses).run initial schedule))
    (meets : (queue.repairSystem pauses).Meets (StillNone queue.codec tenant typ)
      (System.start initial) schedule) :
    Tidy queue.codec tenant typ ((queue.repairSystem pauses).run initial schedule).state := by
  refine (System.sound_run (queue.repairSystem pauses)
    (fun store _ => Tidy queue.codec tenant typ store) (fun _ _ _ _ _ _ _ => True) initially ?_
    schedule distinct meets).holds
  intro index call born state _ legal _
  refine System.Safe.of_performs ((performs_repairCall pauses queue call).mono fun _ _ => trivial)
    (fun _ _ _ _ => trivial) ?_
  intro committed payload store history after may tidy _ applied checked
  obtain ⟨accepts, rfl⟩ := commit_eq_ok_iff.mp applied
  have offered : Offers queue payload →
      Tidy queue.codec tenant typ (payload.batch.effect store) := by
    rintro ⟨other, otherTyp, isLabel, submits⟩
    refine tidy.submit submits ?_
    rintro rfl rfl
    exact checked isLabel
  cases call with
  | repair => exact offered may
  | tick => exact offered may
  | work call =>
    obtain ⟨deed, _, does⟩ := may
    exact tidy.work legal does accepts

/-- One repair at a time. Where no job of the type is outstanding in the tenant, and every
repair's and tick's submission commits while that is as its check found it, there is at most one
outstanding job of the type throughout, whatever the workers do; and a check that no commit falls
into finds what is outstanding. -/
theorem one_repair_outstanding (queue : Queue) (pauses : PauseCodec) (tenant : TenantId)
    (typ : Bytes) (initial : Store)
    (initially : ∀ job, Held queue.codec tenant initial job → job.typ = typ →
      job.state.partition = .done ∧ job.lease = none)
    (schedule : List (Action RepairCall))
    (legal : (queue.repairSystem pauses).Distinct
      ((queue.repairSystem pauses).run initial schedule))
    (still : (queue.repairSystem pauses).Meets (StillNone queue.codec tenant typ)
      (System.start initial) schedule) :
    (∀ first second,
      Live queue.codec tenant typ ((queue.repairSystem pauses).run initial schedule).state first →
      Live queue.codec tenant typ ((queue.repairSystem pauses).run initial schedule).state second →
      first = second) ∧
    ∀ moments store, (queue.hasOutstanding tenant typ).Runs moments (.ok false) →
      (∀ moment ∈ moments, moment = .observed store) →
      ∀ job, ¬ Live queue.codec tenant typ store job := by
  refine ⟨?_, fun moments store runs unmoved job => none_of_hasOutstanding runs unmoved⟩
  have tidy : Tidy queue.codec tenant typ initial := by
    constructor
    · intro first second live
      exact absurd (initially first live.held live.typ).1 live.outstanding
    · intro job held isType leased
      exact absurd (initially job held isType).2 leased
  intro first second isFirst isSecond
  exact isFirst.held.eq_of_stored isSecond.held
    ((tidy_run tidy schedule legal still).single first second isFirst isSecond)

/-- One repair submits its job, a worker claims it, and a second repair finds it running. -/
def repairedRun : List (Action RepairCall) :=
  [.spawn (.repair (ascii "acme") (ascii "text.rebuild") 1000000000 (Id.filled 1)),
    .act 0, .act 0, .act 0,
    .spawn (.work (.claim 2000000000 (ascii "acme") (ascii "worker") [] 1 fun _ => Id.filled 9)),
    .act 1, .act 1,
    .spawn (.repair (ascii "acme") (ascii "text.rebuild") 3000000000 (Id.filled 2)),
    .act 2, .act 2]

theorem live_of_readAt {key : Bytes} {jid : Id} {state : State} (inside : InSpace tenant key)
    (read : (readAt codec store key).map (fun job => (job.jid, job.typ, job.state)) =
      some (jid, typ, state)) (outstanding : state.partition ≠ .done) :
    ∃ job, Live codec tenant typ store job ∧ job.jid = jid ∧ job.state = state := by
  obtain ⟨job, isJob, ⟨⟩⟩ := Option.map_eq_some_iff.mp read
  exact ⟨job, ⟨held_of_readAt inside isJob, rfl, outstanding⟩, rfl, rfl⟩

theorem one_repair_outstanding_claimed :
    let queue : Queue := ⟨blockCodec, 60000000000⟩
    let store := ((queue.repairSystem blockPauseCodec).run .empty repairedRun).state
    ∃ job, Live queue.codec (ascii "acme") (ascii "text.rebuild") store job ∧
      job.jid = Id.filled 1 ∧ job.state = .running ∧
      ∀ other, Live queue.codec (ascii "acme") (ascii "text.rebuild") store other →
        other = job := by
  intro queue store
  let key := Keys.job (ascii "acme") defaultNamespace .running 62000 (Id.filled 1)
  have read : (readAt queue.codec store key).map (fun job => (job.jid, job.typ, job.state)) =
      some (Id.filled 1, ascii "text.rebuild", .running) := by
    decide +kernel
  obtain ⟨job, live, isId, isState⟩ := @live_of_readAt queue.codec (ascii "acme") _ store key _ _
    (prefix_append _ _) read (by decide)
  have legal : (queue.repairSystem blockPauseCodec).Distinct
      ((queue.repairSystem blockPauseCodec).run .empty repairedRun) := by
    rw [System.Distinct, System.calls_run]
    refine ⟨?_, pairwise_of_forall fun _ _ => trivial⟩
    intro call listed
    rcases mem_cons.mp listed with rfl | later
    · trivial
    rcases mem_cons.mp later with rfl | last
    · rfl
    · rw [mem_singleton.mp last]
      trivial
  have still : (queue.repairSystem blockPauseCodec).Meets
      (StillNone queue.codec (ascii "acme") (ascii "text.rebuild"))
      (System.start .empty) repairedRun := by
    decide +kernel
  have nothing : ∀ job, Held queue.codec (ascii "acme") .empty job →
      job.typ = ascii "text.rebuild" → job.state.partition = .done ∧ job.lease = none := by
    rintro job ⟨key, value, found, _⟩
    cases found
  refine ⟨job, live, isId, isState, fun other isOther => ?_⟩
  exact (one_repair_outstanding queue blockPauseCodec (ascii "acme") (ascii "text.rebuild") .empty
    nothing repairedRun legal still).1 other job isOther live

/-- Two repairs scan before either has committed. -/
def crossedRepairs : List (Action RepairCall) :=
  [.spawn (.repair (ascii "acme") (ascii "text.rebuild") 1000000000 (Id.filled 1)),
    .spawn (.repair (ascii "acme") (ascii "text.rebuild") 1000000000 (Id.filled 2)),
    .act 0, .act 0, .act 1, .act 1, .act 0, .act 1]

/-- Neither finds the other's job, and both submit: two are outstanding. -/
theorem crossed_repairs_both_submit :
    let queue : Queue := ⟨blockCodec, 60000000000⟩
    let world := (queue.repairSystem blockPauseCodec).run .empty crossedRepairs
    (queue.repairSystem blockPauseCodec).Distinct world ∧
    ∃ first second, Live queue.codec (ascii "acme") (ascii "text.rebuild") world.state first ∧
      Live queue.codec (ascii "acme") (ascii "text.rebuild") world.state second ∧
      first.jid ≠ second.jid := by
  intro queue world
  refine ⟨?_, ?_⟩
  · rw [System.Distinct, System.calls_run]
    refine ⟨?_, pairwise_of_forall fun _ _ => trivial⟩
    intro call listed
    rcases mem_pair.mp listed with rfl | rfl <;> trivial
  have read : ∀ number ∈ [1, 2], (readAt queue.codec world.state
      (Keys.job (ascii "acme") defaultNamespace .pending 1000 (Id.filled number))).map
        (fun job => (job.jid, job.typ, job.state)) =
      some (Id.filled number, ascii "text.rebuild", .pending) := by
    decide +kernel
  obtain ⟨first, isFirst, firstId, _⟩ := @live_of_readAt queue.codec (ascii "acme") _ world.state
    _ _ _ (prefix_append _ _) (read 1 (by decide)) (by decide)
  obtain ⟨second, isSecond, secondId, _⟩ := @live_of_readAt queue.codec (ascii "acme") _
    world.state _ _ _ (prefix_append _ _) (read 2 (by decide)) (by decide)
  refine ⟨first, second, isFirst, isSecond, ?_⟩
  rw [firstId, secondId]
  decide

end Remem.Jobs
