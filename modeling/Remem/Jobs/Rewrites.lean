import Remem.Base.Performing
import Remem.Jobs.Visibility

/-!
# What each call makes of a job

Every call commits one thing only: it stages what it enqueues, it removes finished rows, or it
moves one row, and then the call says what becomes of the job. This is read off the calls once;
what a run does to the jobs follows from it.
-/

namespace Remem.Jobs

open Base Keys Storage List Program

/-- What a call makes of the job whose row it moves: the job it presents, the job it found, what
it makes of that, and the attempt it records. -/
inductive Call.Rewrites (queue : Queue) : Call → Job → Job → Job → Option Run → Prop
  | claim {now : Time} {owner : Bytes} {types : List Bytes} {n : Int} {tokens : Nat → Id}
      {cur : Job} (drawn : Nat) (waiting : cur.state.partition = .pending) :
      Rewrites queue (.claim now cur.tenant owner types n tokens) cur cur
        (queue.leased now owner (tokens drawn) cur) none
  | renew {now : Time} {held cur : Job} (leased : held.lease ≠ none)
      (place : cur.stored = held.stored) (fenced : cur.Fenced held.token) :
      Rewrites queue (.renew now held) held cur (queue.renewed now cur) none
  | save {now : Time} {held cur : Job} {cursor : Bytes} (leased : held.lease ≠ none)
      (place : cur.stored = held.stored) (fenced : cur.Fenced held.token) :
      Rewrites queue (.save now held cursor) held cur
        { cur with checkpoint := cursor, updatedAt := now } none
  | complete {now later : Time} {held cur : Job} {run : Option Run}
      (place : cur.stored = held.stored) (fenced : cur.Fenced held.token) :
      Rewrites queue (.complete now later held run) held cur
        (Queue.finished now .completed [] cur) run
  | exhaust {now later : Time} {jitter : Int} {held cur : Job} {cause : Option Bytes}
      {run : Option Run} (place : cur.stored = held.stored) (fenced : cur.Fenced held.token)
      (last : held.maxAttempts ≤ held.attempts) :
      Rewrites queue (.fail now later jitter held cause run) held cur (Queue.finished now .failed
          (cause.getD (ascii "the handler failed without saying why")) cur) run
  | retry {now later : Time} {jitter : Int} {held cur : Job} {cause : Option Bytes}
      {run : Option Run} (place : cur.stored = held.stored) (fenced : cur.Fenced held.token)
      (left : ¬ held.maxAttempts ≤ held.attempts) :
      Rewrites queue (.fail now later jitter held cause run) held cur { cur with
          state := .retry
          lease := none
          runAt := now + Queue.backoffDelay held.attempts jitter
          updatedAt := now
          lastError := cause.getD (ascii "the handler failed without saying why") } run
  | release {now : Time} {held cur : Job} (place : cur.stored = held.stored)
      (fenced : cur.Fenced held.token) :
      Rewrites queue (.release now held) held cur (Queue.released now cur) none
  | reclaim {now : Time} {limit : Int} {cur : Job} (running : cur.state.partition = .running) :
      Rewrites queue (.reclaim now cur.tenant limit) cur cur (Queue.reclaimed now cur) none
  | cancel {now later : Time} {tenant : TenantId} {jid localLease runId : Id}
      {processed changed : Option UInt64} {held cur : Job} (isKey : held.key = .ok held.stored)
      (place : cur.stored = held.stored) (fenced : cur.Fenced held.token)
      (live : held.state.terminal = false) :
      Rewrites queue (.cancel now later tenant jid localLease runId processed changed) held cur
        (cancelledJob now cur)
        (if held.state = .running then
          held.lease.map (Queue.cancelledRun now localLease runId processed changed held) else none)

def Call.Moved (queue : Queue) (call : Call) (batch : Batch) (held cur next : Job)
    (run : Option Run) : Prop :=
  call.Rewrites queue held cur next run ∧ ∃ value newKey newValue later,
    unmarshal queue.codec cur.stored value = .ok cur ∧ next.key = .ok newKey ∧
    marshal queue.codec next = .ok newValue ∧
    queue.stageRun held next later (Queue.moveBatch cur.stored value newKey newValue) run =
      .ok batch

inductive Call.Does (queue : Queue) (call : Call) : Labelled Deed → Prop
  | enqueues {now : Time} {done : List Job} {tx : Batch} {deed : Deed}
      (staged : queue.enqueueAll now call.submitted [] {} = .ok (done, tx)) :
      Does queue call ⟨tx, deed⟩
  | moves {batch : Batch} {deed : Deed} {held cur next : Job} {run : Option Run}
      (moved : call.Moved queue batch held cur next run) : Does queue call ⟨batch, deed⟩
  | reaps {stale : List Queue.Candidate} {deed : Deed}
      (read : ∀ row ∈ stale, unmarshal queue.codec row.key row.value = .ok row.job ∧
        row.job.state.partition = .done)
      (apart : stale.Pairwise fun first second => first.key ≠ second.key) :
      Does queue call ⟨Queue.reapBatch stale, deed⟩

variable {queue : Queue} {call : Call} {held cur next : Job} {run : Option Run} {batch : Batch}

theorem Call.Rewrites.same (rewrites : call.Rewrites queue held cur next run) :
    next.jid = cur.jid ∧ next.tenant = cur.tenant ∧ next.namespaceName = cur.namespaceName ∧
      next.typ = cur.typ := by
  cases rewrites with
  | reclaim running =>
    unfold Queue.reclaimed
    split <;> exact ⟨rfl, rfl, rfl, rfl⟩
  | _ => exact ⟨rfl, rfl, rfl, rfl⟩

theorem Call.Moved.moves (moved : call.Moved queue batch held cur next run) :
    Moves queue.codec batch cur next := by
  obtain ⟨rewrites, value, newKey, newValue, later, read, isKey, written, staged⟩ := moved
  obtain ⟨jid, tenant, ns, _⟩ := rewrites.same
  refine moves_stageRun (moves_moveBatch read isKey written jid tenant ?_) staged
  rw [Job.resolved, Job.resolved, ns]

theorem due_spec {store : Store} {tenant : TenantId} {part : JobState} {bound : UInt64}
    {types : List Bytes} {want : Int} {candidates : List Queue.Candidate}
    (ran : queue.dueLoop types want
      (scanRange store (jobDueRange tenant defaultNamespace part bound)) 0 [] = .ok candidates) :
    (∀ row ∈ candidates, unmarshal queue.codec row.key row.value = .ok row.job ∧
      row.job.tenant = tenant ∧ row.job.state.partition = part) ∧
    candidates.Pairwise fun first second => first.key ≠ second.key := by
  obtain ⟨found, rfl, listed, reads, _⟩ := dueLoop_spec ran
  refine ⟨?_, ?_⟩
  · intro row member
    have read := reads row member
    obtain ⟨_, within⟩ := OrderedMap.mem_scan.mp (listed.subset (mem_map_of_mem member))
    have begins := isPrefix_of_contains_jobDueRange (of_decide_eq_true within)
    obtain ⟨rfl, placed⟩ := (inSpace_key (unmarshal_place read).1).mp
      ((prefix_append _ _).trans begins)
    obtain ⟨_, due, _, place⟩ := Job.key_eq_ok_iff.mp (unmarshal_place read).1
    rw [place, placed] at begins
    exact ⟨read, rfl, (contains_jobStateRange_job.mp ((contains_prefixRange _ _).mpr begins)).symm⟩
  · have sorted := (OrderedMap.sorted_scan store _).sublist listed
    rw [pairwise_map] at sorted
    exact sorted.imp fun less => ne_of_lt less

section Performs

abbrev Doing {Answer : Type} (queue : Queue) (call : Call) (program : QueueProgram Answer)
    (committed : List (Labelled Deed)) : Prop :=
  program.Performs (fun _ => True) (fun _ => True) (fun _ => call.Does queue) (fun _ _ => True)
    committed

variable {committed : List (Labelled Deed)}

variable {later : Time}

theorem doing_transition {apply : Job → Job} {deed : TenantId → Id → Option Id → Deed}
    (rewrites : ∀ cur, cur.stored = held.stored → cur.Fenced held.token → call.Rewrites queue held
      cur (apply cur) run) :
    Doing queue call (queue.transition held apply run later deed) committed := by
  unfold Queue.transition
  dsimp only
  split
  · trivial
  split
  · trivial
  apply performs_observe_bind
  intro store _
  cases store.get held.stored with
  | none => trivial
  | some value =>
    dsimp only
    split
    · trivial
    next cur next newKey tx prepared =>
    obtain ⟨read, fenced, rfl, isKey, newValue, written, staged⟩ :=
      prepare_eq_ok prepared
    have place := (unmarshal_place read).2
    have moved : call.Moved queue tx held cur (apply cur) run := by
      refine ⟨rewrites cur place fenced, value, newKey, newValue, later, ?_, isKey, written, ?_⟩
      · rw [place]
        exact read
      · rw [place]
        exact staged
    apply performs_attempt_bind (.moves moved)
    · trivial
    · exact fun _ _ => trivial

variable {now : Time}

theorem doing_finish {state : State} {lastError : Bytes}
    (rewrites : ∀ cur, cur.stored = held.stored → cur.Fenced held.token → call.Rewrites queue held
      cur (Queue.finished now state lastError cur) run) :
    Doing queue call (queue.finish now later held state lastError run) committed := by
  unfold Queue.finish
  split
  · trivial
  · exact (doing_transition rewrites).bind fun _ _ _ => trivial

theorem doing_move {key value : Bytes} {deed : Deed}
    (read : unmarshal queue.codec key value = .ok cur)
    (rewrites : call.Rewrites queue cur cur next none) :
    Doing queue call (queue.move key value next deed) committed := by
  have place := (unmarshal_place read).2
  unfold Queue.move
  split
  · trivial
  next newKey isKey =>
  split
  · trivial
  next newValue written =>
  apply performs_attempt_bind
  · exact .moves ⟨rewrites, value, newKey, newValue, 0, by rw [place]; exact read,
      isKey, written, by rw [place]; rfl⟩
  · trivial
  · exact fun _ _ => trivial

variable {owner : Bytes} {n : Int} {tokens : Nat → Id} {candidates : List Queue.Candidate}

theorem doing_claimLoop {drawn : Nat} {out : List Job}
    (read : ∀ row ∈ candidates, unmarshal queue.codec row.key row.value = .ok row.job ∧ ∀ drawn,
      call.Rewrites queue row.job row.job (queue.leased now owner (tokens drawn) row.job) none) :
    Doing queue call (queue.claimLoop now owner n tokens candidates drawn out) committed := by
  induction candidates generalizing drawn out committed with
  | nil => trivial
  | cons row rows ih =>
    obtain ⟨isRow, rewrites⟩ := read row mem_cons_self
    have goesOn : ∀ drawn out committed, Doing queue call
        (queue.claimLoop now owner n tokens rows drawn out) committed := fun _ _ _ =>
      ih (forall_mem_of_forall_mem_cons read)
    unfold Queue.claimLoop
    split
    · trivial
    refine (doing_move isRow (rewrites drawn)).bind fun result _ _ => ?_
    cases result with
    | error fault =>
      dsimp only
      split
      · exact goesOn _ _ _
      · trivial
    | ok job => exact goesOn _ _ _

theorem doing_reclaimLoop {moved : Nat}
    (read : ∀ row ∈ candidates, unmarshal queue.codec row.key row.value = .ok row.job ∧
      call.Rewrites queue row.job row.job (Queue.reclaimed now row.job) none) :
    Doing queue call (queue.reclaimLoop now candidates moved) committed := by
  induction candidates generalizing moved committed with
  | nil => trivial
  | cons row rows ih =>
    obtain ⟨isRow, rewrites⟩ := read row mem_cons_self
    have goesOn : ∀ moved committed, Doing queue call
        (queue.reclaimLoop now rows moved) committed := fun _ _ =>
      ih (forall_mem_of_forall_mem_cons read)
    unfold Queue.reclaimLoop
    refine (doing_move isRow rewrites).bind fun result _ _ => ?_
    cases result with
    | error fault =>
      dsimp only
      split
      · exact goesOn _ _
      · trivial
    | ok job => exact goesOn _ _

variable {jid : Id}

theorem observes_get (queue : Queue) (tenant : TenantId) (jid : Id) :
    (queue.get tenant jid).Observes (fun _ => True)
      fun answer => ∀ job, answer = .ok job → job.key = .ok job.stored := by
  have scans : ∀ parts, (queue.getFrom tenant jid parts).Observes (fun _ => True)
      fun answer => ∀ job, answer = .ok job → job.key = .ok job.stored := by
    intro parts
    induction parts with
    | nil => exact nofun
    | cons part parts ih =>
      unfold Queue.getFrom
      apply observes_observe_bind
      intro store _
      split
      · exact nofun
      · next found =>
        rintro _ ⟨⟩
        obtain ⟨row, _, read⟩ := read_of_findJob found
        obtain ⟨isKey, place⟩ := unmarshal_place read
        rw [place]
        exact isKey
      · exact ih
  unfold Queue.get
  split
  · exact nofun
  · exact scans _

variable {tenant : TenantId}

theorem doing_cancel {localLease runId : Id} {processed changed : Option UInt64} :
    Doing queue (.cancel now later tenant jid localLease runId processed changed)
      (queue.cancel now later tenant jid localLease runId processed changed) committed := by
  unfold Queue.cancel
  refine ((observes_get queue tenant jid).performs committed).bind fun answer _ got => ?_
  cases answer with
  | error fault => trivial
  | ok held =>
    dsimp only
    split
    · trivial
    next live =>
    refine (doing_transition fun cur place fenced => ?_).bind fun _ _ _ => trivial
    exact .cancel (got.1 held rfl) place fenced (Bool.eq_false_iff.mpr live)

variable {limit : Int}

theorem doing_reap {cutoff : Time} :
    Doing queue call (queue.reap cutoff tenant limit) committed := by
  unfold Queue.reap
  split
  · trivial
  split
  · trivial
  apply performs_observe_bind
  intro store _
  split
  · trivial
  · trivial
  next scanned =>
  obtain ⟨read, apart⟩ := due_spec scanned
  apply performs_attempt_bind
  · exact .reaps (fun row listed => ⟨(read row listed).1, (read row listed).2.2⟩) apart
  · trivial
  · exact fun _ _ => trivial

theorem doing_claim {types : List Bytes} : Doing queue (.claim now tenant owner types n tokens)
      (queue.claim now tenant owner types n tokens) committed := by
  unfold Queue.claim
  split
  · trivial
  split
  · trivial
  split
  · trivial
  apply performs_observe_bind
  intro store _
  split
  · trivial
  next candidates scanned =>
  have sorted := perm_insertionSort
    (fun first second : Queue.Candidate => second.job.priority ≤ first.job.priority)
    candidates
  apply doing_claimLoop
  intro row listed
  obtain ⟨read, rfl, waiting⟩ := (due_spec scanned).1 row (sorted.mem_iff.mp listed)
  exact ⟨read, fun drawn => .claim drawn waiting⟩

theorem doing_reclaim :
    Doing queue (.reclaim now tenant limit) (queue.reclaim now tenant limit) committed := by
  unfold Queue.reclaim
  split
  · trivial
  split
  · trivial
  apply performs_observe_bind
  intro store _
  split
  · trivial
  next lapsed scanned =>
  apply doing_reclaimLoop
  intro row listed
  obtain ⟨read, rfl, running⟩ := (due_spec scanned).1 row listed
  exact ⟨read, .reclaim running⟩

theorem doing_fail {jitter : Int} {cause : Option Bytes} :
    Doing queue (.fail now later jitter held cause run)
      (queue.fail now later jitter held cause run) committed := by
  unfold Queue.fail
  dsimp only
  split
  · next last => exact doing_finish fun cur place fenced => .exhaust place fenced last
  next left =>
  exact (doing_transition fun cur place fenced => .retry place fenced left).bind
    fun _ _ _ => trivial

theorem doing_body (queue : Queue) (call : Call) (committed : List (Labelled Deed)) :
    Doing queue call (call.body queue) committed := by
  cases call with
  | enqueue now jobs =>
    unfold Call.body Queue.enqueueTransaction
    dsimp only
    split
    · trivial
    next done tx staged =>
    apply performs_attempt_bind (.enqueues staged)
    · trivial
    · exact fun _ _ => trivial
  | submit now job drawn =>
    unfold Call.body Queue.submit
    dsimp only
    split
    · trivial
    split
    · trivial
    next staged tx accepted =>
    have all : queue.enqueueAll now [(job, drawn)] [] {} = .ok ([staged], tx) := by
      rw [Queue.enqueueAll, accepted]
      rfl
    apply performs_attempt_bind (.enqueues all)
    · trivial
    · exact fun _ _ => trivial
  | claim now tenant owner types n tokens => exact doing_claim
  | renew now held =>
    unfold Call.body Queue.renew
    dsimp only
    split
    · trivial
    next leased =>
    exact (doing_transition fun cur place fenced => .renew leased place fenced).bind
      fun _ _ _ => trivial
  | save now held cursor =>
    unfold Call.body Queue.save
    dsimp only
    split
    · trivial
    next leased =>
    split
    · trivial
    · exact (doing_transition fun cur place fenced => .save leased place fenced).bind
        fun _ _ _ => trivial
  | complete now later held run =>
    exact doing_finish fun cur place fenced => .complete place fenced
  | fail now later jitter held cause run => exact doing_fail
  | release now held =>
    exact (doing_transition fun cur place fenced => .release place fenced).bind fun _ _ _ => trivial
  | reclaim now tenant limit => exact doing_reclaim
  | cancel now later tenant jid localLease runId processed changed => exact doing_cancel
  | reap cutoff tenant limit => exact doing_reap

end Performs

end Remem.Jobs
