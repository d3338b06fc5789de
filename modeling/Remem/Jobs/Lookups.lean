import Remem.Base.Traces
import Remem.Jobs.Visibility

/-!
# Looking for a job that moves

`Get` and `Outstanding` scan the partitions of a tenant one after the other, and jobs move
between the scans. A job that only moves on, to a partition that is scanned later, is met.
-/

namespace Remem.Jobs

open Base Keys Storage List Option

namespace Queue

variable (queue : Queue)

def searchFrom (look : List (Bytes × Bytes) → Result (Option Job)) (missing : Fault)
    (tenant : TenantId) : List JobState → QueueProgram (Result Job)
  | [] => .ret (.error missing)
  | part :: rest => do
      match ← Program.observe fun store =>
          look (scanRange store (jobStateRange tenant defaultNamespace part)) with
      | .error fault => return .error fault
      | .ok (some job) => return .ok job
      | .ok none => searchFrom look missing tenant rest

/-- The loop of `Outstanding` over one partition. -/
def findType (typ : Bytes) : List (Bytes × Bytes) → Result (Option Job)
  | [] => .ok none
  | (key, value) :: rest =>
    match unmarshal queue.codec key value with
    | .error fault => .error fault
    | .ok job => if job.typ = typ then .ok (some job) else findType typ rest

def outstanding (tenant : TenantId) (typ : Bytes) : QueueProgram (Result Job) :=
  if tenant = [] then
    .ret (.error ⟨.invalid, "jobs.Outstanding",
      "this question requires a tenant: there is no unscoped read path (Invariant 1)", []⟩)
  else searchFrom (queue.findType typ)
    ⟨.notFound, "jobs.Outstanding", "tenant %s has no waiting or running job of type %s",
      [.bytes tenant, .bytes typ]⟩ tenant [.pending, .running]

def hasOutstanding (tenant : TenantId) (typ : Bytes) : QueueProgram (Result Bool) := do
  match ← queue.outstanding tenant typ with
  | .ok _ => return .ok true
  | .error fault => if fault.kind = .notFound then return .ok false else return .error fault

theorem getFrom_eq_searchFrom (tenant : TenantId) (jid : Id) (parts : List JobState) :
    queue.getFrom tenant jid parts = searchFrom (queue.findJob jid)
      ⟨.notFound, "jobs.Get", "no job %s in tenant %s", [.bytes jid.bytes, .bytes tenant]⟩
      tenant parts := by
  induction parts with
  | nil => rfl
  | cons part parts ih =>
    unfold getFrom searchFrom
    generalize queue.getFrom tenant jid parts = later at ih
    subst ih
    rfl

end Queue

variable {queue : Queue} {codec : JobCodec} {store : Store} {tenant : TenantId} {job : Job}

def Held (codec : JobCodec) (tenant : TenantId) (store : Store) (job : Job) : Prop :=
  ∃ key value, store.get key = some value ∧ InSpace tenant key ∧ unmarshal codec key value = .ok job

def State.rank (state : State) : Nat := state.partition.byte.toNat

/-- What is wanted in the store after was there before, in the same partition or an earlier
one. -/
def Forward (codec : JobCodec) (tenant : TenantId) (wanted : Job → Prop)
    (before after : Store) : Prop :=
  ∀ job, Held codec tenant after job → wanted job →
    ∃ earlier, Held codec tenant before earlier ∧ wanted earlier ∧
      earlier.state.rank ≤ job.state.rank

def Cleared (codec : JobCodec) (tenant : TenantId) (wanted : Job → Prop) (rank : Nat)
    (store : Store) : Prop :=
  ∀ job, Held codec tenant store job → wanted job → rank < job.state.rank

variable {wanted : Job → Prop} {rank : Nat}

theorem Cleared.forward {before after : Store} (cleared : Cleared codec tenant wanted rank before)
    (forward : Forward codec tenant wanted before after) :
    Cleared codec tenant wanted rank after := by
  intro job held isWanted
  obtain ⟨earlier, wasHeld, wasWanted, less⟩ := forward job held isWanted
  exact (cleared earlier wasHeld wasWanted).trans_le less

theorem Cleared.later {stores : Nat → Store} {first last : Nat}
    (cleared : Cleared codec tenant wanted rank (stores first)) (le : first ≤ last)
    (forward : ∀ time, first ≤ time → time < last → Forward codec tenant wanted (stores time)
      (stores (time + 1))) : Cleared codec tenant wanted rank (stores last) := by
  induction last, le using Nat.le_induction with
  | base => exact cleared
  | succ last le ih =>
    exact (ih fun time after before => forward time after (by omega)).forward
      (forward last le (Nat.lt_succ_self last))

theorem Held.mem_scan (held : Held codec tenant store job) :
    ∃ row ∈ scanRange store (jobStateRange tenant defaultNamespace job.state.partition),
      unmarshal codec row.1 row.2 = .ok job := by
  obtain ⟨key, value, found, inside, read⟩ := held
  obtain ⟨rfl, placed⟩ := (inSpace_key (unmarshal_place read).1).mp inside
  obtain ⟨_, due, _, place⟩ := Job.key_eq_ok_iff.mp (unmarshal_place read).1
  refine ⟨(key, value), OrderedMap.mem_scan.mpr ⟨found, decide_eq_true ?_⟩, read⟩
  rw [place, placed]
  exact contains_jobStateRange_job.mpr rfl

variable {part : JobState}

theorem held_of_mem_scan {row : Bytes × Bytes}
    (listed : row ∈ scanRange store (jobStateRange tenant defaultNamespace part))
    (read : unmarshal codec row.1 row.2 = .ok job) :
    Held codec tenant store job ∧ job.state.partition = part := by
  obtain ⟨found, within⟩ := OrderedMap.mem_scan.mp listed
  replace within := of_decide_eq_true within
  have inside := inSpace_of_jobStateRange within
  refine ⟨⟨row.1, row.2, found, inside, read⟩, ?_⟩
  obtain ⟨rfl, placed⟩ := (inSpace_key (unmarshal_place read).1).mp inside
  obtain ⟨_, due, _, place⟩ := Job.key_eq_ok_iff.mp (unmarshal_place read).1
  rw [place, placed] at within
  exact (contains_jobStateRange_job.mp within).symm

theorem Written.scanned (written : Written codec store) (tenant : TenantId) (part : JobState) :
    ∀ row ∈ scanRange store (jobStateRange tenant defaultNamespace part),
      ∃ job, Stored codec row.1 row.2 job := by
  intro row listed
  obtain ⟨found, within⟩ := OrderedMap.mem_scan.mp listed
  exact written tenant row.1 row.2 found (inSpace_of_jobStateRange (of_decide_eq_true within))

def Looks (codec : JobCodec) (wanted : Job → Prop)
    (look : List (Bytes × Bytes) → Result (Option Job)) : Prop :=
  ∀ rows, (∀ row ∈ rows, ∃ job, Stored codec row.1 row.2 job) → ∃ found, look rows = .ok found ∧
      (∀ job, found = some job → wanted job ∧ ∃ row ∈ rows, unmarshal codec row.1 row.2 = .ok job) ∧
      (found = none → ∀ row ∈ rows, ∀ job, unmarshal codec row.1 row.2 = .ok job → ¬ wanted job)

theorem findType_cases (queue : Queue) (typ : Bytes) (rows : List (Bytes × Bytes)) :
    (∃ fault, queue.findType typ rows = .error fault ∧
      ∃ row ∈ rows, unmarshal queue.codec row.1 row.2 = .error fault) ∨
    ∃ found, queue.findType typ rows = .ok found ∧
      (∀ job, found = some job → job.typ = typ ∧
        ∃ row ∈ rows, unmarshal queue.codec row.1 row.2 = .ok job) ∧
      (found = none → ∀ row ∈ rows, ∀ job, unmarshal queue.codec row.1 row.2 = .ok job →
        ¬ job.typ = typ) := by
  induction rows with
  | nil => exact .inr ⟨none, rfl, nofun, nofun⟩
  | cons row rows ih =>
    unfold Queue.findType
    cases read : unmarshal queue.codec row.1 row.2 with
    | error fault => exact .inl ⟨fault, rfl, row, mem_cons_self, read⟩
    | ok job =>
      dsimp only
      by_cases same : job.typ = typ
      · rw [if_pos same]
        refine .inr ⟨some job, rfl, ?_, nofun⟩
        rintro _ ⟨⟩
        exact ⟨same, row, mem_cons_self, read⟩
      rw [if_neg same]
      obtain ⟨fault, ran, place, listed, refused⟩ | ⟨found, ran, isFound, missed⟩ := ih
      · exact .inl ⟨fault, ran, place, mem_cons_of_mem _ listed, refused⟩
      refine .inr ⟨found, ran, ?_, ?_⟩
      · intro other isOther
        obtain ⟨isType, place, listed, read⟩ := isFound other isOther
        exact ⟨isType, place, mem_cons_of_mem _ listed, read⟩
      · intro nothing other listed found isFound
        rcases mem_cons.mp listed with rfl | tail
        · cases read.symm.trans isFound
          exact same
        · exact missed nothing other tail found isFound

theorem looks_findType (queue : Queue) (typ : Bytes) :
    Looks queue.codec (fun job => job.typ = typ) (queue.findType typ) := by
  intro rows written
  refine (findType_cases queue typ rows).resolve_left ?_
  rintro ⟨fault, _, row, listed, refused⟩
  obtain ⟨job, stored⟩ := written row listed
  cases stored.read.symm.trans refused

def Ascending : Nat → List JobState → Prop
  | _, [] => True
  | rank, part :: rest => part.byte.toNat = rank + 1 ∧ Ascending (rank + 1) rest

theorem partition_eq_of_rank {state : State} (same : state.rank = part.byte.toNat) :
    state.partition = part := by
  have bytes : state.partition.byte = part.byte := UInt8.toNat_inj.mp same
  cases partition : state.partition
  cases part
  rw [partition] at bytes
  exact congrArg JobState.mk bytes

section Search

variable {wanted : Job → Prop} {look : List (Bytes × Bytes) → Result (Option Job)}
  {missing : Fault} {stores : Nat → Store} {finish : Nat}

theorem searchFrom_found (looks : Looks codec wanted look)
    (written : ∀ time, Written codec (stores time))
    {parts : List JobState} {rank start : Nat} {times : List Nat} {answer : Result Job}
    (runs : (Queue.searchFrom look missing tenant parts).Runs
      (times.map fun time => .observed (stores time)) answer)
    (ascending : Ascending rank parts) (sorted : times.Pairwise (· ≤ ·))
    (within : ∀ time ∈ times, start ≤ time ∧ time ≤ finish) (started : start ≤ finish)
    (cleared : Cleared codec tenant wanted rank (stores start))
    (forward : ∀ time, start ≤ time → time < finish →
      Forward codec tenant wanted (stores time) (stores (time + 1)))
    (present : ∀ time, start ≤ time → time ≤ finish →
      ∃ job, Held codec tenant (stores time) job ∧ wanted job ∧
        job.state.rank ≤ rank + parts.length) :
    ∃ job, answer = .ok job ∧ wanted job ∧ job.state.rank ≤ rank + parts.length ∧
      ∃ time ∈ times, Held codec tenant (stores time) job := by
  induction parts generalizing rank start times with
  | nil =>
    obtain ⟨job, held, isWanted, below⟩ := present start le_rfl started
    have above := cleared job held isWanted
    rw [length_nil, Nat.add_zero] at below
    exact absurd above (not_lt.mpr below)
  | cons part parts ih =>
    obtain ⟨isNext, rest⟩ := ascending
    obtain ⟨state, moments, same, goesOn⟩ := runs.observe_bind
    obtain ⟨time, later, rfl, isState, rfl⟩ := map_eq_cons_iff.mp same
    cases isState
    obtain ⟨first, sorted⟩ := pairwise_cons.mp sorted
    obtain ⟨after, before⟩ := within time mem_cons_self
    have stillCleared := cleared.later after fun other above below =>
      forward other above (by omega)
    obtain ⟨found, ran, isFound, missed⟩ :=
      looks _ ((written time).scanned tenant part)
    rw [ran] at goesOn
    cases found with
    | some job =>
      obtain ⟨isWanted, row, listed, read⟩ := isFound job rfl
      obtain ⟨_, rfl⟩ := Program.runs_ret_iff.mp goesOn
      obtain ⟨held, isPart⟩ := held_of_mem_scan listed read
      refine ⟨job, rfl, isWanted, ?_, time, mem_cons_self, held⟩
      rw [State.rank, isPart, isNext, length_cons]
      omega
    | none =>
      have nowCleared : Cleared codec tenant wanted (rank + 1) (stores time) := by
        intro job held isWanted
        have above := stillCleared job held isWanted
        by_contra below
        have isRank : job.state.rank = part.byte.toNat := by omega
        obtain ⟨row, listed, read⟩ := held.mem_scan
        rw [partition_eq_of_rank isRank] at listed
        exact missed rfl row listed job read isWanted
      obtain ⟨job, isAnswer, isWanted, below, place, listed, held⟩ := ih
        goesOn rest sorted (fun other isLater => ⟨first other isLater,
          (within other (mem_cons_of_mem _ isLater)).2⟩) before nowCleared
        (fun other above => forward other (after.trans above))
        (fun other above below => by
          obtain ⟨job, held, isWanted, below⟩ := present other (after.trans above) below
          exact ⟨job, held, isWanted, by rw [length_cons] at below; omega⟩)
      exact ⟨job, isAnswer, isWanted, by rw [length_cons]; omega, place,
        mem_cons_of_mem _ listed, held⟩

end Search

variable {look : List (Bytes × Bytes) → Result (Option Job)} {missing : Fault}
  {rest : List JobState}

theorem runs_searchFrom_append {missed : List JobState} {states : List Store}
    {moments : List (Moment Store (Labelled Deed) Fault)} {answer : Result Job}
    (misses : List.Forall₂ (fun part store => look (scanRange store (jobStateRange tenant
      defaultNamespace part)) = .ok none) missed states)
    (runs : (Queue.searchFrom look missing tenant rest).Runs moments answer) :
    (Queue.searchFrom look missing tenant (missed ++ rest)).Runs
      (states.map .observed ++ moments) answer := by
  induction misses with
  | nil => exact runs
  | cons miss _ ih =>
    refine .read _ ?_
    change Program.Runs (match look _ with
      | .error fault => _
      | .ok (some job) => _
      | .ok none => _) _ _
    rw [miss]
    exact ih

theorem runs_searchFrom_cons
    (found : look (scanRange store (jobStateRange tenant defaultNamespace part)) = .ok (some job)) :
    (Queue.searchFrom look missing tenant (part :: rest)).Runs [.observed store] (.ok job) := by
  refine .read _ ?_
  change Program.Runs (match look _ with
    | .error fault => _
    | .ok (some job) => _
    | .ok none => _) _ _
  rw [found]
  exact .ret _

theorem rank_pos (state : State) : 0 < state.rank := by
  unfold State.rank State.partition
  split
  · decide
  · split <;> decide

theorem rank_le (state : State) : state.rank ≤ 3 := by
  unfold State.rank State.partition
  split
  · decide
  · split <;> decide

/-- A job that exists is found, as long as it is not moved back. In every schedule from an
empty job space, for a lookup whose scans read the store at instants of the schedule one after
the other: where the tenant has the job at every instant of the call and no step of it puts the
job into an earlier partition, `Get` returns a row of the job; where a job of the type is waiting
or running at every instant and no step puts such a job into an earlier partition or enqueues
one, `Outstanding` returns such a job. -/
theorem lookup_finds_job (queue : Queue) (initial : Store) (vacant : Vacant initial)
    (schedule : List (Action Call))
    (distinct : queue.system.Distinct (queue.system.run initial schedule))
    (tenant : TenantId) (times : List Nat) (start finish : Nat) (sorted : times.Pairwise (· ≤ ·))
    (within : ∀ time ∈ times, start ≤ time ∧ time ≤ finish) (started : start ≤ finish) :
    let stores := fun time => (queue.system.run initial (schedule.take time)).state
    let moments := times.map fun time => .observed (stores time)
    (∀ jid answer, (queue.get tenant jid).Runs moments answer →
      (∀ time, start ≤ time → time ≤ finish →
        ∃ job, Held queue.codec tenant (stores time) job ∧ job.jid = jid) →
      (∀ time, start ≤ time → time < finish →
        Forward queue.codec tenant (fun job => job.jid = jid) (stores time) (stores (time + 1))) →
      ∃ job, answer = .ok job ∧ job.jid = jid ∧
        ∃ time ∈ times, Held queue.codec tenant (stores time) job) ∧
    (∀ typ answer, (queue.outstanding tenant typ).Runs moments answer →
      (∀ time, start ≤ time → time ≤ finish →
        ∃ job, Held queue.codec tenant (stores time) job ∧ job.typ = typ ∧
          job.state.partition ≠ .done) →
      (∀ time, start ≤ time → time < finish →
        Forward queue.codec tenant (fun job => job.typ = typ) (stores time) (stores (time + 1))) →
      ∃ job, answer = .ok job ∧ job.typ = typ ∧ job.state.partition ≠ .done ∧
        ∃ time ∈ times, Held queue.codec tenant (stores time) job) := by
  intro stores moments
  have written : ∀ time, Written queue.codec (stores time) := fun time =>
    (kept_run queue vacant _ (System.distinct_take distinct time)).holds.orderly.written
  have cleared : ∀ wanted, Cleared queue.codec tenant wanted 0 (stores start) :=
    fun _ job _ _ => rank_pos job.state
  have tenanted : ∀ job, Held queue.codec tenant (stores start) job → tenant ≠ [] := by
    rintro job ⟨key, value, _, inside, read⟩
    obtain ⟨rfl, _⟩ := (inSpace_key (unmarshal_place read).1).mp inside
    exact (Job.key_eq_ok_iff.mp (unmarshal_place read).1).1
  refine ⟨?_, ?_⟩
  · intro jid answer runs present forward
    obtain ⟨job, held, _⟩ := present start le_rfl started
    rw [Queue.get, if_neg (tenanted job held), Queue.getFrom_eq_searchFrom] at runs
    obtain ⟨found, isAnswer, isId, _, place⟩ := searchFrom_found (fun rows => findJob_spec) written
      runs ⟨rfl, rfl, rfl, trivial⟩ sorted within started (cleared _) forward
      (fun time above below => by
        obtain ⟨job, held, isId⟩ := present time above below
        exact ⟨job, held, isId, rank_le job.state⟩)
    exact ⟨found, isAnswer, isId, place⟩
  · intro typ answer runs present forward
    obtain ⟨job, held, _⟩ := present start le_rfl started
    rw [Queue.outstanding, if_neg (tenanted job held)] at runs
    obtain ⟨found, isAnswer, isType, below, place⟩ := searchFrom_found (looks_findType queue typ)
      written runs ⟨rfl, rfl, trivial⟩ sorted within started (cleared _) forward
      (fun time above below => by
        obtain ⟨job, held, isType, live⟩ := present time above below
        refine ⟨job, held, isType, ?_⟩
        have most := rank_le job.state
        by_contra more
        have last : job.state.rank = JobState.done.byte.toNat := by
          change job.state.rank = 3
          change ¬ job.state.rank ≤ 2 at more
          omega
        exact live (partition_eq_of_rank last))
    refine ⟨found, isAnswer, isType, ?_, place⟩
    intro isDone
    rw [State.rank, isDone] at below
    exact absurd below (by decide)

def readAt (codec : JobCodec) (store : Store) (key : Bytes) : Option Job := do
  (unmarshal codec key (← store.get key)).toOption

theorem held_of_readAt {key : Bytes} (inside : InSpace tenant key)
    (read : readAt codec store key = some job) : Held codec tenant store job := by
  obtain ⟨value, found, isJob⟩ := bind_eq_some_iff.mp read
  refine ⟨key, value, found, inside, ?_⟩
  cases result : unmarshal codec key value with
  | error fault =>
    rw [result] at isJob
    cases isJob
  | ok other =>
    rw [result] at isJob
    cases isJob
    rfl

/-- The job waits when the call of `Get` begins, and is claimed before its first scan. -/
theorem lookup_finds_job_claimed :
    let queue : Queue := ⟨blockCodec, 60000000000⟩
    let store := (queue.system.run .empty claimedRun).state
    ∃ answer, (queue.get (ascii "acme") (Id.filled 1)).Runs [.observed store, .observed store]
      answer ∧ ∃ job, answer = .ok job ∧ job.jid = Id.filled 1 ∧
        Held queue.codec (ascii "acme") store job := by
  intro queue store
  let key := Keys.job (ascii "acme") defaultNamespace .running 62000 (Id.filled 1)
  have read : (readAt queue.codec store key).map Job.jid = some (Id.filled 1) := by
    decide +kernel
  obtain ⟨job, isJob, isId⟩ := map_eq_some_iff.mp read
  have held : Held queue.codec (ascii "acme") store job :=
    held_of_readAt (prefix_append _ _) isJob
  have runs : ∃ answer, (queue.get (ascii "acme") (Id.filled 1)).Runs
      [.observed store, .observed store] answer := by
    have misses : List.Forall₂ (fun part store => queue.findJob (Id.filled 1)
        (scanRange store (jobStateRange (ascii "acme") defaultNamespace part)) = .ok none)
        [.pending] [store] := by
      decide +kernel
    have looked : (queue.findJob (Id.filled 1) (scanRange store (jobStateRange (ascii "acme")
        defaultNamespace .running))).toOption.join.isSome = true := by
      decide +kernel
    rw [Queue.get, if_neg (by decide), Queue.getFrom_eq_searchFrom]
    cases result : queue.findJob (Id.filled 1) (scanRange store (jobStateRange (ascii "acme")
        defaultNamespace .running)) with
    | error fault =>
      rw [result] at looked
      cases looked
    | ok found =>
      cases found with
      | none =>
        rw [result] at looked
        cases looked
      | some other =>
        exact ⟨.ok other, runs_searchFrom_append misses (runs_searchFrom_cons result)⟩
  obtain ⟨answer, runs⟩ := runs
  let stores := fun time => (queue.system.run .empty (claimedRun.take time)).state
  have waiting : ∀ time, 2 ≤ time → time < 5 → ∃ job, Held queue.codec (ascii "acme")
      (stores time) job ∧ job.jid = Id.filled 1 ∧ job.state.rank = 1 := by
    intro time above below
    have read : (readAt queue.codec (stores time) (Keys.job (ascii "acme") defaultNamespace
        .pending 1000 (Id.filled 1))).map (fun job => (job.jid, job.state.rank)) =
        some (Id.filled 1, 1) := by
      interval_cases time <;> decide +kernel
    obtain ⟨job, isJob, same⟩ := map_eq_some_iff.mp read
    obtain ⟨isId, isRank⟩ := Prod.ext_iff.mp same
    exact ⟨job, held_of_readAt (prefix_append _ _) isJob, isId, isRank⟩
  have stays : ∀ time, 2 ≤ time → time ≤ 5 → ∃ job, Held queue.codec (ascii "acme")
      (stores time) job ∧ job.jid = Id.filled 1 := by
    intro time above below
    rcases below.lt_or_eq with before | rfl
    · obtain ⟨job, held, isId, _⟩ := waiting time above before
      exact ⟨job, held, isId⟩
    · exact ⟨job, held, isId⟩
  have forward : ∀ time, 2 ≤ time → time < 5 → Forward queue.codec (ascii "acme")
      (fun job => job.jid = Id.filled 1) (stores time) (stores (time + 1)) := by
    intro time above below job _ _
    obtain ⟨earlier, held, isId, isRank⟩ := waiting time above below
    exact ⟨earlier, held, isId, isRank ▸ rank_pos job.state⟩
  obtain ⟨found, isAnswer, isFound, time, listed, isHeld⟩ := (lookup_finds_job queue .empty
    (fun _ _ _ _ => rfl) claimedRun (distinct_claimedRun queue .empty) (ascii "acme") [5, 5] 2 5
    (by decide) (by decide) (by decide)).1 (Id.filled 1) answer runs stays forward
  obtain rfl : time = 5 := by simpa using listed
  exact ⟨answer, runs, found, isAnswer, isFound, isHeld⟩

def reclaimedRun : List (Action Call) :=
  claimedRun ++ [.spawn (.reclaim 100000000000 (ascii "acme") 1), .act 2, .act 2]

/-- `Get` and `Outstanding` scan the waiting jobs while the job runs, and the running ones once
it has been reclaimed and waits again: neither finds it, though it has a row at every instant. -/
theorem lookup_misses_reclaimed :
    let queue : Queue := ⟨blockCodec, 60000000000⟩
    let stores := fun time => (queue.system.run .empty (reclaimedRun.take time)).state
    (∀ time, 5 ≤ time → time ≤ 8 → ∃ job, Held queue.codec (ascii "acme") (stores time) job ∧
      job.jid = Id.filled 1 ∧ job.typ = ascii "text.rebuild" ∧ job.state.partition ≠ .done) ∧
    (∃ fault, (queue.get (ascii "acme") (Id.filled 1)).Runs
      ([5, 8, 8].map fun time => .observed (stores time)) (.error fault) ∧ fault.kind = .notFound) ∧
    ∃ fault, (queue.outstanding (ascii "acme") (ascii "text.rebuild")).Runs
      ([5, 8].map fun time => .observed (stores time)) (.error fault) ∧ fault.kind = .notFound := by
  intro queue stores
  refine ⟨?_, ⟨⟨.notFound, "jobs.Get", "no job %s in tenant %s",
      [.bytes (Id.filled 1).bytes, .bytes (ascii "acme")]⟩, ?_, rfl⟩,
    ⟨⟨.notFound, "jobs.Outstanding", "tenant %s has no waiting or running job of type %s",
      [.bytes (ascii "acme"), .bytes (ascii "text.rebuild")]⟩, ?_, rfl⟩⟩
  · intro time above below
    have present : ∃ part due, (readAt queue.codec (stores time) (Keys.job (ascii "acme")
        defaultNamespace part due (Id.filled 1))).map (fun job =>
          (job.jid, job.typ, decide (job.state.partition = .done))) =
        some (Id.filled 1, ascii "text.rebuild", false) := by
      by_cases before : time ≤ 7
      · refine ⟨.running, 62000, ?_⟩
        interval_cases time <;> decide +kernel
      · obtain rfl : time = 8 := by omega
        exact ⟨.pending, 100000, by decide +kernel⟩
    obtain ⟨part, due, evaluated⟩ := present
    obtain ⟨job, read, same⟩ := map_eq_some_iff.mp evaluated
    obtain ⟨isId, rest⟩ := Prod.ext_iff.mp same
    obtain ⟨isType, live⟩ := Prod.ext_iff.mp rest
    exact ⟨job, held_of_readAt (prefix_append _ _) read, isId, isType, of_decide_eq_false live⟩
  · rw [Queue.get, if_neg (by decide), Queue.getFrom_eq_searchFrom]
    have misses : List.Forall₂ (fun part store => queue.findJob (Id.filled 1)
        (scanRange store (jobStateRange (ascii "acme") defaultNamespace part)) = .ok none)
        [.pending, .running, .done] [stores 5, stores 8, stores 8] := by
      decide +kernel
    exact runs_searchFrom_append misses (.ret _)
  · rw [Queue.outstanding, if_neg (by decide)]
    have misses : List.Forall₂ (fun part store => queue.findType (ascii "text.rebuild")
        (scanRange store (jobStateRange (ascii "acme") defaultNamespace part)) = .ok none)
        [.pending, .running] [stores 5, stores 8] := by
      decide +kernel
    exact runs_searchFrom_append misses (.ret _)

end Remem.Jobs
