import Remem.Base.Solo
import Remem.Jobs.OnePlace

/-!
# Jobs that the calls of the queue find

A job's key is made from its own fields, and claiming, looking up, listing and reaping make
their ranges from their own arguments. Where a tenant has one job only, and it is in the
default namespace, each of them meets it.
-/

namespace Remem.Jobs

open List Function

open Base Keys Storage

def defaultListLimit : Int := 50

def maxListLimit : Int := 500

structure Filter where
  states : List State := []
  types : List Bytes := []
  limit : Int := 0

namespace Filter

variable (filter : Filter)

def wants (job : Job) : Bool :=
  if !Queue.wanted job.typ filter.types then false
  else filter.states = [] || filter.states.contains job.state

def partitions : List JobState :=
  let all := [.pending, .running, .done]
  if filter.states = [] then all
  else all.filter fun part => filter.states.any fun state => state.partition = part

def bound : Int :=
  if filter.limit ≤ 0 then defaultListLimit
  else if maxListLimit < filter.limit then maxListLimit
  else filter.limit

end Filter

namespace Queue

variable (queue : Queue)

/-- The loop of `List` over the rows of one partition. -/
def listRows (filter : Filter) : List (Bytes × Bytes) → List Job → Result (List Job)
  | [], out => .ok out
  | (key, value) :: rest, out =>
    match unmarshal queue.codec key value with
    | .error fault => .error fault
    | .ok job =>
      if !filter.wants job then listRows filter rest out
      else
        let out := out ++ [job]
        if out.length = filter.bound then .ok out else listRows filter rest out

def listFrom (tenant : TenantId) (filter : Filter) :
    List JobState → List Job → QueueProgram (Result (List Job))
  | [], out => .ret (.ok out)
  | part :: rest, out =>
    if out.length = filter.bound then .ret (.ok out)
    else do
      match ← Program.observe fun store => queue.listRows filter
          (scanRange store (jobStateRange tenant defaultNamespace part)) out with
      | .error fault => return .error fault
      | .ok out => listFrom tenant filter rest out

def list (tenant : TenantId) (filter : Filter) : QueueProgram (Result (List Job)) :=
  if tenant = [] then
    .ret (.error ⟨.invalid, "jobs.List",
      "listing jobs requires a tenant: there is no unscoped read path (Invariant 1)", []⟩)
  else queue.listFrom tenant filter filter.partitions []

end Queue

def applied (payload : Labelled Deed) (store : Store) : Result Store := payload.batch.commit store

def only (job : Job) : Ledger := Function.update (fun _ => none) job.jid (some job)

def Sole (codec : JobCodec) (store : Store) (job : Job) : Prop :=
  Represents codec job.tenant store (only job)

variable {queue : Queue} {codec : JobCodec} {store : Store} {job next : Job} {key value : Bytes}

theorem only_self (job : Job) : only job job.jid = some job := update_self ..

theorem sole_settled (isKey : job.key = .ok key) (written : marshal codec job = .ok value)
    (placed : job.resolved = defaultNamespace) (found : store.get key = some value)
    (alone : ∀ other row, store.get other = some row → InSpace job.tenant other → other = key) :
    Sole codec store (job.settled key) := by
  have free : ∀ other, InSpace job.tenant other → (store.erase key).get other = none := by
    intro other inside
    by_cases same : other = key
    · rw [same, OrderedMap.get_erase_self]
    rw [OrderedMap.get_erase_of_ne _ same]
    cases isRow : store.get other with
    | none => rfl
    | some row => exact absurd (alone other row isRow inside) same
  have written := (Represents.empty free).set isKey written ((inSpace_key isKey).mpr ⟨rfl, placed⟩)
    rfl
  apply written.congr
  intro other _
  by_cases same : other = key
  · rw [same, OrderedMap.get_set_self, found]
  · rw [OrderedMap.get_set_of_ne _ _ same, OrderedMap.get_erase_of_ne _ same]

namespace Sole

theorem row (sole : Sole codec store job) : IsRow codec job.tenant store job :=
  (sole.rows job.jid job (only_self job)).2

theorem stored (sole : Sole codec store job) (found : store.get job.stored = some value) :
    Stored codec job.stored value job := by
  obtain ⟨held, isHeld, stored⟩ := sole.row.found
  cases found.symm.trans isHeld
  exact stored

theorem eq_stored (sole : Sole codec store job) {other row : Bytes}
    (found : store.get other = some row) (inside : InSpace job.tenant other) :
    other = job.stored := by
  obtain ⟨read, stored, listed⟩ := sole.decodes other row found inside
  by_cases same : read.jid = job.jid
  · rw [same, only_self] at listed
    cases listed
    exact (unmarshal_place stored.read).2.symm
  · rw [only, update_of_ne same] at listed
    cases listed

variable {range : KeyRange}

theorem scanRange_of_contains (sole : Sole codec store job)
    (found : store.get job.stored = some value)
    (narrow : ∀ other, range.Contains other → InSpace job.tenant other)
    (meets : range.Contains job.stored) : scanRange store range = [(job.stored, value)] :=
  OrderedMap.scan_eq_singleton found (decide_eq_true meets) fun _ _ isRow within =>
    sole.eq_stored isRow (narrow _ (of_decide_eq_true within))

theorem scanRange_of_not_contains (sole : Sole codec store job)
    (narrow : ∀ other, range.Contains other → InSpace job.tenant other)
    (misses : ¬ range.Contains job.stored) : scanRange store range = [] := by
  apply OrderedMap.scan_eq_nil
  intro other row isRow
  apply decide_eq_false
  intro within
  rw [sole.eq_stored isRow (narrow other within)] at within
  exact misses within

theorem place (sole : Sole codec store job) : ∃ due, job.due = some due ∧
    job.stored = Keys.job job.tenant defaultNamespace job.state.partition (unixMilli due)
      job.jid := by
  obtain ⟨_, due, isDue, place⟩ := Job.key_eq_ok_iff.mp sole.row.isKey
  rw [sole.row.namespaceName] at place
  exact ⟨due, isDue, place⟩

end Sole

variable {tenant : TenantId} {part : JobState} {other : Bytes}

theorem inSpace_of_jobStateRange
    (inside : (jobStateRange tenant defaultNamespace part).Contains other) : InSpace tenant other :=
  (prefix_append _ _).trans ((contains_prefixRange _ _).mp inside)

variable {bound : UInt64}

theorem inSpace_of_jobDueRange
    (inside : (jobDueRange tenant defaultNamespace part bound).Contains other) :
    InSpace tenant other :=
  (prefix_append _ _).trans (isPrefix_of_contains_jobDueRange inside)

theorem contains_jobStateRange_job {tenant : TenantId} {ns : Namespace}
    {part state : JobState} {due : UInt64} {jid : Id} :
    (jobStateRange tenant ns part).Contains (Keys.job tenant ns state due jid) ↔ part = state := by
  rw [jobStateRange, contains_prefixRange, Keys.job, prefix_append_right_inj, cons_prefix_cons]
  constructor
  · rintro ⟨same, _⟩
    cases part
    cases state
    exact congrArg JobState.mk same
  · rintro rfl
    exact ⟨rfl, nil_prefix⟩

theorem mem_partitions (state : State) : state.partition ∈ [JobState.pending, .running, .done] := by
  unfold State.partition
  split
  · decide
  · split <;> decide

namespace Sole

theorem scanRange_partition (sole : Sole codec store job)
    (found : store.get job.stored = some value) (part : JobState) :
    scanRange store (jobStateRange job.tenant defaultNamespace part) =
      if part = job.state.partition then [(job.stored, value)] else [] := by
  obtain ⟨due, _, place⟩ := sole.place
  have meets := @contains_jobStateRange_job job.tenant defaultNamespace part
    job.state.partition (unixMilli due) job.jid
  rw [← place] at meets
  split
  · next same =>
    exact sole.scanRange_of_contains found (fun _ => inSpace_of_jobStateRange) (meets.mpr same)
  · next other =>
    exact sole.scanRange_of_not_contains (fun _ => inSpace_of_jobStateRange) (mt meets.mp other)

end Sole

theorem findJob_spec {jid : Id} {rows : List (Bytes × Bytes)}
    (written : ∀ row ∈ rows, ∃ job, Stored queue.codec row.1 row.2 job) :
    ∃ found, queue.findJob jid rows = .ok found ∧ (∀ job, found = some job → job.jid = jid ∧
        ∃ row ∈ rows, unmarshal queue.codec row.1 row.2 = .ok job) ∧
      (found = none → ∀ row ∈ rows, ∀ job, unmarshal queue.codec row.1 row.2 = .ok job →
        job.jid ≠ jid) := by
  induction rows with
  | nil => exact ⟨none, rfl, nofun, nofun⟩
  | cons row rows ih =>
    obtain ⟨found, ran, isFound, missed⟩ := ih fun other listed =>
      written other (mem_cons_of_mem _ listed)
    obtain ⟨job, stored⟩ := written row mem_cons_self
    obtain ⟨parsed, isParsed, sameId⟩ := parseJob_of_unmarshal stored.read
    unfold Queue.findJob
    rw [isParsed]
    dsimp only
    by_cases wanted : parsed.jid = jid
    · rw [if_neg (not_not.mpr wanted), stored.read]
      refine ⟨some job, rfl, ?_, nofun⟩
      rintro _ ⟨⟩
      exact ⟨sameId ▸ wanted, row, mem_cons_self, stored.read⟩
    rw [if_pos wanted]
    refine ⟨found, ran, ?_, ?_⟩
    · intro other isOther
      obtain ⟨isId, place, listed, read⟩ := isFound other isOther
      exact ⟨isId, place, mem_cons_of_mem _ listed, read⟩
    · intro nothing other listed read isRead
      rcases mem_cons.mp listed with rfl | tail
      · cases stored.read.symm.trans isRead
        exact sameId ▸ wanted
      · exact missed nothing other tail read isRead

theorem read_of_findJob {jid : Id} {rows : List (Bytes × Bytes)} {job : Job}
    (found : queue.findJob jid rows = .ok (some job)) :
    ∃ row ∈ rows, unmarshal queue.codec row.1 row.2 = .ok job := by
  induction rows with
  | nil => cases found
  | cons row rows ih =>
    unfold Queue.findJob at found
    split at found
    · cases found
    split at found
    · obtain ⟨later, listed, read⟩ := ih found
      exact ⟨later, mem_cons_of_mem _ listed, read⟩
    split at found
    · cases found
    next read =>
    cases found
    exact ⟨row, mem_cons_self, read⟩

theorem findJob_self (stored : Stored queue.codec key value job) :
    queue.findJob job.jid [(key, value)] = .ok (some job) := by
  obtain ⟨found, ran, isFound, missed⟩ := @findJob_spec queue job.jid [(key, value)] (by
    rintro row listed
    rw [mem_singleton.mp listed]
    exact ⟨job, stored⟩)
  rw [ran]
  cases found with
  | none => exact absurd rfl (missed rfl _ (mem_singleton.mpr rfl) job stored.read)
  | some other =>
    obtain ⟨_, row, listed, read⟩ := isFound other rfl
    rw [mem_singleton.mp listed] at read
    rw [stored.eq read]

variable {parts : List JobState}

theorem Sole.ends_getFrom (sole : Sole queue.codec store job)
    (listed : job.state.partition ∈ parts) :
    (queue.getFrom job.tenant job.jid parts).Ends applied store (.ok job) store := by
  obtain ⟨value, found, stored⟩ := sole.row.found
  induction parts with
  | nil => cases listed
  | cons part parts ih =>
    unfold Queue.getFrom
    apply Program.ends_observe_bind_iff.mpr
    rw [sole.scanRange_partition found]
    by_cases same : part = job.state.partition
    · rw [if_pos same, findJob_self stored]
      exact Program.ends_ret _ _
    · rw [if_neg same]
      exact ih ((mem_cons.mp listed).resolve_left (Ne.symm same))

theorem Sole.ends_get (sole : Sole queue.codec store job) :
    (queue.get job.tenant job.jid).Ends applied store (.ok job) store := by
  obtain ⟨value, _, stored⟩ := sole.row.found
  rw [Queue.get, if_neg stored.tenanted]
  exact sole.ends_getFrom (mem_partitions job.state)

theorem Filter.bound_pos (filter : Filter) : 0 < filter.bound := by
  unfold Filter.bound
  split
  · decide
  split
  · decide
  · omega

variable {filter : Filter}

theorem mem_partitions_of_wants (wants : filter.wants job = true) :
    job.state.partition ∈ filter.partitions := by
  unfold Filter.partitions
  unfold Filter.wants at wants
  split
  · exact mem_partitions job.state
  next restricted =>
  split at wants
  · cases wants
  rw [decide_eq_false restricted, Bool.false_or, contains_iff_mem] at wants
  refine mem_filter.mpr ⟨mem_partitions job.state, ?_⟩
  exact any_eq_true.mpr ⟨job.state, wants, decide_eq_true rfl⟩

theorem nodup_partitions (filter : Filter) : filter.partitions.Nodup := by
  have all : [JobState.pending, .running, .done].Nodup := by decide
  unfold Filter.partitions
  split
  · exact all
  · exact all.filter _

theorem listRows_self (wants : filter.wants job = true)
    (stored : Stored queue.codec key value job) :
    queue.listRows filter [(key, value)] [] = .ok [job] := by
  unfold Queue.listRows
  rw [stored.read]
  dsimp only
  rw [wants, if_neg (by decide)]
  dsimp only [nil_append]
  split <;> rfl

theorem Sole.ends_listFrom (sole : Sole queue.codec store job) (wants : filter.wants job = true)
    (nodup : parts.Nodup) :
    (job.state.partition ∈ parts →
      (queue.listFrom job.tenant filter parts []).Ends applied store (.ok [job]) store) ∧
    (job.state.partition ∉ parts →
      (queue.listFrom job.tenant filter parts [job]).Ends applied store (.ok [job]) store) := by
  obtain ⟨value, found, stored⟩ := sole.row.found
  induction parts with
  | nil => exact ⟨nofun, fun _ => Program.ends_ret _ _⟩
  | cons part parts ih =>
    obtain ⟨notLater, rest⟩ := nodup_cons.mp nodup
    obtain ⟨before, after⟩ := ih rest
    have positive := filter.bound_pos
    constructor
    · intro listed
      unfold Queue.listFrom
      rw [if_neg (by rw [length_nil]; omega)]
      apply Program.ends_observe_bind_iff.mpr
      rw [sole.scanRange_partition found]
      by_cases same : part = job.state.partition
      · rw [if_pos same, listRows_self wants stored]
        exact after (same ▸ notLater)
      · rw [if_neg same]
        exact before ((mem_cons.mp listed).resolve_left (Ne.symm same))
    · intro unlisted
      obtain ⟨other, later⟩ := not_or.mp (mt mem_cons.mpr unlisted)
      unfold Queue.listFrom
      split
      · exact Program.ends_ret _ _
      apply Program.ends_observe_bind_iff.mpr
      rw [sole.scanRange_partition found, if_neg (Ne.symm other)]
      exact after later

theorem Sole.ends_list (sole : Sole queue.codec store job) (wants : filter.wants job = true) :
    (queue.list job.tenant filter).Ends applied store (.ok [job]) store := by
  obtain ⟨value, _, stored⟩ := sole.row.found
  rw [Queue.list, if_neg stored.tenanted]
  exact (sole.ends_listFrom wants (nodup_partitions filter)).1 (mem_partitions_of_wants wants)

theorem Sole.moved {batch : Batch} (sole : Sole codec store job)
    (moves : Moves codec batch job next) (accepts : batch.Accepts store) :
    ∃ newKey, next.key = .ok newKey ∧ Sole codec (batch.effect store) (next.settled newKey) := by
  obtain ⟨_, newKey, isKey, represents⟩ := moves.settles sole.row.inSpace sole accepts
  obtain ⟨_, _, _, _, _, _, ⟨jid, tenant, _⟩, _⟩ := moves
  refine ⟨newKey, isKey, ?_⟩
  rw [Sole, only]
  change Represents codec next.tenant _ (Function.update _ next.jid _)
  rw [jid, tenant]
  rw [only, update_idem] at represents
  exact represents

theorem Sole.ends_move (sole : Sole queue.codec store job)
    (found : store.get job.stored = some value) (next : Job) (jid : next.jid = job.jid)
    (tenant : next.tenant = job.tenant) (ns : next.namespaceName = job.namespaceName)
    {newKey newValue : Bytes} (isKey : next.key = .ok newKey)
    (written : marshal queue.codec next = .ok newValue) (deed : Deed) :
    ∃ after, (queue.move job.stored value next deed).Ends applied store
        (.ok { next with stored := newKey }) after ∧
      Sole queue.codec after (next.settled newKey) := by
  have moves := moves_moveBatch (sole.stored found).read isKey written jid tenant
    (by rw [Job.resolved, Job.resolved, ns])
  have accepts := accepts_moveBatch found newKey newValue
  obtain ⟨settledKey, isSettled, after⟩ := sole.moved moves accepts
  cases isKey.symm.trans isSettled
  refine ⟨_, ?_, after⟩
  unfold Queue.move
  rw [isKey]
  dsimp only
  rw [written]
  exact Program.ends_attempt_bind (Batch.commit_of_accepts accepts) (Program.ends_ret _ _)

theorem dueLoop_self {want : Int} (stored : Stored queue.codec key value job) :
    queue.dueLoop [] want [(key, value)] 0 [] = .ok [⟨key, value, job⟩] := by
  unfold Queue.dueLoop
  rw [if_neg (by decide), stored.read]
  dsimp only
  rw [if_neg (by simp [Queue.wanted])]
  dsimp only [nil_append]
  split <;> rfl

theorem Sole.scanRange_due (sole : Sole codec store job) (found : store.get job.stored = some value)
    {due : Time} (isDue : job.due = some due) (ripe : unixMilli due ≤ bound) :
    scanRange store (jobDueRange job.tenant defaultNamespace job.state.partition bound) =
      [(job.stored, value)] := by
  obtain ⟨placed, isPlaced, place⟩ := sole.place
  cases isDue.symm.trans isPlaced
  apply sole.scanRange_of_contains found fun _ => inSpace_of_jobDueRange
  rw [place]
  exact contains_jobDueRange ripe

theorem Job.due_of_pending (pending : job.state.partition = .pending) :
    job.due = some job.runAt := by
  rw [Job.due, pending]
  rfl

theorem Job.due_of_done (done : job.state.partition = .done) : job.due = some job.updatedAt := by
  rw [Job.due, done]
  rfl

variable {now : Time}

theorem Sole.ends_claim (sole : Sole queue.codec store job)
    (pending : job.state.partition = .pending) (ripe : unixMilli job.runAt ≤ unixMilli now)
    {owner : Bytes} (named : owner ≠ []) (text : validUtf8 owner = true) {n : Int}
    (positive : 1 ≤ n) (tokens : Nat → Id) :
    ∃ newKey after, (queue.claim now job.tenant owner [] n tokens).Ends applied store
        (.jobs [{ queue.leased now owner (tokens 0) job with stored := newKey }] none) after ∧
      Sole queue.codec after ((queue.leased now owner (tokens 0) job).settled newKey) := by
  obtain ⟨value, found, stored⟩ := sole.row.found
  obtain ⟨newKey, isKey⟩ := exists_key (queue.leased now owner (tokens 0) job) stored.tenanted
    nofun
  obtain ⟨newValue, written⟩ := exists_marshal (queue.leased now owner (tokens 0) job) stored
    rfl rfl rfl rfl rfl rfl (.inl rfl) (by rintro _ ⟨⟩; exact text)
  obtain ⟨after, moves, settled⟩ := sole.ends_move found
    (queue.leased now owner (tokens 0) job) rfl rfl rfl isKey written
    (.claimed job.tenant job.jid (tokens 0))
  refine ⟨newKey, after, ?_, settled⟩
  have scanned := sole.scanRange_due found (Job.due_of_pending pending) ripe
  rw [pending] at scanned
  rw [Queue.claim, if_neg stored.tenanted, if_neg named, if_neg (by omega)]
  apply Program.ends_observe_bind_iff.mpr
  rw [scanned, dueLoop_self stored]
  change (queue.claimLoop now owner n tokens [⟨job.stored, value, job⟩] 0 []).Ends _ _ _ _
  rw [Queue.claimLoop, if_neg (by rw [length_nil]; omega)]
  dsimp only
  exact moves.bind (Program.ends_ret _ _)

def cancelledJob (now : Time) (job : Job) : Job :=
  { job with
    state := .cancelled
    lease := none
    updatedAt := now
    lastError := ascii "cancelled by an operator" }

theorem fence_self (op : String) (job : Job) : Queue.fence op job job = .ok () := by
  unfold Queue.fence
  cases job.lease with
  | none => rfl
  | some lease => exact if_neg (not_not.mpr rfl)

variable {later : Time} {result : Job} {after : Store}

theorem Sole.transition (sole : Sole queue.codec store job) (apply : Job → Job) {run : Option Run}
    {deed : TenantId → Id → Option Id → Deed}
    (same : ∀ job, (apply job).jid = job.jid ∧ (apply job).tenant = job.tenant ∧ (apply
      job).namespaceName = job.namespaceName)
    (ends : (queue.transition job apply run later deed).Ends applied store (.ok result) after) :
    ∃ newKey, Sole queue.codec after ((apply job).settled newKey) := by
  obtain ⟨value, found, stored⟩ := sole.row.found
  unfold Queue.transition at ends
  dsimp only at ends
  rw [if_neg stored.tenanted] at ends
  split at ends
  · cases ends.1
  rw [Program.ends_observe_bind_iff, found] at ends
  dsimp only at ends
  split at ends
  · cases ends.1
  next cur next newKey tx prepared =>
  obtain ⟨read, rfl, _, moves⟩ := prepare_spec same prepared
  cases stored.read.symm.trans read
  rw [Program.ends_attempt_bind_iff] at ends
  by_cases accepts : tx.Accepts store
  · rw [applied, Batch.commit_of_accepts accepts] at ends
    obtain ⟨_, rfl⟩ := ends
    obtain ⟨settledKey, _, settled⟩ := sole.moved moves accepts
    exact ⟨settledKey, settled⟩
  · rw [applied, Batch.commit_conflict accepts] at ends
    cases ends.1

theorem Sole.cancelled (sole : Sole queue.codec store job) {localLease runId : Id}
    {processed changed : Option UInt64}
    (ends : (queue.cancel now later job.tenant job.jid localLease runId processed changed).Ends
      applied store (.job (.ok result)) after) :
    ∃ newKey, Sole queue.codec after ((cancelledJob now job).settled newKey) := by
  have goesOn := sole.ends_get.of_bind ends
  dsimp only at goesOn
  split at goesOn
  · cases goesOn.1
  · have transitions := goesOn.of_map fun _ _ => Answer.job.inj
    exact sole.transition (cancelledJob now) (fun _ => ⟨rfl, rfl, rfl⟩) transitions

theorem state_of_pending (pending : job.state.partition = .pending) :
    job.state ≠ .running ∧ job.state.terminal = false := by
  unfold State.partition at pending
  split at pending
  · cases pending
  next notRunning =>
  split at pending
  · cases pending
  · next notTerminal => exact ⟨notRunning, Bool.eq_false_iff.mpr notTerminal⟩

theorem Sole.ends_cancel (sole : Sole queue.codec store job)
    (pending : job.state.partition = .pending) (now later : Time) (localLease runId : Id)
    (processed changed : Option UInt64) :
    ∃ result after, (queue.cancel now later job.tenant job.jid localLease runId processed
      changed).Ends applied store (.job (.ok result)) after := by
  obtain ⟨value, found, stored⟩ := sole.row.found
  obtain ⟨notRunning, notTerminal⟩ := state_of_pending pending
  obtain ⟨newKey, isKey⟩ := exists_key (cancelledJob now job) stored.tenanted (by rintro ⟨⟩)
  have text : validUtf8 (ascii "cancelled by an operator") = true := by decide +kernel
  obtain ⟨newValue, written⟩ := exists_marshal (cancelledJob now job) stored rfl rfl rfl rfl rfl
    rfl (.inr text) (by rintro _ ⟨⟩)
  have prepared : queue.prepare job (cancelledJob now) none later value =
      .ok (job, cancelledJob now job, newKey,
        Queue.moveBatch job.stored value newKey newValue) := by
    unfold Queue.prepare
    rw [stored.read]
    dsimp only
    rw [fence_self]
    dsimp only
    rw [isKey]
    dsimp only
    rw [written]
    rfl
  have placed : job.stored ≠ [] := by
    obtain ⟨_, _, place⟩ := sole.place
    rw [place, Keys.job]
    simp
  refine ⟨{ cancelledJob now job with stored := newKey },
    (Queue.moveBatch job.stored value newKey newValue).effect store, sole.ends_get.bind ?_⟩
  dsimp only
  rw [notTerminal, if_neg (by decide), if_neg notRunning]
  refine Program.Ends.bind ?_ (Program.ends_ret _ _)
  unfold Queue.transition
  dsimp only
  rw [if_neg stored.tenanted, if_neg placed]
  apply Program.ends_observe_bind_iff.mpr
  rw [found]
  dsimp only
  split
  · next fault failed => cases failed.symm.trans prepared
  next succeeded =>
  cases succeeded.symm.trans prepared
  exact Program.ends_attempt_bind (Batch.commit_of_accepts (accepts_moveBatch found _ _))
    (Program.ends_ret _ _)

theorem Sole.ends_reap (sole : Sole queue.codec store job)
    (done : job.state.partition = .done) {cutoff : Time}
    (ripe : unixMilli job.updatedAt ≤ unixMilli cutoff) {limit : Int} (positive : 1 ≤ limit) :
    ∃ after, (queue.reap cutoff job.tenant limit).Ends applied store (.count 1 none) after ∧
      ∀ other, InSpace job.tenant other → after.get other = none := by
  obtain ⟨value, found, stored⟩ := sole.row.found
  have scanned := sole.scanRange_due found (Job.due_of_done done) ripe
  rw [done] at scanned
  have accepts : (Queue.reapBatch [⟨job.stored, value, job⟩]).Accepts store := by
    intro condition listed
    simp only [Queue.reapBatch, Batch.expect, Batch.delete, foldl_cons, foldl_nil,
      any_nil, Bool.false_eq_true, if_false, nil_append, mem_singleton] at listed
    rw [listed, Condition.holds, found]
    simp
  refine ⟨(Queue.reapBatch [⟨job.stored, value, job⟩]).effect store, ?_, ?_⟩
  · rw [Queue.reap, if_neg stored.tenanted, if_neg (by omega)]
    apply Program.ends_observe_bind_iff.mpr
    rw [scanned, dueLoop_self stored]
    exact Program.ends_attempt_bind (Batch.commit_of_accepts accepts) (Program.ends_ret _ _)
  intro other inside
  have erased : (Queue.reapBatch [⟨job.stored, value, job⟩]).effect store =
      store.erase job.stored := by
    simp [Queue.reapBatch, Batch.effect_delete, Batch.effect_expect, Batch.effect_nil]
  rw [erased]
  by_cases same : other = job.stored
  · rw [same, OrderedMap.get_erase_self]
  rw [OrderedMap.get_erase_of_ne _ same]
  cases isRow : store.get other with
  | none => rfl
  | some row => exact absurd (sole.eq_stored isRow inside) same

/-- `Get` returns the job, and every listing that wants it lists it. -/
def Found (queue : Queue) (store : Store) (job : Job) : Prop :=
  ((queue.get job.tenant job.jid).alone applied store).answer = .ok job ∧
    ∀ filter : Filter, filter.wants job = true →
      ((queue.list job.tenant filter).alone applied store).answer = .ok [job]

/-- Once the job is cancelled and the cutoff is past that, reaping removes it. -/
def Reapable (queue : Queue) (store : Store) (job : Job) : Prop :=
  ∀ now later localLease runId processed changed result,
    let cancelled := (queue.cancel now later job.tenant job.jid localLease runId processed
      changed).alone applied store
    cancelled.answer = .job (.ok result) → -2 ^ 63 ≤ now.unixMilli →
    ∀ cutoff limit, now ≤ cutoff → cutoff.unixMilli < 2 ^ 63 → 1 ≤ limit →
      let reaped := (queue.reap cutoff job.tenant limit).alone applied cancelled.state
      reaped.answer = .count 1 none ∧ ∀ key, InSpace job.tenant key → reaped.state.get key = none

theorem Sole.found (sole : Sole queue.codec store job) : Found queue store job :=
  ⟨sole.ends_get.1, fun _ wants => (sole.ends_list wants).1⟩

theorem Sole.reapable (sole : Sole queue.codec store job) : Reapable queue store job := by
  intro now later localLease runId processed changed result cancelled answered low cutoff limit
    past high positive
  obtain ⟨newKey, finished⟩ := sole.cancelled ⟨answered, rfl⟩
  have ripe : unixMilli ((cancelledJob now job).settled newKey).updatedAt ≤ unixMilli cutoff := by
    change unixMilli (settleTime now) ≤ _
    rw [unixMilli_settleTime]
    exact Time.toUnixMs_mono past low high
  obtain ⟨after, ⟨answer, rfl⟩, gone⟩ := finished.ends_reap rfl ripe positive
  exact ⟨answer, gone⟩

theorem partition_of_enqueue {drawn : Id} {staged : Job} {tx after : Batch}
    (accepted : queue.enqueue now drawn job tx = .ok (staged, after)) :
    staged.state.partition = .pending := by
  unfold Queue.enqueue at accepted
  dsimp only at accepted
  split at accepted
  · cases accepted
  next state =>
  have waiting : (Queue.fill now drawn job).state.partition = .pending := by
    rcases not_and_or.mp state with pending | retry
    · rw [not_not.mp pending]
      rfl
    · rw [not_not.mp retry]
      rfl
  split at accepted
  · cases accepted
  split at accepted
  · cases accepted
  · cases accepted
    exact waiting

theorem inSpace_of_getFrom {jid : Id}
    (got : ((queue.getFrom tenant jid parts).alone applied store).answer = .ok job) :
    InSpace tenant job.stored := by
  induction parts with
  | nil => cases got
  | cons part parts ih =>
    cases found : queue.findJob jid
        (scanRange store (jobStateRange tenant defaultNamespace part)) with
    | error fault =>
      simp only [Queue.getFrom, bind, Program.bind, Program.observe, Program.alone, found] at got
      cases got
    | ok result =>
      simp only [Queue.getFrom, bind, Program.bind, Program.observe, Program.alone, found] at got
      cases result with
      | none => exact ih got
      | some read =>
        cases got
        obtain ⟨row, listed, isJob⟩ := read_of_findJob found
        rw [(unmarshal_place isJob).2]
        exact inSpace_of_jobStateRange (of_decide_eq_true (OrderedMap.mem_scan.mp listed).2)

/-- No lookup leaves the default namespace, so nothing else is found. -/
theorem resolved_of_found (isKey : job.key = .ok job.stored) (found : Found queue store job) :
    job.resolved = defaultNamespace := by
  have got := found.1
  unfold Queue.get at got
  split at got
  · cases got
  · exact ((inSpace_key isKey).mp (inSpace_of_getFrom got)).2

/-- The waiting job is found: `Get` returns it and listings list it; a claim at any time from `now`
on hands it out, and it is found under its lease; it can be cancelled while it waits, and once it is
cancelled, waiting or claimed, reaping removes it. -/
structure Visible (queue : Queue) (store : Store) (now : Time) (job : Job) : Prop where
  found : Found queue store job
  reapable : Reapable queue store job
  cancels : ∀ time later localLease runId processed changed, ∃ result,
    ((queue.cancel time later job.tenant job.jid localLease runId processed changed).alone
      applied store).answer = .job (.ok result)
  claims : ∀ time owner n tokens, now ≤ time → time.unixMilli < 2 ^ 63 → owner ≠ [] →
    validUtf8 owner = true → 1 ≤ n →
    let ended := (queue.claim time job.tenant owner [] n tokens).alone applied store
    ∃ claimed, ended.answer = .jobs [claimed] none ∧ claimed.jid = job.jid ∧
      Found queue ended.state (claimed.settled claimed.stored) ∧
      Reapable queue ended.state (claimed.settled claimed.stored)

/-- Where the transaction that enqueued a job has committed and the tenant has no other job, the
job is visible exactly if it is in the default namespace. -/
theorem enqueued_job_found (queue : Queue) (store committed : Store) (now : Time) (drawn : Id)
    (job staged : Job) (tx after : Batch)
    (accepted : queue.enqueue now drawn job tx = .ok (staged, after))
    (commits : after.commit store = .ok committed)
    (alone : ∀ key value, committed.get key = some value → InSpace job.tenant key →
      key = staged.stored)
    (ripe : staged.runAt ≤ now) (dated : -2 ^ 63 ≤ staged.runAt.unixMilli) :
    Visible queue committed now (staged.settled staged.stored) ↔
      job.resolved = defaultNamespace := by
  have pending := partition_of_enqueue accepted
  obtain ⟨key, value, isKey, written, rfl, rfl⟩ := staged_of_enqueue accepted
  obtain ⟨_, rfl⟩ := Batch.commit_eq_ok_iff.mp commits
  have same : (Queue.fill now drawn job).resolved = job.resolved := by
    change (if job.resolved = [] then _ else job.resolved) = _
    rw [if_neg (resolved_ne_nil job)]
  constructor
  · intro visible
    have placed := resolved_of_found (settled_key isKey) visible.found
    exact same ▸ settled_resolved _ key ▸ placed
  intro placed
  have found : (((tx.expect key [] false).set key value).effect store).get key = some value := by
    rw [Batch.effect_set, OrderedMap.get_set_self]
  have sole := sole_settled isKey written (same.trans placed) found alone
  have isDue : unixMilli ((Queue.fill now drawn job).settled key).runAt =
      unixMilli (Queue.fill now drawn job).runAt :=
    unixMilli_settleTime _
  refine ⟨sole.found, sole.reapable, ?_, ?_⟩
  · intro time later localLease runId processed changed
    obtain ⟨result, _, ends⟩ := sole.ends_cancel pending time later localLease runId processed
      changed
    exact ⟨result, ends.1⟩
  intro time owner n tokens past high named text positive
  have due : unixMilli ((Queue.fill now drawn job).settled key).runAt ≤ unixMilli time := by
    rw [isDue]
    exact Time.toUnixMs_mono (le_trans ripe past) dated high
  obtain ⟨newKey, between, ⟨answer, rfl⟩, settled⟩ := sole.ends_claim pending due named text
    positive tokens
  exact ⟨_, answer, rfl, settled.found, settled.reapable⟩

/-- A job in the default namespace is submitted to an empty queue. -/
theorem enqueued_job_found_sample :
    let queue : Queue := ⟨blockCodec, 60000000000⟩
    ∃ staged after committed, queue.enqueue 1000000000 (Id.filled 1) sampleJob {} =
        .ok (staged, after) ∧ after.commit .empty = .ok committed ∧
      Found queue committed (staged.settled staged.stored) := by
  intro queue
  refine ⟨_, _, _, rfl, rfl, ?_⟩
  refine ((enqueued_job_found queue .empty _ 1000000000 (Id.filled 1) sampleJob _ {} _ rfl rfl ?_
    (by decide) (by decide)).mpr (by decide)).found
  intro key value found _
  by_contra other
  rw [Batch.effect_set, OrderedMap.get_set_of_ne _ _ other] at found
  cases found

deriving instance DecidableEq for Answer

/-- A job in another namespace is accepted and committed, and nothing finds it: not a claim, not
`Get` and so not `Cancel`, and not a listing of all states. -/
theorem namespaced_job_lost :
    let queue : Queue := ⟨blockCodec, 60000000000⟩
    let job : Job := { sampleJob with jid := Id.filled 1, namespaceName := ascii "other" }
    let submitted := (queue.submit 1000000000 job Id.zero).alone applied .empty
    let claimed := (queue.claim 2000000000 (ascii "acme") (ascii "worker") [] 1
      fun _ => Id.filled 9).alone applied submitted.state
    let got := (queue.get (ascii "acme") (Id.filled 1)).alone applied submitted.state
    let listed := (queue.list (ascii "acme") {}).alone applied submitted.state
    submitted.answer.fault = none ∧ submitted.state.entries.length = 1 ∧
      claimed.answer = .jobs [] none ∧
      got.answer = .error ⟨.notFound, "jobs.Get", "no job %s in tenant %s",
        [.bytes (Id.filled 1).bytes, .bytes (ascii "acme")]⟩ ∧
      listed.answer = .ok [] := by
  decide +kernel

end Remem.Jobs
