import Remem.Jobs.Rotation
import Remem.Jobs.Scans

/-!
# A claimed job is run

A claim commits its jobs one by one and returns them together. Where it fails after some of
them, with anything but a conflict, the pool drops what it returns: only where no claim fails
so is every job that a poll claimed launched by it.
-/

namespace Remem.Jobs

open Base Keys Storage List Program

def Deed.claims : Deed → Bool
  | claimed _ _ _ => true
  | _ => false

/-- What was claimed is leased to the owner under the token of its claim. -/
def Deed.GrantedTo (deed : Deed) (owner : Bytes) (job : Job) : Prop :=
  ∃ token expiresAt, deed = .claimed job.tenant job.jid token ∧
    job.lease = some ⟨owner, expiresAt, token⟩

/-- No claim that has committed a job is refused another one, but for a conflict: before a
claim that fails otherwise comes a scan, and after the scan no commit of a claim. -/
def Whole (moments : List (Moment Store (Labelled Deed) Fault)) : Prop :=
  ∀ early between late claimed refused fault,
    moments = early ++ .committed claimed :: (between ++ .refused refused fault :: late) →
    claimed.label.claims = true → refused.label.claims = true → fault.kind ≠ .conflict →
    ∃ store, .observed store ∈ between

variable {queue : Queue} {moments more : List (Moment Store (Labelled Deed) Fault)}

theorem Whole.left (whole : Whole (moments ++ more)) : Whole moments := by
  rintro early between late claimed refused fault rfl
  refine whole early between (late ++ more) claimed refused fault ?_
  simp

theorem Whole.right (whole : Whole (moments ++ more)) : Whole more := by
  rintro early between late claimed refused fault rfl
  refine whole (moments ++ early) between late claimed refused fault ?_
  simp

variable {fault : Fault}

theorem kind_of_parseType {name : Bytes} (failed : parseType name = .error fault) :
    fault.kind = .invalid := by
  unfold parseType at failed
  dsimp only at failed
  split at failed
  · cases failed
    rfl
  split at failed
  · cases failed
    rfl
  split at failed
  · cases failed
    rfl
  · cases failed

variable {job : Job}

theorem kind_of_validate (failed : job.validate = .error fault) : fault.kind = .invalid := by
  unfold Job.validate at failed
  dsimp only at failed
  split at failed
  · cases failed
    rfl
  split at failed
  · cases failed
    rfl
  split at failed
  · cases failed
    rfl
  split at failed
  · next parsing =>
    cases failed
    exact kind_of_parseType parsing
  split at failed
  · cases failed
    rfl
  split at failed
  · cases failed
    rfl
  · cases failed

variable {codec : JobCodec}

theorem kind_of_marshal (failed : marshal codec job = .error fault) : fault.kind = .invalid := by
  unfold marshal at failed
  split at failed
  · next invalid =>
    cases failed
    exact kind_of_validate invalid
  split at failed
  · cases failed
    rfl
  · cases failed

variable {deed : Deed} {oldKey oldValue : Bytes} {next : Job} {result : Result Job}

theorem runs_move {newKey : Bytes} (isKey : next.key = .ok newKey)
    (runs : (queue.move oldKey oldValue next deed).Runs moments result) :
    (∃ fault, marshal queue.codec next = .error fault ∧ moments = [] ∧ result = .error fault) ∨
      ∃ newValue, marshal queue.codec next = .ok newValue ∧
        (moments = [.committed ⟨Queue.moveBatch oldKey oldValue newKey newValue, deed⟩] ∧
            result = .ok { next with stored := newKey } ∨
          ∃ fault, moments =
              [.refused ⟨Queue.moveBatch oldKey oldValue newKey newValue, deed⟩ fault] ∧
            result = .error fault) := by
  unfold Queue.move at runs
  rw [isKey] at runs
  dsimp only at runs
  split at runs
  · next fault failed =>
    obtain ⟨rfl, rfl⟩ := runs_ret_iff.mp runs
    exact .inl ⟨fault, failed, rfl, rfl⟩
  next newValue written =>
  refine .inr ⟨newValue, written, ?_⟩
  rcases runs.attempt_bind with ⟨rest, rfl, finished⟩ | ⟨fault, rest, rfl, finished⟩
  · obtain ⟨rfl, rfl⟩ := runs_ret_iff.mp finished
    exact .inl ⟨rfl, rfl⟩
  · obtain ⟨rfl, rfl⟩ := runs_ret_iff.mp finished
    exact .inr ⟨fault, rfl, rfl⟩

theorem grantedTo_leased {now : Time} {owner : Bytes} {token : Id} {job : Job} {key : Bytes} :
    (Deed.claimed job.tenant job.jid token).GrantedTo owner
      { queue.leased now owner token job with stored := key } :=
  ⟨token, _, rfl, rfl⟩

variable {now : Time} {owner : Bytes} {n : Int} {tokens : Nat → Id} {answer : Answer}
  {candidates : List Queue.Candidate}

variable {drawn : Nat}

/-- The loop of `Claim`: what it commits it returns, and where it returns an error with it the
last commit it attempted was refused. -/
theorem runs_claimLoop (named : validUtf8 owner = true) {out : List Job}
    (stored : ∀ row ∈ candidates, Stored queue.codec row.key row.value row.job)
    (within : out.length ≤ n)
    (runs : (queue.claimLoop now owner n tokens candidates drawn out).Runs moments answer) :
    (∀ store, .observed store ∉ moments) ∧ answer.claimed.length ≤ n ∧
      (∃ taken, answer.claimed = out ++ taken ∧ ∀ payload, .committed payload ∈ moments →
        ∃ job ∈ taken, payload.label.GrantedTo owner job) ∧
      (answer.fault ≠ none → ∃ early payload fault, moments = early ++ [.refused payload fault] ∧
        payload.label.claims = true ∧ fault.kind ≠ .conflict) := by
  induction candidates generalizing drawn out moments with
  | nil =>
    obtain ⟨rfl, rfl⟩ := runs_ret_iff.mp runs
    exact ⟨nofun, within, ⟨[], (append_nil _).symm, nofun⟩, absurd rfl⟩
  | cons row rows ih =>
    obtain ⟨rowStored, restStored⟩ := forall_mem_cons.mp stored
    obtain ⟨newKey, isKey⟩ := exists_key (queue.leased now owner (tokens drawn) row.job)
      rowStored.tenanted nofun
    obtain ⟨bytes, written⟩ := exists_marshal (queue.leased now owner (tokens drawn) row.job)
      rowStored rfl rfl rfl rfl rfl rfl (.inl rfl) (by rintro _ ⟨⟩; exact named)
    unfold Queue.claimLoop at runs
    split at runs
    · obtain ⟨rfl, rfl⟩ := runs_ret_iff.mp runs
      exact ⟨nofun, within, ⟨[], (append_nil _).symm, nofun⟩, absurd rfl⟩
    next short =>
    obtain ⟨result, moved, rest, rfl, moves, runs⟩ := runs.of_bind
    rcases runs_move isKey moves with ⟨fault, failed, _⟩ | ⟨newValue, _, ⟨rfl, rfl⟩ | refused⟩
    · rw [written] at failed
      cases failed
    · dsimp only at runs
      have grant := @grantedTo_leased queue now owner (tokens drawn) row.job newKey
      generalize { queue.leased now owner (tokens drawn) row.job with
        stored := newKey } = job at runs grant
      have room : ((out ++ [job]).length : Int) ≤ n := by
        rw [length_append, length_singleton]
        omega
      obtain ⟨unseen, few, ⟨taken, same, granted⟩, failed⟩ :=
        ih restStored room runs
      refine ⟨fun store seen => ?_, few, ⟨job :: taken, ?_, ?_⟩, fun faulty => ?_⟩
      · rcases mem_append.mp seen with first | later
        · cases mem_singleton.mp first
        · exact unseen store later
      · rw [same, append_assoc, singleton_append]
      · intro payload listed
        rcases mem_append.mp listed with first | later
        · cases mem_singleton.mp first
          exact ⟨job, mem_cons_self, grant⟩
        · obtain ⟨job, member, isGranted⟩ := granted payload later
          exact ⟨job, mem_cons_of_mem _ member, isGranted⟩
      · obtain ⟨early, payload, fault, rfl, claims, other⟩ := failed faulty
        exact ⟨_, payload, fault, (append_assoc _ _ _).symm, claims, other⟩
    · obtain ⟨fault, rfl, rfl⟩ := refused
      dsimp only at runs
      split at runs
      · obtain ⟨unseen, few, ⟨taken, same, granted⟩, failed⟩ :=
          ih restStored within runs
        refine ⟨fun store seen => ?_, few, ⟨taken, same, ?_⟩, fun faulty => ?_⟩
        · rcases mem_append.mp seen with first | later
          · cases mem_singleton.mp first
          · exact unseen store later
        · intro payload listed
          rcases mem_append.mp listed with first | later
          · cases mem_singleton.mp first
          · exact granted payload later
        · obtain ⟨early, payload, fault, rfl, claims, other⟩ := failed faulty
          exact ⟨_, payload, fault, (append_assoc _ _ _).symm, claims, other⟩
      · next other =>
        obtain ⟨rfl, rfl⟩ := runs_ret_iff.mp runs
        refine ⟨by simp, within, ⟨[], (append_nil _).symm, by simp⟩, fun _ => ?_⟩
        exact ⟨[], _, fault, rfl, rfl, other⟩

theorem runs_claimLoop_of_not_valid (unnamed : validUtf8 owner ≠ true)
    (stored : ∀ row ∈ candidates, Stored queue.codec row.key row.value row.job)
    (runs : (queue.claimLoop now owner n tokens candidates drawn []).Runs moments answer) :
    moments = [] ∧ answer.claimed = [] := by
  cases candidates with
  | nil =>
    obtain ⟨rfl, rfl⟩ := runs_ret_iff.mp runs
    exact ⟨rfl, rfl⟩
  | cons row rows =>
    obtain ⟨newKey, isKey⟩ := exists_key (queue.leased now owner (tokens drawn) row.job)
      (stored row mem_cons_self).tenanted (by rintro _ ⟨⟩)
    unfold Queue.claimLoop at runs
    split at runs
    · obtain ⟨rfl, rfl⟩ := runs_ret_iff.mp runs
      exact ⟨rfl, rfl⟩
    obtain ⟨result, moved, rest, rfl, moves, runs⟩ := runs.of_bind
    rcases runs_move isKey moves with ⟨fault, failed, rfl, rfl⟩ | ⟨newValue, written, _⟩
    · dsimp only at runs
      rw [if_neg (by rw [kind_of_marshal failed]; rintro ⟨⟩)] at runs
      obtain ⟨rfl, rfl⟩ := runs_ret_iff.mp runs
      exact ⟨rfl, rfl⟩
    · exact absurd (owner_of_marshal written rfl) unnamed

variable {tenant : TenantId}

theorem runs_claim {types : List Bytes} (positive : 0 < n)
    (runs : (queue.claim now tenant owner types n tokens).Runs moments answer)
    (written : ∀ store, .observed store ∈ moments → Written queue.codec store) :
    answer.claimed.length ≤ n ∧ (Whole moments → ∀ payload, .committed payload ∈ moments →
        answer.fault = none ∧ ∃ job ∈ answer.claimed, payload.label.GrantedTo owner job) := by
  unfold Queue.claim at runs
  split at runs
  · obtain ⟨rfl, rfl⟩ := runs_ret_iff.mp runs
    exact ⟨positive.le, fun _ => nofun⟩
  split at runs
  · obtain ⟨rfl, rfl⟩ := runs_ret_iff.mp runs
    exact ⟨positive.le, fun _ => nofun⟩
  split at runs
  · omega
  obtain ⟨store, rest, rfl, goesOn⟩ := runs.observe_bind
  split at goesOn
  · obtain ⟨rfl, rfl⟩ := runs_ret_iff.mp goesOn
    exact ⟨positive.le, by simp⟩
  next candidates scanned =>
  have scan := scanned_due (written store mem_cons_self) scanned
  have perm := perm_insertionSort
    (fun first second : Queue.Candidate => second.job.priority ≤ first.job.priority)
    candidates
  have stored : ∀ row ∈ Queue.byPriority candidates, Stored queue.codec row.key row.value row.job :=
    fun row member => scan.stored row (perm.mem_iff.mp member)
  by_cases named : validUtf8 owner = true
  · obtain ⟨unseen, few, ⟨taken, same, granted⟩, failed⟩ :=
      runs_claimLoop named stored positive.le goesOn
    refine ⟨few, fun whole payload listed => ?_⟩
    have later : .committed payload ∈ rest := by
      rcases mem_cons.mp listed with impossible | later
      · cases impossible
      · exact later
    obtain ⟨job, isTaken, grant⟩ := granted payload later
    refine ⟨?_, job, same ▸ isTaken, grant⟩
    by_contra faulty
    obtain ⟨early, refused, fault, rfl, claims, other⟩ := failed faulty
    have before : .committed payload ∈ early := by
      rcases mem_append.mp later with before | impossible
      · exact before
      · cases mem_singleton.mp impossible
    obtain ⟨first, between, rfl⟩ := append_of_mem before
    have isClaim : payload.label.claims = true := by
      obtain ⟨_, _, isClaimed, _⟩ := grant
      rw [isClaimed]
      rfl
    obtain ⟨seen, isSeen⟩ := whole (.observed store :: first) between [] payload refused
      fault (by simp) isClaim claims other
    exact unseen seen (by simp [isSeen])
  · obtain ⟨rfl, none⟩ := runs_claimLoop_of_not_valid named stored goesOn
    rw [none]
    exact ⟨positive.le, by simp⟩

variable {payload : Labelled Deed}

theorem label_of_move (runs : (queue.move oldKey oldValue next deed).Runs moments result)
    (listed : .committed payload ∈ moments) : payload.label = deed := by
  cases isKey : next.key with
  | error fault =>
    unfold Queue.move at runs
    rw [isKey] at runs
    exact (not_mem_of_runs_ret runs listed).elim
  | ok newKey =>
    rcases runs_move isKey runs with ⟨_, _, rfl, _⟩ | ⟨_, _, ⟨rfl, _⟩ | ⟨_, rfl, _⟩⟩
    · cases listed
    · cases mem_singleton.mp listed
      rfl
    · cases mem_singleton.mp listed

theorem runs_reclaimLoop {moved : Nat}
    (runs : (queue.reclaimLoop now candidates moved).Runs moments answer)
    (listed : .committed payload ∈ moments) : payload.label.claims = false := by
  induction candidates generalizing moved moments with
  | nil =>
    obtain ⟨rfl, rfl⟩ := runs_ret_iff.mp runs
    cases listed
  | cons row rows ih =>
    unfold Queue.reclaimLoop at runs
    obtain ⟨result, early, late, rfl, moves, runs⟩ := runs.of_bind
    rcases mem_append.mp listed with first | later
    · rw [label_of_move moves first]
      rfl
    cases result with
    | ok _ => exact ih runs later
    | error fault =>
      dsimp only at runs
      split at runs
      · exact ih runs later
      · exact (not_mem_of_runs_ret runs later).elim

theorem runs_reclaim {limit : Int} (runs : (queue.reclaim now tenant limit).Runs moments answer)
    (listed : .committed payload ∈ moments) : payload.label.claims = false := by
  unfold Queue.reclaim at runs
  split at runs
  · exact (not_mem_of_runs_ret runs listed).elim
  split at runs
  · exact (not_mem_of_runs_ret runs listed).elim
  obtain ⟨store, rest, rfl, goesOn⟩ := runs.observe_bind
  rcases mem_cons.mp listed with impossible | later
  · cases impossible
  split at goesOn
  · exact (not_mem_of_runs_ret goesOn later).elim
  · exact runs_reclaimLoop goesOn later

variable {config : PoolConfig}

theorem runs_dispatch {visits : Nat → Visit} {tenants : List TenantId} {index : Nat}
    {polled result : Polled} (room : polled.launched.length ≤ polled.slots)
    (runs : (config.dispatch visits tenants index polled).Runs moments result)
    (written : ∀ store, .observed store ∈ moments → Written config.queue.codec store) :
    result.slots = polled.slots ∧ result.launched.length ≤ result.slots ∧
      polled.launched ⊆ result.launched ∧
      (Whole moments → ∀ payload, .committed payload ∈ moments → payload.label.claims = true →
        ∃ job ∈ result.launched, payload.label.GrantedTo config.owner job) := by
  induction tenants generalizing index polled moments with
  | nil =>
    obtain ⟨rfl, rfl⟩ := runs_ret_iff.mp runs
    exact ⟨rfl, room, List.Subset.refl _, fun _ _ listed => absurd listed not_mem_nil⟩
  | cons tenant rest ih =>
    unfold PoolConfig.dispatch at runs
    split at runs
    · obtain ⟨rfl, rfl⟩ := runs_ret_iff.mp runs
      exact ⟨rfl, room, List.Subset.refl _, fun _ _ listed => absurd listed not_mem_nil⟩
    next short =>
    obtain ⟨reclaimed, early, late, rfl, reclaims, runs⟩ := runs.of_bind
    have unclaimed : ∀ payload, .committed payload ∈ early → payload.label.claims ≠ true := by
      intro payload listed
      rw [runs_reclaim reclaims listed]
      rintro ⟨⟩
    dsimp only at runs
    split at runs
    · obtain ⟨rfl, rfl⟩ := runs_ret_iff.mp runs
      refine ⟨rfl, room, List.Subset.refl _, fun _ payload listed isClaim => ?_⟩
      rw [append_nil] at listed
      exact absurd isClaim (unclaimed payload listed)
    obtain ⟨answer, claiming, further, rfl, claims, runs⟩ := runs.of_bind
    have positive : (0 : Int) < polled.slots - polled.launched.length := by omega
    obtain ⟨few, granted⟩ := runs_claim positive claims
      (fun store seen => written store (by simp [seen]))
    split at runs
    · next fault isFault =>
      obtain ⟨rfl, rfl⟩ := runs_ret_iff.mp runs
      refine ⟨rfl, room, List.Subset.refl _, fun whole payload listed isClaim => ?_⟩
      rw [append_nil] at listed
      rcases mem_append.mp listed with before | here
      · exact absurd isClaim (unclaimed payload before)
      · rw [(granted whole.right.left payload here).1] at isFault
        cases isFault
    have fits : (polled.launched ++ answer.claimed).length ≤ polled.slots := by
      rw [length_append]
      omega
    obtain ⟨slots, bounded, kept, later⟩ := ih fits runs
      (fun store seen => written store (by simp [seen]))
    refine ⟨slots, bounded, fun job listed => kept (mem_append_left _ listed), ?_⟩
    intro whole payload listed isClaim
    rcases mem_append.mp listed with before | after
    · exact absurd isClaim (unclaimed payload before)
    rcases mem_append.mp after with here | beyond
    · obtain ⟨_, job, isClaimed, grant⟩ := granted whole.right.left payload here
      exact ⟨job, kept (mem_append_right _ isClaimed), grant⟩
    · exact later whole.right.right payload beyond isClaim

theorem runs_refreshTenants {pool : Pool} {refreshed : Result Pool}
    (runs : (config.refreshTenants now pool).Runs moments refreshed) (payload : Labelled Deed) :
    .committed payload ∉ moments := by
  intro listed
  unfold PoolConfig.refreshTenants at runs
  split at runs
  · exact (not_mem_of_runs_ret runs listed).elim
  obtain ⟨store, rest, rfl, goesOn⟩ := runs.observe_bind
  rcases mem_cons.mp listed with impossible | later
  · cases impossible
  split at goesOn
  · exact (not_mem_of_runs_ret goesOn later).elim
  · exact (not_mem_of_runs_ret goesOn later).elim

/-- Whatever commits fail, the slots a poll took are those of the jobs it launched and those it
gave back; and it launched every job it has claimed under its owner, if no claim that has
committed a job failed on another one with anything but a conflict. -/
theorem poll_launches_claimed (config : PoolConfig) (round : Round) (pool after : Pool)
    (polled : Polled) (moments : List (Moment Store (Labelled Deed) Fault))
    (runs : (config.poll round pool).Runs moments (after, polled))
    (written : ∀ store, .observed store ∈ moments → Written config.queue.codec store) :
    (polled.slots = (if round.draining then 0 else round.slots) ∧
      polled.slots = polled.launched.length + polled.returned) ∧
      (Whole moments → ∀ payload, .committed payload ∈ moments → payload.label.claims = true →
        ∃ job ∈ polled.launched, payload.label.GrantedTo config.owner job) := by
  unfold PoolConfig.poll at runs
  by_cases draining : round.draining = true
  · rw [if_pos draining] at runs ⊢
    obtain ⟨rfl, same⟩ := runs_ret_iff.mp runs
    cases same
    exact ⟨⟨rfl, rfl⟩, fun _ => nofun⟩
  rw [if_neg draining] at runs ⊢
  split at runs
  · next none =>
    obtain ⟨rfl, same⟩ := runs_ret_iff.mp runs
    cases same
    exact ⟨⟨none.symm, rfl⟩, fun _ => nofun⟩
  obtain ⟨refreshed, early, late, rfl, refreshes, runs⟩ := runs.of_bind
  have uncommitted := runs_refreshTenants refreshes
  cases refreshed with
  | error fault =>
    obtain ⟨rfl, same⟩ := runs_ret_iff.mp runs
    cases same
    refine ⟨⟨rfl, (Nat.zero_add _).symm⟩, fun _ payload listed => ?_⟩
    rw [append_nil] at listed
    exact absurd listed (uncommitted payload)
  | ok listing =>
    obtain ⟨result, dispatching, rest, rfl, dispatches, runs⟩ := runs.of_bind
    obtain ⟨rfl, same⟩ := runs_ret_iff.mp runs
    cases same
    obtain ⟨slots, bounded, _, granted⟩ := runs_dispatch (Nat.zero_le _) dispatches
      fun store seen => written store (by simp [seen])
    refine ⟨⟨slots, (Nat.add_sub_of_le bounded).symm⟩, fun whole payload listed isClaim => ?_⟩
    rw [append_nil] at whole listed
    rcases mem_append.mp listed with before | here
    · exact absurd before (uncommitted payload)
    · exact granted whole.right payload here isClaim

def rowsRead (codec : JobCodec) (store : Store) : Bool :=
  store.entries.all fun entry => match unmarshal codec entry.1 entry.2 with
    | .ok job => decide (marshal codec job = .ok entry.2)
    | .error _ => false

variable {store : Store}

theorem written_of_rowsRead (read : rowsRead codec store = true) : Written codec store := by
  intro tenant key value found _
  have checked := all_eq_true.mp read (key, value) (OrderedMap.get_eq_some_iff.mp found)
  dsimp only at checked
  split at checked
  · next job isJob => exact ⟨job, isJob, of_decide_eq_true checked⟩
  · cases checked

def commitConflict : Fault := ⟨.conflict, "memkv.Batch.Commit", "conditional write conflict", []⟩

def storageFailed : Fault := ⟨.storage, "pebble.Batch.Commit", "the storage engine failed", []⟩

def commitUnless (fails : Deed → Option Fault) (payload : Labelled Deed) (store : Store) :
    Result Store :=
  match fails payload.label with
  | some fault => .error fault
  | none => payload.batch.commit store

/-- The commit of the second of the waiting jobs fails so. -/
def secondFails (fault : Fault) (deed : Deed) : Option Fault :=
  if deed = .claimed (ascii "acme") (.filled 2) (.filled 9) then some fault else none

def onePoll : Round :=
  ⟨false, 4, 2000000000, fun _ => ⟨2000000000, 2000000000, fun n => .filled (8 + n.toUInt8)⟩⟩

def pollTrace (fails : Deed → Option Fault) : List (Moment Store (Labelled Deed) Fault) :=
  (samplePool.poll onePoll {}).trace (commitUnless fails) busyStore

def pollAnswer (fails : Deed → Option Fault) : Pool × Polled :=
  ((samplePool.poll onePoll {}).alone (commitUnless fails) busyStore).answer

theorem runs_pollTrace (fails : Deed → Option Fault) : (samplePool.poll onePoll {}).Runs (pollTrace fails)
    ((pollAnswer fails).1, (pollAnswer fails).2) :=
  runs_alone (commitUnless fails) (samplePool.poll onePoll {}) busyStore

def Moment.reads (codec : JobCodec) : Moment Store (Labelled Deed) Fault → Bool
  | .observed store => rowsRead codec store
  | _ => true

def claimsOf (moments : List (Moment Store (Labelled Deed) Fault)) : List Deed :=
  moments.filterMap fun
    | .committed payload => if payload.label.claims then some payload.label else none
    | _ => none

theorem mem_claimsOf {moments : List (Moment Store (Labelled Deed) Fault)}
    (listed : deed ∈ claimsOf moments) :
    ∃ payload, .committed payload ∈ moments ∧ payload.label = deed ∧ deed.claims = true := by
  obtain ⟨moment, isMoment, isDeed⟩ := mem_filterMap.mp listed
  cases moment with
  | observed store => cases isDeed
  | refused payload fault => cases isDeed
  | committed payload =>
    dsimp only at isDeed
    split at isDeed
    · next claims =>
      cases isDeed
      exact ⟨payload, isMoment, rfl, claims⟩
    · cases isDeed

theorem written_of_reads {moments : List (Moment Store (Labelled Deed) Fault)}
    (reads : moments.all (Moment.reads codec) = true) (seen : .observed store ∈ moments) :
    Written codec store :=
  written_of_rowsRead (all_eq_true.mp reads _ seen)

theorem whole_of_conflicts {moments : List (Moment Store (Labelled Deed) Fault)}
    (conflicts : moments.all (fun
      | .refused _ fault => decide (fault.kind = .conflict)
      | _ => true) = true) : Whole moments := by
  rintro early between late claimed refused fault rfl _ _ notConflict
  have checked := all_eq_true.mp conflicts (.refused refused fault) (by simp)
  exact absurd (of_decide_eq_true checked) notConflict

/-- The second of three waiting jobs is another's by the time of its commit; the other two are
claimed and launched. -/
theorem poll_launches_claimed_three :
    let polled := (pollAnswer (secondFails commitConflict)).2
    polled.launched.map Job.jid = [.filled 1, .filled 3] ∧
      (polled.slots = 4 ∧ polled.slots = polled.launched.length + polled.returned) ∧
      ∃ job ∈ polled.launched,
        (Deed.claimed (ascii "acme") (.filled 1) (.filled 8)).GrantedTo (ascii "worker") job := by
  obtain ⟨slots, launches⟩ := poll_launches_claimed samplePool onePoll {} _ _ _
    (runs_pollTrace (secondFails commitConflict))
    fun store seen => written_of_reads (by decide +kernel) seen
  obtain ⟨payload, committed, label, claims⟩ := mem_claimsOf
    (show Deed.claimed (ascii "acme") (.filled 1) (.filled 8) ∈
      claimsOf (pollTrace (secondFails commitConflict)) by decide +kernel)
  have launched : (pollAnswer (secondFails commitConflict)).2.launched.map Job.jid =
      [.filled 1, .filled 3] := by decide +kernel
  refine ⟨launched, slots, ?_⟩
  rw [← label] at claims ⊢
  exact launches (whole_of_conflicts (by decide +kernel)) payload committed claims

/-- The second job of a claim fails to commit: the first one is claimed, and no job is
launched. -/
theorem poll_drops_claimed : ∃ (config : PoolConfig) (round : Round) (pool after : Pool)
    (polled : Polled) (moments : List (Moment Store (Labelled Deed) Fault)),
    (config.poll round pool).Runs moments (after, polled) ∧
      (∀ store, .observed store ∈ moments → Written config.queue.codec store) ∧
      polled.launched = [] ∧
      ∃ payload, .committed payload ∈ moments ∧ payload.label.claims = true := by
  let fails := secondFails storageFailed
  obtain ⟨payload, committed, label, claims⟩ := mem_claimsOf
    (show Deed.claimed (ascii "acme") (.filled 1) (.filled 8) ∈ claimsOf (pollTrace fails) by
      decide +kernel)
  exact ⟨samplePool, onePoll, {}, _, _, _, runs_pollTrace fails,
    fun store seen => written_of_reads (by decide +kernel) seen, by decide +kernel,
    payload, committed, label ▸ claims⟩

/-- The storage refuses the second commit of a claim: the claim returns an error, and the row of
the first job has moved out of the pending partition. -/
theorem claim_fails_after_move :
    let claimed := (samplePool.queue.claim 2000000000 (ascii "acme") (ascii "worker") [] 2
      fun n => .filled (8 + n.toUInt8)).alone (commitUnless (secondFails storageFailed)) busyStore
    claimed.answer.fault ≠ none ∧ ∃ entry ∈ busyStore.entries,
      (unmarshal samplePool.queue.codec entry.1 entry.2).toBool = true ∧
        claimed.state.get entry.1 = none := by
  intro claimed
  decide +kernel

end Remem.Jobs
