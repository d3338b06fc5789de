import Remem.Jobs.OnePlace

/-!
# A lost claim can change nothing

A claim is lost once a commit ended it. The row of the job then carries another token or
none, at whatever key it sits, so every call that presents the old token is refused.
-/

namespace Remem.Jobs

open Base Keys Storage List Option

def Deed.granted : Deed → Option Id
  | claimed _ _ token => some token
  | _ => none

/-- The job a commit moved for a holder, and the token the holder presented. -/
def Deed.presents : Deed → Option (TenantId × Id × Id)
  | kept tenant jid (some token) => some (tenant, jid, token)
  | ended tenant jid (some token) => some (tenant, jid, token)
  | _ => none

def grants (done : List Deed) : List Id := done.filterMap Deed.granted

/-- The claim was granted, and a commit has ended it since. -/
def Lost (done : List Deed) (tenant : TenantId) (jid token : Id) : Prop :=
  ∃ later presented earlier, done = later ++ .ended tenant jid presented :: earlier ∧
    .claimed tenant jid token ∈ earlier

def Call.held : Call → Option Job
  | renew _ held => some held
  | save _ held _ => some held
  | complete _ _ held _ => some held
  | fail _ _ _ held _ _ => some held
  | release _ held => some held
  | _ => none

/-- A checkpoint that `Save` refuses before it reads anything. -/
def Call.oversized : Call → Bool
  | save _ _ cursor => maxCheckpointBytes < cursor.length
  | _ => false

/-- The call is made on a job claimed under the token, wherever its worker left it. -/
def Call.Holds (call : Call) (tenant : TenantId) (jid token : Id) : Prop :=
  ∃ held, call.held = some held ∧ held.tenant = tenant ∧ held.token = some token ∧
    ∃ part due, held.stored = Keys.job tenant defaultNamespace part due jid

/-- Calls of the queue whose claims draw distinct tokens. -/
def Queue.fencedSystem (queue : Queue) : System Call Store (Labelled Deed) Fault Answer where
  apply := queue.system.apply
  body := queue.system.body
  legal call := queue.system.legal call ∧ ∀ first second token,
    call.Draws first token → call.Draws second token → first = second
  distinct first second := queue.system.distinct first second ∧
    ∀ drawn other token, first.Draws drawn token → ¬ second.Draws other token
  distinct_symm _ _ apart := ⟨queue.system.distinct_symm _ _ apart.1,
    fun drawn other token draws otherDraws => apart.2 other drawn token otherDraws draws⟩

variable {queue : Queue} {codec : JobCodec} {store : Store} {history born : History}
  {tenant : TenantId} {jid token : Id} {done : List Deed}

theorem grants_claimed : grants (.claimed tenant jid token :: done) = token :: grants done := rfl

theorem grants_sublist (deed : Deed) : (grants done).Sublist (grants (deed :: done)) :=
  (sublist_cons_self deed done).filterMap _

theorem Lost.mono (lost : Lost done tenant jid token) (more : List Deed) :
    Lost (more ++ done) tenant jid token := by
  obtain ⟨later, presented, earlier, rfl, granted⟩ := lost
  exact ⟨more ++ later, presented, earlier, (append_assoc _ _ _).symm, granted⟩

theorem Lost.grows (lost : Lost (deeds born) tenant jid token) (grown : born <:+ history) :
    Lost (deeds history) tenant jid token := by
  obtain ⟨more, rfl⟩ := grown
  rw [deeds, map_append]
  exact lost.mono _

theorem Lost.leaseOf (lost : Lost done tenant jid token) (distinct : (grants done).Nodup) :
    ∃ lease, leaseOf tenant jid done = some lease ∧ lease ≠ some token := by
  obtain ⟨later, presented, earlier, rfl, granted⟩ := lost
  induction later with
  | nil => exact ⟨none, by simp [Jobs.leaseOf], nofun⟩
  | cons deed later ih =>
    cases deed with
    | claimed other otherJid newToken =>
      rw [cons_append, grants_claimed, nodup_cons] at distinct
      obtain ⟨isNew, distinct⟩ := distinct
      rw [cons_append, Jobs.leaseOf]
      split
      · refine ⟨_, rfl, fun same => isNew ?_⟩
        rw [grants, mem_filterMap]
        refine ⟨_, mem_append_right _ (mem_cons_of_mem _ granted), ?_⟩
        exact same.symm
      · exact ih distinct
    | ended other otherJid _ =>
      rw [cons_append, Jobs.leaseOf]
      split
      · exact ⟨none, rfl, nofun⟩
      · exact ih distinct
    | enqueued _ => exact ih distinct
    | kept _ _ _ => exact ih distinct
    | reaped _ => exact ih distinct

def Honoured : List Deed → Prop
  | [] => True
  | deed :: done => (∀ tenant jid token, deed.presents = some (tenant, jid, token) →
      ∀ lease, leaseOf tenant jid done = some lease → lease = some token) ∧ Honoured done

structure Granted (codec : JobCodec) (store : Store) (history : History) : Prop
    extends Kept codec store history where
  distinct : (grants (deeds history)).Nodup
  honoured : Honoured (deeds history)

variable {deed : Deed}

theorem Honoured.not_lost {later : List Deed} (honoured : Honoured (later ++ deed :: done))
    (distinct : (grants (later ++ deed :: done)).Nodup)
    (presents : deed.presents = some (tenant, jid, token)) : ¬ Lost done tenant jid token := by
  intro lost
  induction later with
  | nil =>
    obtain ⟨lease, isLease, different⟩ := lost.leaseOf (List.Nodup.sublist (grants_sublist _) distinct)
    exact different (honoured.1 tenant jid token presents lease isLease)
  | cons newer later ih =>
    exact ih honoured.2 (List.Nodup.sublist (grants_sublist _) distinct)

variable {ledger : Ledger}

theorem Kept.presented {batch : Batch} (kept : Kept codec store history)
    (fits : deed.Fits codec batch) (accepts : batch.Accepts store)
    (presents : deed.presents = some (tenant, jid, token))
    (represents : Represents codec tenant store ledger) :
    ∃ cur, ledger jid = some cur ∧ cur.token = some token := by
  have moved : ∃ cur next, Moves codec batch cur next ∧ cur.tenant = tenant ∧ cur.jid = jid ∧
      cur.token = some token := by
    cases deed with
    | kept _ _ presented | ended _ _ presented =>
      obtain ⟨cur, next, moves, rfl, rfl, _, fenced⟩ := fits
      cases presented with
      | none => cases presents
      | some other =>
        cases presents
        exact ⟨cur, next, moves, rfl, rfl, fenced _ rfl⟩
    | enqueued _ => cases presents
    | claimed _ _ _ => cases presents
    | reaped _ => cases presents
  obtain ⟨cur, next, moves, rfl, rfl, isToken⟩ := moved
  obtain ⟨value, found, read⟩ := moves.found accepts
  exact ⟨cur, represents.ledger_eq found read (kept.inSpace found read), isToken⟩

variable {index : Nat} {call : Call} {payload : Labelled Deed}

theorem Granted.commit (granted : Granted codec store history)
    (kept : Kept codec (payload.batch.effect store) (⟨index, call, payload⟩ :: history))
    (accepts : payload.batch.Accepts store)
    (isNew : ∀ token, payload.label.granted = some token → token ∉ grants (deeds history)) :
    Granted codec (payload.batch.effect store) (⟨index, call, payload⟩ :: history) := by
  refine ⟨kept, ?_, ?_, granted.honoured⟩
  · change (grants (payload.label :: deeds history)).Nodup
    rw [grants, filterMap_cons]
    cases isGrant : payload.label.granted with
    | none => exact granted.distinct
    | some token => exact nodup_cons.mpr ⟨isNew token isGrant, granted.distinct⟩
  · intro tenant jid token presents lease isLease
    obtain ⟨ledger, represents, tracks⟩ := granted.ledgers tenant
    have fits := (kept.attempts _ mem_cons_self).fits
    obtain ⟨cur, listed, isToken⟩ := granted.presented fits accepts presents represents
    exact (tracks.lease jid cur lease listed isLease).symm.trans isToken

variable {committed : List (Labelled Deed)}

theorem view_of_fenced (view : queue.fencedSystem.View index call born committed history) :
    queue.system.View index call born committed history :=
  ⟨view.grows, view.own, view.ownCall, fun entry member foreign =>
    (view.apart entry member foreign).1⟩

theorem new_of_view (kept : Kept codec store history)
    (view : queue.fencedSystem.View index call born committed history)
    (legal : queue.fencedSystem.legal call) (may : call.May codec committed payload)
    (isGrant : payload.label.granted = some token) : token ∉ grants (deeds history) := by
  intro earlier
  obtain ⟨deed, isDeed, wasGrant⟩ := mem_filterMap.mp earlier
  obtain ⟨entry, member, rfl⟩ := mem_map.mp isDeed
  have claims : ∀ deed : Deed, deed.granted = some token →
      ∃ tenant jid, deed = .claimed tenant jid token := by
    intro deed isGrant
    cases deed with
    | claimed tenant jid other =>
      cases isGrant
      exact ⟨tenant, jid, rfl⟩
    | _ => cases isGrant
  obtain ⟨tenant, jid, isLabel⟩ := claims _ isGrant
  obtain ⟨otherTenant, otherJid, wasLabel⟩ := claims _ wasGrant
  obtain ⟨drawn, draws, before⟩ := may.ordered tenant jid token isLabel
  by_cases own : entry.thread = index
  · have listed : entry.batch ∈ committed := by
      rw [← view.own]
      exact mem_map_of_mem (mem_filter.mpr ⟨member, decide_eq_true own⟩)
    obtain ⟨first, less, drew⟩ := before _ listed otherTenant otherJid token wasLabel
    exact less.ne (legal.2 first drawn token drew draws)
  · obtain ⟨first, drew⟩ := (kept.attempts entry member).draws otherTenant otherJid token wasLabel
    exact (view.apart entry member own).2 first drawn token drew draws

def Denies (codec : JobCodec) (tenant : TenantId) (jid token : Id) (store : Store) : Prop :=
  tenant ≠ [] ∧ ∀ part due value,
    store.get (Keys.job tenant defaultNamespace part due jid) = some value →
    ∃ cur, unmarshal codec (Keys.job tenant defaultNamespace part due jid) value = .ok cur ∧
      cur.token ≠ some token

theorem Kept.tenant_ne_nil (kept : Kept codec store history)
    (enqueued : Enqueued (deeds history) tenant jid) : tenant ≠ [] := by
  obtain ⟨jobs, isDeed, listed⟩ := enqueued
  obtain ⟨entry, member, isLabel⟩ := mem_map.mp isDeed
  have fits := (kept.attempts entry member).fits
  rw [isLabel] at fits
  obtain ⟨rows, rfl, _, written⟩ := fits
  obtain ⟨row, isRow, same⟩ := mem_map.mp listed
  obtain ⟨rfl, rfl⟩ := Prod.ext_iff.mp same
  have valid := (marshal_eq_ok_iff.mp (written row isRow).2.1).1.tenant
  intro empty
  rw [show row.1.tenant = [] from empty] at valid
  exact absurd valid (by decide)

theorem Granted.denies (granted : Granted codec store history)
    (lost : Lost (deeds history) tenant jid token) : Denies codec tenant jid token store := by
  obtain ⟨lease, isLease, different⟩ := lost.leaseOf granted.distinct
  obtain ⟨ledger, represents, tracks⟩ := granted.ledgers tenant
  constructor
  · apply granted.tenant_ne_nil
    apply tracks.claimed jid
    rw [isLease]
    exact some_ne_none _
  intro part due value found
  obtain ⟨cur, stored, listed⟩ := represents.decodes _ _ found (prefix_append _ _)
  refine ⟨cur, stored.read, ?_⟩
  obtain ⟨_, curDue, _, place⟩ := Job.key_eq_ok_iff.mp (unmarshal_place stored.read).1
  rw [← (job_inj place).2.2.2.2] at listed
  rw [tracks.lease jid cur lease listed isLease]
  exact different

def Conflicts (answer : Result Job) (committed : List (Labelled Deed)) : Prop :=
  committed = [] ∧ ∃ fault, answer = .error fault ∧ fault.kind = .conflict

section

variable {holds : Store → Prop} {may : List (Labelled Deed) → Labelled Deed → Prop} {held : Job}

theorem fence_conflict (op : String) {cur : Job} (presented : held.token = some token)
    (different : cur.token ≠ some token) :
    ∃ fault, Queue.fence op held cur = .error fault ∧ fault.kind = .conflict := by
  obtain ⟨lease, isLease, rfl⟩ := map_eq_some_iff.mp presented
  unfold Queue.fence
  rw [isLease]
  dsimp only
  cases isCurrent : cur.lease with
  | none => exact ⟨_, rfl, rfl⟩
  | some current =>
    dsimp only
    rw [if_pos]
    · exact ⟨_, rfl, rfl⟩
    · intro same
      apply different
      rw [Job.token, isCurrent, map_some, same]

theorem performs_lost_transition {apply : Job → Job} {run : Option Run} {later : Time}
    {deed : TenantId → Id → Option Id → Deed} {part : JobState} {due : UInt64}
    (denies : ∀ store, holds store → Denies queue.codec tenant jid token store)
    (tenanted : tenant ≠ []) (isTenant : held.tenant = tenant)
    (presented : held.token = some token)
    (place : held.stored = Keys.job tenant defaultNamespace part due jid) :
    Program.Performs holds Refusal may Conflicts
      (queue.transition held apply run later deed) [] := by
  unfold Queue.transition
  dsimp only
  rw [if_neg (isTenant ▸ tenanted), if_neg]
  · apply Program.performs_observe_bind
    intro store held
    cases found : store.get _ with
    | none => exact ⟨rfl, _, rfl, rfl⟩
    | some value =>
      rw [place] at found
      obtain ⟨cur, read, different⟩ := (denies store held).2 part due value found
      obtain ⟨fault, isFault, conflict⟩ :=
        fence_conflict "jobs.transition" presented different
      rw [← place] at read
      dsimp only
      rw [Queue.prepare, read]
      dsimp only
      rw [isFault]
      exact ⟨rfl, fault, rfl, conflict⟩
  · rw [place, Keys.job, beginKey]
    simp

def Call.refusalKind (call : Call) : Kind := if call.oversized then .invalid else .conflict

def Refused (call : Call) (answer : Answer) (committed : List (Labelled Deed)) : Prop :=
  committed = [] ∧ ∃ fault, answer.fault = some fault ∧ fault.kind = call.refusalKind

variable {call : Call}

theorem Conflicts.refused {answer : Result Job} {committed : List (Labelled Deed)}
    (conflicts : Conflicts answer committed) (small : call.oversized = false) :
    Refused call (.job answer) committed := by
  obtain ⟨rfl, fault, rfl, conflict⟩ := conflicts
  refine ⟨rfl, fault, rfl, ?_⟩
  rw [Call.refusalKind, small, conflict]
  rfl

theorem performs_lost_body
    (denies : ∀ store, holds store → Denies queue.codec tenant jid token store)
    (tenanted : tenant ≠ []) (isHolder : call.Holds tenant jid token) :
    Program.Performs holds Refusal may (Refused call) (call.body queue) [] := by
  obtain ⟨held, isHeld, isTenant, presented, part, due, place⟩ := isHolder
  have conflicts : ∀ apply run later deed, Program.Performs holds Refusal may Conflicts
      (queue.transition held apply run later deed) [] := fun _ _ _ _ =>
    performs_lost_transition denies tenanted isTenant presented place
  have leased : held.lease ≠ none := by
    intro none
    rw [Job.token, none] at presented
    cases presented
  have finishes : ∀ now later state lastError run, state.terminal = true →
      call.oversized = false → Program.Performs holds Refusal may (Refused call)
        (queue.finish now later held state lastError run) [] := by
    intro now later state lastError run terminal small
    unfold Queue.finish
    rw [terminal]
    exact (conflicts _ _ _ _).bind fun _ _ conflict => conflict.refused small
  cases call with
  | renew now other =>
    cases isHeld
    change Program.Performs _ _ _ _ (queue.renew now held) _
    unfold Queue.renew
    rw [if_neg leased]
    exact (conflicts _ _ _ _).bind fun _ _ conflict => conflict.refused rfl
  | save now other cursor =>
    cases isHeld
    change Program.Performs _ _ _ _ (queue.save now held cursor) _
    unfold Queue.save
    rw [if_neg leased]
    by_cases large : maxCheckpointBytes < cursor.length
    · rw [if_pos large]
      refine ⟨rfl, _, rfl, ?_⟩
      simp [Call.refusalKind, Call.oversized, large]
    rw [if_neg large]
    apply (conflicts _ _ _ _).bind
    intro _ _ conflict
    apply conflict.refused
    simpa [Call.oversized] using large
  | complete now later other run =>
    cases isHeld
    exact finishes now later .completed [] run rfl rfl
  | fail now later jitter other cause run =>
    cases isHeld
    change Program.Performs _ _ _ _ (queue.fail now later jitter held cause run) _
    unfold Queue.fail
    dsimp only
    split
    · exact finishes now later .failed _ run rfl rfl
    · exact (conflicts _ _ _ _).bind fun _ _ conflict => conflict.refused rfl
  | release now other =>
    cases isHeld
    change Program.Performs _ _ _ _ (queue.release now held) _
    unfold Queue.release
    exact (conflicts _ _ _ _).bind fun _ _ conflict => conflict.refused rfl
  | _ => cases isHeld

end

def Fenced (call : Call) (born : History) (answer : Answer)
    (committed : List (Labelled Deed)) : Prop :=
  ∀ tenant jid token, call.Holds tenant jid token → Lost (deeds born) tenant jid token →
    Refused call answer committed

theorem granted_run (queue : Queue) {initial : Store} (vacant : Vacant initial)
    (schedule : List (Action Call))
    (distinct : queue.fencedSystem.Distinct (queue.fencedSystem.run initial schedule)) :
    System.Sound queue.fencedSystem System.Unchecked (Granted queue.codec)
      (fun _ call born _ _ => Fenced call born) (queue.fencedSystem.run initial schedule) := by
  have start : Granted queue.codec initial [] := ⟨vacant.kept, nodup_nil, trivial⟩
  apply System.sound_run _ _ _ start _ schedule distinct (queue.fencedSystem.meets_unchecked _ _)
  intro index call born store granted legal _
  by_cases lost : ∃ tenant jid token, call.Holds tenant jid token ∧
      Lost (deeds born) tenant jid token
  · obtain ⟨tenant, jid, token, isHolder, lost⟩ := lost
    have denies : ∀ store, (∃ history, Granted queue.codec store history ∧ born <:+ history) →
        Denies queue.codec tenant jid token store := by
      rintro store ⟨history, granted, grown⟩
      exact granted.denies (lost.grows grown)
    have performs : Program.Performs _ Refusal (fun _ _ => False) (Refused call)
        (call.body queue) [] :=
      performs_lost_body denies (granted.denies lost).1 isHolder
    apply System.Safe.of_performs (performs.imp ?_)
    · exact fun _ _ _ failed => refusal_of_commit failed
    · exact fun _ _ _ _ _ impossible => impossible.elim
    · exact fun _ _ refused _ _ _ _ _ => refused
  · apply System.Safe.of_performs ((performs_body ?_ legal.1).imp ?_)
    · exact fun _ _ _ failed => refusal_of_commit failed
    · intro committed payload store history after may granted view applied _
      obtain ⟨accepts, rfl⟩ := Batch.commit_eq_ok_iff.mp applied
      refine granted.commit ?_ accepts ?_
      · exact granted.toKept.commit may.toAttempts accepts legal.1.1
          (fresh_of_view granted.attempts (view_of_fenced view) may)
      · exact fun token isGrant => new_of_view granted.toKept view legal may isGrant
    · rintro store ⟨history, granted, _⟩
      exact granted.orderly
    · intro answer committed _ tenant jid token isHolder isLost
      exact absurd ⟨tenant, jid, token, isHolder, isLost⟩ lost

/-- A commit that the store accepts now and that presents a token on the job. -/
def Pending (world : World Call Store (Labelled Deed) Fault Answer) (tenant : TenantId)
    (jid token : Id) : Prop :=
  ∃ (index : Nat) (thread : Thread Call Store (Labelled Deed) Fault Answer)
    (payload : Labelled Deed) (next : Result Unit → QueueProgram Answer),
    world.threads[index]? = some thread ∧ thread.program = .commit payload next ∧
    payload.batch.Accepts world.state ∧ payload.label.presents = some (tenant, jid, token)

theorem Pending.carried {world : World Call Store (Labelled Deed) Fault Answer}
    {post : Nat → Call → History → Store → History → Answer → List (Labelled Deed) → Prop}
    (sound : System.Sound queue.fencedSystem System.Unchecked (Granted queue.codec) post world)
    (pending : Pending world tenant jid token)
    (represents : Represents queue.codec tenant world.state ledger) :
    ∃ cur, ledger jid = some cur ∧ cur.token = some token := by
  obtain ⟨index, thread, payload, next, found, program, accepts, presents⟩ := pending
  obtain ⟨_, _, later, safe⟩ := sound.safe index thread found
  rw [program] at safe
  have after :=
    safe world.state world.history sound.holds (sound.view index thread found) later
  rw [show queue.fencedSystem.apply payload world.state = payload.batch.commit world.state
    from rfl, Batch.commit_of_accepts accepts] at after
  have fits := ((after trivial).1.attempts _ mem_cons_self).fits
  exact sound.holds.presented fits accepts presents represents

/-- Once a claim is lost, its holder can change nothing. From an empty job space, in every
schedule of calls whose claims draw distinct tokens: a call made on a claim that was lost
before it is refused as a conflict (a checkpoint over the limit as invalid) and none of the
commits is its own; no commit presents a token after its claim was lost; and the commits the
store would accept at one time on one job all present the same token. -/
theorem lost_claim_fenced (queue : Queue) (initial : Store) (vacant : Vacant initial)
    (schedule : List (Action Call))
    (distinct : queue.fencedSystem.Distinct (queue.fencedSystem.run initial schedule)) :
    let world := queue.fencedSystem.run initial schedule
    (∀ index thread answer tenant jid token, world.threads[index]? = some thread →
      thread.program = .ret answer → thread.call.Holds tenant jid token →
      Lost (deeds thread.born) tenant jid token →
      (∃ fault, answer.fault = some fault ∧
        fault.kind = if thread.call.oversized then .invalid else .conflict) ∧
      ∀ entry ∈ world.history, entry.thread ≠ index) ∧
    (∀ later deed earlier tenant jid token, deeds world.history = later ++ deed :: earlier →
      deed.presents = some (tenant, jid, token) → ¬ Lost earlier tenant jid token) ∧
    (∀ tenant jid token other, Pending world tenant jid token →
      Pending world tenant jid other → token = other) := by
  intro world
  have sound := granted_run queue vacant schedule distinct
  refine ⟨?_, ?_, ?_⟩
  · intro index thread answer tenant jid token found finished isHolder lost
    obtain ⟨_, _, _, fenced⟩ := sound.answered found finished
    obtain ⟨quiet, refused⟩ := fenced tenant jid token isHolder lost
    refine ⟨refused, ?_⟩
    intro entry member own
    have none := (sound.view index thread found).own
    rw [quiet, map_eq_nil_iff, filter_eq_nil_iff] at none
    exact none entry member (decide_eq_true own)
  · intro later deed earlier tenant jid token split presents
    have honoured := sound.holds.honoured
    have granted := sound.holds.distinct
    rw [show deeds (queue.fencedSystem.run initial schedule).history = _ from split]
      at honoured granted
    exact honoured.not_lost granted presents
  · intro tenant jid token other pending otherPending
    obtain ⟨ledger, represents, _⟩ := sound.holds.ledgers tenant
    obtain ⟨cur, listed, isToken⟩ := pending.carried sound represents
    obtain ⟨same, otherListed, otherToken⟩ := otherPending.carried sound represents
    cases otherListed.symm.trans listed
    exact Option.some.inj (isToken.symm.trans otherToken)

def drawnId (number : Nat) : Id := ⟨bigEndian idLen number, length_bigEndian _ _⟩

theorem drawnId_inj {first second : Nat} (firstFits : first < 4096) (secondFits : second < 4096)
    (same : drawnId first = drawnId second) : first = second := by
  have fits : 4096 < 256 ^ idLen := by decide
  exact bigEndian_inj (firstFits.trans fits) (secondFits.trans fits) (congrArg Id.bytes same)

def sampleHeld : Job :=
  { sampleJob with
    jid := Id.filled 1
    lease := some ⟨ascii "worker", 62000000000, drawnId 1024⟩
    stored := Keys.job (ascii "acme") defaultNamespace .running 62000 (Id.filled 1) }

/-- A job is submitted, claimed and released, and claimed by another worker at the same
instant, so that its row is at the same key as before. -/
def lostRun : List (Action Call) :=
  [.spawn (.submit 1000000000 sampleJob (Id.filled 1)), .act 0,
    .spawn (.claim 2000000000 (ascii "acme") (ascii "worker") [] 1 fun n => drawnId (1024 + n)),
    .act 1, .act 1, .spawn (.release 2000000000 sampleHeld), .act 2, .act 2,
    .spawn (.claim 2000000000 (ascii "acme") (ascii "other") [] 1 fun n => drawnId (2048 + n)),
    .act 3, .act 3]

theorem draws_claim {now : Time} {owner : Bytes} {types : List Bytes} {n : Int} {base drawn : Nat}
    (draws : (Call.claim now tenant owner types n fun n => drawnId (base + n)).Draws drawn token) :
    drawn < claimScanCap ∧ token = drawnId (base + drawn) := by
  obtain ⟨bound, _, _, _, _, _, _, isCall, isToken⟩ := draws
  cases isCall
  exact ⟨bound, isToken⟩

def Call.Claimless (call : Call) : Prop := ∀ drawn token, ¬ call.Draws drawn token

variable {held : Job}

theorem claimless_of_held (isHeld : call.held = some held) :
    call.Claimless ∧ call.enqueues = [] := by
  constructor
  · rintro drawn token ⟨_, _, _, _, _, _, _, rfl, _⟩
    cases isHeld
  · cases call with
    | enqueue _ _ => cases isHeld
    | submit _ _ _ => cases isHeld
    | _ => rfl

theorem distinct_of_claimless {first second : Call} (claimless : first.Claimless ∨ second.Claimless)
    (quiet : second.enqueues = []) : queue.fencedSystem.distinct first second := by
  refine ⟨fun job _ => ?_, fun drawn other token draws otherDraws => ?_⟩
  · rw [quiet]
    exact not_mem_nil
  · rcases claimless with none | none
    · exact none drawn token draws
    · exact none other token otherDraws

theorem distinct_lostRun (queue : Queue) {rest : List (Action Call)} {last : Call}
    (isLast : rest.filterMap Action.spawned = [last]) (isHeld : last.held = some held) :
    queue.fencedSystem.Distinct (queue.fencedSystem.run .empty (lostRun ++ rest)) := by
  obtain ⟨lastClaimless, lastQuiet⟩ := claimless_of_held isHeld
  have submitClaimless : (Call.submit 1000000000 sampleJob (Id.filled 1)).Claimless := by
    rintro drawn token ⟨_, _, _, _, _, _, _, isCall, _⟩
    cases isCall
  have releaseClaimless : (Call.release 2000000000 sampleHeld).Claimless :=
    (claimless_of_held rfl).1
  have ordered : ∀ owner base, base ≤ 2048 → ∀ first second token,
      (Call.claim 2000000000 (ascii "acme") owner [] 1 fun n => drawnId (base + n)).Draws
        first token →
      (Call.claim 2000000000 (ascii "acme") owner [] 1 fun n => drawnId (base + n)).Draws
        second token → first = second := by
    intro owner base bound first second token draws otherDraws
    obtain ⟨small, isToken⟩ := draws_claim draws
    obtain ⟨otherSmall, otherToken⟩ := draws_claim otherDraws
    unfold claimScanCap at small otherSmall
    have same := drawnId_inj (by omega) (by omega) (isToken.symm.trans otherToken)
    omega
  rw [System.Distinct, System.calls_run, filterMap_append, isLast]
  constructor
  · intro call listed
    change call ∈ [_, _, _, _, _] at listed
    simp only [mem_cons, not_mem_nil, or_false] at listed
    rcases listed with rfl | rfl | rfl | rfl | rfl
    · exact ⟨⟨nodup_singleton _, by decide⟩,
        fun first _ token draws => absurd draws (submitClaimless first token)⟩
    · exact ⟨⟨nodup_nil, nofun⟩, ordered _ 1024 (by decide)⟩
    · exact ⟨⟨nodup_nil, nofun⟩,
        fun first _ token draws => absurd draws (releaseClaimless first token)⟩
    · exact ⟨⟨nodup_nil, nofun⟩, ordered _ 2048 (by decide)⟩
    · refine ⟨⟨?_, ?_⟩, fun first _ token draws => absurd draws (lastClaimless first token)⟩
      · rw [lastQuiet]
        exact nodup_nil
      · rw [map_eq_nil_iff.mp lastQuiet]
        exact nofun
  · change List.Pairwise _ [_, _, _, _, _]
    simp only [pairwise_cons, mem_cons, not_mem_nil, or_false, forall_eq_or_imp,
      forall_eq, IsEmpty.forall_iff, implies_true, List.Pairwise.nil, and_true]
    refine ⟨⟨?_, ?_, ?_, ?_⟩, ⟨?_, ?_, ?_⟩, ⟨?_, ?_⟩, ?_⟩
    · exact distinct_of_claimless (.inl submitClaimless) rfl
    · exact distinct_of_claimless (.inl submitClaimless) rfl
    · exact distinct_of_claimless (.inl submitClaimless) rfl
    · exact distinct_of_claimless (.inl submitClaimless) lastQuiet
    · exact distinct_of_claimless (.inr releaseClaimless) rfl
    · refine ⟨fun _ _ => not_mem_nil, fun first second token draws otherDraws => ?_⟩
      obtain ⟨small, isToken⟩ := draws_claim draws
      obtain ⟨otherSmall, otherToken⟩ := draws_claim otherDraws
      unfold claimScanCap at small otherSmall
      have same := drawnId_inj (by omega) (by omega) (isToken.symm.trans otherToken)
      omega
    · exact distinct_of_claimless (.inr lastClaimless) lastQuiet
    · exact distinct_of_claimless (.inl releaseClaimless) rfl
    · exact distinct_of_claimless (.inl releaseClaimless) lastQuiet
    · exact distinct_of_claimless (.inr lastClaimless) lastQuiet

theorem deeds_lostRun :
    deeds ((⟨blockCodec, 60000000000⟩ : Queue).fencedSystem.run .empty lostRun).history =
      [.claimed (ascii "acme") (Id.filled 1) (drawnId 2048),
        .ended (ascii "acme") (Id.filled 1) (some (drawnId 1024)),
        .claimed (ascii "acme") (Id.filled 1) (drawnId 1024),
        .enqueued [(ascii "acme", Id.filled 1)]] := by
  decide +kernel

theorem lost_lostRun : Lost [.claimed (ascii "acme") (Id.filled 1) (drawnId 2048),
    .ended (ascii "acme") (Id.filled 1) (some (drawnId 1024)),
    .claimed (ascii "acme") (Id.filled 1) (drawnId 1024),
    .enqueued [(ascii "acme", Id.filled 1)]] (ascii "acme") (Id.filled 1) (drawnId 1024) :=
  ⟨[_], _, _, rfl, mem_cons_self⟩

/-- The first worker renews its claim although another worker holds the job by now. -/
theorem lost_claim_fenced_renewed :
    let queue : Queue := ⟨blockCodec, 60000000000⟩
    let world := queue.fencedSystem.run .empty
      (lostRun ++ [.spawn (.renew 3000000000 sampleHeld), .act 4])
    ∃ thread answer fault, world.threads[4]? = some thread ∧ thread.program = .ret answer ∧
      answer.fault = some fault ∧ fault.kind = .conflict ∧
      ∀ entry ∈ world.history, entry.thread ≠ 4 := by
  intro queue world
  have evaluated : (world.threads[4]?.map fun thread =>
      (deeds thread.born, thread.program.answer?.isSome)) = some
        ([.claimed (ascii "acme") (Id.filled 1) (drawnId 2048),
          .ended (ascii "acme") (Id.filled 1) (some (drawnId 1024)),
          .claimed (ascii "acme") (Id.filled 1) (drawnId 1024),
          .enqueued [(ascii "acme", Id.filled 1)]], true) := by
    decide +kernel
  obtain ⟨thread, found, same⟩ := map_eq_some_iff.mp evaluated
  obtain ⟨born, finished⟩ := Prod.ext_iff.mp same
  obtain ⟨answer, isAnswer⟩ := isSome_iff_exists.mp finished
  rw [Program.answer?_eq_some_iff] at isAnswer
  have call : thread.call = .renew 3000000000 sampleHeld := by
    have calls := congrArg (fun calls => calls[4]?) (queue.fencedSystem.calls_run .empty
      (lostRun ++ [.spawn (.renew 3000000000 sampleHeld), .act 4]))
    rw [getElem?_map, found] at calls
    exact Option.some.inj calls
  obtain ⟨⟨fault, isFault, kind⟩, untouched⟩ :=
    (lost_claim_fenced queue .empty (fun _ _ _ _ => rfl) _ (distinct_lostRun queue rfl rfl)).1
      4 thread answer (ascii "acme") (Id.filled 1) (drawnId 1024) found isAnswer
      ⟨sampleHeld, by rw [call]; rfl, rfl, rfl, .running, 62000, rfl⟩
      (by
        rw [show deeds thread.born = _ from born]
        exact lost_lostRun)
  rw [call] at kind
  exact ⟨thread, answer, fault, found, isAnswer, isFault, kind, untouched⟩

theorem last_thread (queue : Queue) (call : Call) :
    ((queue.fencedSystem.run .empty (lostRun ++ [.spawn call])).threads[4]?) =
      some ⟨call, (queue.fencedSystem.run .empty lostRun).history, call.body queue, []⟩ := by
  have length := congrArg List.length (queue.fencedSystem.calls_run .empty lostRun)
  rw [length_map, show (lostRun.filterMap Action.spawned).length = 4 from rfl] at length
  rw [System.run_append_singleton]
  dsimp only [System.step]
  rw [getElem?_append_right length.le, length]
  rfl

theorem save_oversized {cursor : Bytes} (large : maxCheckpointBytes < cursor.length) :
    let queue : Queue := ⟨blockCodec, 60000000000⟩
    ∃ thread, (queue.fencedSystem.run .empty
        (lostRun ++ [.spawn (.save 3000000000 sampleHeld cursor)])).threads[4]? = some thread ∧
      thread.call.Holds (ascii "acme") (Id.filled 1) (drawnId 1024) ∧
      Lost (deeds thread.born) (ascii "acme") (Id.filled 1) (drawnId 1024) ∧
      (thread.program.answer?.bind Answer.fault).map Fault.kind = some .invalid := by
  intro queue
  refine ⟨_, last_thread queue _, ?_, ?_, ?_⟩
  · exact ⟨sampleHeld, rfl, rfl, rfl, .running, 62000, rfl⟩
  · dsimp only
    rw [deeds_lostRun]
    exact lost_lostRun
  · change ((queue.save 3000000000 sampleHeld cursor).answer?.bind Answer.fault).map Fault.kind = _
    have leased : sampleHeld.lease ≠ none := some_ne_none _
    rw [Queue.save, if_neg leased, if_pos large]
    rfl

/-- The holder of a lost claim that saves a checkpoint over the limit is told that it is
invalid, not that the claim is lost. -/
theorem lost_claim_save_invalid :
    let queue : Queue := ⟨blockCodec, 60000000000⟩
    let save : Call := .save 3000000000 sampleHeld (List.replicate 65537 0)
    let world := queue.fencedSystem.run .empty (lostRun ++ [.spawn save])
    queue.fencedSystem.Distinct world ∧ ∃ thread, world.threads[4]? = some thread ∧
        thread.call.Holds (ascii "acme") (Id.filled 1) (drawnId 1024) ∧
        Lost (deeds thread.born) (ascii "acme") (Id.filled 1) (drawnId 1024) ∧
        (thread.program.answer?.bind Answer.fault).map Fault.kind = some .invalid := by
  intro queue save world
  refine ⟨distinct_lostRun queue rfl rfl, save_oversized ?_⟩
  rw [length_replicate]
  decide

end Remem.Jobs
