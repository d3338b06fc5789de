import Remem.Base.Machine
import Remem.Keys.Layout

/-!
# Losses of the index queue

An operation that the queue took on and could not apply degrades its tenant until a
rebuild repairs it. The mark is a count: a rebuild remembers the count it began from and
clears the mark if it is still that.
-/

namespace Remem.IndexQueue

open Base Keys Option

abbrev Losses := TenantId → Option UInt64

structure Health where
  degraded : Bool
  reason : String
  deriving DecidableEq

def lostReason : String :=
  "an index operation queued after its memory was stored could not be applied; " ++
    "a vector.rebuild has been scheduled to restore it"

namespace Losses

variable (losses : Losses) (tenant : TenantId)

/-- `lossSeq`: a tenant without an entry reads as zero. -/
def lossSeq : UInt64 := (losses tenant).getD 0

def markLost : Losses := Function.update losses tenant (some (losses.lossSeq tenant + 1))

def clearLoss (seq : UInt64) : Losses :=
  if losses.lossSeq tenant = seq then Function.update losses tenant none else losses

def withLosses (health : Health) : Health :=
  if losses.lossSeq tenant = 0 ∨ health.degraded then health else ⟨true, lostReason⟩

variable {losses tenant} {other : TenantId}

theorem degraded_withLosses (lost : losses.lossSeq tenant ≠ 0) (health : Health) :
    (losses.withLosses tenant health).degraded = true := by
  unfold withLosses
  split
  · next either => exact either.resolve_left lost
  · rfl

theorem lossSeq_markLost : (losses.markLost tenant).lossSeq tenant = losses.lossSeq tenant + 1 := by
  simp [markLost, lossSeq]

theorem lossSeq_markLost_of_ne (differ : other ≠ tenant) :
    (losses.markLost tenant).lossSeq other = losses.lossSeq other := by
  simp [markLost, lossSeq, differ]

theorem lossSeq_clearLoss_of_ne {seq : UInt64} (differ : other ≠ tenant) :
    (losses.clearLoss tenant seq).lossSeq other = losses.lossSeq other := by
  unfold clearLoss
  split
  · simp [lossSeq, differ]
  · rfl

theorem clearLoss_of_lt {seq : UInt64} (moved : seq < losses.lossSeq tenant) :
    losses.clearLoss tenant seq = losses := by
  unfold clearLoss
  rw [if_neg]
  rintro rfl
  exact UInt64.lt_irrefl _ moved

end Losses

/-- What `Settle` answered. -/
inductive Drained where
  | settled
  | stopped
  | failed
  deriving DecidableEq

inductive RebuildPhase where
  | draining
  | rebuilding
  | clearing
  | completed
  | failed
  deriving DecidableEq

namespace RebuildPhase

def underWay : RebuildPhase → Bool
  | draining | rebuilding | clearing => true
  | completed | failed => false

def afterDrain : Drained → RebuildPhase
  | .settled | .stopped => rebuilding
  | .failed => failed

def afterRebuild (succeeded : Bool) : RebuildPhase := if succeeded then clearing else failed

end RebuildPhase

/-- A call of `Queue.Rebuild`, from its read of the count on. -/
structure RebuildCall where
  tenant : TenantId
  seq : UInt64
  phase : RebuildPhase
  deriving DecidableEq

structure LossState where
  losses : Losses
  /-- In the order in which they began. -/
  rebuilds : List RebuildCall

inductive LossAct where
  | lose (tenant : TenantId)
  | start (tenant : TenantId)
  | drain (index : Nat) (outcome : Drained)
  | rebuild (index : Nat) (succeeded : Bool)
  | clear (index : Nat)

namespace LossState

def initial : LossState := ⟨fun _ => none, []⟩

def callIn (state : LossState) (phase : RebuildPhase) (index : Nat) : Option RebuildCall :=
  state.rebuilds[index]?.filter fun call => call.phase = phase

def setPhase (state : LossState) (index : Nat) (call : RebuildCall) (phase : RebuildPhase) :
    LossState :=
  { state with rebuilds := state.rebuilds.set index { call with phase } }

end LossState

def lossMachine : Machine LossState LossAct where
  step state
    | .lose tenant => some { state with losses := state.losses.markLost tenant }
    | .start tenant =>
      some { state with
        rebuilds := state.rebuilds ++ [⟨tenant, state.losses.lossSeq tenant, .draining⟩] }
    | .drain index outcome => do
        let call ← state.callIn .draining index
        return state.setPhase index call (.afterDrain outcome)
    | .rebuild index succeeded => do
        let call ← state.callIn .rebuilding index
        return state.setPhase index call (.afterRebuild succeeded)
    | .clear index => do
        let call ← state.callIn .clearing index
        return { state.setPhase index call .completed with
          losses := state.losses.clearLoss call.tenant call.seq }

namespace LossState

variable {state after : LossState} {index : Nat} {phase : RebuildPhase} {call : RebuildCall}

theorem callIn_eq_some : state.callIn phase index = some call ↔
    state.rebuilds[index]? = some call ∧ call.phase = phase := by
  simp [callIn, filter_eq_some_iff]

/-- What one act does: it counts a loss, begins a rebuild, or takes a rebuild that is
under way on, and only the last step of a rebuild clears. -/
theorem step_cases {act : LossAct} (stepped : lossMachine.step state act = some after) :
    (∃ tenant, act = .lose tenant ∧ after = { state with losses := state.losses.markLost tenant }) ∨
    (∃ tenant, after = { state with
      rebuilds := state.rebuilds ++ [⟨tenant, state.losses.lossSeq tenant, .draining⟩] }) ∨
    (∃ index call phase, state.rebuilds[index]? = some call ∧ call.phase.underWay = true ∧
      phase ≠ .completed ∧ after = state.setPhase index call phase) ∨
    (∃ index call, act = .clear index ∧ state.rebuilds[index]? = some call ∧
      call.phase.underWay = true ∧
      after = { state.setPhase index call .completed with
        losses := state.losses.clearLoss call.tenant call.seq }) := by
  cases act with
  | lose tenant => exact .inl ⟨tenant, rfl, (Option.some.inj stepped).symm⟩
  | start tenant => exact .inr (.inl ⟨tenant, (Option.some.inj stepped).symm⟩)
  | drain index outcome | rebuild index outcome =>
    obtain ⟨call, found, done⟩ := bind_eq_some_iff.mp stepped
    obtain ⟨listed, inPhase⟩ := callIn_eq_some.mp found
    refine .inr (.inr (.inl ⟨index, call, _, listed, ?_, ?_, (Option.some.inj done).symm⟩))
    · rw [inPhase]
      rfl
    · cases outcome <;> nofun
  | clear index =>
    obtain ⟨call, found, done⟩ := bind_eq_some_iff.mp stepped
    obtain ⟨listed, inPhase⟩ := callIn_eq_some.mp found
    refine .inr (.inr (.inr ⟨index, call, rfl, listed, ?_, (Option.some.inj done).symm⟩))
    rw [inPhase]
    rfl

theorem underWay_setPhase {place : Nat} {found : RebuildCall}
    (listed : state.rebuilds[index]? = some call) (active : call.phase.underWay = true)
    (member : (state.setPhase index call phase).rebuilds[place]? = some found)
    (still : found.phase.underWay = true) :
    ∃ earlier, state.rebuilds[place]? = some earlier ∧ earlier.phase.underWay = true ∧
      earlier.tenant = found.tenant ∧ earlier.seq = found.seq := by
  rw [setPhase, List.getElem?_set] at member
  split at member
  · next same =>
    subst same
    split at member
    · cases member
      exact ⟨call, listed, active, rfl, rfl⟩
    · cases member
  · exact ⟨found, member, still, rfl, rfl⟩

end LossState

/-- A rebuild clears when no other one of its tenant is under way, and the count of
losses is below its greatest value when another is counted. -/
def Unshared (state : LossState) : LossAct → Prop
  | .lose tenant => state.losses.lossSeq tenant < UInt64.ofNat (UInt64.size - 1)
  | .clear index => ∀ call ∈ state.rebuilds[index]?, ∀ other ∈ state.rebuilds.eraseIdx index,
      other.tenant = call.tenant → other.phase.underWay = false
  | _ => True

instance decidableUnshared (state : LossState) : ∀ act, Decidable (Unshared state act)
  | .lose _ => inferInstanceAs (Decidable (_ < _))
  | .clear _ => inferInstanceAs (Decidable (∀ call ∈ _, ∀ other ∈ _, _ → _))
  | .start _ | .drain _ _ | .rebuild _ _ => inferInstanceAs (Decidable True)

def Behind (state : LossState) : Prop :=
  ∀ (place : Nat) (call : RebuildCall), state.rebuilds[place]? = some call →
    call.phase.underWay = true → call.seq ≤ state.losses.lossSeq call.tenant

/-- Since `begun` rebuilds had begun, one that began later has completed, or the tenant is
marked and every earlier one that is under way began from a smaller count. -/
def Outlives (tenant : TenantId) (begun : Nat) (state : LossState) : Prop :=
  begun ≤ state.rebuilds.length ∧
  ((∃ (place : Nat) (call : RebuildCall), begun ≤ place ∧ state.rebuilds[place]? = some call ∧
    call.tenant = tenant ∧ call.phase = .completed) ∨
  (state.losses.lossSeq tenant ≠ 0 ∧
    ∀ (place : Nat) (call : RebuildCall), place < begun → state.rebuilds[place]? = some call →
      call.tenant = tenant → call.phase.underWay = true → call.seq < state.losses.lossSeq tenant))

theorem lt_add_one_of_lt {count : UInt64} (below : count < UInt64.ofNat (UInt64.size - 1)) :
    count < count + 1 := by
  rw [UInt64.lt_iff_toNat_lt] at below ⊢
  rw [UInt64.toNat_add]
  change count.toNat < 18446744073709551615 at below
  change count.toNat < (count.toNat + 1) % 18446744073709551616
  omega

namespace LossState

variable {state after : LossState} {act : LossAct} {tenant : TenantId} {begun : Nat}

theorem underWay_start {place : Nat} {found : RebuildCall}
    (member : (state.rebuilds ++ [⟨tenant, state.losses.lossSeq tenant, .draining⟩])[place]? =
      some found) :
    state.rebuilds[place]? = some found ∨
      (place = state.rebuilds.length ∧ found = ⟨tenant, state.losses.lossSeq tenant, .draining⟩) := by
  rcases Nat.lt_trichotomy place state.rebuilds.length with early | atEnd | late
  · rw [List.getElem?_append_left early] at member
    exact .inl member
  · subst atEnd
    rw [List.getElem?_concat_length] at member
    exact .inr ⟨rfl, (Option.some.inj member).symm⟩
  · rw [List.getElem?_eq_none (by simpa using late)] at member
    cases member

theorem behind_step (behind : Behind state) (unshared : Unshared state act)
    (stepped : lossMachine.step state act = some after) : Behind after := by
  intro place found member active
  rcases step_cases stepped with ⟨lost, rfl, rfl⟩ | ⟨lost, rfl⟩ |
    ⟨index, call, phase, listed, was, _, rfl⟩ | ⟨index, call, rfl, listed, was, rfl⟩
  · have earlier := behind place found member active
    by_cases same : found.tenant = lost
    · rw [same] at earlier ⊢
      rw [Losses.lossSeq_markLost]
      exact UInt64.le_trans earlier (UInt64.le_of_lt (lt_add_one_of_lt unshared))
    · rw [Losses.lossSeq_markLost_of_ne same]
      exact earlier
  · rcases underWay_start member with before | ⟨_, rfl⟩
    · exact behind place found before active
    · exact UInt64.le_refl _
  · obtain ⟨earlier, before, active, sameTenant, sameSeq⟩ :=
      underWay_setPhase listed was member active
    rw [← sameTenant, ← sameSeq]
    exact behind place earlier before active
  · -- the call that clears is over; every other one under way is of another tenant
    by_cases same : place = index
    · subst same
      have isCompleted : found.phase = .completed := by
        obtain ⟨inside, _⟩ := List.getElem?_eq_some_iff.mp listed
        rw [setPhase, List.getElem?_set_self inside] at member
        cases member
        rfl
      rw [isCompleted] at active
      cases active
    rw [setPhase, List.getElem?_set_ne (Ne.symm same)] at member
    by_cases shared : found.tenant = call.tenant
    · have ended := unshared call listed found
        (List.mem_eraseIdx_iff_getElem?.mpr ⟨place, same, member⟩) shared
      rw [ended] at active
      cases active
    · rw [Losses.lossSeq_clearLoss_of_ne shared]
      exact behind place found member active

theorem completed_stays {place : Nat} {found : RebuildCall}
    (stepped : lossMachine.step state act = some after)
    (member : state.rebuilds[place]? = some found) (completed : found.phase = .completed) :
    after.rebuilds[place]? = some found := by
  have unmoved : ∀ {index : Nat} {call : RebuildCall} {phase : RebuildPhase},
      state.rebuilds[index]? = some call → call.phase.underWay = true →
      (state.setPhase index call phase).rebuilds[place]? = some found := by
    intro index call phase listed was
    have apart : index ≠ place := by
      rintro rfl
      rw [member] at listed
      cases listed
      rw [completed] at was
      cases was
    rw [setPhase, List.getElem?_set_ne apart]
    exact member
  rcases step_cases stepped with ⟨_, rfl, rfl⟩ | ⟨_, rfl⟩ |
    ⟨index, call, phase, listed, was, _, rfl⟩ | ⟨index, call, rfl, listed, was, rfl⟩
  · exact member
  · obtain ⟨inside, _⟩ := List.getElem?_eq_some_iff.mp member
    rw [List.getElem?_append_left inside]
    exact member
  · exact unmoved listed was
  · exact unmoved listed was

theorem length_le_step (stepped : lossMachine.step state act = some after) :
    state.rebuilds.length ≤ after.rebuilds.length := by
  rcases step_cases stepped with ⟨_, rfl, rfl⟩ | ⟨_, rfl⟩ | ⟨_, _, _, _, _, _, rfl⟩ |
    ⟨_, _, rfl, _, _, rfl⟩ <;> simp [setPhase]

theorem outlives_step (outlives : Outlives tenant begun state) (unshared : Unshared state act)
    (stepped : lossMachine.step state act = some after) : Outlives tenant begun after := by
  obtain ⟨within, outlives⟩ := outlives
  refine ⟨within.trans (length_le_step stepped), ?_⟩
  rcases outlives with ⟨place, found, later, member, isTenant, completed⟩ | ⟨marked, smaller⟩
  · exact .inl ⟨place, found, later, completed_stays stepped member completed, isTenant, completed⟩
  have stillSmaller : ∀ {index : Nat} {call : RebuildCall} {phase : RebuildPhase},
      state.rebuilds[index]? = some call → call.phase.underWay = true →
      ∀ (place : Nat) (found : RebuildCall), place < begun →
        (state.setPhase index call phase).rebuilds[place]? = some found →
        found.tenant = tenant → found.phase.underWay = true →
        found.seq < state.losses.lossSeq tenant := by
    intro index call phase listed was place found early member isTenant active
    obtain ⟨earlier, before, active, sameTenant, sameSeq⟩ :=
      underWay_setPhase listed was member active
    rw [← sameSeq]
    exact smaller place earlier early before (sameTenant.trans isTenant) active
  rcases step_cases stepped with ⟨lost, rfl, rfl⟩ | ⟨started, rfl⟩ |
    ⟨index, call, phase, listed, was, _, rfl⟩ | ⟨index, call, rfl, listed, was, rfl⟩
  · refine .inr ?_
    by_cases same : tenant = lost
    · subst same
      rw [Losses.lossSeq_markLost]
      have grows := lt_add_one_of_lt unshared
      constructor
      · intro zero
        rw [zero] at grows
        exact UInt64.not_lt_zero grows
      · intro place found early member isTenant active
        exact UInt64.lt_trans (smaller place found early member isTenant active) grows
    · rw [Losses.lossSeq_markLost_of_ne same]
      exact ⟨marked, smaller⟩
  · refine .inr ⟨marked, fun place found early member => ?_⟩
    rcases underWay_start member with before | ⟨atEnd, _⟩
    · exact smaller place found early before
    · omega
  · exact .inr ⟨marked, stillSmaller listed was⟩
  · obtain ⟨inside, _⟩ := List.getElem?_eq_some_iff.mp listed
    by_cases isTenant : call.tenant = tenant
    · subst isTenant
      rcases Nat.lt_or_ge index begun with early | late
      · -- an earlier rebuild finds the count moved
        rw [Losses.clearLoss_of_lt (smaller index call early listed rfl was)]
        exact .inr ⟨marked, stillSmaller listed was⟩
      · refine .inl ⟨index, { call with phase := .completed }, late, ?_, rfl, rfl⟩
        exact List.getElem?_set_self inside
    refine .inr ?_
    rw [Losses.lossSeq_clearLoss_of_ne (Ne.symm isTenant)]
    exact ⟨marked, stillSmaller listed was⟩

theorem outlives_lose (behind : Behind state) (unshared : Unshared state (.lose tenant)) :
    Outlives tenant state.rebuilds.length (lossMachine.next state (.lose tenant)) := by
  have grows := lt_add_one_of_lt unshared
  refine ⟨le_rfl, .inr ?_⟩
  change Losses.lossSeq (state.losses.markLost tenant) tenant ≠ 0 ∧ _
  rw [Losses.lossSeq_markLost]
  constructor
  · intro zero
    rw [zero] at grows
    exact UInt64.not_lt_zero grows
  · rintro place found _ member rfl active
    change _ < Losses.lossSeq (state.losses.markLost found.tenant) found.tenant
    rw [Losses.lossSeq_markLost]
    exact UInt64.lt_of_le_of_lt (behind place found member active) grows

theorem behind_initial : Behind initial := by
  intro place call member
  cases member

end LossState

/-- Where no rebuild clears while another of its tenant is under way, a tenant that lost an
operation is degraded until a rebuild that began after the loss has completed. -/
theorem degraded_until_repaired (before after : List LossAct) {tenant : TenantId}
    (unshared : lossMachine.Meets Unshared .initial (before ++ .lose tenant :: after))
    (health : Health) :
    ((lossMachine.run .initial (before ++ .lose tenant :: after)).losses.withLosses tenant
        health).degraded = true ∨
      ∃ (place : Nat) (call : RebuildCall),
        (lossMachine.run .initial before).rebuilds.length ≤ place ∧
        (lossMachine.run .initial (before ++ .lose tenant :: after)).rebuilds[place]? =
          some call ∧ call.tenant = tenant ∧ call.phase = .completed := by
  obtain ⟨early, lost, late⟩ := unshared.append
  have behind : Behind (lossMachine.run .initial before) :=
    Machine.run_keeps LossState.behind_step LossState.behind_initial early
  have outlives := Machine.run_keeps LossState.outlives_step
    (LossState.outlives_lose behind lost) late
  rw [Machine.run_append, Machine.run_cons]
  rcases outlives.2 with repaired | ⟨marked, _⟩
  · exact .inr repaired
  · exact .inl (Losses.degraded_withLosses marked health)

theorem degraded_until_repaired_again :
    ((lossMachine.run .initial [.lose [], .start [], .drain 0 .settled, .rebuild 0 true,
        .lose [], .clear 0]).losses.withLosses [] ⟨false, ""⟩).degraded = true ∨
      ∃ (place : Nat) (call : RebuildCall), 1 ≤ place ∧
        (lossMachine.run .initial [.lose [], .start [], .drain 0 .settled, .rebuild 0 true,
          .lose [], .clear 0]).rebuilds[place]? = some call ∧ call.tenant = [] ∧
        call.phase = .completed :=
  degraded_until_repaired [.lose [], .start [], .drain 0 .settled, .rebuild 0 true] [.clear 0]
    (by decide) ⟨false, ""⟩

/-- Two rebuilds begin from one loss. The first to end clears it, a second loss brings the
count back to where the other began, and that one clears the second loss, which it may
have missed. -/
theorem cleared_by_earlier_rebuild :
    let before : List LossAct := [.lose [], .start [], .start [],
      .drain 0 .settled, .rebuild 0 true, .drain 1 .settled, .rebuild 1 true, .clear 1]
    let state := lossMachine.run .initial (before ++ .lose [] :: [.clear 0])
    (state.losses.withLosses [] ⟨false, ""⟩).degraded = false ∧
      (lossMachine.run .initial before).rebuilds.length = 2 ∧ state.rebuilds.length = 2 := by
  decide

end Remem.IndexQueue
