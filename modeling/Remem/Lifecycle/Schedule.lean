import Remem.Lifecycle.Policies

/-!
# When a memory is looked at next

The instant that a sweep is scheduled for, computed from the record and its policy alone,
against what a pass would do. A pass changes nothing before that instant but for what the
schedule has no due time for: a health that is already down to where the policy archives, and
rates that are no numbers. The zero instant stands for no due time.
-/

namespace Remem.Lifecycle

open Base Keys List Bool

def maxAttentionInterval : Int := 30 * day

def earlier (first second : Time) : Time :=
  if first.isZero ∨ second < first then second else first

def notBefore (due floor : Time) : Time := if due < floor then floor else due

def latest (record : Record) : Time :=
  [record.updatedAt, record.fields.archivedAt, record.fields.accessedAt,
    record.fields.lastRecalledAt, record.fields.lastDecayAt, record.fields.lastHealthCheckAt,
    record.fields.protectedUntil].foldl later record.createdAt

def earliestTransition (policy : Policy) (record : Record) : Time :=
  if record.fields.archived then
    match policy.cleanupAfter with
    | none => .zero
    | some retention => archivedAt record + retention
  else
    let due := Time.zero
    let ttl := effectiveTtl policy record
    let due := if 0 < ttl then earlier due (record.createdAt + ttl) else due
    let due :=
      if Binary64.less policy.importanceDecay Binary64.one then
        let last := record.fields.lastDecayAt.orElse record.createdAt
        earlier due (notBefore (last + day) record.fields.protectedUntil)
      else due
    if Binary64.less 0 policy.healthDecay then
      let reinforced := record.fields.lastRecalledAt.orElse record.fields.accessedAt
      let checked := record.fields.lastHealthCheckAt.orElse record.createdAt
      earlier due (notBefore (later reinforced checked + day) record.fields.protectedUntil)
    else due

def nextAttention (policies : Policies) (record : Record) : Time :=
  let cap := latest record + maxAttentionInterval
  let due := earliestTransition (policies.resolve record.fields.policy) record
  if !due.isZero && due < cap then due else cap

/-- The instants that `EarliestTransition` takes the earliest of. -/
def arms (policy : Policy) (record : Record) : List Time :=
  if record.fields.archived then
    policy.cleanupAfter.toList.map (archivedAt record + ·)
  else
    let ttl := effectiveTtl policy record
    let last := record.fields.lastDecayAt.orElse record.createdAt
    let reinforced := record.fields.lastRecalledAt.orElse record.fields.accessedAt
    let checked := record.fields.lastHealthCheckAt.orElse record.createdAt
    (if 0 < ttl then [record.createdAt + ttl] else []) ++
      (if Binary64.less policy.importanceDecay Binary64.one then
        [notBefore (last + day) record.fields.protectedUntil] else []) ++
      (if Binary64.less 0 policy.healthDecay then
        [notBefore (later reinforced checked + day) record.fields.protectedUntil] else [])

theorem earliestTransition_eq (policy : Policy) (record : Record) :
    earliestTransition policy record = (arms policy record).foldl earlier .zero := by
  unfold earliestTransition arms
  split
  · cases policy.cleanupAfter with
    | none => rfl
    | some retention =>
      simp [earlier, Time.isZero]
  · dsimp only
    split <;> split <;> split <;> rfl

theorem earlier_le_right (first second : Time) : earlier first second ≤ second := by
  unfold earlier
  split
  · exact le_rfl
  · next kept => exact not_lt.mp fun less => kept (.inr less)

theorem earlier_le_left {first : Time} (isSet : first ≠ .zero) (second : Time) :
    earlier first second ≤ first := by
  unfold earlier
  split
  · next taken =>
    rcases taken with isZero | less
    · exact absurd (of_decide_eq_true isZero) isSet
    · exact less.le
  · exact le_rfl

theorem earlier_ne_zero {first second : Time} (isSet : second ≠ .zero) :
    earlier first second ≠ .zero := by
  unfold earlier
  split
  · exact isSet
  · next kept => exact fun isZero => kept (.inl (decide_eq_true isZero))

theorem foldl_earlier {dues : List Time} (first : Time) (dated : ∀ due ∈ dues, due ≠ .zero) :
    (first ≠ .zero → dues.foldl earlier first ≤ first ∧ dues.foldl earlier first ≠ .zero) ∧
      ∀ due ∈ dues, dues.foldl earlier first ≤ due ∧ dues.foldl earlier first ≠ .zero := by
  induction dues generalizing first with
  | nil => simp
  | cons due rest ih =>
    have isSet : due ≠ .zero := dated due mem_cons_self
    obtain ⟨fromFirst, fromRest⟩ := ih (earlier first due) (forall_mem_of_forall_mem_cons dated)
    obtain ⟨atMost, found⟩ := fromFirst (earlier_ne_zero isSet)
    rw [foldl_cons]
    refine ⟨fun firstSet => ⟨atMost.trans (earlier_le_left firstSet due), found⟩, ?_⟩
    intro other listed
    rcases mem_cons.mp listed with rfl | later
    · exact ⟨atMost.trans (earlier_le_right _ _), found⟩
    · exact fromRest other later

theorem foldl_earlier_mem {dues : List Time} {first : Time} :
    dues.foldl earlier first = first ∨ dues.foldl earlier first ∈ dues := by
  induction dues generalizing first with
  | nil => exact .inl rfl
  | cons due rest ih =>
    rw [foldl_cons]
    rcases @ih (earlier first due) with same | later
    · rw [same]
      unfold earlier
      split
      · exact .inr mem_cons_self
      · exact .inl rfl
    · exact .inr (mem_cons_of_mem _ later)

theorem nextAttention_le {policies : Policies} {record : Record} {due : Time}
    (dated : ∀ due ∈ arms (policies.resolve record.fields.policy) record, due ≠ .zero)
    (listed : due ∈ arms (policies.resolve record.fields.policy) record) :
    nextAttention policies record ≤ due := by
  obtain ⟨atMost, isSet⟩ := (foldl_earlier .zero dated).2 due listed
  rw [← earliestTransition_eq] at atMost isSet
  unfold nextAttention
  dsimp only
  split
  · exact atMost
  next capped =>
  have late : ¬ earliestTransition (policies.resolve record.fields.policy) record <
      latest record + maxAttentionInterval := by
    simpa [Time.isZero, isSet] using capped
  exact (not_lt.mp late).trans atMost

theorem nextAttention_le_cap (policies : Policies) (record : Record) :
    nextAttention policies record ≤ latest record + maxAttentionInterval := by
  unfold nextAttention
  dsimp only
  split
  · next early => exact (of_decide_eq_true (and_eq_true_iff.mp early).2).le
  · exact le_rfl

theorem of_nextAttention_le {policies : Policies} {record : Record} {now : Time}
    (come : nextAttention policies record ≤ now) :
    (∃ due ∈ arms (policies.resolve record.fields.policy) record, due ≤ now) ∨
      latest record + maxAttentionInterval ≤ now := by
  unfold nextAttention at come
  dsimp only at come
  split at come
  · next early =>
    rw [earliestTransition_eq] at come early
    rcases @foldl_earlier_mem (arms (policies.resolve record.fields.policy) record) .zero with
      none | listed
    · simp [none, Time.isZero] at early
    · exact .inl ⟨_, listed, come⟩
  · exact .inr come

theorem day_le_of_wholeDays {start stop : Time} (passed : wholeDays start stop ≠ 0) :
    start + day ≤ stop := by
  unfold wholeDays at passed
  split at passed
  · exact absurd rfl passed
  next running =>
  have isLater : start < stop := by
    by_contra notLater
    exact running (.inr notLater)
  by_contra early
  apply passed
  have short : stop - start < day := by
    change @LT.lt Int _ _ _
    replace early : ¬ @LE.le Int _ _ _ := early
    omega
  have positive : 0 < stop - start := Int.sub_pos_of_lt isLater
  unfold Time.sub
  rw [Int.tdiv_eq_zero_of_lt]
  · exact le_max_of_le_right (le_min (by decide) positive.le)
  · refine max_lt (by decide) (min_lt_of_right_lt short)

/-- A pass at the instant makes a transition that the schedule has no due time for: the record is
live, not expired and not protected, and a rate that is no number wears it or its health is already
down to where the policy archives it. -/
structure Overlooked (policy : Policy) (record : Record) (now : Time) : Prop where
  live : record.fields.archived = false
  unexpired : effectiveTtl policy record ≤ 0 ∨ now < record.createdAt + effectiveTtl policy record
  unprotected : record.fields.protectedUntil ≤ now
  moves : (Binary64.isNaN policy.importanceDecay = true ∧
      wholeDays (record.fields.lastDecayAt.orElse record.createdAt) now ≠ 0) ∨
    (Binary64.isNaN policy.healthDecay = true ∧
      wholeDays (later (record.fields.lastRecalledAt.orElse record.fields.accessedAt)
        (record.fields.lastHealthCheckAt.orElse record.createdAt)) now ≠ 0) ∨
    ∃ threshold, policy.archiveAtHealth = some threshold ∧
      Binary32.less threshold record.fields.health = false

variable {host : Host} {policy : Policy} {record : Record} {now : Time} {decision : Decision}

theorem due_of_expire {outcome : Record × Decision}
    (expired : expire host policy record now decision = some outcome) :
    0 < effectiveTtl policy record ∧ record.createdAt + effectiveTtl policy record ≤ now := by
  unfold expire at expired
  dsimp only at expired
  split at expired
  · cases expired
  next elapsed =>
  exact ⟨not_le.mp fun negative => elapsed (.inl negative),
    not_lt.mp fun early => elapsed (.inr early)⟩

theorem unexpired_of_expire (kept : expire host policy record now decision = none) :
    effectiveTtl policy record ≤ 0 ∨ now < record.createdAt + effectiveTtl policy record := by
  unfold expire at kept
  dsimp only at kept
  split at kept
  · assumption
  · split at kept
    · split at kept <;> cases kept
    · cases kept

variable (host decision) in
theorem due_of_decayImportance :
    decayImportance host policy record now decision = (record, decision) ∨
      (Binary64.less policy.importanceDecay Binary64.one = true ∨
        Binary64.isNaN policy.importanceDecay = true) ∧
        wholeDays (record.fields.lastDecayAt.orElse record.createdAt) now ≠ 0 := by
  unfold decayImportance
  dsimp only
  split
  · exact .inl rfl
  next decays =>
  split
  · exact .inl rfl
  next passed =>
  refine .inr ⟨?_, passed⟩
  cases number : Binary64.isNaN policy.importanceDecay with
  | true => exact .inr rfl
  | false =>
    exact .inl (Binary64.less_of_not_atMost (by decide) number (eq_false_iff.mpr decays))

variable (host decision) in
theorem due_of_decayHealth :
    decayHealth host policy record now decision = (record, decision) ∨
      (Binary64.less 0 policy.healthDecay = true ∨ Binary64.isNaN policy.healthDecay = true) ∧
        wholeDays (later (record.fields.lastRecalledAt.orElse record.fields.accessedAt)
          (record.fields.lastHealthCheckAt.orElse record.createdAt)) now ≠ 0 := by
  unfold decayHealth
  dsimp only
  split
  · exact .inl rfl
  next decays =>
  split
  · exact .inl rfl
  next passed =>
  refine .inr ⟨?_, passed⟩
  cases number : Binary64.isNaN policy.healthDecay with
  | true => exact .inr rfl
  | false =>
    exact .inl (Binary64.less_of_not_atMost number (by decide) (eq_false_iff.mpr decays))

variable (host decision) in
theorem archive_of_healthy (healthy : ∀ threshold, policy.archiveAtHealth = some threshold →
    Binary32.less threshold record.fields.health = true) :
    archive host policy record now decision = (record, decision) := by
  unfold archive
  split
  · rfl
  · next threshold isThreshold => rw [if_pos (.inr (healthy threshold isThreshold))]

theorem due_of_cleanup (kept : decision.delete = false) (unchanged : decision.changed = false)
    (positive : ∀ retention, policy.cleanupAfter = some retention → 0 < retention)
    (acts : (cleanup host policy record now decision).changed = true ∨
      (cleanup host policy record now decision).delete = true) :
    ∃ retention, policy.cleanupAfter = some retention ∧ archivedAt record + retention ≤ now := by
  unfold cleanup at acts
  cases cleans : policy.cleanupAfter with
  | none =>
    rw [cleans] at acts
    simp [kept, unchanged] at acts
  | some retention =>
    rw [cleans] at acts
    dsimp only at acts
    split at acts
    · simp [kept, unchanged] at acts
    next elapsed =>
    refine ⟨retention, rfl, ?_⟩
    have isPositive := positive retention cleans
    unfold Time.sub at elapsed
    change @LE.le Int _ _ _
    omega

theorem notBefore_le {due floor bound : Time} (dueBefore : due ≤ bound)
    (floorBefore : floor ≤ bound) : notBefore due floor ≤ bound := by
  unfold notBefore
  split
  · exact floorBefore
  · exact dueBefore

theorem arm_of_apply {policies : Policies} (positive : ∀ retention,
      (policies.resolve record.fields.policy).cleanupAfter = some retention → 0 < retention)
    (acts : (apply host policies record now).2.changed = true ∨
      (apply host policies record now).2.delete = true) :
    policies.known record.fields.policy = true ∧
      ((∃ due ∈ arms (policies.resolve record.fields.policy) record, due ≤ now) ∨
        Overlooked (policies.resolve record.fields.policy) record now) := by
  unfold apply at acts
  dsimp only at acts
  split at acts
  · simp at acts
  next isKnown =>
  refine ⟨by simpa using isKnown, ?_⟩
  split at acts
  · next isArchived =>
    obtain ⟨retention, cleans, due⟩ := due_of_cleanup rfl rfl positive acts
    exact .inl ⟨_, by simp [arms, isArchived, cleans], due⟩
  next isLive =>
  replace isLive : record.fields.archived = false := eq_false_iff.mpr isLive
  split at acts
  · next expired =>
    obtain ⟨lives, due⟩ := due_of_expire expired
    exact .inl ⟨_, by simp [arms, isLive, lives], due⟩
  next kept =>
  split at acts
  · simp at acts
  next unprotected =>
  replace unprotected := not_lt.mp unprotected
  have overlooked := Overlooked.mk isLive (unexpired_of_expire kept) unprotected
  rcases due_of_decayImportance host {} with same | ⟨decays | nan, passed⟩
  · rw [same] at acts
    rcases due_of_decayHealth host {} with same | ⟨decays | nan, passed⟩
    · rw [same] at acts
      -- nothing archives a record whose health did not move, unless it was low before
      by_contra none
      refine none (.inr (overlooked (.inr (.inr ?_))))
      by_contra healthy
      push Not at healthy
      simp only [ne_eq, not_eq_false] at healthy
      dsimp only at acts
      rw [archive_of_healthy host {} healthy] at acts
      simp at acts
    · exact .inl ⟨_, by simp [arms, isLive, decays],
        notBefore_le (day_le_of_wholeDays passed) unprotected⟩
    · exact .inr (overlooked (.inr (.inl ⟨nan, passed⟩)))
  · exact .inl ⟨_, by simp [arms, isLive, decays],
      notBefore_le (day_le_of_wholeDays passed) unprotected⟩
  · exact .inr (overlooked (.inl ⟨nan, passed⟩))

theorem changed_archive (changed : decision.changed = true) :
    (archive host policy record now decision).2.changed = true := by
  unfold archive
  split
  · exact changed
  · split
    · exact changed
    · rfl

theorem changed_decayHealth (changed : decision.changed = true) :
    (decayHealth host policy record now decision).2.changed = true := by
  unfold decayHealth
  dsimp only
  split
  · exact changed
  · split
    · exact changed
    · rfl

theorem decayImportance_record : ∃ importance lastDecayAt,
    (decayImportance host policy record now decision).1 =
      { record with fields := { record.fields with importance, lastDecayAt } } := by
  unfold decayImportance
  dsimp only
  split
  · exact ⟨_, _, rfl⟩
  · split <;> exact ⟨_, _, rfl⟩

theorem decayHealth_changes : decayHealth host policy record now decision = (record, decision) ∨
    (decayHealth host policy record now decision).2.changed = true := by
  unfold decayHealth
  dsimp only
  split
  · exact .inl rfl
  · split
    · exact .inl rfl
    · exact .inr rfl

variable (host) in
theorem Overlooked.changes {policies : Policies}
    (overlooked : Overlooked (policies.resolve record.fields.policy) record now)
    (isKnown : policies.known record.fields.policy = true) :
    (apply host policies record now).2.changed = true := by
  have kept : expire host (policies.resolve record.fields.policy) record now {} = none :=
    if_pos overlooked.unexpired
  unfold apply
  simp only [isKnown, overlooked.live, kept, if_neg (not_lt.mpr overlooked.unprotected),
    Bool.not_true, Bool.false_eq_true, if_false]
  obtain ⟨importance, lastDecayAt, same⟩ :=
    @decayImportance_record host (policies.resolve record.fields.policy) record now {}
  rcases overlooked.moves with ⟨nan, passed⟩ | ⟨nan, passed⟩ | ⟨threshold, archives, low⟩
  · refine changed_archive (changed_decayHealth ?_)
    simp [decayImportance, Binary64.atMost, nan, passed]
  · refine changed_archive ?_
    rw [same]
    simp [decayHealth, Binary64.atMost, nan, passed]
  · rcases @decayHealth_changes host (policies.resolve record.fields.policy)
      (decayImportance host (policies.resolve record.fields.policy) record now {}).1 now
      (decayImportance host (policies.resolve record.fields.policy) record now {}).2 with
      unworn | worn
    · rw [unworn, same]
      simp [archive, archives, overlooked.live, low, Decision.note]
    · exact changed_archive worn

theorem retention_pos {overrides : OrderedMap Bytes Policy} {policies : Policies}
    (accepted : newPolicies overrides = .ok policies) (name : Text) {retention : Int}
    (cleans : (policies.resolve name).cleanupAfter = some retention) : 0 < retention := by
  unfold Policies.resolve at cleans
  cases found : policies.table.get (Policies.nameOf name) with
  | none =>
    rw [found] at cleans
    cases cleans
  | some policy =>
    rw [found] at cleans
    exact retention_pos_of_validate (validate_of_newPolicies accepted found) cleans

/-- A pass that changes or deletes a record comes no earlier than the record is scheduled for,
exactly where a transition that the schedule overlooks comes with one that it sees, or after the
longest interval. -/
theorem nextAttention_le_of_apply (host : Host) {overrides : OrderedMap Bytes Policy}
    {policies : Policies} (accepted : newPolicies overrides = .ok policies) (record : Record)
    (now : Time) (dated : ∀ due ∈ arms (policies.resolve record.fields.policy) record, due ≠ .zero) :
    ((apply host policies record now).2.changed = true ∨
        (apply host policies record now).2.delete = true → nextAttention policies record ≤ now) ↔
      (policies.known record.fields.policy = true →
        Overlooked (policies.resolve record.fields.policy) record now →
        (∃ due ∈ arms (policies.resolve record.fields.policy) record, due ≤ now) ∨
          latest record + maxAttentionInterval ≤ now) := by
  constructor
  · intro scheduled isKnown overlooked
    exact of_nextAttention_le (scheduled (.inl (overlooked.changes host isKnown)))
  · intro covered acts
    obtain ⟨isKnown, found | overlooked⟩ :=
      arm_of_apply (fun _ => retention_pos accepted record.fields.policy) acts
    · obtain ⟨due, listed, come⟩ := found
      exact (nextAttention_le dated listed).trans come
    rcases covered isKnown overlooked with ⟨due, listed, come⟩ | late
    · exact (nextAttention_le dated listed).trans come
    · exact (nextAttention_le_cap policies record).trans late

def plainHost : Host where
  decayed importance _ _ := importance
  worn health _ _ := health
  boosted health _ := health
  formatFloat _ := []
  sprintf _ _ := []

def youngMemory (policy : Text) (health : UInt32) : Record where
  fields :=
    { policy, health, importance := defaultImportance, valence := 0, arousal := 0
      accessedAt := .zero, accessCount := 0, lastRecalledAt := .zero, nextAttentionAt := .zero }
  createdAt := day
  updatedAt := day
  id := Id.filled 1
  typ := .memory
  content := ascii "tea"

theorem newPolicies_empty : newPolicies .empty = .ok ⟨builtins⟩ := rfl

theorem not_overlooked_youngMemory (now : Time) :
    ¬ Overlooked ((⟨builtins⟩ : Policies).resolve shortTerm) (youngMemory shortTerm maxHealth)
      now := by
  rintro ⟨_, _, _, ⟨nan, _⟩ | ⟨nan, _⟩ | ⟨threshold, isThreshold, low⟩⟩
  · exact absurd nan (by decide +kernel)
  · exact absurd nan (by decide +kernel)
  · have zero : some archiveAtHealth = some threshold := isThreshold
    cases zero
    exact absurd low (by decide +kernel)

/-- A short-term memory loses health after a day, and is scheduled for it. -/
theorem nextAttention_le_of_apply_short_term :
    (apply plainHost ⟨builtins⟩ (youngMemory shortTerm maxHealth) (2 * day)).2.changed = true ∧
      nextAttention ⟨builtins⟩ (youngMemory shortTerm maxHealth) ≤ 2 * day := by
  have acts : (apply plainHost ⟨builtins⟩ (youngMemory shortTerm maxHealth)
      (2 * day)).2.changed = true := by decide +kernel
  refine ⟨acts, (nextAttention_le_of_apply plainHost newPolicies_empty _ _ (by decide +kernel)).mpr
    (fun _ overlooked => ?_) (.inl acts)⟩
  exact absurd overlooked (not_overlooked_youngMemory _)

/-- A short-term memory without health is archived at once, and is scheduled for the day
after. -/
theorem archived_before_attention : newPolicies .empty = .ok ⟨builtins⟩ ∧
      (apply plainHost ⟨builtins⟩ (youngMemory shortTerm 0) day).2.changed = true ∧
      (apply plainHost ⟨builtins⟩ (youngMemory shortTerm 0) day).1.fields.archived = true ∧
      nextAttention ⟨builtins⟩ (youngMemory shortTerm 0) = 2 * day := by
  refine ⟨rfl, ?_⟩
  decide +kernel

end Remem.Lifecycle
