import Remem.Lifecycle.Schedule

/-!
# A sweep at one instant

A pass applied again and again at one instant. It comes to a record that it leaves alone,
or deletes it, within two passes more than the table has policies, or it never does: where the
record is promoted and the policies it walks through promote into each other in a cycle. Nothing
in the checks of a table refuses one.
-/

namespace Remem.Lifecycle

open Base Keys List Bool OrderedMap

section Sweep

variable (host : Host) (policies : Policies) (now : Time)

/-- `Apply` on a record again and again, until it deletes. -/
def sweep : Nat → Record → Record
  | 0, record => record
  | count + 1, record =>
    let (after, decision) := apply host policies record now
    if decision.delete then record else sweep count after

/-- The pass has nothing left to do: it changes nothing, or it has deleted the record. -/
def Settled (record : Record) : Prop :=
  (apply host policies record now).2.delete = true ∨
    (apply host policies record now).2.changed = false

def SettlesWithin (bound : Nat) (record : Record) : Prop :=
  ∃ count ≤ bound, Settled host policies now (sweep host policies now count record)

/-- A policy whose own TTL has run out for the record promotes it at this instant. -/
def Promotes (record : Record) (name next : Bytes) : Prop :=
  ∃ policy threshold ttl, policies.table.get name = some policy ∧
    policy.promoteAtRecalls = some threshold ∧ threshold ≤ record.fields.accessCount ∧
    policy.ttl = some ttl ∧ 0 < ttl ∧ record.createdAt + ttl ≤ now ∧
    next = Policies.nameOf policy.promoteTo

/-- The first pass promotes the record out of the policy. Here a short-term record may have a TTL of
its own. -/
structure Promoting (record : Record) (policy : Policy) : Prop where
  live : record.fields.archived = false
  found : policies.table.get (Policies.nameOf record.fields.policy) = some policy
  reached : ∃ threshold, policy.promoteAtRecalls = some threshold ∧
    threshold ≤ record.fields.accessCount
  lives : 0 < effectiveTtl policy record
  due : record.createdAt + effectiveTtl policy record ≤ now

/-- The policy does not come, promotion by promotion, to one that comes back to itself. -/
def Halts (record : Record) (name : Bytes) : Prop :=
  ∀ other, Relation.ReflTransGen (Promotes policies now record) name other →
    ¬ Relation.TransGen (Promotes policies now record) other other

end Sweep

variable {host : Host} {policies : Policies} {record : Record} {now : Time}

theorem SettlesWithin.of_settled (settled : Settled host policies now record) (bound : Nat) :
    SettlesWithin host policies now bound record :=
  ⟨0, Nat.zero_le bound, settled⟩

theorem SettlesWithin.step {bound : Nat}
    (settles : SettlesWithin host policies now bound (apply host policies record now).1) :
    SettlesWithin host policies now (bound + 1) record := by
  by_cases deletes : (apply host policies record now).2.delete = true
  · exact .of_settled (.inl deletes) _
  obtain ⟨count, within, settled⟩ := settles
  refine ⟨count + 1, Nat.succ_le_succ within, ?_⟩
  rw [sweep]
  dsimp only
  rwa [if_neg deletes]

theorem settled_of_archived_now (isSet : now ≠ .zero)
    (positive : ∀ name retention, (policies.resolve name).cleanupAfter = some retention →
      0 < retention)
    (isArchived : record.fields.archived = true) (since : record.fields.archivedAt = now) :
    (apply host policies record now).2.delete = false ∧
      (apply host policies record now).2.changed = false := by
  unfold apply
  dsimp only
  split
  · exact ⟨rfl, rfl⟩
  unfold cleanup
  split
  · exact ⟨rfl, rfl⟩
  next retention cleans =>
  have isPositive := positive _ _ cleans
  have none : now.sub (archivedAt record) = 0 := by
    simp [archivedAt, Time.orElse, since, Time.isZero, isSet, Time.sub]
  dsimp only
  rw [none, if_pos isPositive]
  exact ⟨rfl, rfl⟩

variable {policy : Policy} {decision : Decision}

def ImportanceRests (policy : Policy) (record : Record) (now : Time) : Prop :=
  Binary64.atMost Binary64.one policy.importanceDecay = true ∨
    wholeDays (record.fields.lastDecayAt.orElse record.createdAt) now = 0

def HealthRests (policy : Policy) (record : Record) (now : Time) : Prop :=
  Binary64.atMost policy.healthDecay 0 = true ∨
    wholeDays (later (record.fields.lastRecalledAt.orElse record.fields.accessedAt)
      (record.fields.lastHealthCheckAt.orElse record.createdAt)) now = 0

theorem decayImportance_of_rests (rests : ImportanceRests policy record now) :
    decayImportance host policy record now decision = (record, decision) := by
  unfold decayImportance
  dsimp only
  split
  · rfl
  · next decays =>
    rw [if_pos (rests.resolve_left decays)]

theorem decayHealth_of_rests (rests : HealthRests policy record now) :
    decayHealth host policy record now decision = (record, decision) := by
  unfold decayHealth
  dsimp only
  split
  · rfl
  · next decays =>
    rw [if_pos (rests.resolve_left decays)]

theorem wholeDays_of_le {start stop : Time} (notLater : stop ≤ start) :
    wholeDays start stop = 0 := by
  rw [wholeDays, if_pos (.inr (not_lt.mpr notLater))]

theorem orElse_of_ne_zero {time : Time} (isSet : time ≠ .zero) (other : Time) :
    time.orElse other = time := by
  rw [Time.orElse, if_neg (by simpa [Time.isZero] using isSet)]

theorem le_later_right (first second : Time) : second ≤ later first second := by
  unfold later
  split
  · exact le_rfl
  · next notLess => exact not_lt.mp notLess

variable (host policy record decision) in
theorem importanceRests_decayImportance (isSet : now ≠ .zero) :
    ImportanceRests policy (decayImportance host policy record now decision).1 now := by
  unfold decayImportance
  dsimp only
  split
  · next steady => exact .inl steady
  split
  · next recent => exact .inr recent
  · refine .inr (wholeDays_of_le ?_)
    rw [orElse_of_ne_zero isSet]

variable (host policy record decision) in
theorem healthRests_decayHealth (isSet : now ≠ .zero) :
    HealthRests policy (decayHealth host policy record now decision).1 now := by
  unfold decayHealth
  dsimp only
  split
  · next steady => exact .inl steady
  split
  · next recent => exact .inr recent
  refine .inr (wholeDays_of_le ?_)
  rw [orElse_of_ne_zero isSet]
  exact le_later_right _ _

/-- What decides which branch a pass takes. -/
structure SameTerms (before after : Record) : Prop where
  policy : after.fields.policy = before.fields.policy
  ttl : after.fields.ttl = before.fields.ttl
  createdAt : after.createdAt = before.createdAt
  archived : after.fields.archived = before.fields.archived
  protectedUntil : after.fields.protectedUntil = before.fields.protectedUntil

theorem SameTerms.trans {first second third : Record} (earlier : SameTerms first second)
    (later : SameTerms second third) : SameTerms first third :=
  ⟨later.policy.trans earlier.policy, later.ttl.trans earlier.ttl,
    later.createdAt.trans earlier.createdAt, later.archived.trans earlier.archived,
    later.protectedUntil.trans earlier.protectedUntil⟩

variable (host policy record now decision) in
theorem sameTerms_decayImportance :
    SameTerms record (decayImportance host policy record now decision).1 := by
  unfold decayImportance
  dsimp only
  split
  · exact ⟨rfl, rfl, rfl, rfl, rfl⟩
  · split <;> exact ⟨rfl, rfl, rfl, rfl, rfl⟩

variable (host policy record now decision) in
theorem sameTerms_decayHealth : SameTerms record (decayHealth host policy record now decision).1 ∧
      (decayHealth host policy record now decision).1.fields.lastDecayAt =
        record.fields.lastDecayAt := by
  unfold decayHealth
  dsimp only
  split
  · exact ⟨⟨rfl, rfl, rfl, rfl, rfl⟩, rfl⟩
  · split <;> exact ⟨⟨rfl, rfl, rfl, rfl, rfl⟩, rfl⟩

variable (host policy record now decision) in
theorem archive_cases : ((archive host policy record now decision).1.fields.archived = true ∧
      (archive host policy record now decision).1.fields.archivedAt = now) ∨
    ((archive host policy record now decision).1 = record ∧
      ∀ other, archive host policy record now other = (record, other)) := by
  unfold archive
  cases policy.archiveAtHealth with
  | none => exact .inr ⟨rfl, fun _ => rfl⟩
  | some threshold =>
    dsimp only
    split
    · next healthy => exact .inr ⟨rfl, fun _ => rfl⟩
    · exact .inl ⟨rfl, rfl⟩

theorem expire_eq_none {after : Record} (same : SameTerms record after)
    (lives : expire host policy record now {} = none) : expire host policy after now {} = none := by
  have ttl : effectiveTtl policy after = effectiveTtl policy record := by
    simp only [effectiveTtl, same.ttl, same.policy]
  unfold expire at lives ⊢
  dsimp only at lives ⊢
  rw [ttl, same.createdAt]
  split
  · rfl
  next elapsed =>
  rw [if_neg elapsed] at lives
  split at lives
  · split at lives <;> cases lives
  · cases lives

theorem apply_of_worn (isKnown : policies.known record.fields.policy = true)
    (isLive : record.fields.archived = false)
    (lives : expire host (policies.resolve record.fields.policy) record now {} = none)
    (unprotected : ¬ now < record.fields.protectedUntil) :
    apply host policies record now =
      let policy := policies.resolve record.fields.policy
      let (record, decision) := decayImportance host policy record now {}
      let (record, decision) := decayHealth host policy record now decision
      archive host policy record now decision := by
  unfold apply
  simp only [isKnown, isLive, lives, unprotected, Bool.not_true, false_eq_true, if_false]

theorem settles_of_worn (isSet : now ≠ .zero)
    (positive : ∀ name retention, (policies.resolve name).cleanupAfter = some retention →
      0 < retention)
    (isKnown : policies.known record.fields.policy = true)
    (isLive : record.fields.archived = false)
    (lives : expire host (policies.resolve record.fields.policy) record now {} = none)
    (unprotected : ¬ now < record.fields.protectedUntil) :
    SettlesWithin host policies now 1 record := by
  refine .step ?_
  rw [apply_of_worn isKnown isLive lives unprotected]
  dsimp only
  generalize policyEq : policies.resolve record.fields.policy = policy at lives ⊢
  generalize decayedEq : decayImportance host policy record now {} = decayed
  generalize wornEq : decayHealth host policy decayed.1 now decayed.2 = worn
  have decayedTerms : SameTerms record decayed.1 :=
    decayedEq ▸ sameTerms_decayImportance host record now policy {}
  have decayedRests : ImportanceRests policy decayed.1 now :=
    decayedEq ▸ importanceRests_decayImportance host record policy {} isSet
  obtain ⟨wornTerms, wornDecay⟩ : SameTerms decayed.1 worn.1 ∧
      worn.1.fields.lastDecayAt = decayed.1.fields.lastDecayAt :=
    wornEq ▸ sameTerms_decayHealth host decayed.1 now policy decayed.2
  have healthRests : HealthRests policy worn.1 now :=
    wornEq ▸ healthRests_decayHealth host decayed.1 policy decayed.2 isSet
  have importanceRests : ImportanceRests policy worn.1 now := by
    unfold ImportanceRests
    rw [wornDecay, wornTerms.createdAt]
    exact decayedRests
  have terms := decayedTerms.trans wornTerms
  rcases archive_cases host worn.1 now policy worn.2 with ⟨isArchived, since⟩ | ⟨same, still⟩
  · exact .of_settled (.inr (settled_of_archived_now isSet positive isArchived since).2) 0
  rw [same]
  refine .of_settled (.inr ?_) 0
  have again : policies.resolve worn.1.fields.policy = policy := by rw [terms.policy, policyEq]
  rw [apply_of_worn (terms.policy ▸ isKnown) (terms.archived.trans isLive)
    (again ▸ expire_eq_none terms lives) (terms.protectedUntil ▸ unprotected)]
  dsimp only
  rw [again, decayImportance_of_rests importanceRests, decayHealth_of_rests healthRests, still]

def promoted (record : Record) (policy : Policy) : Record :=
  { record with fields := { record.fields with policy := policy.promoteTo, ttl := 0 } }

theorem Promoting.applies (promoting : Promoting policies now record policy) :
    (apply host policies record now).1 = promoted record policy ∧
      ¬ Settled host policies now record ∧ (apply host policies record now).2.delete = false := by
  obtain ⟨threshold, isThreshold, reached⟩ := promoting.reached
  have isKnown : policies.known record.fields.policy = true := by
    rw [Policies.known, promoting.found]
    rfl
  have resolved : policies.resolve record.fields.policy = policy := by
    rw [Policies.resolve, promoting.found, Option.getD_some]
  have expired : expire host policy record now {} =
      some (promote host policy threshold record {}) := by
    unfold expire
    dsimp only
    rw [if_neg (not_or.mpr ⟨not_le.mpr promoting.lives, not_lt.mpr promoting.due⟩), isThreshold]
    exact if_pos reached
  have applied : apply host policies record now = promote host policy threshold record {} := by
    unfold apply
    simp only [isKnown, promoting.live, resolved, expired, Bool.not_true, false_eq_true, if_false]
  unfold Settled
  rw [applied]
  exact ⟨rfl, by simp [promote, Decision.note], rfl⟩

theorem settles_or_promoting (isSet : now ≠ .zero)
    (positive : ∀ name retention, (policies.resolve name).cleanupAfter = some retention →
      0 < retention) :
    SettlesWithin host policies now 1 record ∨ ∃ policy, Promoting policies now record policy := by
  by_cases isKnown : policies.known record.fields.policy = true
  · cases isLive : record.fields.archived with
    | true =>
      left
      have settled : Settled host policies now record := by
        unfold Settled apply
        simp only [isKnown, isLive, Bool.not_true, false_eq_true, if_false, if_true]
        unfold cleanup
        split
        · exact .inr rfl
        dsimp only
        split
        · exact .inr rfl
        · exact .inl rfl
      exact .of_settled settled 1
    | false =>
      cases expired : expire host (policies.resolve record.fields.policy) record now {} with
      | none =>
        left
        by_cases isProtected : now < record.fields.protectedUntil
        · refine .of_settled (.inr ?_) 1
          unfold apply
          simp only [isKnown, isLive, expired, isProtected, Bool.not_true,
            false_eq_true, if_false, if_true]
        · exact settles_of_worn isSet positive isKnown isLive expired isProtected
      | some outcome =>
        have applied : apply host policies record now = outcome := by
          unfold apply
          simp only [isKnown, isLive, expired, Bool.not_true, false_eq_true, if_false]
        obtain ⟨policy, found⟩ := Option.isSome_iff_exists.mp isKnown
        have resolved : policies.resolve record.fields.policy = policy := by
          rw [Policies.resolve, found, Option.getD_some]
        obtain ⟨lives, due⟩ := due_of_expire expired
        rw [resolved] at expired lives due
        have outlives : outcome = outlive host policy record now {} →
            SettlesWithin host policies now 1 record := by
          rintro rfl
          refine .step ?_
          rw [applied]
          exact .of_settled (.inr (settled_of_archived_now isSet positive rfl rfl).2) 0
        unfold expire at expired
        dsimp only at expired
        rw [if_neg (not_or.mpr ⟨not_le.mpr lives, not_lt.mpr due⟩)] at expired
        cases promotes : policy.promoteAtRecalls with
        | none =>
          rw [promotes] at expired
          exact .inl (outlives (Option.some.inj expired).symm)
        | some threshold =>
          rw [promotes] at expired
          dsimp only at expired
          split at expired
          · next reached =>
            exact .inr ⟨policy, isLive, found, ⟨threshold, promotes, reached⟩, lives, due⟩
          · exact .inl (outlives (Option.some.inj expired).symm)
  · refine .inl (.of_settled (.inr ?_) 1)
    unfold apply
    simp [isKnown]

theorem Promoting.promotes (promoting : Promoting policies now record policy)
    (noTtl : record.fields.ttl = 0) :
    Promotes policies now record (Policies.nameOf record.fields.policy)
      (Policies.nameOf policy.promoteTo) := by
  have own : effectiveTtl policy record = policy.ttl.getD 0 := by
    simp [effectiveTtl, noTtl]
  have lives := promoting.lives
  have due := promoting.due
  obtain ⟨threshold, isThreshold, reached⟩ := promoting.reached
  rw [own] at lives due
  cases isTtl : policy.ttl with
  | none =>
    rw [isTtl] at lives
    exact absurd lives (by decide)
  | some ttl =>
    rw [isTtl] at lives due
    exact ⟨policy, threshold, ttl, promoting.found, isThreshold, reached, isTtl, lives, due, rfl⟩

theorem Promotes.promoting {next : Bytes} (noTtl : record.fields.ttl = 0)
    (live : record.fields.archived = false)
    (promotes : Promotes policies now record (Policies.nameOf record.fields.policy) next) :
    ∃ policy, Promoting policies now record policy ∧ next = Policies.nameOf policy.promoteTo := by
  obtain ⟨policy, threshold, ttl, found, isThreshold, reached, isTtl, lives, due, isNext⟩ := promotes
  have own : effectiveTtl policy record = ttl := by
    simp [effectiveTtl, noTtl, isTtl]
  exact ⟨policy, ⟨live, found, ⟨threshold, isThreshold, reached⟩, own ▸ lives, own ▸ due⟩, isNext⟩

theorem exists_promotes_of_not_halts {name : Bytes} (endless : ¬ Halts policies now record name) :
    ∃ next, Promotes policies now record name next ∧ ¬ Halts policies now record next := by
  unfold Halts at endless
  push Not at endless
  obtain ⟨other, comes, cycle⟩ := endless
  rcases Relation.ReflTransGen.cases_head comes with rfl | ⟨next, promotes, goesOn⟩
  · obtain ⟨next, promotes, back⟩ := Relation.TransGen.head'_iff.mp cycle
    exact ⟨next, promotes, fun halts => halts name back cycle⟩
  · exact ⟨next, promotes, fun halts => halts other goesOn cycle⟩

/-- A record at a policy that does not halt is promoted in every pass. -/
theorem not_settled_of_not_halts (noTtl : record.fields.ttl = 0)
    (live : record.fields.archived = false)
    (endless : ¬ Halts policies now record (Policies.nameOf record.fields.policy)) (count : Nat) :
    ¬ Settled host policies now (sweep host policies now count record) := by
  induction count generalizing record with
  | zero =>
    obtain ⟨next, promotes, _⟩ := exists_promotes_of_not_halts endless
    obtain ⟨policy, promoting, _⟩ := promotes.promoting noTtl live
    exact promoting.applies.2.1
  | succ count ih =>
    obtain ⟨next, promotes, again⟩ := exists_promotes_of_not_halts endless
    obtain ⟨policy, promoting, rfl⟩ := promotes.promoting noTtl live
    obtain ⟨applied, _, kept⟩ := @Promoting.applies host _ _ _ _ promoting
    rw [sweep]
    dsimp only
    rw [kept, applied]
    exact @ih (promoted record policy) rfl live again

/-- The walk: every policy it has left promotes, step by step, into the one it is at, so it
comes to no policy twice. -/
theorem settles_of_halts (isSet : now ≠ .zero)
    (positive : ∀ name retention, (policies.resolve name).cleanupAfter = some retention →
      0 < retention)
    (halts : Halts policies now record (Policies.nameOf record.fields.policy))
    (noTtl : record.fields.ttl = 0) {visited : List Bytes} (distinct : visited.Nodup)
    (listed : ∀ name ∈ visited, name ∈ policies.table.entries.map Prod.fst)
    (behind : ∀ name ∈ visited, Relation.TransGen (Promotes policies now record) name
      (Policies.nameOf record.fields.policy)) {left : Nat}
    (whole : visited.length + left = policies.table.entries.length) :
    SettlesWithin host policies now (left + 1) record := by
  induction left generalizing record visited with
  | zero =>
    rcases settles_or_promoting isSet positive with settles | ⟨policy, promoting⟩
    · exact settles
    -- the walk would be at a policy beside all of them
    exfalso
    have member : Policies.nameOf record.fields.policy ∈ policies.table.entries.map Prod.fst :=
      mem_map_of_mem (get_eq_some_iff.mp promoting.found)
    have fresh : Policies.nameOf record.fields.policy ∉ visited := fun seen =>
      halts _ .refl (behind _ seen)
    have bound := (List.Nodup.cons fresh distinct).length_le_of_subset
      (cons_subset.mpr ⟨member, listed⟩)
    simp only [length_cons, length_map] at bound
    omega
  | succ left ih =>
    rcases settles_or_promoting isSet positive with settles | ⟨policy, promoting⟩
    · obtain ⟨count, within, settled⟩ := settles
      exact ⟨count, by omega, settled⟩
    · refine .step ?_
      rw [promoting.applies.1]
      have promotes := promoting.promotes noTtl
      have fresh : Policies.nameOf record.fields.policy ∉ visited := fun seen =>
        halts _ .refl (behind _ seen)
      refine @ih (promoted record policy) (fun other comes => halts other (.head promotes comes))
        rfl (Policies.nameOf record.fields.policy :: visited) (.cons fresh distinct) ?_ ?_
        (by simp only [length_cons]; omega)
      · intro name among
        rcases mem_cons.mp among with rfl | earlier
        · exact mem_map_of_mem (get_eq_some_iff.mp promoting.found)
        · exact listed name earlier
      · intro name among
        rcases mem_cons.mp among with rfl | earlier
        · exact .single promotes
        · exact (behind name earlier).tail promotes

/-- A step of the pass on a live record does not delete it, and what it archives is archived
now. -/
def Spares (now : Time) (outcome : Record × Decision) : Prop :=
  outcome.2.delete = false ∧ (outcome.1.fields.archived = true → outcome.1.fields.archivedAt = now)

theorem spares_expire {outcome : Record × Decision} (isLive : record.fields.archived = false)
    (expired : expire host policy record now {} = some outcome) : Spares now outcome := by
  unfold expire at expired
  dsimp only at expired
  split at expired
  · cases expired
  split at expired
  · split at expired
    · cases expired
      exact ⟨rfl, fun isArchived => absurd (isLive.symm.trans isArchived) (by decide)⟩
    · cases expired
      exact ⟨rfl, fun _ => rfl⟩
  · cases expired
    exact ⟨rfl, fun _ => rfl⟩

variable (host policy record now) in
theorem delete_decayImportance :
    (decayImportance host policy record now decision).2.delete = decision.delete := by
  unfold decayImportance
  dsimp only
  split
  · rfl
  · split <;> rfl

variable (host policy record now) in
theorem delete_decayHealth :
    (decayHealth host policy record now decision).2.delete = decision.delete := by
  unfold decayHealth
  dsimp only
  split
  · rfl
  · split <;> rfl

theorem spares_archive (isLive : record.fields.archived = false)
    (kept : decision.delete = false) : Spares now (archive host policy record now decision) := by
  have asIs : Spares now (record, decision) :=
    ⟨kept, fun isArchived => absurd (isLive.symm.trans isArchived) (by decide)⟩
  unfold archive
  split
  · exact asIs
  split
  · exact asIs
  · exact ⟨kept, fun _ => rfl⟩

theorem spares_apply (isLive : record.fields.archived = false) :
    Spares now (apply host policies record now) := by
  have asIs : Spares now (record, {}) :=
    ⟨rfl, fun isArchived => absurd (isLive.symm.trans isArchived) (by decide)⟩
  unfold apply
  simp only [isLive, false_eq_true, if_false]
  split
  · exact asIs
  split
  · next expired => exact spares_expire isLive expired
  split
  · exact asIs
  refine spares_archive ?_ ?_
  · exact (sameTerms_decayHealth ..).1.archived.trans
      ((sameTerms_decayImportance ..).archived.trans isLive)
  · exact (delete_decayHealth ..).trans (delete_decayImportance ..)

theorem due_of_delete
    (positive : ∀ name retention, (policies.resolve name).cleanupAfter = some retention →
      0 < retention)
    (deletes : (apply host policies record now).2.delete = true) :
    record.fields.archived = true ∧ ∃ retention,
      (policies.resolve record.fields.policy).cleanupAfter = some retention ∧
        archivedAt record + retention ≤ now := by
  cases isLive : record.fields.archived with
  | false => exact absurd ((spares_apply isLive).1.symm.trans deletes) (by decide)
  | true =>
    refine ⟨rfl, ?_⟩
    unfold apply at deletes
    simp only [isLive, if_true] at deletes
    split at deletes
    · cases deletes
    · exact due_of_cleanup rfl rfl (positive _) (.inr deletes)

theorem due_of_sweep (isSet : now ≠ .zero)
    (positive : ∀ name retention, (policies.resolve name).cleanupAfter = some retention →
      0 < retention) {count : Nat}
    (deletes : (apply host policies (sweep host policies now count record) now).2.delete = true) :
    sweep host policies now count record = record ∧ record.fields.archived = true ∧
      ∃ retention, (policies.resolve record.fields.policy).cleanupAfter = some retention ∧
        archivedAt record + retention ≤ now := by
  induction count generalizing record with
  | zero => exact ⟨rfl, due_of_delete positive deletes⟩
  | succ count ih =>
    rw [sweep] at deletes ⊢
    dsimp only at deletes ⊢
    by_cases first : (apply host policies record now).2.delete = true
    · rw [if_pos first] at deletes ⊢
      exact ⟨rfl, due_of_delete positive deletes⟩
    rw [if_neg first] at deletes
    exfalso
    obtain ⟨same, isArchived, _⟩ := ih deletes
    rw [same] at deletes
    cases isLive : record.fields.archived with
    | false =>
      have since := (spares_apply isLive).2 isArchived
      obtain ⟨spared, _⟩ := settled_of_archived_now isSet positive isArchived since
      exact absurd (spared.symm.trans deletes) (by decide)
    | true =>
      have unchanged : (apply host policies record now).1 = record := by
        unfold apply
        simp only [isLive, if_true]
        split <;> rfl
      rw [unchanged] at deletes
      exact first deletes

/-- A sweep at one instant settles exactly where the policies that the record would be promoted
through come to an end, and deletes only what was archived long enough ago. -/
theorem sweep_settles (host : Host) {overrides : OrderedMap Bytes Policy} {policies : Policies}
    (accepted : newPolicies overrides = .ok policies) (record : Record) {now : Time}
    (isSet : now ≠ .zero) :
    (SettlesWithin host policies now (policies.table.entries.length + 2) record ↔
      ∀ policy, Promoting policies now record policy →
        Halts policies now record (Policies.nameOf policy.promoteTo)) ∧
      ∀ count, (apply host policies (sweep host policies now count record) now).2.delete = true →
        sweep host policies now count record = record ∧ record.fields.archived = true ∧
          ∃ retention, (policies.resolve record.fields.policy).cleanupAfter = some retention ∧
            archivedAt record + retention ≤ now := by
  have positive : ∀ name retention, (policies.resolve name).cleanupAfter = some retention →
      0 < retention := fun name _ => retention_pos accepted name
  refine ⟨⟨?_, fun halts => ?_⟩, fun count => due_of_sweep isSet positive⟩
  · rintro ⟨count, _, settled⟩ policy promoting
    by_contra endless
    obtain ⟨applied, moves, kept⟩ := @Promoting.applies host _ _ _ _ promoting
    cases count with
    | zero => exact moves settled
    | succ count =>
      rw [sweep] at settled
      dsimp only at settled
      rw [kept, applied] at settled
      exact @not_settled_of_not_halts host policies (promoted record policy) now rfl promoting.live
        endless count settled
  rcases settles_or_promoting isSet positive with settles | ⟨policy, promoting⟩
  · obtain ⟨count, within, settled⟩ := settles
    exact ⟨count, by omega, settled⟩
  refine .step ?_
  rw [promoting.applies.1]
  exact @settles_of_halts host policies (promoted record policy) now isSet positive
    (halts policy promoting) rfl [] nodup_nil (by simp) (by simp) _ (by simp)

/-- A short-term memory whose TTL is over and that was recalled often enough. -/
def recalledMemory : Record :=
  { youngMemory shortTerm maxHealth with
    fields := { (youngMemory shortTerm maxHealth).fields with ttl := day, accessCount := 3 } }

theorem not_promotes_builtins {now : Time} {record : Record} {name next : Bytes} :
    ¬ Promotes ⟨builtins⟩ now record name next := by
  rintro ⟨policy, threshold, ttl, found, _, _, isTtl, _⟩
  have none : ∀ entry ∈ builtins.entries, entry.2.ttl = none := by decide +kernel
  exact absurd (isTtl.symm.trans (none _ (get_eq_some_iff.mp found))) (by simp)

/-- Under the shipped policies it is promoted and decays once. -/
theorem sweep_settles_recalled : SettlesWithin plainHost ⟨builtins⟩ (2 * day) 5 recalledMemory ∧
      (apply plainHost ⟨builtins⟩ recalledMemory (2 * day)).2.changed = true := by
  have isSet : 2 * day ≠ Time.zero := by decide
  refine ⟨(sweep_settles plainHost newPolicies_empty recalledMemory isSet).1.mpr ?_,
    by decide +kernel⟩
  intro policy _ name _ cycle
  obtain ⟨_, promotes, _⟩ := Relation.TransGen.head'_iff.mp cycle
  exact not_promotes_builtins promotes

/-- A short-term policy that promotes into itself once its TTL is over. -/
def circular : Policy where
  name := shortTerm.bytes
  ttl := some day
  promoteAtRecalls := some 0
  promoteTo := shortTerm
  importanceDecay := Binary64.one

/-- The table is accepted, and a memory whose TTL is over is promoted in every pass. -/
theorem sweep_never_settles : newPolicies (OrderedMap.empty.set shortTerm.bytes circular) =
        .ok ⟨builtins.set shortTerm.bytes circular⟩ ∧
      ∀ count, ¬ Settled plainHost ⟨builtins.set shortTerm.bytes circular⟩ (2 * day)
        (sweep plainHost ⟨builtins.set shortTerm.bytes circular⟩ (2 * day) count
          (youngMemory shortTerm maxHealth)) := by
  refine ⟨rfl, fun count => ?_⟩
  have again : (apply plainHost ⟨builtins.set shortTerm.bytes circular⟩
      (youngMemory shortTerm maxHealth) (2 * day)).1 = youngMemory shortTerm maxHealth := by
    decide +kernel
  have kept : (apply plainHost ⟨builtins.set shortTerm.bytes circular⟩
      (youngMemory shortTerm maxHealth) (2 * day)).2.delete = false := by decide +kernel
  have changes : (apply plainHost ⟨builtins.set shortTerm.bytes circular⟩
      (youngMemory shortTerm maxHealth) (2 * day)).2.changed = true := by decide +kernel
  have same : sweep plainHost ⟨builtins.set shortTerm.bytes circular⟩ (2 * day) count
      (youngMemory shortTerm maxHealth) = youngMemory shortTerm maxHealth := by
    induction count with
    | zero => rfl
    | succ count ih =>
      rw [sweep]
      dsimp only
      rw [kept, again, ih]
      rfl
  rw [same]
  rintro (deletes | unchanged)
  · exact absurd (kept.symm.trans deletes) (by decide)
  · exact absurd (changes.symm.trans unchanged) (by decide)

end Remem.Lifecycle
