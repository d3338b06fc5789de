import Remem.Schema.Plan
import Remem.Record

/-!
# Lazy record upgrades

The steps of a chain are given in any order. Sorted, each of them leaves the version that the one
before leads to, and a record takes every step from its version on.
-/

namespace Remem.Schema

open Base List

/-- `apply` rewrites the record in place, `hasApply` says whether there is one. -/
structure RecordUpgrade where
  from_ : Nat
  to_ : Nat
  hasApply : Bool
  apply : EStateM Fault Record Unit

/-- The steps of `byFrom` stand in the order of the chain. -/
structure RecordUpgrader where
  byFrom : List RecordUpgrade
  target : Nat
  forward : ∀ step ∈ byFrom, step.from_ < step.to_

def badChain {Value : Type} (format : String) (versions : List Nat) : Result Value :=
  .error ⟨.invalid, "schema.NewRecordUpgrader", format, versions.map fun version => .number version⟩

/-- The loop of `NewRecordUpgrader`: `target` is where the step before leads. -/
def chain (upgrader : RecordUpgrader) : List RecordUpgrade → Result RecordUpgrader
  | [] => .ok upgrader
  | step :: rest =>
    if !step.hasApply then badChain "the upgrade from schema %d has no Apply" [step.from_]
    else if back : step.to_ ≤ step.from_ then
      badChain "an upgrade goes from schema %d to %d; a step must move a version forward"
        [step.from_, step.to_]
    else if step.from_ ∈ upgrader.byFrom.map RecordUpgrade.from_ then
      badChain "two upgrades leave schema %d; the chain would branch and nothing decides which way"
        [step.from_]
    else if upgrader.target ≠ step.from_ then
      badChain ("the upgrade chain jumps from schema %d to %d: a record at %d could never leave it, " ++
        "and would be re-examined on every read forever")
        [upgrader.target, step.from_, upgrader.target]
    else
      chain ⟨upgrader.byFrom ++ [step], step.to_, by
        simpa [or_imp, forall_and] using ⟨upgrader.forward, not_le.mp back⟩⟩ rest

def newRecordUpgrader (ups : List RecordUpgrade) : Result (Option RecordUpgrader) :=
  match ups.insertionSort fun first second => first.from_ ≤ second.from_ with
  | [] => .ok none
  | first :: rest => do return some (← chain ⟨[], first.from_, nofun⟩ (first :: rest))

/-- The loop of `Upgrade`, on the record it rewrites. -/
def RecordUpgrader.walk (upgrader : RecordUpgrader) (version : Nat) (changed : Bool)
    (record : Record) : EStateM.Result Fault Record (Nat × Bool) :=
  if version < upgrader.target then
    match _found : upgrader.byFrom.find? (·.from_ = version) with
    | none => .ok (version, changed) record
    | some step =>
      match step.apply record with
      | .ok () record => upgrader.walk step.to_ true record
      | .error fault record =>
        .error ⟨fault.kind, "schema.RecordUpgrader.Upgrade",
          "upgrading record %s from user schema %d to %d: %w",
          [.bytes record.id.bytes, .number step.from_, .number step.to_]⟩ record
  else .ok (version, changed) record
termination_by upgrader.target - version
decreasing_by
  have forward := upgrader.forward step (mem_of_find?_eq_some _found)
  have leaves := find?_some _found
  simp only [decide_eq_true_eq] at leaves
  omega

def RecordUpgrader.upgrade (upgrader : RecordUpgrader) (version : Nat) :
    EStateM Fault Record (Nat × Bool) :=
  upgrader.walk version false

/-- The steps lead from the version to the target, each from where the one before ends. -/
def Route (version : Nat) : List RecordUpgrade → Nat → Prop
  | [], target => version = target
  | step :: rest, target => step.from_ = version ∧ Route step.to_ rest target

variable {version start target : Nat} {steps taken left ups : List RecordUpgrade}
  {step : RecordUpgrade} {upgrader after : RecordUpgrader} {record middle result : Record}
  {changed : Bool}

theorem Route.concat (route : Route version steps step.from_) :
    Route version (steps ++ [step]) step.to_ := by
  induction steps generalizing version with
  | nil => exact ⟨route.symm, rfl⟩
  | cons next rest ih => exact ⟨route.1, ih route.2⟩

theorem Route.of_append (route : Route version (taken ++ step :: left) target) :
    Route step.to_ left target := by
  induction taken generalizing version with
  | nil => exact route.2
  | cons next rest ih => exact ih route.2

theorem Route.bounds (route : Route version steps target)
    (forward : ∀ step ∈ steps, step.from_ < step.to_) :
    version ≤ target ∧ ∀ step ∈ steps, version ≤ step.from_ ∧ step.from_ < target := by
  induction steps generalizing version with
  | nil => exact ⟨le_of_eq route, nofun⟩
  | cons next rest ih =>
    obtain ⟨rfl, route⟩ := route
    obtain ⟨moves, forward⟩ := forall_mem_cons.mp forward
    obtain ⟨reaches, later⟩ := ih route forward
    refine ⟨moves.le.trans reaches, forall_mem_cons.mpr ⟨⟨le_rfl, moves.trans_le reaches⟩, ?_⟩⟩
    exact fun step listed => (later step listed).imp_left moves.le.trans

theorem Route.find (route : Route version steps target)
    (forward : ∀ step ∈ steps, step.from_ < step.to_) (listed : step ∈ steps) :
    steps.find? (·.from_ = step.from_) = some step := by
  induction steps generalizing version with
  | nil => cases listed
  | cons next rest ih =>
    obtain ⟨moves, forward⟩ := forall_mem_cons.mp forward
    rcases mem_cons.mp listed with rfl | later
    · exact find?_cons_of_pos (decide_eq_true rfl)
    -- versions rise along the route, so the first step starts below every later one
    have apart := ((route.2.bounds forward).2 step later).1
    rw [find?_cons_of_neg (by simp only [decide_eq_true_eq]; omega)]
    exact ih route.2 forward later

theorem chain_route (route : Route start upgrader.byFrom upgrader.target)
    (accepted : chain upgrader steps = .ok after) :
    after.byFrom = upgrader.byFrom ++ steps ∧ Route start after.byFrom after.target := by
  -- the chain so far is a route from `start`, and a step is taken only where that route ends
  induction steps generalizing upgrader with
  | nil =>
    cases accepted
    exact ⟨(append_nil _).symm, route⟩
  | cons step rest ih =>
    unfold chain at accepted
    split at accepted
    · cases accepted
    split at accepted
    · cases accepted
    split at accepted
    · cases accepted
    split at accepted
    · cases accepted
    next linked =>
    obtain ⟨isChain, route⟩ := ih (not_not.mp linked ▸ route).concat accepted
    exact ⟨isChain.trans (append_assoc _ [step] rest), route⟩

theorem applied_cons (applied : (step :: left).forM RecordUpgrade.apply record = .ok () result) :
    ∃ middle, step.apply record = .ok () middle ∧
      left.forM RecordUpgrade.apply middle = .ok () result := by
  simp only [List.forM, bind, EStateM.bind] at applied
  split at applied
  · next middle first => exact ⟨middle, first, applied⟩
  · cases applied

section Walks

variable (route : Route start upgrader.byFrom upgrader.target)

include route

theorem walk_step (listed : step ∈ upgrader.byFrom) (applied : step.apply record = .ok () middle) :
    upgrader.walk step.from_ changed record = upgrader.walk step.to_ true middle := by
  rw [RecordUpgrader.walk, if_pos ((route.bounds upgrader.forward).2 step listed).2]
  have found := route.find upgrader.forward listed
  split
  · next missing => cases missing.symm.trans found
  next other isOther =>
  cases isOther.symm.trans found
  rw [applied]

theorem walk_chain (split : upgrader.byFrom = taken ++ step :: left)
    (applied : (step :: left).forM RecordUpgrade.apply record = .ok () result) :
    upgrader.walk step.from_ changed record = .ok (upgrader.target, true) result := by
  induction left generalizing taken step changed record with
  | nil =>
    obtain ⟨_, first, ⟨⟩⟩ := applied_cons applied
    have ends : step.to_ = upgrader.target := (split ▸ route).of_append
    rw [walk_step route (by simp [split]) first, RecordUpgrader.walk, if_neg (by omega), ends]
  | cons next rest ih =>
    obtain ⟨_, first, later⟩ := applied_cons applied
    have linked : next.from_ = step.to_ := (split ▸ route).of_append.1
    rw [walk_step route (by simp [split]) first, ← linked]
    exact ih (split.trans (append_cons taken step _)) later

end Walks

/-- An accepted chain takes a record at the version of a step through the steps from there to the
target, leaves every other record as it is and is the same for any order of its steps. -/
theorem upgrade_takes_each_step (accepted : newRecordUpgrader ups = .ok (some upgrader)) :
    (∀ others : List RecordUpgrade, others.Perm ups →
      newRecordUpgrader others = .ok (some upgrader)) ∧
    upgrader.byFrom.Perm ups ∧ (∃ start, Route start upgrader.byFrom upgrader.target) ∧
    (∀ taken step left record result, upgrader.byFrom = taken ++ step :: left →
      (step :: left).forM RecordUpgrade.apply record = .ok () result →
      upgrader.upgrade step.from_ record = .ok (upgrader.target, true) result) ∧
    ∀ version record, version = upgrader.target ∨ (∀ step ∈ ups, step.from_ ≠ version) →
      upgrader.upgrade version record = .ok (version, false) record := by
  unfold newRecordUpgrader at accepted
  split at accepted
  · cases accepted
  next first rest sorted =>
  obtain ⟨_, linked, isAfter⟩ := Result.ok_of_bind accepted
  cases isAfter
  obtain ⟨isChain, route⟩ := chain_route (show Route first.from_ [] first.from_ from rfl) linked
  have permuted : upgrader.byFrom.Perm ups :=
    isChain.trans ((nil_append _).trans sorted.symm) ▸ perm_insertionSort _ ups
  refine ⟨fun others same => ?_, permuted, ⟨_, route⟩, ?_, fun version record outside => ?_⟩
  · -- no two steps start at one version, so sorting by it gives the same list
    have distinct : ∀ first ∈ ups, ∀ second ∈ ups, first.from_ = second.from_ →
        first = second := by
      intro first isFirst second isSecond equal
      have found := route.find upgrader.forward (permuted.mem_iff.mpr isFirst)
      rw [equal, route.find upgrader.forward (permuted.mem_iff.mpr isSecond)] at found
      exact (Option.some.inj found).symm
    rw [newRecordUpgrader, insertionSort_eq_of_perm distinct same, sorted]
    exact accepted
  · intro taken step left record result split applied
    exact walk_chain route split applied
  · rw [RecordUpgrader.upgrade, RecordUpgrader.walk]
    rcases outside with rfl | unknown
    · rw [if_neg (lt_irrefl _)]
    split
    · split
      · rfl
      next step found =>
      have listed := permuted.subset (mem_of_find?_eq_some found)
      exact absurd (by simpa using find?_some found) (unknown step listed)
    · rfl

theorem upgrade_takes_each_step_two :
    ∃ upgrader, newRecordUpgrader [⟨15, 16, true, pure ()⟩, ⟨14, 15, true, pure ()⟩] =
        .ok (some upgrader) ∧
      ∀ record, upgrader.upgrade 14 record = .ok (16, true) record := by
  have accepted : newRecordUpgrader [⟨15, 16, true, pure ()⟩, ⟨14, 15, true, pure ()⟩] =
    .ok (some _) := rfl
  refine ⟨_, accepted, fun record => ?_⟩
  exact (upgrade_takes_each_step accepted).2.2.2.1 [] _ _ record _ rfl rfl

end Remem.Schema
