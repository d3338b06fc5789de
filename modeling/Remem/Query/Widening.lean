import Remem.Query.Fusion

/-!
# Widening searches

A vector or keyword step asks its index for the best so many candidates and keeps those that
settle; where a page stays short it asks again for more. The vector step remembers what it
has settled by the candidate's position.
-/

namespace Remem.Query

open Base Keys List

/-- The budgets of `Plan`. -/
structure Budgets where
  target : Nat
  startBudget : Nat
  maxBudget : Nat

abbrev Settled := Option (List (Id × Bool))

def Settled.decision (decided : Settled) (place : Nat) (rid : Id) : Option Bool :=
  match decided.bind (·[place]?) with
  | some (known, pass) => if known = rid then some pass else none
  | none => none

def Settled.record (decided : Settled) (place : Nat) (rid : Id) (pass : Bool) : Settled :=
  decided.map fun remembered =>
    if remembered.length < place then remembered else remembered.take place ++ [(rid, pass)]

section Widening

variable {Candidate Fused : Type}

/-- An index as a step sees it: its health, and its answer to a round and a budget. A step
reads a candidate's id and makes a ranked item of it. -/
structure Index (Candidate Fused : Type) where
  degraded : Result Bool
  search : (round budget : Nat) → Result (List Candidate)
  id : Candidate → Id
  item : Candidate → RankedItem Fused

/-- `stepPage`, with the answer of the last round, which `examined` counts. -/
structure StepPage (Candidate Fused : Type) where
  items : List (RankedItem Fused)
  truncated : Bool
  last : List Candidate

def StepPage.examined (page : StepPage Candidate Fused) : Nat := page.last.length

variable (index : Index Candidate Fused) (settle : Id → Result Bool)

/-- `settleOnce`; with nothing remembered it is `settle`. -/
def settleOnce (place : Nat) (rid : Id) (decided : Settled) : Result (Bool × Settled) :=
  match decided.decision place rid with
  | some pass => .ok (pass, decided)
  | none => do
      let pass ← settle rid
      return (pass, decided.record place rid pass)

def settleRound (target : Nat) : (place : Nat) → List Candidate → List Candidate → Settled →
    Result (List Candidate × Settled)
  | _, [], items, decided => .ok (items, decided)
  | place, hit :: rest, items, decided => do
      let (pass, decided) ← settleOnce settle place (index.id hit) decided
      if !pass then settleRound target (place + 1) rest items decided
      else if items.length + 1 = target then return (items ++ [hit], decided)
      else settleRound target (place + 1) rest (items ++ [hit]) decided

/-- The rounds of `runVector` and of `runText`, which differ in how the next budget is chosen
and in what is remembered; `none` where the fuel runs out first. -/
def widen (plan : Budgets) (nextBudget : (round budget examined passed : Nat) → Nat)
    (degraded : Bool) : (fuel round budget : Nat) → Settled →
    Option (Result (StepPage Candidate Fused))
  | 0, _, _, _ => none
  | fuel + 1, round, budget, decided =>
    match (do
      let hits ← index.search round budget
      let (items, decided) ← settleRound index settle plan.target 0 hits [] decided
      return (hits, items, decided) : Result _) with
    | .error fault => some (.error fault)
    | .ok (hits, items, decided) =>
      if plan.target ≤ items.length then
        some (.ok ⟨items.map index.item, degraded, hits⟩)
      else if hits.length < budget then some (.ok ⟨items.map index.item, degraded, hits⟩)
      else if plan.maxBudget ≤ budget then some (.ok ⟨items.map index.item, true, hits⟩)
      else widen plan nextBudget degraded fuel (round + 1)
        (nextBudget round budget hits.length items.length) decided

def firstBudget (plan : Budgets) (efStep : Nat) : Nat :=
  let budget := max plan.startBudget efStep
  if 0 < plan.maxBudget ∧ plan.maxBudget < budget then plan.maxBudget else budget

/-- `nextBudget`, whose estimate from the pass rate is any integer. -/
def nextBudget (plan : Budgets) (efStep : Nat) (estimate : Nat → Int)
    (round budget _examined _passed : Nat) : Nat :=
  min (max (estimate round).toNat (max efStep (2 * budget))) plan.maxBudget

def missing (op text : String) {Value : Type} : Option (Result Value) :=
  some (.error ⟨.invalid, op, text, []⟩)

def runVector (index : Option (Index Candidate Fused)) (filters : Bool) (plan : Budgets)
    (efStep : Nat) (estimate : Nat → Int) (fuel : Nat) :
    Option (Result (StepPage Candidate Fused)) :=
  match index with
  | none => missing "query.Executor.runVector"
      "this build has no vector index, so a semantic search cannot be answered"
  | some index =>
    match index.degraded with
    | .error fault => some (.error fault)
    | .ok degraded => widen index settle plan (nextBudget plan efStep estimate) degraded fuel 0
        (firstBudget plan efStep) (if filters then some [] else none)

def runText (index : Option (Index Candidate Fused)) (plan : Budgets) (fuel : Nat) :
    Option (Result (StepPage Candidate Fused)) :=
  match index with
  | none => missing "query.Executor.runText"
      "this build has no text index, so a keyword search cannot be answered"
  | some index =>
    match index.degraded with
    | .error fault => some (.error fault)
    | .ok degraded => widen index settle plan
        (fun _ budget _ _ => if plan.maxBudget < 2 * budget then plan.maxBudget else 2 * budget)
        degraded fuel 0 plan.startBudget none

def Settled.Sound (decision : Id → Bool) (decided : Settled) : Prop :=
  ∀ remembered ∈ decided, ∀ entry ∈ remembered, entry.2 = decision entry.1

variable {decision : Id → Bool} {decided : Settled}

theorem settleOnce_sound (sound : decided.Sound decision) (place : Nat) (rid : Id) :
    ∃ after : Settled, settleOnce (fun rid => .ok (decision rid)) place rid decided =
      .ok (decision rid, after) ∧ after.Sound decision := by
  rw [settleOnce]
  cases known : decided.decision place rid with
  | some pass =>
    rw [Settled.decision] at known
    split at known
    · next id remembered found =>
      obtain ⟨entries, isEntries, isEntry⟩ := Option.bind_eq_some_iff.mp found
      have same := sound entries isEntries _ (mem_of_getElem? isEntry)
      split at known
      · next isRid =>
        cases known
        exact ⟨decided, by rw [← isRid, ← same], sound⟩
      · cases known
    · cases known
  | none =>
    refine ⟨_, rfl, ?_⟩
    intro remembered isRemembered entry listed
    obtain ⟨before, isBefore, rfl⟩ := Option.map_eq_some_iff.mp isRemembered
    split at listed
    · exact sound before isBefore entry listed
    rcases mem_append.mp listed with old | new
    · exact sound before isBefore entry (mem_of_mem_take old)
    · rw [mem_singleton.mp new]

theorem settleRound_spec {target : Nat} (hits items : List Candidate) (room : items.length < target)
    (place : Nat) (sound : decided.Sound decision) :
    ∃ after : Settled, settleRound index (fun rid => .ok (decision rid)) target place hits items
        decided = .ok (items ++ (hits.filter fun hit => decision (index.id hit)).take
          (target - items.length), after) ∧ after.Sound decision := by
  induction hits generalizing items place decided with
  | nil => exact ⟨decided, by simp [settleRound], sound⟩
  | cons hit rest ih =>
    obtain ⟨after, once, afterSound⟩ := settleOnce_sound sound place (index.id hit)
    simp only [settleRound, once, bind, Except.bind]
    cases passes : decision (index.id hit) with
    | false =>
      obtain ⟨last, rounds, lastSound⟩ :=
        ih items room (place + 1) afterSound
      exact ⟨last, by simpa [passes] using rounds, lastSound⟩
    | true =>
      by_cases full : items.length + 1 = target
      · refine ⟨after, ?_, afterSound⟩
        have one : target - items.length = 1 := by omega
        simp [full, one, passes, pure, Except.pure]
      obtain ⟨last, rounds, lastSound⟩ := ih (items ++ [hit])
        (by rw [length_append, length_singleton]; omega) (place + 1) afterSound
      refine ⟨last, ?_, lastSound⟩
      have more : target - items.length = target - (items.length + 1) + 1 := by omega
      simpa [full, passes, more] using rounds

def Index.kept (decision : Id → Bool) (target : Nat) (answer : List Candidate) : List Candidate :=
  (answer.filter fun hit => decision (index.id hit)).take target

/-- How a step ends: in some round, with what settles of the round's answer, because the page
is full, the answer is short or the budget is spent. -/
structure Ends (decision : Id → Bool) (plan : Budgets) (degraded : Bool)
    (answers : (round budget : Nat) → List Candidate) (page : StepPage Candidate Fused) (round
      budget : Nat) :
    Prop where
  answer : page.last = answers round budget
  within : budget ≤ plan.maxBudget
  items : page.items = (index.kept decision plan.target page.last).map index.item
  flag : page.truncated = (degraded || decide (plan.maxBudget ≤ budget ∧
    budget ≤ page.last.length ∧ (index.kept decision plan.target page.last).length < plan.target))
  reason : (index.kept decision plan.target page.last).length = plan.target ∨
    page.last.length < budget ∨ budget = plan.maxBudget

theorem widen_ends {decision : Id → Bool} {plan : Budgets} (wanted : 1 ≤ plan.target)
    {nextBudget : (round budget examined passed : Nat) → Nat}
    (grows : ∀ round budget examined passed, 1 ≤ budget → budget < plan.maxBudget →
      budget < nextBudget round budget examined passed ∧
        nextBudget round budget examined passed ≤ plan.maxBudget)
    {answers : (round budget : Nat) → List Candidate}
    (answered : ∀ round budget, index.search round budget = .ok (answers round budget))
    (degraded : Bool) {fuel round budget : Nat} {decided : Settled}
    (sound : decided.Sound decision) (positive : 1 ≤ budget) (within : budget ≤ plan.maxBudget)
    (enough : plan.maxBudget - budget < fuel) :
    ∃ page lastRound lastBudget,
      widen index (fun rid => .ok (decision rid)) plan nextBudget degraded fuel round budget
        decided = some (.ok page) ∧
      Ends index decision plan degraded answers page lastRound lastBudget := by
  induction fuel generalizing round budget decided with
  | zero => exact absurd enough (Nat.not_lt_zero _)
  | succ fuel ih =>
    obtain ⟨after, settled, afterSound⟩ :=
      settleRound_spec index (answers round budget) [] wanted 0 sound
    have kept : (index.kept decision plan.target (answers round budget)).length ≤ plan.target :=
      length_take_le _ _
    rw [widen, answered]
    simp only [bind, Except.bind, settled, nil_append, length_nil, Nat.sub_zero, pure, Except.pure]
    change ∃ page lastRound lastBudget, (if plan.target ≤
      (index.kept decision plan.target (answers round budget)).length then _ else _) = _ ∧ _
    split
    · next full => exact ⟨_, round, budget, rfl, rfl, within, rfl,
        by simp [not_lt.mpr full], .inl (kept.antisymm full)⟩
    next notFull =>
    split
    · next short => exact ⟨_, round, budget, rfl, rfl, within, rfl,
        by simp [not_le.mpr short], .inr (.inl short)⟩
    next long =>
    split
    · next spent => exact ⟨_, round, budget, rfl, rfl, within, rfl,
        by simp [spent, not_lt.mp long, not_le.mp notFull],
        .inr (.inr (within.antisymm spent))⟩
    next left =>
    obtain ⟨larger, bounded⟩ := grows round budget (answers round budget).length
      (index.kept decision plan.target (answers round budget)).length positive
      (not_le.mp left)
    have closer := Nat.sub_lt_sub_left (not_le.mp left) larger
    exact ih afterSound (positive.trans larger.le) bounded
      (closer.trans_le (Nat.lt_succ_iff.mp enough))

/-- An index that ranks: what it answers to more is what it answered, extended, and an answer
that is short has everything. -/
structure Ranks (answers : (budget : Nat) → List Candidate) : Prop where
  bounded : ∀ budget, (answers budget).length ≤ budget
  distinct : ∀ budget, ((answers budget).map index.id).Nodup
  extends' : ∀ budget more, budget < more → answers budget <+: answers more
  complete : ∀ budget more, (answers budget).length < budget → budget < more →
    answers more = answers budget

theorem Ends.of_ranks {plan : Budgets} {degraded : Bool} {answers : (budget : Nat) → List Candidate}
    (ranks : Ranks index answers) {page : StepPage Candidate Fused} {round budget : Nat}
    (ends : Ends index decision plan degraded (fun _ => answers) page round budget) :
    page.items = (index.kept decision plan.target (answers plan.maxBudget)).map index.item ∧
      page.truncated = (degraded || decide
        ((index.kept decision plan.target (answers plan.maxBudget)).length < plan.target ∧
          plan.maxBudget ≤ (answers plan.maxBudget).length)) := by
  obtain ⟨answer, within, items, flag, reason⟩ := ends
  rw [items, flag, answer]
  rw [answer] at reason
  rcases Nat.lt_or_eq_of_le within with narrow | rfl
  · rcases reason with full | short | spent
    · -- what a longer answer adds comes after a page that is full
      obtain ⟨rest, longer⟩ := ranks.extends' budget plan.maxBudget narrow
      have same : index.kept decision plan.target (answers plan.maxBudget) =
          index.kept decision plan.target (answers budget) := by
        rw [Index.kept, length_take] at full
        rw [Index.kept, Index.kept, ← longer, filter_append, take_append_of_le_length (by omega)]
      rw [same, full]
      simp [not_le.mpr narrow]
    · rw [ranks.complete budget plan.maxBudget short narrow]
      have few : ¬ plan.maxBudget ≤ (answers budget).length := by omega
      simp [few, not_le.mpr narrow]
    · omega
  · simp [and_comm]

section Steps

variable {decision : Id → Bool} {plan : Budgets} {degraded : Bool}
  {answers : (round budget : Nat) → List Candidate}

theorem runVector_ends (wanted : 1 ≤ plan.target) (starts : 1 ≤ plan.startBudget)
    (fits : plan.startBudget ≤ plan.maxBudget) (health : index.degraded = .ok degraded)
    (answered : ∀ round budget, index.search round budget = .ok (answers round budget))
    (efStep : Nat) (estimate : Nat → Int) (filters : Bool) :
    ∃ page round budget, runVector (fun rid => .ok (decision rid)) (some index) filters plan
        efStep estimate plan.maxBudget = some (.ok page) ∧
      Ends index decision plan degraded answers page round budget := by
  have first : 1 ≤ firstBudget plan efStep ∧ firstBudget plan efStep ≤ plan.maxBudget := by
    rw [firstBudget]
    split <;> omega
  have remembered : Settled.Sound decision (if filters then some [] else none) := by
    cases filters <;> simp [Settled.Sound]
  simp only [runVector, health]
  refine widen_ends index wanted ?_ answered degraded remembered first.1 first.2 (by omega)
  intro round budget examined passed positive below
  rw [nextBudget]
  omega

theorem runText_ends (wanted : 1 ≤ plan.target) (starts : 1 ≤ plan.startBudget)
    (fits : plan.startBudget ≤ plan.maxBudget) (health : index.degraded = .ok degraded)
    (answered : ∀ round budget, index.search round budget = .ok (answers round budget)) :
    ∃ page round budget, runText (fun rid => .ok (decision rid)) (some index) plan
        plan.maxBudget = some (.ok page) ∧
      Ends index decision plan degraded answers page round budget := by
  simp only [runText, health]
  refine widen_ends index wanted ?_ answered degraded (by simp [Settled.Sound]) starts fits
    (by omega)
  intro round budget examined passed positive below
  split <;> omega

end Steps

/-- Over any ranking, however the estimate, the first budget and the granularity go, both steps
end with the first candidates within the largest budget that settle, and say truncated where
the index is degraded or a page stays short with the budget spent. Over an index that answers
each round as it likes, the vector step keeps what settles of the last answer. -/
theorem widening_keeps_answer (decision : Id → Bool) (plan : Budgets) (wanted : 1 ≤ plan.target)
    (starts : 1 ≤ plan.startBudget) (fits : plan.startBudget ≤ plan.maxBudget) (degraded : Bool)
    (health : index.degraded = .ok degraded) (efStep : Nat) (estimate : Nat → Int)
    (filters : Bool) :
    (∀ answers : (budget : Nat) → List Candidate, Ranks index answers →
      (∀ round budget, index.search round budget = .ok (answers budget)) →
      ∀ run ∈ [runVector (fun rid => .ok (decision rid)) (some index) filters plan efStep estimate
          plan.maxBudget, runText (fun rid => .ok (decision rid)) (some index) plan plan.maxBudget],
        ∃ page, run = some (.ok page) ∧ page.items =
            (index.kept decision plan.target (answers plan.maxBudget)).map index.item ∧
          page.truncated = (degraded || decide
            ((index.kept decision plan.target (answers plan.maxBudget)).length < plan.target ∧
              plan.maxBudget ≤ (answers plan.maxBudget).length))) ∧
    ∀ answers : (round budget : Nat) → List Candidate,
      (∀ round budget, index.search round budget = .ok (answers round budget)) →
      ∃ page round budget, runVector (fun rid => .ok (decision rid)) (some index) filters plan
          efStep estimate plan.maxBudget = some (.ok page) ∧
        page.last = answers round budget ∧
        page.items = (index.kept decision plan.target page.last).map index.item := by
  constructor
  · intro answers ranks answered run isRun
    simp only [mem_cons, not_mem_nil, or_false] at isRun
    rcases isRun with rfl | rfl
    · obtain ⟨page, round, budget, ran, ends⟩ := runVector_ends index wanted starts fits health
        answered efStep estimate filters
      exact ⟨page, ran, ends.of_ranks index ranks⟩
    obtain ⟨page, round, budget, ran, ends⟩ := runText_ends index wanted starts fits health answered
    exact ⟨page, ran, ends.of_ranks index ranks⟩
  · intro answers answered
    obtain ⟨page, round, budget, ran, ends⟩ := runVector_ends index wanted starts fits health
      answered efStep estimate filters
    exact ⟨page, round, budget, ran, ends.answer, ends.items⟩

end Widening

/-- An index over two records that answers half of what it is asked for. -/
def halfIndex : Index Id Nat where
  degraded := .ok false
  search _ budget := .ok ([Id.filled 1, Id.filled 2].take (budget / 2))
  id rid := rid
  item rid := ⟨rid, 0, 0, 0, 0⟩

/-- Its answers are bounded, distinct and prefixes of one another, and what the step finds
depends on the budget that it starts with. -/
theorem half_answers_depend_on_start :
    (∀ budget, ([Id.filled 1, Id.filled 2].take (budget / 2)).length ≤ budget) ∧
    (∀ budget, ([Id.filled 1, Id.filled 2].take (budget / 2)).Nodup) ∧
    (∀ budget more, budget < more → [Id.filled 1, Id.filled 2].take (budget / 2) <+:
      [Id.filled 1, Id.filled 2].take (more / 2)) ∧
    ((runVector (fun _ => .ok true) (some halfIndex) true ⟨2, 2, 4⟩ 0 (fun _ => 0) 4).map
        (Except.map fun page => page.items.length)) = some (.ok 1) ∧
    ((runVector (fun _ => .ok true) (some halfIndex) true ⟨2, 4, 4⟩ 0 (fun _ => 0) 4).map
        (Except.map fun page => page.items.length)) = some (.ok 2) := by
  refine ⟨fun budget => ?_, fun budget => ?_, fun budget more less => ?_, by decide, by decide⟩
  · rw [List.length_take]
    omega
  · exact (by decide : [Id.filled 1, Id.filled 2].Nodup).sublist (List.take_sublist _ _)
  · exact List.take_prefix_take_left (Nat.div_le_div_right less.le)

def pairIndex : Index Id Nat :=
  { halfIndex with search := fun _ budget => .ok ([Id.filled 1, Id.filled 2].take budget) }

theorem widening_keeps_answer_pair :
    ∃ page, runText (fun rid => .ok (decide (rid = Id.filled 2))) (some pairIndex) ⟨1, 1, 4⟩ 4 =
      some (.ok page) ∧ page.items.length = 1 := by
  have ranks : Ranks pairIndex fun budget => [Id.filled 1, Id.filled 2].take budget := by
    refine ⟨fun budget => List.length_take_le _ _, fun budget => ?_, fun budget more less => ?_,
      fun budget more short less => ?_⟩
    · rw [show pairIndex.id = id from rfl, List.map_id]
      exact (by decide : [Id.filled 1, Id.filled 2].Nodup).sublist (List.take_sublist _ _)
    · exact List.take_prefix_take_left less.le
    · rw [List.length_take, List.length_cons, List.length_singleton] at short
      rw [List.take_of_length_le (by simp; omega), List.take_of_length_le (by simp; omega)]
  obtain ⟨page, ran, items, _⟩ := (widening_keeps_answer pairIndex (fun rid => rid = Id.filled 2)
    ⟨1, 1, 4⟩ (by decide) (by decide) (by decide) false rfl 0 (fun _ => 0) true).1 _ ranks
    (fun _ _ => rfl) _ (List.mem_cons_of_mem _ (List.mem_singleton_self _))
  exact ⟨page, ran, by rw [items]; decide⟩

end Remem.Query
