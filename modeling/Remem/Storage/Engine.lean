import Remem.Storage.Works
import Remem.Base.Locking
import Remem.Keys.Parse

/-!
# The two engines

`memkv` commits a batch under one lock. Pebble checks the conditions of a batch one
after the other and then applies it, holding the write stripe of every key the batch was
told about; a stripe is a hash of the tenant. In both, a commit is one atomic step.
A store that is closed or whose disk fails is not modelled.
-/

namespace Remem.Storage

open Base Keys List

inductive Engine where
  | memkv
  | pebble
  deriving DecidableEq, Repr

/-- What a commit reports when a condition does not hold. -/
def Engine.conflict : Engine → Fault
  | memkv => ⟨.conflict, "memkv.Batch.Commit", "conditional write conflict", []⟩
  | pebble => ⟨.conflict, "pebble.Batch.Commit", "conditional write conflict", []⟩

def stripeCount : Nat := 64

/-- `stripeOf`: FNV-1a over the tenant. -/
def stripeOf (key : Bytes) : Fin stripeCount :=
  match tenantOf key with
  | none | some [] => ⟨0, by decide⟩
  | some tenant =>
    let hash := tenant.foldl
      (fun hash byte => (hash ^^^ byte.toUInt64) * 1099511628211) 14695981039346656037
    ⟨hash.toNat % stripeCount, Nat.mod_lt _ (by decide)⟩

namespace Batch

def touches (batch : Batch) (stripe : Fin stripeCount) : Bool :=
  batch.ops.any (fun op => stripeOf op.key = stripe) ||
    batch.conditions.any fun condition => stripeOf condition.key = stripe

/-- The stripes of a batch in the order `lockStripes` takes them. -/
def stripes (batch : Batch) : List (Fin stripeCount) :=
  (List.finRange stripeCount).filter batch.touches

variable {batch : Batch}

theorem stripe_of_op {op : Op} (listed : op ∈ batch.ops) : stripeOf op.key ∈ batch.stripes := by
  simp only [stripes, touches, mem_filter, mem_finRange, true_and,
    Bool.or_eq_true, any_eq_true, decide_eq_true_eq]
  exact .inl ⟨op, listed, rfl⟩

variable {condition : Condition}

theorem stripe_of_condition (listed : condition ∈ batch.conditions) :
    stripeOf condition.key ∈ batch.stripes := by
  simp only [stripes, touches, mem_filter, mem_finRange, true_and,
    Bool.or_eq_true, any_eq_true, decide_eq_true_eq]
  exact .inr ⟨condition, listed, rfl⟩

theorem holds_effect_of_disjoint {other : Batch} (listed : condition ∈ batch.conditions)
    (apart : batch.stripes.Disjoint other.stripes) (store : Store) :
    condition.holds (other.effect store) = condition.holds store := by
  have untouched : ∀ op ∈ other.ops, op.key ≠ condition.key := by
    intro op staged same
    apply apart (stripe_of_condition listed)
    rw [← same]
    exact stripe_of_op staged
  rw [Condition.holds, Condition.holds, get_effect_of_not_staged untouched]

end Batch

section Runs

variable {Call Label Answer : Type}

/-- `Commit`, as one step. -/
def Engine.commit (engine : Engine) (batch : Batch) (store : Store) : Result Store :=
  if batch.conditions.all fun condition => condition.holds store then .ok (batch.effect store)
  else .error engine.conflict

def Engine.system (engine : Engine) (body : Call → StoreProgram Label Answer) :
    System Call Store (Labelled Label) Fault Answer where
  apply payload store := engine.commit payload.batch store
  body := body
  legal _ := True
  distinct _ _ := True
  distinct_symm _ _ _ := trivial

theorem Engine.commitsBatches (engine : Engine) (body : Call → StoreProgram Label Answer) :
    CommitsBatches (engine.system body) := by
  intro payload store after applied
  replace applied : engine.commit payload.batch store = .ok after := applied
  unfold Engine.commit at applied
  split at applied
  · next holds =>
    cases applied
    exact ⟨all_eq_true.mp holds, rfl⟩
  · cases applied

theorem Engine.distinct (engine : Engine) (body : Call → StoreProgram Label Answer)
    (world : World Call Store (Labelled Label) Fault Answer) :
    (engine.system body).Distinct world :=
  ⟨fun _ _ => trivial, pairwise_of_forall fun _ _ => trivial⟩

variable {body : Call → StoreProgram Label Answer}

variable {commits : Call → Labelled Label → Prop}

variable (engine : Engine)

theorem Engine.committed_of_performs
    (performs : ∀ call, (body call).Performs (fun _ => True) (fun _ => True) (fun _ payload =>
      commits call payload) (fun _ _ => True) [])
    (initial : Store) (schedule : List (Action Call)) :
    ∀ entry ∈ ((engine.system body).run initial schedule).history,
      commits entry.call entry.batch := by
  let kept (_ : Store) (history : List (Entry Call (Labelled Label))) : Prop :=
    ∀ entry ∈ history, commits entry.call entry.batch
  have initially : kept initial [] := by simp [kept]
  have sound := (engine.system body).sound_run kept (fun _ _ _ _ _ _ _ => True) initially ?_
    schedule (engine.distinct body _)
    (System.meets_unchecked (engine.system body) (System.start initial) schedule)
  · exact sound.holds
  · intro index call born state _ _ _
    refine System.Safe.of_performs ((performs call).mono fun _ _ => trivial)
      (fun _ _ _ _ => trivial) ?_
    intro committed payload store history after allowed held _ _ _ entry listed
    rcases mem_cons.mp listed with rfl | earlier
    · exact allowed
    · exact held entry earlier

theorem Engine.invariant_of_performs {check : Labelled Label → Store → Prop} (inv : Store → Prop)
    (performs : ∀ call, (body call).Performs inv (fun _ => True) (fun _ payload => commits call
      payload) (fun _ _ => True) [])
    (keeps : ∀ call payload store, commits call payload → inv store → payload.batch.Accepts store →
      check payload store → inv (payload.batch.effect store))
    {initial : Store} (initially : inv initial) {schedule : List (Action Call)}
    (meets : (engine.system body).Meets (Checks check) (System.start initial) schedule) :
    inv ((engine.system body).run initial schedule).state := by
  let kept (store : Store) (_ : List (Entry Call (Labelled Label))) : Prop := inv store
  have sound := (engine.system body).sound_run kept (fun _ _ _ _ _ _ _ => True) initially ?_
    schedule (engine.distinct body _) meets
  · exact sound.holds
  · intro index call born state _ _ _
    refine System.Safe.of_performs ((performs call).mono ?_) (fun _ _ _ _ => trivial) ?_
    · rintro store ⟨_, held, _⟩
      exact held
    · intro committed payload store history after allowed held _ applied passes
      obtain ⟨accepts, rfl⟩ := engine.commitsBatches body _ _ _ applied
      exact keeps call payload store allowed held accepts passes

def striped (body : Call → StoreProgram Label Answer) :
    Locking Call Store (Labelled Label) Fault Answer Condition (Fin stripeCount) where
  system := Engine.pebble.system body
  checks payload := payload.batch.conditions
  passes condition store := condition.holds store
  effect payload store := payload.batch.effect store
  refusal := Engine.pebble.conflict
  locks payload := payload.batch.stripes
  apply_eq _ _ := rfl
  separate _ _ _ store listed apart := Batch.holds_effect_of_disjoint listed apart store

def Engine.run (engine : Engine) (body : Call → StoreProgram Label Answer) (initial : Store)
    (schedule : List (Action Call)) : World Call Store (Labelled Label) Fault Answer :=
  match engine with
  | memkv => (Engine.memkv.system body).run initial schedule
  | pebble => ((striped body).run initial schedule).core

/-- What a step does to the store: nothing, and then a commit that it ends is one that
reports a conflict while a condition does not hold; or it applies one batch, all of whose
conditions hold. -/
inductive CommitsWhole (engine : Engine)
    (before after : World Call Store (Labelled Label) Fault Answer) : Prop
  | unchanged (state : after.state = before.state) (history : after.history = before.history)
      (conflicts : ∀ (index : Nat) (thread : Thread Call Store (Labelled Label) Fault Answer)
        (payload : Labelled Label) (next : Result Unit → StoreProgram Label Answer),
        before.threads[index]? = some thread →
        thread.program = .commit payload next →
        after.threads[index]? = some thread ∨ ¬ payload.batch.Accepts before.state ∧
            after.threads[index]? = some { thread with program := next (.error engine.conflict) })
  | committed (index : Nat) (thread : Thread Call Store (Labelled Label) Fault Answer)
      (payload : Labelled Label)
      (next : Result Unit → StoreProgram Label Answer)
      (found : before.threads[index]? = some thread)
      (program : thread.program = .commit payload next)
      (accepts : payload.batch.Accepts before.state)
      (state : after.state = payload.batch.effect before.state)
      (history : after.history = ⟨index, thread.call, payload⟩ :: before.history)
      (threads : after.threads = before.threads.set index
        { thread with program := next (.ok ()), committed := payload :: thread.committed })

theorem commitsWhole_refl
    (world : World Call Store (Labelled Label) Fault Answer) : CommitsWhole engine world world :=
  .unchanged rfl rfl fun _ _ _ _ found _ => .inl found

theorem commitsWhole_step (body : Call → StoreProgram Label Answer)
    (world : World Call Store (Labelled Label) Fault Answer) (action : Action Call) :
    CommitsWhole engine world ((engine.system body).step world action) := by
  cases action with
  | spawn call =>
    refine .unchanged rfl rfl fun index thread _ _ found _ => .inl ?_
    exact getElem?_append_left (List.getElem?_eq_some_iff.mp found).1 ▸ found
  | act index =>
    simp only [System.step]
    cases found : world.threads[index]? with
    | none => exact commitsWhole_refl engine world
    | some thread =>
      simp only [System.stepThread]
      -- another thread's program stays where it is
      have other : ∀ {changed : Thread Call Store (Labelled Label) Fault Answer}
          {place : Nat} {thread : Thread Call Store (Labelled Label) Fault Answer},
          place ≠ index → world.threads[place]? = some thread →
          (world.threads.set index changed)[place]? = some thread := by
        intro changed place thread different placed
        rw [getElem?_set_ne different.symm, placed]
      split
      · exact commitsWhole_refl engine world
      · next next program =>
        refine .unchanged rfl rfl fun place same payload after placed attempts => .inl ?_
        apply other ?_ placed
        rintro rfl
        obtain rfl : thread = same := Option.some.inj (found.symm.trans placed)
        rw [program] at attempts
        cases attempts
      next payload next program =>
      split
      · next after applied =>
        simp only [Engine.system, Engine.commit] at applied
        split at applied
        · next holds =>
          cases applied
          exact .committed index thread payload next found program
            (all_eq_true.mp holds) rfl rfl rfl
        · cases applied
      next fault refused =>
      simp only [Engine.system, Engine.commit] at refused
      split at refused
      · cases refused
      next fails =>
      cases refused
      refine .unchanged rfl rfl fun place same other' after placed attempts => ?_
      by_cases isIndex : place = index
      · subst isIndex
        obtain rfl : thread = same := Option.some.inj (found.symm.trans placed)
        cases program.symm.trans attempts
        refine .inr ⟨fun accepts => fails (all_eq_true.mpr accepts), ?_⟩
        exact getElem?_set_self (List.getElem?_eq_some_iff.mp found).1
      · exact .inl (other isIndex placed)

theorem Engine.step_of_committing
    {world : World Call Store (Labelled Label) Fault Answer} {action : Action Call}
    {entry : Entry Call (Labelled Label)}
    (commits : entry ∈ (engine.system body).committing world action) :
    entry.batch.batch.Accepts world.state ∧
      ((engine.system body).step world action).state = entry.batch.batch.effect world.state ∧
      ((engine.system body).step world action).history = entry :: world.history := by
  cases action with
  | spawn call => cases commits
  | act index =>
    cases found : world.threads[index]? with
    | none => simp [System.committing, found] at commits
    | some thread =>
      cases program : thread.program with
      | ret answer => simp [System.committing, found, program, Program.attempted?] at commits
      | read next => simp [System.committing, found, program, Program.attempted?] at commits
      | commit payload next =>
        cases applied : (engine.system body).apply payload world.state with
        | error fault =>
          simp [System.committing, found, program, Program.attempted?, applied,
            Except.isOk, Except.toBool] at commits
        | ok after =>
          rw [System.committing_act found program applied] at commits
          obtain rfl : ⟨index, thread.call, payload⟩ = entry := Option.some.inj commits
          obtain ⟨accepts, isAfter⟩ := engine.commitsBatches body _ _ _ applied
          simp only [System.step, found, System.stepThread, program, applied]
          exact ⟨accepts, isAfter.symm, trivial⟩

end Runs

end Remem.Storage
