import Remem.Storage.Works

/-!
# Transactions beside a job

A long-running job works through several observations and commits while
transactions go on beside it.
-/

namespace Remem.Storage

open Base Relation

variable {Operation Value Label Job Outcome : Type}

inductive Call (Operation Job : Type) where
  | transact (operations : List Operation)
  | job (job : Job)

def Call.isJob : Call Operation Job → Bool
  | transact _ => false
  | job _ => true

inductive Answer (Operation Value Outcome : Type) where
  | transacted (done : List (Operation × Result Value)) (outcome : Result Unit)
  | finished (outcome : Outcome)

/-- What the operations of the transactions do, how a batch of them is labelled, and what
the job does. -/
structure Workload (Operation Value Label Job Outcome : Type) where
  perform : Operation → TxM Label Value
  label : List (Operation × Result Value) → Label
  work : Job → StoreProgram Label Outcome

namespace Workload

variable (workload : Workload Operation Value Label Job Outcome)

def body : Call Operation Job → StoreProgram Label (Answer Operation Value Outcome)
  | .transact operations => do
      let (done, batch) ← runAll workload.perform operations [] {}
      let outcome ← Program.attempt ⟨batch, workload.label done⟩
      return .transacted done outcome
  | .job job => do
      let outcome ← workload.work job
      return .finished outcome

/-- Any number of transactions and at most one run of the job. -/
def system : System (Call Operation Job) Store (Labelled Label) Fault
    (Answer Operation Value Outcome) where
  apply payload store := payload.batch.commit store
  body := workload.body
  legal _ := True
  distinct first second := first.isJob = false ∨ second.isJob = false
  distinct_symm _ _ := Or.symm

/-- The job that a thread ran to its end, and what came of it. -/
def finished (world : World (Call Operation Job) Store (Labelled Label) Fault
    (Answer Operation Value Outcome)) (index : Nat) : Option (Job × Outcome) := do
  let thread ← world.threads[index]?
  match thread.call, ← thread.program.answer? with
  | .job job, .finished outcome => some (job, outcome)
  | _, _ => none

theorem finished_eq_some {world : World (Call Operation Job) Store (Labelled Label) Fault
    (Answer Operation Value Outcome)} {index : Nat} {job : Job} {outcome : Outcome}
    (isFinished : finished world index = some (job, outcome)) :
    ∃ thread, world.threads[index]? = some thread ∧ thread.call = .job job ∧
      thread.program = .ret (.finished outcome) := by
  simp only [finished, Option.bind_eq_bind, Option.bind_eq_some_iff] at isFinished
  obtain ⟨thread, found, answer, answered, isJob⟩ := isFinished
  refine ⟨thread, found, ?_⟩
  rw [← Program.answer?_eq_some_iff, answered]
  split at isJob
  · next isCall =>
    cases isJob
    exact ⟨isCall, rfl⟩
  · cases isJob

variable (check : Labelled Label → Store → Prop) (inv : Store → List Label → Prop)
  (kept : List (Operation × Result Value) → Batch → Prop)

/-- Every operation keeps a property of the batch staged so far, and a batch with that
property keeps the invariant of the store. -/
structure Keeps : Prop where
  empty : kept [] {}
  operations : ∀ operation done,
    Triple (fun store => ∃ past, inv store past) (kept done) (workload.perform operation)
      fun result batch => kept (done ++ [(operation, result)]) batch
  commits : ∀ done batch store past, kept done batch → inv store past → batch.Accepts store →
    check ⟨batch, workload.label done⟩ store →
    inv (batch.effect store) (workload.label done :: past)

def Transacted (payload : Labelled Label) : Prop :=
  ∃ done, kept done payload.batch ∧ payload.label = workload.label done

def Commits : Call Operation Job → Labelled Label → Prop
  | .transact _, payload => workload.Transacted kept payload
  | .job _, _ => True

variable {workload check inv kept}

theorem works_transact {post : Answer Operation Value Outcome → Store → List Label → Prop}
    (keeps : workload.Keeps check inv kept) (operations : List Operation)
    {others : Labelled Label → Prop}
    (ends : ∀ done outcome seen past, post (.transacted done outcome) seen past)
    (seen : Store) (past : List Label) :
    Works check inv others (workload.Transacted kept) post
      (workload.body (.transact operations)) seen past := by
  refine (works_of_observes (observes_runAll keeps.operations operations [] {} keeps.empty)
    seen past).bind ?_
  rintro ⟨done, batch⟩ seen past ⟨staged, _⟩
  refine works_attempt_bind ⟨done, staged, rfl⟩ ?_ fun _ _ _ _ _ => ends _ _ _ _
  intro store past held _ accepts passes
  exact ⟨keeps.commits done batch store past staged held accepts passes, ends _ _ _ _⟩

/-- In every run whose commits pass the check, the invariant holds, and what a job that has
finished promises was so at its end and has been moved by transactions only since. -/
theorem run_of_works (keeps : workload.Keeps check inv kept)
    {post : Job → Outcome → Store → List Label → Prop}
    (works : ∀ job seen past, inv seen past →
      Works check inv (workload.Transacted kept) (fun _ => True) (post job)
        (workload.work job) seen past)
    {initial : Store} (initially : inv initial [])
    {schedule : List (Action (Call Operation Job))}
    (distinct : workload.system.Distinct (workload.system.run initial schedule))
    (meets : workload.system.Meets (Checks check) (System.start initial) schedule) :
    let world := workload.system.run initial schedule
    inv world.state (labels world.history) ∧
      ∀ index job outcome, finished world index = some (job, outcome) →
        ∃ seen past, ReflTransGen (Moves check inv (workload.Transacted kept)) (seen, past)
            (world.state, labels world.history) ∧
          post job outcome seen past := by
  intro world
  have applies : CommitsBatches workload.system :=
    fun _ _ _ applied => Batch.commit_eq_ok_iff.mp applied
  have transacted : ∀ job payload,
      Others workload.system (workload.Commits kept) (.job job) payload →
      workload.Transacted kept payload := by
    rintro job payload ⟨other, apart, commits⟩
    cases other with
    | transact operations => exact commits
    | job other => cases apart.resolve_right Bool.noConfusion
  have ran := Storage.run_of_works applies (workload.Commits kept)
    (fun call answer seen past => ∀ job outcome, call = .job job →
      answer = .finished outcome → post job outcome seen past) ?_ initially distinct meets
  · refine ⟨ran.1, ?_⟩
    intro index job outcome isFinished
    obtain ⟨thread, found, isJob, isEnded⟩ := finished_eq_some isFinished
    obtain ⟨seen, past, moved, promised⟩ := ran.2 index thread _ found isEnded
    rw [isJob] at moved
    exact ⟨seen, past, moved_mono (transacted job) moved, promised job outcome isJob rfl⟩
  · intro call seen past held _
    cases call with
    | transact operations =>
      apply works_transact keeps
      intro done outcome seen past job other isJob
      cases isJob
    | job job =>
      refine ((works job seen past held).mono (transacted job)).bind ?_
      rintro outcome seen past promised _ _ ⟨⟩ ⟨⟩
      exact promised

end Workload

end Remem.Storage
