import Remem.Base.Concurrent

/-!
# What programs attempt in every schedule

A program attempts certain batches whatever it observes. In every schedule, then, what is
committed are such batches, each at a state that let it through.
-/

namespace Remem.Base

open List

theorem Program.performs_trivially {State Batch Failure Answer : Type} {holds : State → Prop}
    {refusal : Failure → Prop} (program : Program State Batch Failure Answer)
    (committed : List Batch) :
    program.Performs holds refusal (fun _ _ => True) (fun _ _ => True) committed := by
  induction program generalizing committed with
  | ret answer => exact trivial
  | read next ih => exact fun state _ => ih state committed
  | commit batch next ih =>
    exact ⟨trivial, ih _ _, fun failure _ => ih _ _⟩

namespace System

open Program

variable {Call State Batch Failure Answer : Type}
  {system : System Call State Batch Failure Answer} {may : Call → List Batch → Batch → Prop}
  {post : Call → Answer → List Batch → Prop}

def Performing (may : Call → List Batch → Batch → Prop) (post : Call → Answer → List Batch → Prop)
    (world : World Call State Batch Failure Answer) : Prop :=
  ∀ thread ∈ world.threads, thread.program.Performs (fun _ => True) (fun _ => True)
    (may thread.call) (post thread.call) thread.committed

variable {world : World Call State Batch Failure Answer}

theorem Performing.step
    (bodies : ∀ call, (system.body call).Performs (fun _ => True) (fun _ => True) (may call) (post
      call) [])
    (performing : Performing may post world) (action : Action Call) :
    Performing may post (system.step world action) := by
  cases action with
  | spawn call =>
    intro thread listed
    rcases mem_append.mp listed with old | new
    · exact performing thread old
    · rw [mem_singleton.mp new]
      exact bodies call
  | act index =>
    unfold System.step
    dsimp only
    split
    · exact performing
    next thread found =>
    have performs := performing thread (mem_of_getElem? found)
    unfold System.stepThread
    split
    · exact performing
    · next next isRead =>
      rw [isRead] at performs
      intro other listed
      rcases mem_or_eq_of_mem_set listed with old | rfl
      · exact performing other old
      · exact performs world.state trivial
    next batch next isCommit =>
    rw [isCommit] at performs
    obtain ⟨_, succeeds, fails⟩ := performs
    split
    · intro other listed
      rcases mem_or_eq_of_mem_set listed with old | rfl
      · exact performing other old
      · exact succeeds
    next failure _ =>
    intro other listed
    rcases mem_or_eq_of_mem_set listed with old | rfl
    · exact performing other old
    · exact fails failure trivial

theorem performing_run
    (bodies : ∀ call, (system.body call).Performs (fun _ => True) (fun _ => True) (may call)
      (post call) []) (initial : State) (schedule : List (Action Call)) :
    Performing may post (system.run initial schedule) := by
  induction schedule using List.reverseRecOn with
  | nil => exact nofun
  | append_singleton schedule action ih =>
    rw [run_append_singleton]
    exact ih.step bodies action

theorem Performing.committing (performing : Performing may post world) {action : Action Call}
    {entry : Entry Call Batch} (commits : system.committing world action = some entry) :
    ∃ committed after, may entry.call committed entry.batch ∧
      system.apply entry.batch world.state = .ok after := by
  cases action with
  | spawn call => cases commits
  | act index =>
    obtain ⟨thread, found, rest⟩ := Option.bind_eq_some_iff.mp commits
    obtain ⟨batch, attempts, passes⟩ := Option.bind_eq_some_iff.mp rest
    have performs := performing thread (mem_of_getElem? found)
    cases program : thread.program with
    | ret answer =>
      rw [program] at attempts
      cases attempts
    | read next =>
      rw [program] at attempts
      cases attempts
    | commit attempted next =>
      rw [program] at attempts performs
      cases attempts
      cases applied : system.apply batch world.state with
      | error failure =>
        rw [applied] at passes
        cases passes
      | ok after =>
        rw [applied] at passes
        cases passes
        exact ⟨thread.committed, after, performs.1, applied⟩

theorem Performing.answered (performing : Performing may post world)
    {thread : Thread Call State Batch Failure Answer} (listed : thread ∈ world.threads)
    {answer : Answer} (finished : thread.program = .ret answer) :
    post thread.call answer thread.committed := by
  have performs := performing thread listed
  rw [finished] at performs
  exact performs

end System

end Remem.Base
