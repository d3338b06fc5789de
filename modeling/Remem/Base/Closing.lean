import Remem.Base.Concurrent

/-!
# Programs that end with a commit
-/

namespace Remem.Base

open List

variable {Call State Batch Failure Answer Result : Type}

namespace Program

/-- A program that ends where a batch of its own is committed, with an answer that fits the
batch. -/
def Closes (fits : Batch → Answer → Prop) : Program State Batch Failure Answer → Prop
  | ret _ => True
  | read next => ∀ state, Closes fits (next state)
  | commit batch next =>
    (∃ answer, next (.ok ()) = ret answer ∧ fits batch answer) ∧
      ∀ failure, Closes fits (next (.error failure))

variable {after : Batch → Result → Prop} {program : Program State Batch Failure Answer}
  {continuation : Answer → Program State Batch Failure Result}

theorem Closes.bind {fits : Batch → Answer → Prop} (closes : program.Closes fits)
    (ends : ∀ batch answer, fits batch answer → ∃ result, continuation answer = ret result ∧ after
      batch result)
    (continues : ∀ answer, (continuation answer).Closes after) :
    (program >>= continuation).Closes after := by
  induction program with
  | ret answer => exact continues answer
  | read next ih => exact fun state => ih state (closes state)
  | commit batch next ih =>
    obtain ⟨⟨answer, isEnd, isFit⟩, fails⟩ := closes
    refine ⟨?_, fun failure => ih _ (fails failure)⟩
    obtain ⟨result, isResult, isAfter⟩ := ends batch answer isFit
    refine ⟨result, ?_, isAfter⟩
    change (next (.ok ()) >>= continuation) = ret result
    rw [isEnd]
    exact isResult

theorem Closes.of_observes {post : Answer → Prop} (observes : program.Observes (fun _ => True) post)
    (continues : ∀ answer, post answer → (continuation answer).Closes after) :
    (program >>= continuation).Closes after := by
  induction program with
  | ret answer => exact continues answer observes
  | read next ih =>
    exact fun state => ih state (observes state trivial)
  | commit batch next _ => exact False.elim observes

end Program

namespace System

variable {system : System Call State Batch Failure Answer}

/-- What a call that ends with its commits has done in a world. -/
structure Closed (call : Call) (fits : Batch → Answer → Prop)
    (world : World Call State Batch Failure Answer) : Prop where
  closes : ∀ (index : Nat) (thread : Thread Call State Batch Failure Answer),
    world.threads[index]? = some thread → thread.call = call → thread.program.Closes fits
  ended : ∀ entry ∈ world.history, entry.call = call →
    ∃ (thread : Thread Call State Batch Failure Answer) (answer : Answer),
    world.threads[entry.thread]? = some thread ∧ thread.call = call ∧
      thread.program = .ret answer ∧ fits entry.batch answer

variable {call : Call} {fits : Batch → Answer → Prop}
  {world : World Call State Batch Failure Answer}

theorem Closed.quiet (closed : Closed call fits world) {index : Nat}
    {thread : Thread Call State Batch Failure Answer} (found : world.threads[index]? = some thread)
    (unended : ∀ answer, thread.program ≠ .ret answer)
    (changed : Thread Call State Batch Failure Answer) (sameCall : changed.call = thread.call)
    (closes : thread.call = call → changed.program.Closes fits) (state : State) :
    Closed call fits { world with state, threads := world.threads.set index changed } where
  closes other found' otherFound isCall := by
    rcases getElem?_set_cases otherFound with ⟨rfl, rfl⟩ | ⟨_, unchanged⟩
    · exact closes (sameCall.symm.trans isCall)
    · exact closed.closes other found' unchanged isCall
  ended entry listed isCall := by
    obtain ⟨owner, answer, owns, ownCall, isEnd, isFit⟩ := closed.ended entry listed isCall
    refine ⟨owner, answer, ?_, ownCall, isEnd, isFit⟩
    rw [getElem?_set_ne, owns]
    rintro rfl
    cases found.symm.trans owns
    exact unended answer isEnd

theorem Closed.step (body : (system.body call).Closes fits) (closed : Closed call fits world)
    (action : Action Call) : Closed call fits (system.step world action) := by
  cases action with
  | spawn spawned =>
    constructor
    · intro index thread found isCall
      rcases mem_append.mp (mem_of_getElem? found) with old | new
      · obtain ⟨place, inside, isThread⟩ := getElem_of_mem old
        exact closed.closes place thread (List.getElem?_eq_some_iff.mpr ⟨inside, isThread⟩) isCall
      cases mem_singleton.mp new
      obtain rfl : spawned = call := isCall
      exact body
    · intro entry listed isCall
      obtain ⟨owner, answer, owns, rest⟩ := closed.ended entry listed isCall
      refine ⟨owner, answer, ?_, rest⟩
      rw [System.step, getElem?_append_left (List.getElem?_eq_some_iff.mp owns).1, owns]
  | act index =>
    cases found : world.threads[index]? with
    | none => simpa only [System.step, found] using closed
    | some thread =>
      simp only [System.step, found]
      have closes := closed.closes index thread found
      cases program : thread.program with
      | ret answer => simpa only [stepThread, program] using closed
      | read next =>
        simp only [stepThread, program]
        rw [program] at closes
        exact closed.quiet found (by simp [program])
          { thread with program := next world.state } rfl (fun isCall => closes isCall _) _
      | commit batch next =>
        rw [program] at closes
        simp only [stepThread, program]
        cases applied : system.apply batch world.state with
        | error failure =>
          exact closed.quiet found (by simp [program])
            { thread with program := next (.error failure) } rfl
            (fun isCall => (closes isCall).2 failure) _
        | ok state =>
          let changed : Thread Call State Batch Failure Answer :=
            { thread with
              program := next (.ok ())
              committed := batch :: thread.committed }
          have ends : thread.call = call → changed.program.Closes fits := by
            intro isCall
            obtain ⟨answer, isEnd, _⟩ := (closes isCall).1
            change (next (.ok ())).Closes fits
            rw [isEnd]
            trivial
          have quiet := closed.quiet found (by simp [program]) changed rfl ends state
          refine ⟨quiet.closes, fun entry listed isCall => ?_⟩
          rcases mem_cons.mp listed with rfl | earlier
          · obtain ⟨answer, isEnd, isFit⟩ := (closes isCall).1
            exact ⟨_, answer, getElem?_set_self (List.getElem?_eq_some_iff.mp found).1,
              isCall, isEnd, isFit⟩
          · exact quiet.ended entry earlier isCall

theorem closed_run (body : (system.body call).Closes fits) (initial : State)
    (schedule : List (Action Call)) : Closed call fits (system.run initial schedule) := by
  induction schedule using List.reverseRecOn with
  | nil => exact ⟨by simp [start], by simp [start]⟩
  | append_singleton schedule action ih =>
    rw [run_append_singleton]
    exact ih.step body action

end System

end Remem.Base
