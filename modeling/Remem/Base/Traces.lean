import Remem.Base.Solo

/-!
# What a program does among others

One run of a program: the states it observed and what became of the batches it attempted,
in order. Nothing is said of where the states come from, so that a fact about every run
holds whatever runs beside the program.
-/

namespace Remem.Base

inductive Moment (State Batch Failure : Type) where
  | observed (state : State)
  | committed (batch : Batch)
  | refused (batch : Batch) (failure : Failure)

namespace Program

variable {State Batch Failure Answer Result : Type}

/-- The program can take these steps and then answers so. -/
inductive Runs : Program State Batch Failure Answer → List (Moment State Batch Failure) →
    Answer → Prop where
  | ret (answer : Answer) : Runs (ret answer) [] answer
  | read {next moments answer} (state : State) : Runs (next state) moments answer →
      Runs (read next) (.observed state :: moments) answer
  | committed {batch next moments answer} : Runs (next (.ok ())) moments answer →
      Runs (commit batch next) (.committed batch :: moments) answer
  | refused {batch next moments answer} (failure : Failure) :
      Runs (next (.error failure)) moments answer →
      Runs (commit batch next) (.refused batch failure :: moments) answer

variable {moments : List (Moment State Batch Failure)}

theorem runs_ret_iff {given answer : Answer} :
    Runs (ret given : Program State Batch Failure Answer) moments answer ↔
      moments = [] ∧ answer = given := by
  constructor
  · rintro ⟨⟩
    exact ⟨rfl, rfl⟩
  · rintro ⟨rfl, rfl⟩
    exact .ret _

theorem not_mem_of_runs_ret {given answer : Answer} {moment : Moment State Batch Failure}
    (runs : Runs (ret given) moments answer) : moment ∉ moments := by
  rw [(runs_ret_iff.mp runs).1]
  exact List.not_mem_nil

theorem Runs.observe_bind {Seen : Type} {look : State → Seen}
    {continuation : Seen → Program State Batch Failure Answer} {answer : Answer}
    (runs : (observe look >>= continuation).Runs moments answer) :
    ∃ state rest, moments = .observed state :: rest ∧
      (continuation (look state)).Runs rest answer := by
  cases runs with
  | read state rest => exact ⟨state, _, rfl, rest⟩

theorem Runs.attempt_bind {batch : Batch}
    {continuation : Except Failure Unit → Program State Batch Failure Answer} {answer : Answer}
    (runs : (attempt batch >>= continuation).Runs moments answer) :
    (∃ rest, moments = .committed batch :: rest ∧ (continuation (.ok ())).Runs rest answer) ∨
      ∃ failure rest, moments = .refused batch failure :: rest ∧
        (continuation (.error failure)).Runs rest answer := by
  cases runs with
  | committed rest => exact .inl ⟨_, rfl, rest⟩
  | refused failure rest => exact .inr ⟨failure, _, rfl, rest⟩

theorem Runs.of_bind {program : Program State Batch Failure Answer}
    {continuation : Answer → Program State Batch Failure Result} {result : Result}
    (runs : (program >>= continuation).Runs moments result) :
    ∃ answer early late, moments = early ++ late ∧ program.Runs early answer ∧
      (continuation answer).Runs late result := by
  induction program generalizing moments with
  | ret answer => exact ⟨answer, [], moments, rfl, .ret answer, runs⟩
  | read next ih =>
    cases runs with
    | read state rest =>
      obtain ⟨answer, early, late, rfl, first, second⟩ := ih state rest
      exact ⟨answer, .observed state :: early, late, rfl, .read state first, second⟩
  | commit batch next ih =>
    cases runs with
    | committed rest =>
      obtain ⟨answer, early, late, rfl, first, second⟩ := ih _ rest
      exact ⟨answer, .committed batch :: early, late, rfl, .committed first, second⟩
    | refused failure rest =>
      obtain ⟨answer, early, late, rfl, first, second⟩ := ih _ rest
      exact ⟨answer, .refused batch failure :: early, late, rfl, .refused failure first, second⟩

def trace (apply : Batch → State → Except Failure State) :
    Program State Batch Failure Answer → State → List (Moment State Batch Failure)
  | ret _, _ => []
  | read next, state => .observed state :: trace apply (next state) state
  | commit batch next, state =>
    match apply batch state with
    | .ok after => .committed batch :: trace apply (next (.ok ())) after
    | .error failure => .refused batch failure :: trace apply (next (.error failure)) state

theorem runs_alone (apply : Batch → State → Except Failure State)
    (program : Program State Batch Failure Answer) (state : State) :
    program.Runs (program.trace apply state) (program.alone apply state).answer := by
  induction program generalizing state with
  | ret answer => exact .ret answer
  | read next ih => exact .read state (ih state state)
  | commit batch next ih =>
    unfold Program.alone trace
    cases apply batch state with
    | ok after => exact .committed (ih _ after)
    | error failure => exact .refused failure (ih _ state)

end Program

end Remem.Base
