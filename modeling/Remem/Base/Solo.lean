import Remem.Base.Concurrent

/-!
# A program with the state to itself

What a program does where nothing runs beside it: whatever it observes is what it has made
of the state itself.
-/

namespace Remem.Base

/-- How a program ends that runs alone: its answer, the state, and the states that its
commits left on the way, in order. -/
structure Solo (State Answer : Type) where
  answer : Answer
  state : State
  left : List State := []

namespace Program

variable {State Batch Failure Answer Result : Type} (apply : Batch → State → Except Failure State)

def alone : Program State Batch Failure Answer → State → Solo State Answer
  | ret answer, state => ⟨answer, state, []⟩
  | read next, state => alone (next state) state
  | commit batch next, state =>
    match apply batch state with
    | .ok after =>
      let rest := alone (next (.ok ())) after
      { rest with left := after :: rest.left }
    | .error failure => alone (next (.error failure)) state

def Ends (program : Program State Batch Failure Answer) (state : State) (answer : Answer)
    (after : State) : Prop :=
  (program.alone apply state).answer = answer ∧ (program.alone apply state).state = after

variable {apply}

theorem ends_ret (answer : Answer) (state : State) :
    (ret answer : Program State Batch Failure Answer).Ends apply state answer state :=
  ⟨rfl, rfl⟩

variable {next : Result → Program State Batch Failure Answer} {state after : State}
  {answer : Answer}

theorem ends_observe_bind_iff {look : State → Result} :
    (observe look >>= next).Ends apply state answer after ↔
      (next (look state)).Ends apply state answer after :=
  Iff.rfl

theorem ends_attempt_bind_iff {batch : Batch}
    {next : Except Failure Unit → Program State Batch Failure Answer} :
    (attempt batch >>= next).Ends apply state answer after ↔ match apply batch state with
      | .ok between => (next (.ok ())).Ends apply between answer after
      | .error failure => (next (.error failure)).Ends apply state answer after := by
  change (commit batch next).Ends apply state answer after ↔ _
  unfold Ends
  rw [Program.alone]
  cases apply batch state <;> rfl

variable {between : State}

theorem ends_attempt_bind {batch : Batch}
    {next : Except Failure Unit → Program State Batch Failure Answer}
    (applied : apply batch state = .ok between)
    (ends : (next (.ok ())).Ends apply between answer after) :
    (attempt batch >>= next).Ends apply state answer after := by
  apply ends_attempt_bind_iff.mpr
  rw [applied]
  exact ends

variable {program : Program State Batch Failure Result}

theorem Ends.bind {middle : Result} (first : program.Ends apply state middle between)
    (rest : (next middle).Ends apply between answer after) :
    (program >>= next).Ends apply state answer after := by
  induction program generalizing state with
  | ret result =>
    obtain ⟨rfl, rfl⟩ := first
    exact rest
  | read look ih => exact ih state first
  | commit batch look ih =>
    change (attempt batch >>= fun outcome => look outcome >>= next).Ends apply state answer after
    apply ends_attempt_bind_iff.mpr
    have ends := ends_attempt_bind_iff.mp first
    cases applied : apply batch state with
    | ok between =>
      rw [applied] at ends
      exact ih (.ok ()) ends
    | error failure =>
      rw [applied] at ends
      exact ih (.error failure) ends

theorem Ends.of_bind {middle : Result} (first : program.Ends apply state middle between)
    (ends : (program >>= next).Ends apply state answer after) :
    (next middle).Ends apply between answer after := by
  have goesOn : (next middle).Ends apply between _ _ := ⟨rfl, rfl⟩
  have same := first.bind goesOn
  exact ⟨same.1.symm.trans ends.1, same.2.symm.trans ends.2⟩

theorem Ends.of_map {wrap : Result → Answer} (injective : Function.Injective wrap) {result : Result}
    (ends : (program >>= fun value => pure (wrap value)).Ends apply state (wrap result) after) :
    program.Ends apply state result after := by
  have first : program.Ends apply state _ _ := ⟨rfl, rfl⟩
  obtain ⟨same, left⟩ := first.of_bind ends
  exact ⟨injective same, left⟩

end Program

end Remem.Base
