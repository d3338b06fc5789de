import Remem.Base.Closing
import Remem.Storage.Do
import Remem.Storage.Frame

/-!
# Programs whose commits are of one kind
-/

namespace Remem.Storage

open Base

def Keeping {Label Answer : Type} (fits : Labelled Label → Prop)
    (program : StoreProgram Label Answer) : Prop :=
  ∀ committed, program.Performs (fun _ => True) (fun _ => True) (fun _ => fits)
    (fun _ _ => True) committed

namespace Keeping

variable {Label Answer Other Value : Type} {fits : Labelled Label → Prop}

theorem pure (answer : Answer) : Keeping fits (Pure.pure answer : StoreProgram Label Answer) :=
  fun _ => trivial

variable {program : StoreProgram Label Answer}

theorem bind {continuation : Answer → StoreProgram Label Other} (first : Keeping fits program)
    (next : ∀ answer, Keeping fits (continuation answer)) :
    Keeping fits (program >>= continuation) :=
  fun committed => (first committed).bind fun answer committed _ => next answer committed

theorem observe (look : Store → Answer) :
    Keeping fits (Program.observe look : StoreProgram Label Answer) :=
  fun _ _ _ => trivial

variable {body : TxM Label Value}

theorem perform {label : Value → Label} (cancelled : Nat → Bool)
    (stages : Triple (fun _ => True) (· = {}) body fun result batch => ∀ value, result = .ok value
      → fits ⟨batch, label value⟩) : Keeping fits (Storage.perform label cancelled body) :=
  performs_perform cancelled stages

theorem works {check : Labelled Label → Store → Prop} {inv : Store → List Label → Prop}
    {others : Labelled Label → Prop} (keeping : Keeping fits program)
    (keeps : ∀ payload store done, fits payload → inv store done → payload.batch.Accepts store →
      check payload store → inv (payload.batch.effect store) (payload.label :: done))
    (seen : Store) (past : List Label) :
    Works check inv others fits (fun _ _ _ => True) program seen past := by
  replace keeping := keeping []
  generalize ([] : List (Labelled Label)) = committed at keeping
  induction program generalizing seen past committed with
  | ret answer => trivial
  | read next ih =>
    intro store done _ _
    exact ih store store done committed (keeping store trivial)
  | commit payload next ih =>
    obtain ⟨allowed, succeeds, fails⟩ := keeping
    refine ⟨allowed, fun store done held _ => ⟨fun accepts passes => ?_, fun fault => ?_⟩⟩
    · exact ⟨keeps payload store done allowed held accepts passes, ih _ _ _ _ succeeds⟩
    · exact ih _ _ _ _ (fails fault trivial)

end Keeping

section Closes

variable {Label Value Memory : Type} {label : Value → Label} {body : TxM Label Value}
  {done : Value → Prop}

def Answers (label : Value → Label) (done : Value → Prop) (payload : Labelled Label)
    (result : Result Value) : Prop :=
  ∃ value, result = .ok value ∧ payload.label = label value ∧ done value

theorem closes_attempt (stages : Triple (fun _ => True) (· = {}) body fun result _ =>
      ∀ value, result = .ok value → done value) :
    (Storage.attempt label body).Closes (Answers label done) := by
  refine Program.Closes.of_observes (stages {} rfl) ?_
  rintro ⟨result, batch⟩ isDone
  cases result with
  | error fault => trivial
  | ok value => exact ⟨⟨.ok value, rfl, value, rfl, rfl, isDone value rfl⟩, fun _ => trivial⟩

theorem closes_retry {fits : Labelled Label → Value → Prop}
    {run : Memory → StoreProgram Label (Result Value × Memory)} {cancelled : Nat → Bool}
    (closes : ∀ memory, (run memory).Closes fun payload outcome =>
      ∃ value, outcome.1 = .ok value ∧ fits payload value) (left : Nat) (memory : Memory) :
    (Storage.retry run cancelled left memory).Closes fun payload outcome =>
      ∃ value, outcome.1 = .ok value ∧ fits payload value := by
  induction left generalizing memory with
  | zero => trivial
  | succ left ih =>
    refine (closes memory).bind ?_ ?_
    · rintro payload ⟨_, memory⟩ ⟨value, rfl, isFit⟩
      exact ⟨(.ok value, memory), rfl, value, rfl, isFit⟩
    rintro ⟨result, memory⟩
    cases result with
    | ok value => trivial
    | error fault =>
      dsimp only
      split
      · trivial
      split
      · trivial
      · exact ih memory

theorem closes_perform (cancelled : Nat → Bool)
    (stages : Triple (fun _ => True) (· = {}) body fun result _ =>
      ∀ value, result = .ok value → done value) :
    (Storage.perform label cancelled body).Closes (Answers label done) := by
  have attempts : ∀ memory : Unit, (do
      let result ← Storage.attempt label body
      return (result, memory) : StoreProgram Label (Result Value × Unit)).Closes
      fun payload outcome => ∃ value, outcome.1 = .ok value ∧
        (payload.label = label value ∧ done value) := by
    intro memory
    refine (closes_attempt stages).bind ?_ fun _ => trivial
    rintro payload _ ⟨value, rfl, isLabel, isDone⟩
    exact ⟨_, rfl, value, rfl, isLabel, isDone⟩
  refine (closes_retry attempts maxAttempts ()).bind ?_ fun _ => trivial
  rintro payload ⟨_, _⟩ ⟨value, rfl, isFit⟩
  exact ⟨_, rfl, value, rfl, isFit⟩

end Closes

end Remem.Storage
