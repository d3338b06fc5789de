import Remem.Storage.Workload

/-!
# Retried transactions

`txn.Do` runs a body on a new transaction and commits it, and runs it again when it met
a concurrent write, a bounded number of times.
-/

namespace Remem.Storage

open Base

variable {Label Value Memory : Type}

def maxAttempts : Nat := 8

/-- `attempt`. The label says what a committed batch is about. -/
def attempt (label : Value → Label) (body : TxM Label Value) :
    StoreProgram Label (Result Value) := do
  let (result, batch) ← body {}
  match result with
  | .error fault => return .error fault
  | .ok value =>
    match ← Program.attempt ⟨batch, label value⟩ with
    | .error fault => return .error fault
    | .ok () => return .ok value

/-- The loop of `Do`, with what the body remembers from one attempt to the next.
`cancelled` says after which attempts the context is found done. -/
def retry (run : Memory → StoreProgram Label (Result Value × Memory)) (cancelled : Nat → Bool) :
    (left : Nat) → Memory → StoreProgram Label (Result Value × Memory)
  | 0, memory =>
    return (.error ⟨.conflict, "txn.Do", "this write met a concurrent one %d times running: %w",
      [.number maxAttempts]⟩, memory)
  | left + 1, memory => do
      let (result, memory) ← run memory
      match result with
      | .ok value => return (.ok value, memory)
      | .error fault =>
        if fault.kind ≠ .conflict then return (.error fault, memory)
        else if cancelled (maxAttempts - (left + 1)) then
          return (.error ⟨.unavailable, "txn.Do", "%w", []⟩, memory)
        else retry run cancelled left memory

/-- `Do`, of a body that starts anew with every attempt. -/
def perform (label : Value → Label) (cancelled : Nat → Bool) (body : TxM Label Value) :
    StoreProgram Label (Result Value) := do
  let (result, _) ← retry (fun () => do
      let result ← attempt label body
      return (result, ())) cancelled maxAttempts ()
  return result

variable {holds : Store → Prop} {refusal : Fault → Prop}

variable {may : List (Labelled Label) → Labelled Label → Prop} {label : Value → Label}
  {body : TxM Label Value}

theorem performs_attempt {committed : List (Labelled Label)}
    (stages : Triple holds (· = {}) body fun result batch => ∀ value, result = .ok value → may
      committed ⟨batch, label value⟩) :
    (attempt label body).Performs holds refusal may (fun _ _ => True) committed := by
  refine ((stages {} rfl).performs committed).bind ?_
  rintro ⟨result, batch⟩ _ ⟨allowed, rfl⟩
  cases result with
  | error fault => trivial
  | ok value =>
    refine Program.performs_attempt_bind (allowed value rfl) trivial ?_
    exact fun _ _ => trivial

/-- What every attempt keeps, the loop keeps; and it answers with what an attempt has answered. -/
theorem performs_retry_answers (kept : Memory → List (Labelled Label) → Prop)
    (answers : Value → List (Labelled Label) → Prop)
    {run : Memory → StoreProgram Label (Result Value × Memory)} {cancelled : Nat → Bool}
    (attempts : ∀ memory committed, kept memory committed → (run memory).Performs holds refusal may
      (fun outcome committed => kept outcome.2 committed ∧
        ∀ value, outcome.1 = .ok value → answers value committed) committed)
    (left : Nat) (memory : Memory) (committed : List (Labelled Label))
    (held : kept memory committed) :
    (retry run cancelled left memory).Performs holds refusal may
      (fun outcome committed => kept outcome.2 committed ∧
        ∀ value, outcome.1 = .ok value → answers value committed) committed := by
  induction left generalizing memory committed with
  | zero => exact ⟨held, nofun⟩
  | succ left ih =>
    refine (attempts memory committed held).bind ?_
    rintro ⟨result, memory⟩ committed ⟨held, answered⟩
    cases result with
    | ok value => exact ⟨held, answered⟩
    | error fault =>
      dsimp only
      split
      · exact ⟨held, nofun⟩
      split
      · exact ⟨held, nofun⟩
      · exact ih memory committed held

theorem performs_retry (kept : Memory → List (Labelled Label) → Prop)
    {run : Memory → StoreProgram Label (Result Value × Memory)} {cancelled : Nat → Bool}
    (attempts : ∀ memory committed, kept memory committed → (run memory).Performs holds refusal may
      (fun outcome => kept outcome.2) committed)
    (left : Nat) (memory : Memory) (committed : List (Labelled Label))
    (held : kept memory committed) :
    (retry run cancelled left memory).Performs holds refusal may
      (fun outcome => kept outcome.2) committed := by
  refine (performs_retry_answers kept (fun _ _ => True) ?_ left memory committed held).imp
    fun _ _ kept => kept.1
  intro memory committed held
  exact (attempts memory committed held).imp fun _ _ kept => ⟨kept, fun _ _ => trivial⟩

theorem performs_perform {may : Labelled Label → Prop} (cancelled : Nat → Bool)
    (stages : Triple holds (· = {}) body fun result batch => ∀ value, result = .ok value → may
      ⟨batch, label value⟩)
    (committed : List (Labelled Label)) :
    (perform label cancelled body).Performs holds refusal (fun _ => may) (fun _ _ => True)
      committed := by
  refine Program.Performs.bind (performs_retry (fun _ _ => True) ?_ _ _ _ trivial) ?_
  · intro _ committed _
    exact (performs_attempt stages).bind fun _ _ _ => trivial
  · exact fun _ _ _ => trivial

end Remem.Storage
