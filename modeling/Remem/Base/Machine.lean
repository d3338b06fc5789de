import Mathlib.Data.List.Basic

/-!
# Machines that take one act at a time

What an act does to a state, where it can happen. A run is a list of acts; an act that
cannot happen leaves the state as it is.
-/

namespace Remem.Base

structure Machine (State Act : Type) where
  step : State → Act → Option State

namespace Machine

variable {State Act : Type} (machine : Machine State Act)

def next (state : State) (act : Act) : State := (machine.step state act).getD state

def run (state : State) (acts : List Act) : State := acts.foldl machine.next state

def Meets (check : State → Act → Prop) : State → List Act → Prop
  | _, [] => True
  | state, act :: rest => check state act ∧ Meets check (machine.next state act) rest

instance decidableMeets (check : State → Act → Prop) [∀ state act, Decidable (check state act)] :
    ∀ state acts, Decidable (machine.Meets check state acts)
  | _, [] => inferInstanceAs (Decidable True)
  | state, act :: rest =>
    have := decidableMeets check (machine.next state act) rest
    inferInstanceAs (Decidable (_ ∧ _))

variable {machine} {check : State → Act → Prop} {state : State} {acts : List Act}

variable {more : List Act} {holds : State → Prop} {act : Act}

@[simp]
theorem run_cons : machine.run state (act :: acts) =
    machine.run (machine.next state act) acts := rfl

theorem run_append : machine.run state (acts ++ more) =
    machine.run (machine.run state acts) more := List.foldl_append

theorem Meets.append (meets : machine.Meets check state (acts ++ more)) :
    machine.Meets check state acts ∧ machine.Meets check (machine.run state acts) more := by
  induction acts generalizing state with
  | nil => exact ⟨trivial, meets⟩
  | cons act rest ih =>
    obtain ⟨first, later⟩ := ih meets.2
    exact ⟨⟨meets.1, first⟩, later⟩

theorem next_keeps
    (keeps : ∀ after, machine.step state act = some after → holds after) (held : holds state) :
    holds (machine.next state act) := by
  unfold next
  cases stepped : machine.step state act with
  | none => exact held
  | some after => exact keeps after stepped

theorem run_keeps (keeps : ∀ {state act after}, holds state → check state act →
      machine.step state act = some after → holds after)
    (held : holds state) (meets : machine.Meets check state acts) :
    holds (machine.run state acts) := by
  induction acts generalizing state with
  | nil => exact held
  | cons act rest ih =>
    exact ih (next_keeps (fun _ => keeps held meets.1) held) meets.2

theorem run_invariant
    (keeps : ∀ {state act after}, holds state → machine.step state act = some after → holds after)
    (held : holds state) : holds (machine.run state acts) := by
  induction acts generalizing state with
  | nil => exact held
  | cons act rest ih =>
    exact ih (next_keeps (fun _ => keeps held) held)

/-- What holds after so many acts, where the acts are fewer than a limit. -/
theorem run_counts {limit taken : Nat} {holds : Nat → State → Prop}
    (later : ∀ {taken state}, holds taken state → holds (taken + 1) state)
    (keeps : ∀ {taken state act after}, taken + 1 < limit → holds taken state → check state act →
      machine.step state act = some after → holds (taken + 1) after)
    (held : holds taken state) (few : taken + acts.length < limit)
    (meets : machine.Meets check state acts) :
    holds (taken + acts.length) (machine.run state acts) := by
  induction acts generalizing state taken with
  | nil => exact held
  | cons act rest ih =>
    rw [List.length_cons, Nat.add_comm rest.length, ← Nat.add_assoc] at few ⊢
    have room : taken + 1 < limit := Nat.lt_of_le_of_lt (Nat.le_add_right _ _) few
    exact ih (next_keeps (fun _ => keeps room held meets.1) (later held)) few meets.2

end Machine

/-- A counter that has not come to its last value. -/
theorem toNat_succ {count : UInt64} (room : count.toNat + 1 < UInt64.size) :
    (count + 1).toNat = count.toNat + 1 := by
  rw [UInt64.toNat_add]
  exact Nat.mod_eq_of_lt room

end Remem.Base
