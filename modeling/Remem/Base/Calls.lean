import Mathlib.Data.List.Basic

/-!
# Calls in progress

A list of calls, of which one at a time goes on.
-/

namespace Remem.Base

variable {Call : Type*} {calls : List Call} {index : Nat} {call : Call}

theorem countP_set_of_getElem? (counts : Call → Bool) (found : calls[index]? = some call)
    (next : Call) : (calls.set index next).countP counts + (counts call).toNat =
      calls.countP counts + (counts next).toNat := by
  obtain ⟨within, rfl⟩ := List.getElem?_eq_some_iff.mp found
  rw [List.countP_set within]
  cases counted : counts calls[index] with
  | false =>
    cases counts next <;> simp
  | true =>
    have some := List.countP_pos_iff.mpr ⟨calls[index], List.getElem_mem within, counted⟩
    cases counts next <;> simp <;> omega

theorem exists_set_of_not {does : Call → Prop} (found : calls[index]? = some call)
    (not : ¬ does call) (next : Call)
    (present : ∃ (place : Nat) (other : Call), calls[place]? = some other ∧ does other) :
    ∃ (place : Nat) (other : Call), (calls.set index next)[place]? = some other ∧ does other := by
  obtain ⟨place, other, isOther, doing⟩ := present
  have apart : index ≠ place := by
    rintro rfl
    cases found.symm.trans isOther
    exact not doing
  exact ⟨place, other, (List.getElem?_set_ne apart).trans isOther, doing⟩

theorem getElem?_modify_eq_some {change : Call → Call} {place : Nat} {next : Call} :
    (calls.modify index change)[place]? = some next ↔ ∃ before, calls[place]? = some before ∧
      next = if index = place then change before else before := by
  rw [List.getElem?_modify]
  constructor
  · intro changed
    obtain ⟨before, isBefore, rfl⟩ := Option.map_eq_some_iff.mp changed
    exact ⟨before, isBefore, rfl⟩
  · rintro ⟨before, isBefore, rfl⟩
    rw [isBefore]
    rfl

end Remem.Base
