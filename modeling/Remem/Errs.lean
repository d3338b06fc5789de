import Remem.Base.ByteString

/-!
# Classified errors

An error of the source carries a kind, the operation that produced it and a
formatted text. The text is kept as its format and operands.
-/

namespace Remem

open Base

inductive Kind where
  | unclassified
  | notFound
  | conflict
  | invalid
  | unauthorized
  | forbidden
  | storage
  | corruption
  | unavailable
  | migrationRequired
  | incompatibleVersion
  | notLeader
  | transient
  | rateLimited
  deriving DecidableEq, Repr

inductive Operand where
  | number (value : Int)
  | bytes (value : Bytes)
  | word (value : String)
  deriving DecidableEq, Repr

/-- `errs.Error`: what `errs.E(kind, op, fmt.Errorf(format, operands...))` makes. -/
structure Fault where
  kind : Kind
  op : String
  format : String
  operands : List Operand := []
  deriving DecidableEq, Repr

abbrev Result (Value : Type*) := Except Fault Value

/-- `errs.E(errs.KindOf(err), op, err)`: the kind stays, the operation is the outer one. -/
def Fault.within (op : String) (fault : Fault) : Fault := { fault with op }

def Result.lift {Value : Type} {M : Type → Type} [Monad M] [MonadExcept Fault M] :
    Result Value → M Value
  | .ok value => pure value
  | .error fault => throw fault

def Result.within {Value : Type*} (op : String) : Result Value → Result Value
  | .ok value => .ok value
  | .error fault => .error (fault.within op)

namespace Result

variable {Value Other : Type}

theorem ok_of_bind {first : Result Value} {next : Value → Result Other} {other : Other}
    (passed : (first >>= next) = .ok other) :
    ∃ value, first = .ok value ∧ next value = .ok other := by
  cases first with
  | error fault => cases passed
  | ok value => exact ⟨value, rfl, passed⟩

theorem ok_of_forM {check : Value → Result Unit} {values : List Value}
    (passed : values.forM check = .ok ()) {value : Value} (listed : value ∈ values) :
    check value = .ok () := by
  induction values with
  | nil => cases listed
  | cons first rest ih =>
    obtain ⟨_, head, tail⟩ := ok_of_bind passed
    rcases List.mem_cons.mp listed with rfl | later
    · exact head
    · exact ih tail later

end Result

end Remem
