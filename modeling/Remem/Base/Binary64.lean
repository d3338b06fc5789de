import Mathlib

/-!
# Double-precision numbers as bit patterns

The comparisons of the numbers that 64-bit patterns stand for.
-/

namespace Remem.Base.Binary64

def magnitude (bits : UInt64) : Nat := bits.toNat % 2 ^ 63

def isNaN (bits : UInt64) : Bool := 0x7FF0000000000000 < magnitude bits

def rank (bits : UInt64) : Int :=
  if 2 ^ 63 ≤ bits.toNat then -(magnitude bits : Int) else magnitude bits

/-- The comparison `<=`, which is false wherever a NaN takes part. -/
def atMost (first second : UInt64) : Bool :=
  !isNaN first && !isNaN second && rank first ≤ rank second

/-- The comparison `<`, which is false wherever a NaN takes part. -/
def less (first second : UInt64) : Bool :=
  !isNaN first && !isNaN second && rank first < rank second

theorem less_of_not_atMost {first second : UInt64} (firstNumber : isNaN first = false)
    (secondNumber : isNaN second = false) (above : atMost first second = false) :
    less second first = true := by
  simp only [atMost, firstNumber, secondNumber, Bool.not_false, Bool.and_true, Bool.true_and,
    decide_eq_false_iff_not, not_le] at above
  simp only [less, firstNumber, secondNumber, Bool.not_false, Bool.and_true, Bool.true_and,
    decide_eq_true_eq]
  exact above

def one : UInt64 := 0x3FF0000000000000

end Remem.Base.Binary64
