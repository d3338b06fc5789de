import Mathlib

/-!
# Single-precision numbers as bit patterns

The sign, the magnitude and the order of the number a 32-bit pattern stands for.
Away from NaN, patterns compare as sign and magnitude do, with the two zeros equal.
-/

namespace Remem.Base.Binary32

def isNegative (bits : UInt32) : Bool := 2 ^ 31 ≤ bits.toNat

def magnitude (bits : UInt32) : Nat := bits.toNat % 2 ^ 31

def isNaN (bits : UInt32) : Bool := 0x7F800000 < magnitude bits

def isZero (bits : UInt32) : Bool := magnitude bits = 0

def rank (bits : UInt32) : Int :=
  if isNegative bits then -(magnitude bits : Int) else magnitude bits

/-- The comparison `<`, which is false wherever a NaN takes part. -/
def less (first second : UInt32) : Bool :=
  !isNaN first && !isNaN second && rank first < rank second

theorem rank_inj {first second : UInt32} (firstZero : first ≠ 0x80000000)
    (secondZero : second ≠ 0x80000000) (equal : rank first = rank second) : first = second := by
  have firstBound := first.toNat_lt
  have secondBound := second.toNat_lt
  have firstNat : first.toNat ≠ 2 ^ 31 := fun same => firstZero (UInt32.toNat_inj.mp same)
  have secondNat : second.toNat ≠ 2 ^ 31 := fun same =>
    secondZero (UInt32.toNat_inj.mp same)
  apply UInt32.toNat_inj.mp
  simp only [rank, isNegative, magnitude, decide_eq_true_eq] at equal
  split at equal <;> split at equal <;> omega

end Remem.Base.Binary32
