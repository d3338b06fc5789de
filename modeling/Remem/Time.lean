import Mathlib

/-!
# Instants

An instant of the source is kept as nanoseconds since the Unix epoch.
-/

namespace Remem

abbrev Time := Int

namespace Time

/-- The zero value of `time.Time`: the first of January of year one. -/
def zero : Time := -62135596800000000000

def isZero (time : Time) : Bool := time = zero

/-- `UnixMilli`, which rounds down. -/
def unixMilli (time : Time) : Int := time / 1000000

/-- `time.UnixMilli`. -/
def ofUnixMilli (milliseconds : Int) : Time := milliseconds * 1000000

/-- An instant as rows and keys hold it: an instant before the epoch is at zero.
`UnixMilli` is an `int64`. -/
def toUnixMs (time : Time) : UInt64 :=
  let milliseconds := time.unixMilli.bmod (2 ^ 64)
  if milliseconds < 0 then 0 else milliseconds.toNat.toUInt64

def ofUnixMs (milliseconds : UInt64) : Time :=
  if milliseconds = 0 then .zero else .ofUnixMilli milliseconds.toInt64.toInt

theorem toNat_toUnixMs (time : Time) :
    (time.toUnixMs.toNat : Int) = max 0 (time.unixMilli.bmod (2 ^ 64)) := by
  have below := Int.bmod_lt (x := time.unixMilli) (m := 2 ^ 64) (by decide)
  unfold toUnixMs
  dsimp only
  split
  · next negative =>
    rw [max_eq_left negative.le]
    rfl
  next nonnegative =>
  rw [max_eq_right (not_lt.mp nonnegative)]
  have fits : (time.unixMilli.bmod (2 ^ 64)).toNat < 2 ^ 64 := by omega
  rw [Nat.toUInt64, UInt64.toNat_ofNat_of_lt' fits]
  omega

theorem toUnixMs_lt (time : Time) : time.toUnixMs.toNat < 2 ^ 63 := by
  have value := toNat_toUnixMs time
  have below := Int.bmod_lt (x := time.unixMilli) (m := 2 ^ 64) (by decide)
  omega

theorem toUnixMs_mono {first second : Time} (le : first ≤ second)
    (low : -2 ^ 63 ≤ first.unixMilli) (high : second.unixMilli < 2 ^ 63) :
    first.toUnixMs ≤ second.toUnixMs := by
  have firstValue := toNat_toUnixMs first
  have secondValue := toNat_toUnixMs second
  have ordered : first.unixMilli ≤ second.unixMilli := Int.ediv_le_ediv (by decide) le
  rw [Int.bmod_eq_of_le (by omega) (by omega)] at firstValue secondValue
  rw [UInt64.le_iff_toNat_le]
  omega

theorem ofUnixMs_of_ne_zero {milliseconds : UInt64} (small : milliseconds.toNat < 2 ^ 63)
    (nonzero : milliseconds ≠ 0) : ofUnixMs milliseconds = .ofUnixMilli milliseconds.toNat := by
  rw [ofUnixMs, if_neg nonzero]
  congr 1
  change milliseconds.toBitVec.toInt = milliseconds.toBitVec.toNat
  apply BitVec.toInt_eq_toNat_of_lt
  change 2 * milliseconds.toNat < 2 ^ 64
  omega

theorem toUnixMs_ofUnixMs {milliseconds : UInt64} (small : milliseconds.toNat < 2 ^ 63) :
    (ofUnixMs milliseconds).toUnixMs = milliseconds := by
  by_cases zero : milliseconds = 0
  · rw [zero]
    decide
  apply UInt64.toNat_inj.mp
  rw [ofUnixMs_of_ne_zero small zero]
  have again := toNat_toUnixMs (.ofUnixMilli milliseconds.toNat)
  have same : (Time.ofUnixMilli milliseconds.toNat).unixMilli = milliseconds.toNat := by
    unfold Time.ofUnixMilli Time.unixMilli
    omega
  rw [same, Int.bmod_eq_of_le (by omega) (by omega)] at again
  omega

end Time

/-- `Sub`, which saturates at the ends of a duration. -/
def Time.sub (later earlier : Time) : Int := max (-2 ^ 63) (min (2 ^ 63 - 1) (later - earlier))

/-- `Round(time.Second)` of a duration: half a second goes away from zero, and the result
stays within a duration. -/
def roundSecond (duration : Int) : Int :=
  let second := 1000000000
  let rest := duration.natAbs % 1000000000
  if duration < 0 then
    if 2 * rest < second then duration + rest else max (-2 ^ 63) (duration - second + rest)
  else
    if 2 * rest < second then duration - rest else min (2 ^ 63 - 1) (duration + second - rest)

end Remem
