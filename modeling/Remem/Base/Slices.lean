import Remem.Base.Binary

/-!
# Slices of machine size

Slicing that panics outside its bounds, unsigned numbers taken as signed ones, and what a
variable-length number takes of the bytes it is read from.
-/

namespace Remem.Base

def toInt (number : Nat) : Int := if number < 2 ^ 63 then number else number - 2 ^ 64

def slice {Entry : Type*} (entries : List Entry) (low high : Int) : Option (List Entry) :=
  if 0 ≤ low ∧ low ≤ high ∧ high ≤ entries.length then
    some ((entries.drop low.toNat).take (high - low).toNat)
  else none

theorem slice_of_le {Entry : Type*} {entries : List Entry} {low size : Nat}
    (inside : low + size ≤ entries.length) :
    slice entries low (low + size) = some ((entries.drop low).take size) := by
  simp [slice]
  omega

variable {bytes : Bytes} {number width : Nat}

theorem uvarintLoop_width {index total number width : Nat}
    (read : uvarintLoop bytes index total = some (number, width)) :
    index < width ∧ width ≤ index + bytes.length := by
  induction bytes generalizing index total with
  | nil => cases read
  | cons byte rest ih =>
    unfold uvarintLoop at read
    split at read
    · cases read
    split at read
    · split at read <;> cases read
      simp
    have later := ih read
    rw [List.length_cons]
    omega

theorem uvarint_width (read : uvarint bytes = some (number, width)) : width ≤ bytes.length := by
  simpa using (uvarintLoop_width read).2

theorem uvarint_width_pos
    (read : uvarint bytes = some (number, width)) : 0 < width := (uvarintLoop_width read).1

theorem add_digit_lt {total digit base index : Nat} (small : total < base ^ index)
    (isDigit : digit < base) : total + digit * base ^ index < base ^ (index + 1) :=
  calc total + digit * base ^ index < (digit + 1) * base ^ index := by
        rw [add_mul, one_mul]
        omega
    _ ≤ base ^ (index + 1) := pow_succ' base index ▸ Nat.mul_le_mul_right _ isDigit

theorem uvarintLoop_lt {index total number width : Nat}
    (read : uvarintLoop bytes index total = some (number, width)) (small : total < 128 ^ index)
    (short : index ≤ 10) : number < 2 ^ 64 := by
  induction bytes generalizing index total with
  | nil => cases read
  | cons byte rest ih =>
    have bound := byte.toNat_lt
    unfold uvarintLoop at read
    split at read
    · cases read
    split at read
    · next low =>
      split at read
      · cases read
      next last =>
      cases read
      rcases lt_or_ge index 9 with early | late
      · calc total + byte.toNat * 128 ^ index < 128 ^ (index + 1) :=
            add_digit_lt small (UInt8.lt_iff_toNat_lt.mp low)
          _ ≤ 128 ^ 9 := Nat.pow_le_pow_right (by decide) early
          _ < 2 ^ 64 := by decide
      obtain rfl : index = 9 := by omega
      have one : byte.toNat ≤ 1 := by simpa [UInt8.le_iff_toNat_le] using last
      omega
    · refine ih read ?_ (by omega)
      exact add_digit_lt small (by omega)

theorem uvarint_lt (read : uvarint bytes = some (number, width)) : number < 2 ^ 64 :=
  uvarintLoop_lt read (by decide) (by decide)

end Remem.Base
