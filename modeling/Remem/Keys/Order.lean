import Remem.Keys.Identity
import Remem.Base.Binary32

/-!
# Order-preserving values

The value encodings that the attribute index sorts by. For each type, the bytes of
two values compare as the values do, whatever follows them in the key.
-/

namespace Remem.Keys

open Base List

def short (op : String) (want got : Nat) : Fault :=
  ⟨.corruption, op, "need %d bytes, have %d", [.number want, .number got]⟩

def putUint64 (value : UInt64) : Bytes := uint64 value

def getUint64 (bytes : Bytes) : Result (UInt64 × Bytes) :=
  if bytes.length < 8 then .error (short "keys.GetUint64" 8 bytes.length)
  else .ok ((ofBigEndian (bytes.take 8)).toUInt64, bytes.drop 8)

def putUint32 (value : UInt32) : Bytes := uint32 value

def getUint32 (bytes : Bytes) : Result (UInt32 × Bytes) :=
  if bytes.length < 4 then .error (short "keys.GetUint32" 4 bytes.length)
  else .ok ((ofBigEndian (bytes.take 4)).toUInt32, bytes.drop 4)

def putUint8 (value : UInt8) : Bytes := [value]

def getUint8 : Bytes → Result (UInt8 × Bytes)
  | [] => .error (short "keys.GetUint8" 1 0)
  | byte :: rest => .ok (byte, rest)

def putBool (value : Bool) : Bytes := if value then [0x01] else [0x00]

def getBool : Bytes → Result (Bool × Bytes)
  | [] => .error (short "keys.GetBool" 1 0)
  | byte :: rest =>
    if byte = 0x00 then .ok (false, rest)
    else if byte = 0x01 then .ok (true, rest)
    else .error ⟨.corruption, "keys.GetBool", "a bool is 0x00 or 0x01, found %#x",
      [.number byte.toNat]⟩

def signBit32 : UInt32 := 0x80000000

def orderFloat32 (bits : UInt32) : UInt32 :=
  if bits &&& signBit32 ≠ 0 then ~~~bits else bits ||| signBit32

def unorderFloat32 (bits : UInt32) : UInt32 :=
  if bits &&& signBit32 ≠ 0 then bits &&& ~~~signBit32 else ~~~bits

/-- `PutFloat32` of the number with the given bits. -/
def putFloat32 (bits : UInt32) : Bytes := uint32 (orderFloat32 bits)

def getFloat32 (bytes : Bytes) : Result (UInt32 × Bytes) :=
  if bytes.length < 4 then .error (short "keys.GetFloat32" 4 bytes.length)
  else .ok (unorderFloat32 (ofBigEndian (bytes.take 4)).toUInt32, bytes.drop 4)

/-- `PutString`: a zero byte is escaped, and two zero bytes end the string. -/
def putString : Bytes → Bytes
  | [] => [0x00, 0x00]
  | byte :: rest =>
    if byte = 0x00 then 0x00 :: 0xFF :: putString rest else byte :: putString rest

def getString : Bytes → Result (Bytes × Bytes)
  | [] => .error ⟨.corruption, "keys.GetString", "string is not terminated", []⟩
  | byte :: rest =>
    if byte ≠ 0x00 then do
      let (text, after) ← getString rest
      return (byte :: text, after)
    else match rest with
      | [] => .error ⟨.corruption, "keys.GetString",
          "string ends after an escape byte with nothing following it", []⟩
      | next :: after =>
        if next = 0x00 then .ok ([], after)
        else if next = 0xFF then do
          let (text, after) ← getString after
          return (0x00 :: text, after)
        else .error ⟨.corruption, "keys.GetString",
          "0x00 must be followed by 0x00 or 0xFF, found %#x", [.number next.toNat]⟩

theorem toUInt64_ofBigEndian_uint64 (number : UInt64) :
    (ofBigEndian (uint64 number)).toUInt64 = number := by
  have fits : number.toNat < 256 ^ 8 := number.toNat_lt
  rw [uint64, ofBigEndian_bigEndian, Nat.mod_eq_of_lt fits]
  exact UInt64.ofNat_toNat

theorem toUInt32_ofBigEndian_uint32 (number : UInt32) :
    (ofBigEndian (uint32 number)).toUInt32 = number := by
  have fits : number.toNat < 256 ^ 4 := number.toNat_lt
  rw [uint32, ofBigEndian_bigEndian, Nat.mod_eq_of_lt fits]
  exact UInt32.ofNat_toNat

theorem putUint64_order {first second : UInt64} (smaller : first < second)
    (firstTail secondTail : Bytes) :
    putUint64 first ++ firstTail < putUint64 second ++ secondTail :=
  bigEndian_lt_bigEndian (UInt64.lt_iff_toNat_lt.mp smaller) second.toNat_lt _ _

theorem putUint32_order {first second : UInt32} (smaller : first < second)
    (firstTail secondTail : Bytes) :
    putUint32 first ++ firstTail < putUint32 second ++ secondTail :=
  bigEndian_lt_bigEndian (UInt32.lt_iff_toNat_lt.mp smaller) second.toNat_lt _ _

theorem putUint8_order {first second : UInt8} (smaller : first < second)
    (firstTail secondTail : Bytes) : putUint8 first ++ firstTail < putUint8 second ++ secondTail :=
  cons_lt_cons_iff.mpr (Or.inl smaller)

theorem putBool_order {first second : Bool} (smaller : first < second)
    (firstTail secondTail : Bytes) : putBool first ++ firstTail < putBool second ++ secondTail := by
  obtain ⟨rfl, rfl⟩ : first = false ∧ second = true := by
    revert smaller
    cases first <;> cases second <;> decide
  exact cons_lt_cons_iff.mpr (Or.inl (by decide))

theorem putString_order {first second : Bytes} (smaller : first < second)
    (firstTail secondTail : Bytes) :
    putString first ++ firstTail < putString second ++ secondTail := by
  induction first generalizing second with
  | nil =>
    cases second with
    | nil => exact absurd smaller (lt_irrefl _)
    | cons byte rest =>
      by_cases zero : byte = 0
      · subst zero
        simp [putString, cons_lt_cons_iff]
      have positive : (0 : UInt8) < byte := by
        rw [UInt8.lt_iff_toNat_lt]
        have notZero : byte.toNat ≠ 0 := fun equal => zero (UInt8.toNat_inj.mp equal)
        simpa using Nat.pos_of_ne_zero notZero
      simp [putString, zero, cons_lt_cons_iff, positive]
  | cons head rest ih =>
    cases second with
    | nil => exact absurd smaller (not_lt_nil _)
    | cons other others =>
      rcases cons_lt_cons_iff.mp smaller with less | ⟨rfl, restSmaller⟩
      · have otherNotZero : other ≠ 0 := by
          rintro rfl
          exact absurd less (not_lt.mpr (UInt8.le_iff_toNat_le.mpr (Nat.zero_le _)))
        by_cases zero : head = 0
        · subst zero
          simp [putString, otherNotZero, cons_lt_cons_iff, less]
        · simp [putString, zero, otherNotZero, cons_lt_cons_iff, less]
      have tails := ih restSmaller
      by_cases zero : head = 0
      · subst zero
        simpa [putString] using tails
      · simpa [putString, zero] using tails

theorem and_signBit32_ne_zero_iff (bits : UInt32) :
    bits &&& signBit32 ≠ 0 ↔ 2 ^ 31 ≤ bits.toNat := by
  have bound := bits.toNat_lt
  rw [← UInt32.toNat_inj.ne, UInt32.toNat_and]
  change bits.toNat &&& 2 ^ 31 ≠ 0 ↔ _
  rw [Nat.and_two_pow, Nat.testBit_eq_decide_div_mod_eq]
  by_cases set : bits.toNat / 2 ^ 31 % 2 = 1 <;> simp <;> omega

theorem toNat_orderFloat32 (bits : UInt32) : (orderFloat32 bits).toNat =
      if 2 ^ 31 ≤ bits.toNat then 2 ^ 32 - 1 - bits.toNat else bits.toNat + 2 ^ 31 := by
  rw [orderFloat32]
  simp only [and_signBit32_ne_zero_iff]
  split
  · exact UInt32.toNat_not bits
  next positive =>
  have split := Nat.two_pow_add_eq_or_of_lt (not_le.mp positive) 1
  rw [UInt32.toNat_or, Nat.or_comm]
  change 2 ^ 31 ||| bits.toNat = _
  rw [Nat.add_comm, ← Nat.mul_one (2 ^ 31), split]

theorem unorderFloat32_orderFloat32 (bits : UInt32) :
    unorderFloat32 (orderFloat32 bits) = bits := by
  have bound := bits.toNat_lt
  have ordered := toNat_orderFloat32 bits
  apply UInt32.toNat_inj.mp
  rw [unorderFloat32]
  simp only [and_signBit32_ne_zero_iff]
  by_cases negative : 2 ^ 31 ≤ bits.toNat
  · rw [if_pos negative] at ordered
    rw [if_neg (by omega), UInt32.toNat_not, ordered]
    change 2 ^ 32 - 1 - (2 ^ 32 - 1 - bits.toNat) = _
    omega
  rw [if_neg negative] at ordered
  rw [if_pos (by omega), UInt32.toNat_and, ordered]
  change (bits.toNat + 2 ^ 31) &&& (2 ^ 31 - 1) = _
  rw [Nat.and_two_pow_sub_one_eq_mod]
  omega

theorem putFloat32_order {first second : UInt32}
    (smaller : Binary32.rank first < Binary32.rank second) (firstTail secondTail : Bytes) :
    putFloat32 first ++ firstTail < putFloat32 second ++ secondTail := by
  apply putUint32_order
  have firstBound := first.toNat_lt
  have secondBound := second.toNat_lt
  simp only [Binary32.rank, Binary32.isNegative, Binary32.magnitude, decide_eq_true_eq] at smaller
  rw [UInt32.lt_iff_toNat_lt, toNat_orderFloat32, toNat_orderFloat32]
  split at smaller <;> split at smaller <;> split <;> omega

end Remem.Keys
