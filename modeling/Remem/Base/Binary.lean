import Remem.Base.ByteString

/-!
# Binary integers

Big-endian words of a fixed width and the variable-length `uvarint` code
of seven bits a byte, low bits first. All are self-delimiting; big-endian words also
compare as the numbers they hold.
-/

namespace Remem.Base

open List

/-- The low `width` bytes of a number, most significant first. -/
def bigEndian : (width : Nat) → Nat → Bytes
  | 0, _ => []
  | width + 1, number => (number / 256 ^ width).toUInt8 :: bigEndian width number

def ofBigEndian (bytes : Bytes) : Nat :=
  bytes.foldl (fun number byte => number * 256 + byte.toNat) 0

@[simp]
theorem length_bigEndian (width number : Nat) : (bigEndian width number).length = width := by
  induction width with
  | zero => rfl
  | succ width ih => simp [bigEndian, ih]

theorem bigEndian_mod (width number : Nat) :
    bigEndian width (number % 256 ^ width) = bigEndian width number := by
  suffices general : ∀ extra, bigEndian width (number % 256 ^ (width + extra)) =
      bigEndian width number by simpa using general 0
  induction width with
  | zero => intro extra; rfl
  | succ width ih =>
    intro extra
    have head : (number % 256 ^ (width + 1 + extra) / 256 ^ width).toUInt8 =
        (number / 256 ^ width).toUInt8 := by
      apply UInt8.toNat_inj.mp
      have split : 256 ^ (width + 1 + extra) = 256 ^ width * 256 ^ (extra + 1) := by
        rw [← pow_add]; congr 1; omega
      rw [split, Nat.mod_mul_right_div_self]
      simp only [Nat.toUInt8, UInt8.toNat_ofNat']
      rw [Nat.mod_mod_of_dvd]
      exact dvd_pow_self 256 (Nat.succ_ne_zero extra)
    have rest := ih (extra + 1)
    rw [show width + (extra + 1) = width + 1 + extra by omega] at rest
    simp only [bigEndian, head, rest]

theorem ofBigEndian_foldl (bytes : Bytes) (start : Nat) :
    bytes.foldl (fun number byte => number * 256 + byte.toNat) start =
      start * 256 ^ bytes.length + ofBigEndian bytes := by
  induction bytes generalizing start with
  | nil => simp [ofBigEndian]
  | cons byte rest ih =>
    simp only [ofBigEndian, foldl_cons, length_cons]
    rw [ih, ih (0 * 256 + byte.toNat)]
    ring

@[simp]
theorem ofBigEndian_cons (byte : UInt8) (rest : Bytes) :
    ofBigEndian (byte :: rest) = byte.toNat * 256 ^ rest.length + ofBigEndian rest := by
  have unfolded := ofBigEndian_foldl rest (0 * 256 + byte.toNat)
  simpa [ofBigEndian] using unfolded

theorem ofBigEndian_bigEndian (width number : Nat) :
    ofBigEndian (bigEndian width number) = number % 256 ^ width := by
  induction width with
  | zero => simp [bigEndian, ofBigEndian, Nat.mod_one]
  | succ width ih =>
    simp only [bigEndian, ofBigEndian_cons, length_bigEndian, ih, Nat.toUInt8, UInt8.toNat_ofNat']
    have split : number % 256 ^ (width + 1) =
        number % 256 ^ width + 256 ^ width * (number / 256 ^ width % 256) := by
      rw [pow_succ, Nat.mod_mul]
    rw [split]
    ring

variable {width first second : Nat}

theorem bigEndian_lt_bigEndian (smaller : first < second) (fits : second < 256 ^ width)
    (firstTail secondTail : Bytes) :
    bigEndian width first ++ firstTail < bigEndian width second ++ secondTail := by
  induction width generalizing first second with
  | zero => simp only [pow_zero] at fits; omega
  | succ width ih =>
    simp only [bigEndian, cons_append, cons_lt_cons_iff]
    have positive : 0 < 256 ^ width := by positivity
    have firstHead : first / 256 ^ width < 256 :=
      Nat.div_lt_of_lt_mul (by rw [← pow_succ]; omega)
    have secondHead : second / 256 ^ width < 256 :=
      Nat.div_lt_of_lt_mul (by rw [← pow_succ]; omega)
    have headOrder : first / 256 ^ width ≤ second / 256 ^ width :=
      Nat.div_le_div_right smaller.le
    rcases headOrder.lt_or_eq with headSmaller | headEqual
    · left
      rw [UInt8.lt_iff_toNat_lt]
      simpa [Nat.toUInt8, Nat.mod_eq_of_lt firstHead, Nat.mod_eq_of_lt secondHead] using headSmaller
    right
    refine ⟨by rw [headEqual], ?_⟩
    rw [← bigEndian_mod width first, ← bigEndian_mod width second]
    apply ih
    · have firstSplit := Nat.div_add_mod first (256 ^ width)
      have secondSplit := Nat.div_add_mod second (256 ^ width)
      rw [headEqual] at firstSplit
      omega
    · exact Nat.mod_lt _ positive

theorem ofBigEndian_lt (bytes : Bytes) : ofBigEndian bytes < 256 ^ bytes.length := by
  induction bytes with
  | nil => simp [ofBigEndian]
  | cons byte rest ih =>
    have small := byte.toNat_lt
    rw [ofBigEndian_cons, length_cons, pow_succ]
    nlinarith

theorem bigEndian_ofBigEndian (bytes : Bytes) :
    bigEndian bytes.length (ofBigEndian bytes) = bytes := by
  induction bytes with
  | nil => rfl
  | cons byte rest ih =>
    have below := ofBigEndian_lt rest
    have head : ofBigEndian (byte :: rest) / 256 ^ rest.length = byte.toNat := by
      rw [ofBigEndian_cons, Nat.add_comm, Nat.add_mul_div_right _ _ (by positivity),
        Nat.div_eq_of_lt below, Nat.zero_add]
    have tail : ofBigEndian (byte :: rest) % 256 ^ rest.length = ofBigEndian rest := by
      rw [ofBigEndian_cons, Nat.add_comm, Nat.add_mul_mod_self_right, Nat.mod_eq_of_lt below]
    rw [length_cons, bigEndian, head, ← bigEndian_mod, tail, ih]
    congr 1
    exact UInt8.ofNat_toNat

theorem bigEndian_inj (firstFits : first < 256 ^ width) (secondFits : second < 256 ^ width)
    (equal : bigEndian width first = bigEndian width second) : first = second := by
  have numbers := congrArg ofBigEndian equal
  rwa [ofBigEndian_bigEndian, ofBigEndian_bigEndian, Nat.mod_eq_of_lt firstFits,
    Nat.mod_eq_of_lt secondFits] at numbers

/-- The loop of `binary.AppendUvarint`; `fuel` bounds how often it goes round. -/
def uvarintBytes : (fuel : Nat) → Nat → Bytes
  | 0, number => [number.toUInt8]
  | fuel + 1, number =>
    if number < 128 then [number.toUInt8]
    else (number % 128 + 128).toUInt8 :: uvarintBytes fuel (number / 128)

/-- `binary.AppendUvarint` onto an empty slice. -/
def appendUvarint (number : Nat) : Bytes := uvarintBytes number number

/-- The loop of `binary.Uvarint`: `index` bytes read so far, worth `number`.
Ten continuation bytes, or a tenth byte above one, overflow 64 bits. -/
def uvarintLoop : Bytes → (index number : Nat) → Option (Nat × Nat)
  | [], _, _ => none
  | byte :: rest, index, number =>
    if index = 10 then none
    else if byte < 128 then
      if index = 9 ∧ 1 < byte then none
      else some (number + byte.toNat * 128 ^ index, index + 1)
    else uvarintLoop rest (index + 1) (number + (byte.toNat - 128) * 128 ^ index)

/-- `binary.Uvarint`: the number at the head of a string and how many bytes it
took, or `none` where the source reports a width of zero or less. -/
def uvarint (bytes : Bytes) : Option (Nat × Nat) := uvarintLoop bytes 0 0

variable {number : Nat}

theorem uvarintBytes_eq {fuel : Nat} (enough : number < 128 ^ (fuel + 1)) :
    uvarintBytes fuel number = appendUvarint number := by
  suffices agree : ∀ first second number, number < 128 ^ (first + 1) → number < 128 ^ (second + 1) →
      uvarintBytes first number = uvarintBytes second number by
    refine agree fuel number number enough ?_
    calc number < 128 ^ number := Nat.lt_pow_self (by norm_num)
      _ ≤ 128 ^ (number + 1) := Nat.pow_le_pow_right (by norm_num) (Nat.le_succ _)
  intro first
  induction first with
  | zero =>
    intro second number firstFits secondFits
    have small : number < 128 := by simpa using firstFits
    cases second <;> simp [uvarintBytes, small]
  | succ first ih =>
    intro second number firstFits secondFits
    by_cases small : number < 128
    · cases second <;> simp [uvarintBytes, small]
    cases second with
    | zero => exact absurd (by simpa using secondFits) small
    | succ second =>
      simp only [uvarintBytes, small, if_false]
      congr 1
      apply ih
      · exact Nat.div_lt_of_lt_mul (by rw [pow_succ] at firstFits; omega)
      · exact Nat.div_lt_of_lt_mul (by rw [pow_succ] at secondFits; omega)

theorem appendUvarint_of_lt (small : number < 128) : appendUvarint number = [number.toUInt8] := by
  cases number <;> simp [appendUvarint, uvarintBytes, small]

theorem appendUvarint_of_ge (large : 128 ≤ number) :
    appendUvarint number = (number % 128 + 128).toUInt8 :: appendUvarint (number / 128) := by
  rcases Nat.exists_eq_succ_of_ne_zero (by omega : number ≠ 0) with ⟨fuel, rfl⟩
  have notSmall : ¬ fuel + 1 < 128 := by omega
  rw [appendUvarint]
  simp only [Nat.succ_eq_add_one, uvarintBytes, notSmall, if_false]
  rw [uvarintBytes_eq]
  calc (fuel + 1) / 128 ≤ fuel + 1 := Nat.div_le_self _ _
    _ < 128 ^ (fuel + 1) := Nat.lt_pow_self (by norm_num)

theorem appendUvarint_ne_nil (number : Nat) : appendUvarint number ≠ [] := by
  rcases Nat.lt_or_ge number 128 with small | large
  · rw [appendUvarint_of_lt small]
    exact cons_ne_nil _ _
  · rw [appendUvarint_of_ge large]
    exact cons_ne_nil _ _

theorem toNat_toUInt8_of_lt (fits : number < 256) : number.toUInt8.toNat = number := by
  simpa [Nat.toUInt8] using fits

theorem appendUvarint_selfDelimiting : SelfDelimiting appendUvarint := by
  intro first
  induction first using Nat.strong_induction_on with
  | _ first ih =>
    intro second firstTail secondTail equal
    by_cases firstSmall : first < 128 <;> by_cases secondSmall : second < 128
    · rw [appendUvarint_of_lt firstSmall, appendUvarint_of_lt secondSmall] at equal
      simp only [cons_append, nil_append, List.cons.injEq] at equal
      have values := congrArg UInt8.toNat equal.1
      rw [toNat_toUInt8_of_lt (by omega), toNat_toUInt8_of_lt (by omega)] at values
      exact ⟨values, equal.2⟩
    · rw [appendUvarint_of_lt firstSmall, appendUvarint_of_ge (not_lt.mp secondSmall)] at equal
      simp only [cons_append, nil_append, List.cons.injEq] at equal
      have values := congrArg UInt8.toNat equal.1
      rw [toNat_toUInt8_of_lt (by omega), toNat_toUInt8_of_lt (by omega)] at values
      omega
    · rw [appendUvarint_of_ge (not_lt.mp firstSmall), appendUvarint_of_lt secondSmall] at equal
      simp only [cons_append, nil_append, List.cons.injEq] at equal
      have values := congrArg UInt8.toNat equal.1
      rw [toNat_toUInt8_of_lt (by omega), toNat_toUInt8_of_lt (by omega)] at values
      omega
    · rw [appendUvarint_of_ge (not_lt.mp firstSmall),
        appendUvarint_of_ge (not_lt.mp secondSmall)] at equal
      simp only [cons_append, List.cons.injEq] at equal
      have values := congrArg UInt8.toNat equal.1
      rw [toNat_toUInt8_of_lt (by omega), toNat_toUInt8_of_lt (by omega)] at values
      rcases ih (first / 128) (by omega) equal.2 with ⟨quotients, tails⟩
      exact ⟨by omega, tails⟩

theorem uvarintLoop_append (number index total : Nat) (tail : Bytes)
    (fits : number * 128 ^ index < 2 ^ 64) (inside : index < 10) :
    uvarintLoop (appendUvarint number ++ tail) index total =
      some (total + number * 128 ^ index, index + (appendUvarint number).length) := by
  induction number using Nat.strong_induction_on generalizing index total with
  | _ number ih =>
    have notTen : index ≠ 10 := by omega
    by_cases small : number < 128
    · rw [appendUvarint_of_lt small]
      have value : number.toUInt8.toNat = number := toNat_toUInt8_of_lt (by omega)
      have low : number.toUInt8 < 128 := by
        rw [UInt8.lt_iff_toNat_lt, value]; exact small
      have noOverflow : ¬ (index = 9 ∧ 1 < number.toUInt8) := by
        rintro ⟨rfl, above⟩
        rw [UInt8.lt_iff_toNat_lt, value] at above
        have bound : 2 * 128 ^ 9 ≤ number * 128 ^ 9 :=
          Nat.mul_le_mul_right _ above
        omega
      simp [uvarintLoop, notTen, low, noOverflow, value]
    · rw [appendUvarint_of_ge (by omega)]
      have value : (number % 128 + 128).toUInt8.toNat = number % 128 + 128 :=
        toNat_toUInt8_of_lt (by omega)
      have high : ¬ (number % 128 + 128).toUInt8 < 128 := by
        rw [UInt8.lt_iff_toNat_lt, value]; simp
      -- a ninth continuation byte would already stand for 2^63 or more
      have notNine : index ≠ 9 := by
        rintro rfl
        have bound : 128 * 128 ^ 9 ≤ number * 128 ^ 9 :=
          Nat.mul_le_mul_right _ (by omega)
        omega
      have split : number / 128 * 128 ^ (index + 1) + number % 128 * 128 ^ index =
          number * 128 ^ index := by
        rw [pow_succ]
        calc number / 128 * (128 ^ index * 128) + number % 128 * 128 ^ index
            = (128 * (number / 128) + number % 128) * 128 ^ index := by ring
          _ = number * 128 ^ index := by rw [Nat.div_add_mod]
      rw [cons_append, uvarintLoop, if_neg notTen, if_neg high, value,
        ih (number / 128) (by omega) (index + 1) _ (by omega) (by omega)]
      simp only [length_cons, Option.some.injEq, Prod.mk.injEq]
      exact ⟨by rw [Nat.add_sub_cancel, ← split]; omega, by omega⟩

theorem uvarint_append (fits : number < 2 ^ 64) (tail : Bytes) :
    uvarint (appendUvarint number ++ tail) = some (number, (appendUvarint number).length) := by
  simpa [uvarint] using uvarintLoop_append number 0 0 tail (by simpa using fits) (by omega)

end Remem.Base
