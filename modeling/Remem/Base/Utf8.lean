import Remem.Base.ByteString

/-!
# Well-formed UTF-8
-/

namespace Remem.Base

open List

/-- The ranges of the bytes that must follow a leading byte, if any may lead. -/
def utf8Followers (lead : UInt8) : Option (List (UInt8 × UInt8)) :=
  let continuation : UInt8 × UInt8 := (0x80, 0xBF)
  if lead < 0x80 then some []
  else if lead < 0xC2 then none
  else if lead < 0xE0 then some [continuation]
  else if lead = 0xE0 then some [(0xA0, 0xBF), continuation]
  else if lead = 0xED then some [(0x80, 0x9F), continuation]
  else if lead < 0xF0 then some [continuation, continuation]
  else if lead = 0xF0 then some [(0x90, 0xBF), continuation, continuation]
  else if lead < 0xF4 then some [continuation, continuation, continuation]
  else if lead = 0xF4 then some [(0x80, 0x8F), continuation, continuation]
  else none

def utf8Continues : List (UInt8 × UInt8) → Bytes → Bool
  | [], [] => true
  | _ :: _, [] => false
  | [], byte :: rest =>
    match utf8Followers byte with
    | none => false
    | some followers => utf8Continues followers rest
  | (low, high) :: followers, byte :: rest =>
    low ≤ byte && byte ≤ high && utf8Continues followers rest

/-- `utf8.Valid`. -/
def validUtf8 (bytes : Bytes) : Bool := utf8Continues [] bytes

/-- The code point of a byte, encoded. -/
def runeBytes (byte : UInt8) : Bytes :=
  if byte < 0x80 then [byte] else [(0xC0 : UInt8) ||| (byte >>> 6), (0x80 : UInt8) ||| (byte &&& 0x3F)]

theorem validUtf8_append {first second : Bytes} (small : ∀ byte ∈ first, byte < 0x80) :
    validUtf8 (first ++ second) = validUtf8 second := by
  induction first with
  | nil => rfl
  | cons byte first ih =>
    have followers : utf8Followers byte = some [] := if_pos (small byte mem_cons_self)
    rw [cons_append, validUtf8, utf8Continues, followers]
    exact ih fun byte listed => small byte (mem_cons_of_mem _ listed)

theorem validUtf8_of_ascii {bytes : Bytes} (small : ∀ byte ∈ bytes, byte < 0x80) :
    validUtf8 bytes = true := by
  rw [← append_nil bytes, validUtf8_append small]
  rfl

def pushUtf8 (runes : List Nat) (byte : UInt8) : List Nat :=
  if byte < 0x80 then byte.toNat :: runes
  else if byte < 0xC0 then
    match runes with
    | [] => []
    | rune :: rest => (rune * 64 + byte.toNat % 64) :: rest
  else if byte < 0xE0 then byte.toNat % 32 :: runes
  else if byte < 0xF0 then byte.toNat % 16 :: runes
  else byte.toNat % 8 :: runes

def utf8Runes (bytes : Bytes) : List Nat := (bytes.foldl pushUtf8 []).reverse

example : utf8Runes [0x61, 0xC3, 0x9F, 0xEF, 0xBD, 0x90] = [0x61, 0xDF, 0xFF50] := by decide

def decimal (number : Nat) : Bytes :=
  if number = 0 then [48]
  else (Nat.digits 10 number).reverse.map fun digit => (48 + digit).toUInt8

theorem decimal_ascii (number : Nat) : ∀ byte ∈ decimal number, byte < 0x80 := by
  intro byte listed
  unfold decimal at listed
  split at listed
  · rw [mem_singleton.mp listed]
    decide
  obtain ⟨digit, isDigit, rfl⟩ := mem_map.mp listed
  have small := Nat.digits_lt_base (by decide) (mem_reverse.mp isDigit)
  rw [UInt8.lt_iff_toNat_lt]
  have : (48 + digit).toUInt8.toNat = 48 + digit := by
    simp [Nat.toUInt8]
    omega
  rw [this]
  exact Nat.lt_of_lt_of_le (Nat.add_lt_add_left small 48) (by decide)

end Remem.Base
