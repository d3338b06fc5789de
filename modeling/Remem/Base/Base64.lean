import Remem.Base.ByteString

/-!
# Base 64

RFC 4648 base 64 with the alphabet for URLs and without padding: three bytes are four characters
of six bits, and what is left over is filled up with zeros.
-/

namespace Remem.Base

open List

def base64Alphabet : Bytes :=
  ascii "ABCDEFGHIJKLMNOPQRSTUVWXYZabcdefghijklmnopqrstuvwxyz0123456789-_"

def sextets : Bytes → List Nat
  | [] => []
  | [first] => [first.toNat / 4, first.toNat % 4 * 16]
  | [first, second] =>
    [first.toNat / 4, first.toNat % 4 * 16 + second.toNat / 16, second.toNat % 16 * 4]
  | first :: second :: third :: rest =>
    first.toNat / 4 :: (first.toNat % 4 * 16 + second.toNat / 16) ::
      (second.toNat % 16 * 4 + third.toNat / 64) :: third.toNat % 64 :: sextets rest

/-- The string of six-bit numbers; one number alone is no byte, and bits that fill up are not
looked at. -/
def ofSextets : List Nat → Option Bytes
  | [] => some []
  | [_] => none
  | [first, second] => some [(first * 4 + second / 16).toUInt8]
  | [first, second, third] =>
    some [(first * 4 + second / 16).toUInt8, (second % 16 * 16 + third / 4).toUInt8]
  | first :: second :: third :: fourth :: rest =>
    (ofSextets rest).map fun bytes =>
      (first * 4 + second / 16).toUInt8 :: (second % 16 * 16 + third / 4).toUInt8 ::
        (third % 4 * 64 + fourth).toUInt8 :: bytes

/-- `EncodeToString`. -/
def base64Encode (bytes : Bytes) : Bytes := (sextets bytes).map fun number => base64Alphabet.getD number 0

def lineBreak (character : UInt8) : Bool := character = 10 || character = 13

/-- `DecodeString`. -/
def base64Decode (text : Bytes) : Option Bytes :=
  ((text.filter fun character => !lineBreak character).mapM base64Alphabet.idxOf?).bind ofSextets

theorem sextets_lt {bytes : Bytes} : ∀ number ∈ sextets bytes, number < 64 := by
  fun_induction sextets bytes with
  | case1 => simp
  | case2 first =>
    have := first.toNat_lt
    simp
    omega
  | case3 first second =>
    have := first.toNat_lt
    have := second.toNat_lt
    simp
    omega
  | case4 first second third rest ih =>
    have := first.toNat_lt
    have := second.toNat_lt
    have := third.toNat_lt
    simp only [mem_cons, forall_eq_or_imp]
    exact ⟨by omega, by omega, by omega, by omega, ih⟩

theorem ofSextets_sextets (bytes : Bytes) : ofSextets (sextets bytes) = some bytes := by
  have whole : ∀ (byte : UInt8) {number : Nat}, number = byte.toNat → number.toUInt8 = byte := by
    rintro byte _ rfl
    exact UInt8.ofNat_toNat
  fun_induction sextets bytes with
  | case1 => rfl
  | case2 first =>
    simp only [ofSextets, Option.some.injEq, List.cons.injEq, and_true]
    exact whole first (by omega)
  | case3 first second =>
    have := second.toNat_lt
    simp only [ofSextets, Option.some.injEq, List.cons.injEq, and_true]
    exact ⟨whole first (by omega), whole second (by omega)⟩
  | case4 first second third rest ih =>
    have := second.toNat_lt
    have := third.toNat_lt
    simp only [ofSextets, ih, Option.map_some, Option.some.injEq, List.cons.injEq, and_true]
    exact ⟨whole first (by omega), whole second (by omega), whole third (by omega)⟩

theorem idxOf?_base64Alphabet : ∀ number < 64,
    base64Alphabet.idxOf? (base64Alphabet.getD number 0) = some number ∧
      lineBreak (base64Alphabet.getD number 0) = false := by
  decide +kernel

theorem base64Decode_base64Encode (bytes : Bytes) : base64Decode (base64Encode bytes) = some bytes
      := by
  have read : ∀ numbers : List Nat, (∀ number ∈ numbers, number < 64) →
      ((numbers.map fun number => base64Alphabet.getD number 0).filter
        fun character => !lineBreak character).mapM base64Alphabet.idxOf? = some numbers := by
    intro numbers below
    induction numbers with
    | nil => rfl
    | cons number rest ih =>
      obtain ⟨index, isCharacter⟩ := idxOf?_base64Alphabet number (below number mem_cons_self)
      have tail := ih fun other later => below other (mem_cons_of_mem _ later)
      rw [map_cons, filter_cons_of_pos (by rw [isCharacter]; rfl), mapM_cons, index, tail]
      rfl
  unfold base64Decode base64Encode
  rw [read _ sextets_lt, Option.bind_some, ofSextets_sextets]

example : base64Encode (ascii "foobar?") = ascii "Zm9vYmFyPw" := by decide +kernel

end Remem.Base
