import Remem.Attr.Select
import Remem.Base.Slices
import Remem.Keys.Reading

/-!
# Saved positions

Where a lifecycle sweep and the attribute backfill go on: a length, so many bytes and a
record id. A decoder answers nothing where the source panics.
-/

namespace Remem

open Base Keys Attr List Option

namespace Lifecycle

def encodePosition : Option Position → Bytes
  | none => []
  | some position =>
    appendUvarint position.value.length ++ position.value ++ position.id.bytes

def decodePosition (bytes : Bytes) : Option (Result (Option Position)) :=
  let bad (text : String) : Result (Option Position) :=
    .error ⟨.corruption, "lifecycle.decodePosition", text, []⟩
  if bytes = [] then some (.ok none)
  else match uvarint bytes with
    | none => some (bad
        "a lifecycle sweep's saved position will not parse; it cannot be resumed from")
    | some (n, w) =>
      -- the sum is a `uint64` and wraps
      if bytes.length - w < (n + 16) % 2 ^ 64 then some (bad
        "a lifecycle sweep's saved position will not parse; it cannot be resumed from")
      else do
        match Id.fromBytes (← slice bytes (w + toInt n) bytes.length) with
        | .error _ => some (bad "a lifecycle sweep's saved position holds a malformed record id")
        | .ok rid => return .ok (some ⟨← slice bytes w (w + toInt n), rid⟩)

end Lifecycle

namespace Schema

def encodeBackfillCursor (tenant : TenantId) (rid : Id) : Bytes :=
  appendUvarint tenant.length ++ tenant ++ rid.bytes

def decodeBackfillCursor (bytes : Bytes) : Option (Result (Option (TenantId × Id))) :=
  let bad (text : String) : Result (Option (TenantId × Id)) :=
    .error ⟨.corruption, "schema.decodeBackfillCursor", text, []⟩
  if bytes = [] then some (.ok none)
  else match uvarint bytes with
    | none => some (bad
        "the attribute backfill's saved position will not parse; it cannot be resumed from")
    | some (n, w) =>
      if bytes.length - w < (n + 16) % 2 ^ 64 then some (bad
        "the attribute backfill's saved position will not parse; it cannot be resumed from")
      else do
        let tenant ← slice bytes w (w + toInt n)
        match Id.fromBytes (← slice bytes (w + toInt n) bytes.length) with
        | .error _ => some (bad
            "the attribute backfill's saved position holds a malformed record id")
        | .ok rid => return .ok (some (tenant, rid))

end Schema

namespace Lifecycle

open Schema

/-- The length that the bytes begin with, and the id's, do not add up past 64 bits to what the
rest of the bytes would hold. -/
def Unwrapped (bytes : Bytes) : Prop :=
  ∀ number width, uvarint bytes = some (number, width) →
    number + 16 < 2 ^ 64 ∨ 2 ^ 64 + (bytes.length - width) < number + 16

def Minimal (bytes : Bytes) : Prop :=
  ∀ number width, uvarint bytes = some (number, width) → width = (appendUvarint number).length

/-- The decoder answers, with nothing, a value or a corruption, and a value that it accepts
from a minimal length is the one that was encoded. -/
def Decodes {Value : Type} (decode : Bytes → Option (Result (Option Value)))
    (encode : Value → Bytes) (bytes : Bytes) : Prop :=
  ∃ result, decode bytes = some result ∧ match result with
    | .error fault => fault.kind = .corruption
    | .ok none => bytes = []
    | .ok (some value) => Minimal bytes → bytes = encode value

section Prefixed

variable {bytes : Bytes} {number width : Nat}

theorem slices_of_room (sized : bytes.length < 2 ^ 63) (unwrapped : Unwrapped bytes)
    (read : uvarint bytes = some (number, width))
    (room : ¬ bytes.length - width < (number + 16) % 2 ^ 64) :
    slice bytes width (width + toInt number) = some ((bytes.drop width).take number) ∧
      slice bytes (width + toInt number) bytes.length = some (bytes.drop (width + number)) ∧
      (Minimal bytes → bytes = appendUvarint ((bytes.drop width).take number).length ++
        (bytes.drop width).take number ++ bytes.drop (width + number)) := by
  have inside := uvarint_width read
  have below := uvarint_lt read
  have small : number + 16 < 2 ^ 64 := by
    rcases unwrapped number width read with small | past
    · exact small
    · omega
  rw [Nat.mod_eq_of_lt small] at room
  have signed : toInt number = number := if_pos (by omega)
  refine ⟨?_, ?_, fun minimal => ?_⟩
  · rw [signed]
    exact slice_of_le (by omega)
  · have taken := @slice_of_le _ bytes (width + number) (bytes.length - (width + number)) (by omega)
    rw [take_of_length_le (by simp)] at taken
    rw [signed, ← taken]
    congr 1
    omega
  · obtain ⟨value, isNumber, _, same⟩ := uvarintLoop_some read
    rw [zero_add, pow_zero, mul_one] at isNumber
    subst isNumber
    have least := minimal number width read
    obtain ⟨tail, rfl⟩ := same least
    subst least
    rw [length_append] at room
    rw [length_take_of_le (by simp; omega), append_assoc, ← drop_drop, drop_left, take_append_drop]

theorem decodePosition_decodes (sized : bytes.length < 2 ^ 63) (unwrapped : Unwrapped bytes) :
    Decodes decodePosition (encodePosition ∘ some) bytes := by
  unfold Decodes decodePosition
  split
  · next empty => exact ⟨_, rfl, empty⟩
  split
  · exact ⟨_, rfl, rfl⟩
  next number width read =>
  split
  · exact ⟨_, rfl, rfl⟩
  next room =>
  obtain ⟨value, last, exact⟩ := slices_of_room sized unwrapped read room
  simp only [value, last, Id.fromBytes, bind_eq_bind, bind_some]
  by_cases long : (bytes.drop (width + number)).length = idLen
  · rw [dif_pos long]
    exact ⟨_, rfl, fun minimal => exact minimal⟩
  · rw [dif_neg long]
    exact ⟨_, rfl, rfl⟩

theorem decodeBackfillCursor_decodes (sized : bytes.length < 2 ^ 63) (unwrapped : Unwrapped bytes) :
    Decodes decodeBackfillCursor (fun cursor => encodeBackfillCursor cursor.1 cursor.2) bytes := by
  unfold Decodes decodeBackfillCursor
  split
  · next empty => exact ⟨_, rfl, empty⟩
  split
  · exact ⟨_, rfl, rfl⟩
  next number width read =>
  split
  · exact ⟨_, rfl, rfl⟩
  next room =>
  obtain ⟨tenant, last, exact⟩ := slices_of_room sized unwrapped read room
  simp only [tenant, last, Id.fromBytes, bind_eq_bind, bind_some]
  by_cases long : (bytes.drop (width + number)).length = idLen
  · rw [dif_pos long]
    exact ⟨_, rfl, fun minimal => exact minimal⟩
  · rw [dif_neg long]
    exact ⟨_, rfl, rfl⟩

/-- A sum past 64 bits that passes the check makes the length a negative number. -/
theorem unwrapped_of_decodes
    (answered : ∃ result, decodeBackfillCursor bytes = some result) : Unwrapped bytes := by
  intro number width read
  have below := uvarint_lt read
  by_contra! wrapped
  have nonempty : bytes ≠ [] := by
    rintro rfl
    cases read
  have room : ¬ bytes.length - width < (number + 16) % 2 ^ 64 := by omega
  have signed : toInt number = number - 2 ^ 64 := if_neg (by omega)
  have cut : slice bytes width (width + toInt number) = none := by
    rw [slice, if_neg]
    omega
  obtain ⟨result, answer⟩ := answered
  simp only [decodeBackfillCursor, nonempty, read, room, cut, if_false] at answer
  cases answer

theorem parts_of_append (value : Bytes) (rid : Id)
    (sized : (appendUvarint value.length ++ value ++ rid.bytes).length < 2 ^ 63) :
    let bytes := appendUvarint value.length ++ value ++ rid.bytes
    let width := (appendUvarint value.length).length
    bytes ≠ [] ∧ uvarint bytes = some (value.length, width) ∧
      ¬ bytes.length - width < (value.length + 16) % 2 ^ 64 ∧
      slice bytes width (width + toInt value.length) = some value ∧
      slice bytes (width + toInt value.length) bytes.length = some rid.bytes := by
  intro bytes width
  have total : bytes.length = width + value.length + 16 := by
    simp [bytes, width, rid.width, idLen, Nat.add_assoc]
  have fits : bytes.length < 2 ^ 63 := sized
  have read : uvarint bytes = some (value.length, width) := by
    simpa [bytes, width] using uvarint_append (by omega) (value ++ rid.bytes)
  have room : ¬ bytes.length - width < (value.length + 16) % 2 ^ 64 := by omega
  have unwrapped : Unwrapped bytes := by
    intro number other isRead
    cases read.symm.trans isRead
    exact .inl (by omega)
  obtain ⟨first, last, _⟩ := slices_of_room sized unwrapped read room
  refine ⟨ne_nil_of_length_pos (by omega), read, room, ?_, ?_⟩
  · simpa [bytes, width] using first
  · simpa [bytes, width, ← drop_drop] using last

end Prefixed

/-- A saved position is decoded or reported as corrupt, and is the encoding of what it decodes
to, exactly where the sum of its lengths does not wrap past the check; every position comes back
from its encoding. -/
theorem saved_positions_decode (bytes : Bytes) (sized : bytes.length < 2 ^ 63) :
    (Decodes decodePosition (encodePosition ∘ some) bytes ∧
      Decodes decodeBackfillCursor (fun cursor => encodeBackfillCursor cursor.1 cursor.2) bytes ↔
        Unwrapped bytes) ∧
    (∀ position, (encodePosition position).length < 2 ^ 63 →
      decodePosition (encodePosition position) = some (.ok position)) ∧
    ∀ tenant rid, (encodeBackfillCursor tenant rid).length < 2 ^ 63 →
      decodeBackfillCursor (encodeBackfillCursor tenant rid) = some (.ok (some (tenant, rid))) := by
  refine ⟨⟨?_, fun unwrapped => ?_⟩, fun position fits => ?_, fun tenant rid fits => ?_⟩
  · rintro ⟨_, result, answer, _⟩
    exact unwrapped_of_decodes ⟨result, answer⟩
  · exact ⟨decodePosition_decodes sized unwrapped, decodeBackfillCursor_decodes sized unwrapped⟩
  · cases position with
    | none => rfl
    | some position =>
      obtain ⟨value, rid⟩ := position
      obtain ⟨nonempty, read, room, first, last⟩ := parts_of_append value rid fits
      simp only [decodePosition, encodePosition, nonempty, read, room, first, last, if_false,
        bind_eq_bind, bind_some, Id.fromBytes, dif_pos rid.width]
      rfl
  · obtain ⟨nonempty, read, room, first, last⟩ := parts_of_append tenant rid fits
    simp only [decodeBackfillCursor, encodeBackfillCursor, nonempty, read, room, first, last,
      if_false, bind_eq_bind, bind_some, Id.fromBytes, dif_pos rid.width]
    rfl

theorem saved_positions_decode_id :
    Decodes decodePosition (encodePosition ∘ some) (0 :: replicate 16 7) := by
  refine ((saved_positions_decode (0 :: replicate 16 7) (by decide)).1.mpr ?_).1
  rintro number width ⟨⟩
  exact .inl (by decide)

/-- The length 2^64 - 16: with the id's it wraps to nothing, and the slices end before they
begin. -/
def wrappedLength : Bytes := 0xF0 :: List.replicate 8 0xFF ++ [0x01]

theorem wrapped_length_panics :
    uvarint wrappedLength = some (2 ^ 64 - 16, 10) ∧ decodePosition wrappedLength = none ∧
      decodeBackfillCursor wrappedLength = none := by
  have read : uvarint wrappedLength = some (2 ^ 64 - 16, 10) := by decide
  have size : wrappedLength.length = 10 := rfl
  have nonempty : wrappedLength ≠ [] := cons_ne_nil _ _
  refine ⟨read, ?_, ?_⟩
  · simp [decodePosition, nonempty, read, size, slice, toInt]
  · simp [decodeBackfillCursor, nonempty, read, size, slice, toInt]

end Lifecycle

end Remem
