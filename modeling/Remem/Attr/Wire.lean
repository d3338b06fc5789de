import Remem.Attr.Predicate
import Remem.Base.Utf8

/-!
# Predicates on the wire

A filter as JSON. A value is read into an interface, which makes each of its numbers a
64-bit float, and is written again before it is read at its type.
-/

namespace Remem.Attr

open Base

/-- What the `v` of a value holds. A whole number is its digits; a 32-bit float is the
shortest text that reads as it, at most nine digits, which a 64-bit float keeps. -/
inductive Scalar where
  | bool (value : Bool)
  | digits (number : Nat)
  | float (bits : UInt32)
  | text (bytes : Bytes)

structure ValueJson where
  t : String
  v : Scalar

def nearestFloat64 (number : Nat) : Nat :=
  if number < 2 ^ 53 then number
  else
    let unit := 2 ^ (number.log2 - 52)
    let down := number / unit
    let rest := number % unit
    (if unit < 2 * rest ∨ unit = 2 * rest ∧ down % 2 = 1 then down + 1 else down) * unit

def neighbours (number zeros : Nat) : List Nat :=
  let unit := 10 ^ zeros
  let down := number / unit * unit
  if 2 * (number - down) ≤ unit then [down, down + unit] else [down + unit, down]

def shortestDigits (number : Nat) : Nat :=
  (((List.range 21).reverse.flatMap (neighbours number)).find?
    fun digits => nearestFloat64 digits = number).getD number

def Scalar.again : Scalar → Scalar
  | digits number => digits (shortestDigits (nearestFloat64 number))
  | scalar => scalar

/-- Text as the encoder writes it: a byte that starts no character becomes U+FFFD. -/
def repaired : Bytes → Bytes
  | [] => []
  | lead :: rest =>
    match utf8Followers lead with
    | none => [0xEF, 0xBF, 0xBD] ++ repaired rest
    | some followers =>
      if utf8Continues followers (rest.take followers.length) then
        lead :: rest.take followers.length ++ repaired (rest.drop followers.length)
      else [0xEF, 0xBF, 0xBD] ++ repaired rest
termination_by bytes => bytes.length
decreasing_by all_goals grind

/-- `Value.MarshalJSON`; an infinite number has no JSON. -/
def Value.marshalJson (value : Value) : Option ValueJson :=
  ValueJson.mk value.type.name <$> match value with
    | .bool value => some (.bool value)
    | .u8 value => some (.digits value.toNat)
    | .u32 value => some (.digits value.toNat)
    | .u64 value => some (.digits value.toNat)
    | .f32 value => if value.bits &&& 0x7FFFFFFF = 0x7F800000 then none else some (.float value.bits)
    | .str value => some (.text (if validUtf8 value then value else repaired value))

/-- An error of `encoding/json`, whose text is not kept. -/
def refused (op : String) : Fault := ⟨.invalid, op, "%v", []⟩

def Scalar.uint (scalar : Scalar) (bits : Nat) (op : String) : Result Nat :=
  match scalar with
  | digits number => if number < 2 ^ bits then .ok number else .error (refused op)
  | _ => .error (refused op)

/-- `Value.UnmarshalJSON`. -/
def Value.unmarshalJson (json : ValueJson) : Result Value :=
  let op := "attr.Value.UnmarshalJSON"
  let raw := json.v.again
  match json.t with
  | "bool" => match raw with
      | .bool value => .ok (.bool value)
      | _ => .error (refused op)
  | "u8" => (raw.uint 8 op).map fun number => .u8 number.toUInt8
  | "u32" => (raw.uint 32 op).map fun number => .u32 number.toUInt32
  | "u64" => (raw.uint 64 op).map fun number => .u64 number.toUInt64
  | "f32" => match raw with
      | .float bits => .ok (.ofFloat32 bits)
      | _ => .error (refused op)
  | "string" => match raw with
      | .text bytes => .ok (.str bytes)
      | _ => .error (refused op)
  | name => .error ⟨.invalid, op, "%q is not a slot type this binary knows; a value read at the " ++
      "wrong type is a filter that matches the wrong records", [.word name]⟩

/-- `predJSON`; a field that is zero is left out. -/
structure PredJson where
  op : String
  slot : Option UInt16 := none
  value : Option ValueJson := none
  lo : Option ValueJson := none
  hi : Option ValueJson := none
  loIncl : Option Bool := none
  hiIncl : Option Bool := none
  preds : List PredJson := []
  pred : Option PredJson := none

section Omitted

variable {Field : Type} [DecidableEq Field] (zero field : Field)

/-- `omitempty`. -/
def omitZero : Option Field := if field = zero then none else some field

@[simp]
theorem getD_omitZero : (omitZero zero field).getD zero = field := by
  unfold omitZero
  split <;> simp_all

end Omitted

mutual

def marshalPred : Pred → Option PredJson
  | .eq slot value => do
      return { op := "eq", slot := omitZero 0 slot, value := some (← value.marshalJson) }
  | .range slot lo hi loIncl hiIncl => do
      return {
        op := "range", slot := omitZero 0 slot
        lo := ← lo.mapM Value.marshalJson, hi := ← hi.mapM Value.marshalJson
        loIncl := omitZero false loIncl, hiIncl := omitZero false hiIncl }
  | .and preds => do return { op := "and", preds := ← marshalPreds preds }
  | .not pred => do return { op := "not", pred := some (← marshalPred pred) }

/-- `Preds.MarshalJSON`, and the loop of `marshalPred` over a conjunction. -/
def marshalPreds : List Pred → Option (List PredJson)
  | [] => some []
  | pred :: preds => do return (← marshalPred pred) :: (← marshalPreds preds)

end

/-- A field of `predJSON` that holds a value. -/
def readField (field : Option ValueJson) : Result (Option Value) :=
  Result.within "attr.unmarshalPred" (field.mapM Value.unmarshalJson)

mutual

def unmarshalPred : PredJson → Result Pred
  | ⟨tag, slot, value, lo, hi, loIncl, hiIncl, preds, pred⟩ => do
      let op := "attr.unmarshalPred"
      -- all values are read before the tag
      let value ← readField value
      let lo ← readField lo
      let hi ← readField hi
      match tag with
      | "eq" => match value with
          | none => .error ⟨.invalid, op, "an equality predicate carries no value", []⟩
          | some value => return .eq (slot.getD 0) value
      | "range" => return .range (slot.getD 0) lo hi (loIncl.getD false) (hiIncl.getD false)
      | "and" => .and <$> unmarshalPreds preds
      | "not" => .not <$> unmarshalOperand pred
      | tag => .error ⟨.invalid, op, "%q is not a predicate this binary knows", [.word tag]⟩

/-- `Preds.UnmarshalJSON`, and the loop of `unmarshalPred` over a conjunction. -/
def unmarshalPreds : List PredJson → Result (List Pred)
  | [] => .ok []
  | json :: rest => do return (← unmarshalPred json) :: (← unmarshalPreds rest)

def unmarshalOperand : Option PredJson → Result Pred
  | none => .error (refused "attr.unmarshalPred")
  | some json => unmarshalPred json

end

theorem le_nearestFloat64 {number : Nat} (large : 2 ^ 53 ≤ number) :
    2 ^ 53 ≤ nearestFloat64 number := by
  have nonzero : number ≠ 0 := by omega
  have bits : 53 ≤ number.log2 := (Nat.le_log2 nonzero).mpr large
  have whole : 2 ^ 52 * 2 ^ (number.log2 - 52) = 2 ^ number.log2 := by
    rw [← pow_add, Nat.add_sub_cancel' (by omega)]
  have down : 2 ^ 52 ≤ number / 2 ^ (number.log2 - 52) := by
    rw [Nat.le_div_iff_mul_le (Nat.two_pow_pos _), whole]
    exact Nat.log2_self_le nonzero
  rw [nearestFloat64, if_neg (by omega)]
  calc 2 ^ 53 ≤ 2 ^ number.log2 := Nat.pow_le_pow_right (by decide) bits
    _ = 2 ^ 52 * 2 ^ (number.log2 - 52) := whole.symm
    _ ≤ _ := Nat.mul_le_mul_right _ (by split <;> omega)

/-- A number below 2^53 is written with its own digits: no other number reads as it. -/
theorem shortestDigits_nearestFloat64 {number : Nat} (small : number < 2 ^ 53) :
    shortestDigits (nearestFloat64 number) = number := by
  rw [nearestFloat64, if_pos small, shortestDigits]
  cases found : List.find? _ _ with
  | none => rfl
  | some digits =>
    have reads : nearestFloat64 digits = number := by simpa using List.find?_some found
    by_cases below : digits < 2 ^ 53
    · rwa [nearestFloat64, if_pos below] at reads
    · have large := le_nearestFloat64 (not_lt.mp below)
      omega

/-- The number is written again with its own digits once it was a 64-bit float. -/
def KeepsDigits (number : Nat) : Prop := shortestDigits (nearestFloat64 number) = number

theorem uint_again_digits {number bits : Nat} (fits : number < 2 ^ bits) (op : String) :
    (Scalar.digits number).again.uint bits op = .ok number ↔ KeepsDigits number := by
  unfold Scalar.again Scalar.uint KeepsDigits
  dsimp only
  split
  · rw [Except.ok.injEq]
  · next outside =>
    exact iff_of_false nofun fun exact => outside (exact.symm ▸ fits)

/-- JSON has no infinite number, and its strings are text. -/
def Value.Sendable : Value → Prop
  | .f32 value => value.bits &&& 0x7FFFFFFF ≠ 0x7F800000
  | .str value => validUtf8 value = true
  | _ => True

def Value.Kept : Value → Prop
  | .u64 value => KeepsDigits value.toNat
  | _ => True

theorem unmarshalJson_marshalJson {value : Value} (sendable : value.Sendable) :
    ∃ json, value.marshalJson = some json ∧
      (Value.unmarshalJson json = .ok value ↔ value.Kept) := by
  cases value with
  | bool value => exact ⟨_, rfl, iff_of_true rfl trivial⟩
  | u8 value | u32 value =>
    have fits := value.toNat_lt
    have read := (uint_again_digits fits "attr.Value.UnmarshalJSON").mpr
      (shortestDigits_nearestFloat64 (by omega))
    refine ⟨_, rfl, iff_of_true ?_ trivial⟩
    exact (congrArg (Except.map _) read).trans (by simp [Except.map])
  | u64 value =>
    have fits := value.toNat_lt
    refine ⟨_, rfl, ?_⟩
    rw [Value.Kept, ← uint_again_digits fits "attr.Value.UnmarshalJSON"]
    change Except.map _ _ = _ ↔ _
    unfold Scalar.again Scalar.uint
    dsimp only
    split
    · next inside =>
      simp only [Except.map, Except.ok.injEq, Value.u64.injEq, ← UInt64.toNat_inj]
      rw [Nat.toUInt64_eq, UInt64.toNat_ofNat_of_lt' inside]
    · exact iff_of_false nofun nofun
  | f32 value =>
    refine ⟨⟨"f32", .float value.bits⟩, ?_, iff_of_true
      (congrArg (fun number => Except.ok (Value.f32 number)) value.normalise_bits) trivial⟩
    simp only [Value.marshalJson, if_neg sendable]
    rfl
  | str value =>
    have valid : validUtf8 value = true := sendable
    refine ⟨⟨"string", .text value⟩, ?_, iff_of_true rfl trivial⟩
    simp only [Value.marshalJson, if_pos valid]
    rfl

theorem readField_marshalJson {field : Option Value} (sendable : ∀ value ∈ field, value.Sendable) :
    ∃ json, field.mapM Value.marshalJson = some json ∧
      (readField json = .ok field ↔ ∀ value ∈ field, value.Kept) := by
  cases field with
  | none => exact ⟨none, rfl, iff_of_true rfl nofun⟩
  | some value =>
    obtain ⟨json, sent, read⟩ := unmarshalJson_marshalJson (sendable value rfl)
    refine ⟨some json, by simp [sent], ?_⟩
    cases back : Value.unmarshalJson json <;>
      simp [readField, back, Result.within, ← read]

mutual

/-- Every value of the predicate is so. -/
def Pred.Each (holds : Value → Prop) : Pred → Prop
  | .eq _ value => holds value
  | .range _ lo hi _ _ => (∀ value ∈ lo, holds value) ∧ ∀ value ∈ hi, holds value
  | .and preds => EachAll holds preds
  | .not pred => pred.Each holds

def EachAll (holds : Value → Prop) : List Pred → Prop
  | [] => True
  | pred :: preds => pred.Each holds ∧ EachAll holds preds

end

mutual

theorem unmarshalPred_marshalPred : (pred : Pred) → pred.Each Value.Sendable →
    ∃ json, marshalPred pred = some json ∧
      (unmarshalPred json = .ok pred ↔ pred.Each Value.Kept)
  | .eq slot value, sendable => by
      rw [Pred.Each] at sendable
      obtain ⟨json, sent, read⟩ := unmarshalJson_marshalJson sendable
      refine ⟨_, by simp [marshalPred, sent]; rfl, ?_⟩
      rw [Pred.Each, ← read]
      cases back : Value.unmarshalJson json <;>
        simp [unmarshalPred, readField, back, Result.within, bind, Except.bind, pure, Except.pure]
  | .range slot lo hi loIncl hiIncl, sendable => by
      rw [Pred.Each] at sendable
      obtain ⟨low, lowSent, lowRead⟩ := readField_marshalJson sendable.1
      obtain ⟨high, highSent, highRead⟩ := readField_marshalJson sendable.2
      refine ⟨_, by simp [marshalPred, lowSent, highSent]; rfl, ?_⟩
      rw [Pred.Each, ← lowRead, ← highRead]
      have none : readField none = .ok none := rfl
      cases lowBack : readField low <;> cases highBack : readField high <;>
        simp [unmarshalPred, none, lowBack, highBack, bind, Except.bind, pure, Except.pure]
  | .and preds, sendable => by
      rw [Pred.Each] at sendable
      obtain ⟨json, sent, read⟩ := unmarshalPreds_marshalPreds preds sendable
      refine ⟨_, by simp [marshalPred, sent]; rfl, ?_⟩
      rw [Pred.Each, ← read]
      have none : readField none = .ok none := rfl
      cases back : unmarshalPreds json <;>
        simp [unmarshalPred, none, back, bind, Except.bind, Functor.map, Except.map]
  | .not pred, sendable => by
      rw [Pred.Each] at sendable
      obtain ⟨json, sent, read⟩ := unmarshalPred_marshalPred pred sendable
      refine ⟨_, by simp [marshalPred, sent]; rfl, ?_⟩
      rw [Pred.Each, ← read]
      have none : readField none = .ok none := rfl
      cases back : unmarshalPred json <;>
        simp [unmarshalPred, unmarshalOperand, none, back, bind, Except.bind, Functor.map,
          Except.map]

theorem unmarshalPreds_marshalPreds : (preds : List Pred) → EachAll Value.Sendable preds →
    ∃ json, marshalPreds preds = some json ∧
      (unmarshalPreds json = .ok preds ↔ EachAll Value.Kept preds)
  | [], _ => ⟨[], by rw [marshalPreds], by simp [unmarshalPreds, EachAll]⟩
  | pred :: preds, sendable => by
      rw [EachAll] at sendable
      obtain ⟨json, sent, read⟩ := unmarshalPred_marshalPred pred sendable.1
      obtain ⟨rest, restSent, restRead⟩ := unmarshalPreds_marshalPreds preds sendable.2
      refine ⟨json :: rest, by simp [marshalPreds, sent, restSent], ?_⟩
      rw [EachAll, ← read, ← restRead]
      cases back : unmarshalPred json <;> cases restBack : unmarshalPreds rest <;>
        simp [unmarshalPreds, back, restBack, bind, Except.bind, pure, Except.pure]

end

/-- The filter comes through the wire and means what it meant. -/
def Survives (preds : List Pred) : Prop :=
  ∃ json result, marshalPreds preds = some json ∧ unmarshalPreds json = .ok result ∧
    ∀ row, matchRow row result = matchRow row preds

theorem unmarshalPreds_eq {slot : UInt16} {value : Value} {json : List PredJson}
    {result : List Pred} (sent : marshalPreds [.eq slot value] = some json)
    (read : unmarshalPreds json = .ok result) : ∃ other, result = [.eq slot other] := by
  cases sending : value.marshalJson with
  | none => simp [marshalPreds, marshalPred, sending] at sent
  | some field =>
    simp only [marshalPreds, marshalPred, sending, Option.pure_def, Option.bind_eq_bind,
      Option.bind_some, Option.some.injEq] at sent
    subst sent
    cases back : Value.unmarshalJson field <;>
      simp [unmarshalPreds, unmarshalPred, readField, back, Result.within, bind, Except.bind,
        pure, Except.pure] at read
    exact ⟨_, read.symm⟩

/-- An equality tells a value from every other one: some row has it in the slot. -/
theorem eq_of_matchRow {slot : UInt16} {value other : Value}
    (same : ∀ row, matchRow row [.eq slot other] = matchRow row [.eq slot value]) :
    other = value := by
  have there := same ((⟨1, []⟩ : Row).set slot.toNat value)
  simpa [matchRow, Pred.eval, Row.get_set, eq_comm] using there

/-- A filter is the same after the wire exactly where its 64-bit numbers are written again with
their own digits, and then it means the same; an equality that is not the same does not. -/
theorem filter_survives_wire (preds : List Pred) (sendable : EachAll Value.Sendable preds) :
    (∃ json, marshalPreds preds = some json ∧
      (unmarshalPreds json = .ok preds ↔ EachAll Value.Kept preds)) ∧
    (EachAll Value.Kept preds → Survives preds) ∧
    ∀ slot value, preds = [.eq slot value] → (Survives preds ↔ value.Kept) := by
  obtain ⟨json, sent, read⟩ := unmarshalPreds_marshalPreds preds sendable
  have survives (kept : EachAll Value.Kept preds) : Survives preds :=
    ⟨json, preds, sent, read.mpr kept, fun _ => rfl⟩
  refine ⟨⟨json, sent, read⟩, survives, ?_⟩
  rintro slot value rfl
  have single : EachAll Value.Kept [.eq slot value] ↔ value.Kept := by
    simp [EachAll, Pred.Each]
  refine ⟨?_, fun kept => survives (single.mpr kept)⟩
  rintro ⟨again, result, sentAgain, readAgain, same⟩
  obtain rfl := Option.some.inj (sentAgain.symm.trans sent)
  obtain ⟨other, rfl⟩ := unmarshalPreds_eq sent readAgain
  rw [eq_of_matchRow same] at readAgain
  exact single.mp (read.mp readAgain)

theorem filter_survives_wire_nested :
    Survives [.and [.not (.eq 3 (.u64 (2 ^ 54))), .range 0 none (some (.str [0x61])) true false]] ∧
      ¬ Survives [.eq 0 (.u64 9007199254740993)] := by
  have exact : KeepsDigits (2 ^ 54) := by
    unfold KeepsDigits
    decide +kernel
  have changed : ¬ KeepsDigits 9007199254740993 := by
    unfold KeepsDigits
    decide +kernel
  refine ⟨(filter_survives_wire _ ?_).2.1 ?_, fun survives =>
    changed (((filter_survives_wire _ ?_).2.2 _ _ rfl).mp survives)⟩
  · simp [EachAll, Pred.Each, Value.Sendable]
    decide
  · simp [EachAll, Pred.Each, Value.Kept]
    exact exact
  · simp [EachAll, Pred.Each, Value.Sendable]

/-- The filter for 2^53 + 1 comes back as the filter for 2^53, and the one for the largest
number is refused. -/
theorem large_numbers_change_on_wire :
    (∃ json result, marshalPreds [.eq 0 (.u64 9007199254740993)] = some json ∧
      unmarshalPreds json = .ok result ∧
      matchRow ⟨1, [some (.u64 9007199254740992)]⟩ result = true ∧
      matchRow ⟨1, [some (.u64 9007199254740992)]⟩ [.eq 0 (.u64 9007199254740993)] = false) ∧
    ∃ json, marshalPreds [.eq 0 (.u64 18446744073709551615)] = some json ∧
      unmarshalPreds json = .error ⟨.invalid, "attr.unmarshalPred", "%v", []⟩ := by
  have digits : shortestDigits (nearestFloat64 9007199254740993) = 9007199254740992 := by
    decide +kernel
  have outside : shortestDigits (nearestFloat64 18446744073709551615) = 18446744073709552000 := by
    decide +kernel
  refine ⟨⟨[⟨"eq", none, some ⟨"u64", .digits 9007199254740993⟩, none, none, none, none, [], none⟩],
    [.eq 0 (.u64 9007199254740992)], rfl, ?_, by decide, by decide⟩,
    [⟨"eq", none, some ⟨"u64", .digits 18446744073709551615⟩, none, none, none, none, [], none⟩],
    rfl, ?_⟩
  · simp [unmarshalPreds, unmarshalPred, readField, Value.unmarshalJson, Scalar.again, digits,
      Scalar.uint]
    rfl
  · simp [unmarshalPreds, unmarshalPred, readField, Value.unmarshalJson, Scalar.again, outside,
      Scalar.uint]
    rfl

end Remem.Attr
