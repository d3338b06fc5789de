import Remem.Keys.Order

/-!
# Attribute values

A typed scalar addressed by a slot, its order-preserving bytes and its bytes in a
row. Each constructor of the source gives a value its type, so a value is one of
the typed cases; a number of type `f32` is never NaN nor negative zero.
-/

namespace Remem.Attr

open Base Keys List

inductive SlotType where
  | unspecified
  | bool
  | u8
  | u32
  | u64
  | f32
  | string
  deriving DecidableEq, Repr

/-- The number of a type, which orders values of unlike types. -/
def SlotType.number : SlotType → Nat
  | unspecified => 0
  | bool => 1
  | u8 => 2
  | u32 => 3
  | u64 => 4
  | f32 => 5
  | string => 6

def SlotType.name : SlotType → String
  | unspecified => "unspecified"
  | bool => "bool"
  | u8 => "u8"
  | u32 => "u32"
  | u64 => "u64"
  | f32 => "f32"
  | string => "string"

/-- A `float32` as a slot holds it: neither NaN nor negative zero. -/
structure SlotFloat where
  bits : UInt32
  number : Binary32.isNaN bits = false
  unsigned : bits ≠ 0x80000000
  deriving DecidableEq

/-- The folding `F32` does: NaN and negative zero become zero. -/
def SlotFloat.normalise (bits : UInt32) : SlotFloat :=
  if ordinary : Binary32.isNaN bits = false ∧ Binary32.isZero bits = false then
    ⟨bits, ordinary.1, by
      rintro rfl
      exact absurd ordinary.2 (by decide)⟩
  else ⟨0, by decide, by decide⟩

inductive Value where
  | bool (value : Bool)
  | u8 (value : UInt8)
  | u32 (value : UInt32)
  | u64 (value : UInt64)
  | f32 (value : SlotFloat)
  | str (value : Bytes)
  deriving DecidableEq

/-- `F32`. -/
def Value.ofFloat32 (bits : UInt32) : Value := .f32 (.normalise bits)

namespace Value

def type : Value → SlotType
  | bool _ => .bool
  | u8 _ => .u8
  | u32 _ => .u32
  | u64 _ => .u64
  | f32 _ => .f32
  | str _ => .string

def orderBytes : Value → Bytes
  | bool value => putBool value
  | u8 value => putUint8 value
  | u32 value => putUint32 value
  | u64 value => putUint64 value
  | f32 value => putFloat32 value.bits
  | str value => putString value

def compare : Value → Value → Ordering
  | bool first, bool second => Ord.compare first.toNat second.toNat
  | u8 first, u8 second => Ord.compare first.toNat second.toNat
  | u32 first, u32 second => Ord.compare first.toNat second.toNat
  | u64 first, u64 second => Ord.compare first.toNat second.toNat
  | f32 first, f32 second =>
    if Binary32.less first.bits second.bits then .lt
    else if Binary32.less second.bits first.bits then .gt
    else .eq
  | str first, str second =>
    if first < second then .lt
    else if second < first then .gt
    else .eq
  | first, second => Ord.compare first.type.number second.type.number

/-- `encodeValue`: a value as a row carries it. -/
def encode : Value → Bytes
  | str value => appendUvarint value.length ++ value
  | value => value.orderBytes

end Value

def decodeString (bytes : Bytes) : Result (Value × Bytes) :=
  match uvarint bytes with
  | none => .error ⟨.corruption, "attr.decodeValue",
      "a string value ends before its length prefix", []⟩
  | some (length, width) =>
    let rest := bytes.drop width
    if rest.length < length then
      .error ⟨.corruption, "attr.decodeValue",
        "a string value declares %d bytes and %d remain", [.number length, .number rest.length]⟩
    else .ok (.str (rest.take length), rest.drop length)

def decodeValue (type : SlotType) (bytes : Bytes) : Result (Value × Bytes) :=
  match type with
  | .bool => (getBool bytes).map fun read => (.bool read.1, read.2)
  | .u8 => (getUint8 bytes).map fun read => (.u8 read.1, read.2)
  | .u32 => (getUint32 bytes).map fun read => (.u32 read.1, read.2)
  | .u64 => (getUint64 bytes).map fun read => (.u64 read.1, read.2)
  | .f32 => (getFloat32 bytes).map fun read => (.ofFloat32 read.1, read.2)
  | .string => decodeString bytes
  | .unspecified =>
    .error ⟨.corruption, "attr.decodeValue",
      "slot type %s has no width, so nothing can be read at this offset",
      [.word SlotType.unspecified.name]⟩

theorem SlotFloat.normalise_bits (number : SlotFloat) :
    SlotFloat.normalise number.bits = number := by
  obtain ⟨bits, notNaN, unsigned⟩ := number
  rw [normalise]
  split
  · rfl
  next notOrdinary =>
  -- the only zero a slot holds is the positive one
  have zero : Binary32.isZero bits = true := by
    by_contra nonzero
    exact notOrdinary ⟨notNaN, by simpa using nonzero⟩
  have equal : bits = 0 := by
    apply Binary32.rank_inj unsigned (by decide)
    have noMagnitude : Binary32.magnitude bits = 0 := by
      simpa [Binary32.isZero] using zero
    have rank : Binary32.rank bits = 0 := by simp [Binary32.rank, noMagnitude]
    rw [rank]
    decide
  subst equal
  rfl

theorem getUint32_append (number : UInt32) (tail : Bytes) :
    getUint32 (uint32 number ++ tail) = .ok (number, tail) := by
  have width : (uint32 number).length = 4 := length_bigEndian 4 _
  rw [getUint32, if_neg (by rw [length_append, width]; omega), take_left' width, drop_left' width,
    toUInt32_ofBigEndian_uint32]

theorem getUint64_append (number : UInt64) (tail : Bytes) :
    getUint64 (uint64 number ++ tail) = .ok (number, tail) := by
  have width : (uint64 number).length = 8 := length_bigEndian 8 _
  rw [getUint64, if_neg (by rw [length_append, width]; omega), take_left' width, drop_left' width,
    toUInt64_ofBigEndian_uint64]

theorem getFloat32_append (bits : UInt32) (tail : Bytes) :
    getFloat32 (putFloat32 bits ++ tail) = .ok (bits, tail) := by
  have width : (putFloat32 bits).length = 4 := length_bigEndian 4 _
  rw [getFloat32, if_neg (by rw [length_append, width]; omega), take_left' width,
    drop_left' width, putFloat32, toUInt32_ofBigEndian_uint32, unorderFloat32_orderFloat32]

/-- A value a row can carry; a string's length fits the prefix. -/
def Value.Fits : Value → Prop
  | .str value => value.length < 2 ^ 64
  | _ => True

theorem decodeValue_encode {value : Value} (fits : value.Fits) (tail : Bytes) :
    decodeValue value.type (value.encode ++ tail) = .ok (value, tail) := by
  cases value with
  | bool flag =>
    cases flag <;> rfl
  | u8 number => rfl
  | u32 number =>
    simp [decodeValue, Value.type, Value.encode, Value.orderBytes, putUint32,
      getUint32_append, Except.map]
  | u64 number =>
    simp [decodeValue, Value.type, Value.encode, Value.orderBytes, putUint64,
      getUint64_append, Except.map]
  | f32 number =>
    simp [decodeValue, Value.type, Value.encode, Value.orderBytes, getFloat32_append,
      Except.map, Value.ofFloat32, SlotFloat.normalise_bits]
  | str text =>
    simp only [decodeValue, Value.type, Value.encode, append_assoc, decodeString]
    rw [uvarint_append fits]
    simp

namespace Value

/-- What the comparison of two values says of the values and of their bytes under
any tails. -/
inductive Compared (first second : Value) : Ordering → Prop where
  | less (bytes : ∀ firstTail secondTail : Bytes,
      first.orderBytes ++ firstTail < second.orderBytes ++ secondTail) :
      Compared first second .lt
  | same (equal : first = second) : Compared first second .eq
  | greater (bytes : ∀ firstTail secondTail : Bytes,
      second.orderBytes ++ firstTail < first.orderBytes ++ secondTail) :
      Compared first second .gt

theorem compared_of_toNat {Number : Type} (toNat : Number → Nat)
    (make : Number → Value) (injective : Function.Injective toNat)
    (ordered : ∀ first second, toNat first < toNat second → ∀ firstTail secondTail : Bytes,
      (make first).orderBytes ++ firstTail < (make second).orderBytes ++ secondTail)
    (first second : Number) :
    Compared (make first) (make second) (Ord.compare (toNat first) (toNat second)) := by
  rcases lt_trichotomy (toNat first) (toNat second) with less | same | greater
  · rw [Nat.compare_eq_lt.mpr less]
    exact .less (ordered first second less)
  · rw [Nat.compare_eq_eq.mpr same]
    exact .same (congrArg make (injective same))
  · rw [Nat.compare_eq_gt.mpr greater]
    exact .greater (ordered second first greater)

variable {first second : Value}

theorem compared (types : first.type = second.type) :
    Compared first second (first.compare second) := by
  cases first <;> cases second <;> cases types
  case bool.bool.refl first second =>
      refine compared_of_toNat Bool.toNat bool ?_ ?_ first second
      · decide
      · intro first second less
        apply putBool_order
        revert less
        cases first <;> cases second <;> decide
  case u8.u8.refl first second =>
      refine compared_of_toNat UInt8.toNat u8 (fun _ _ => UInt8.toNat_inj.mp) ?_ first second
      exact fun _ _ less => putUint8_order (UInt8.lt_iff_toNat_lt.mpr less)
  case u32.u32.refl first second =>
      refine compared_of_toNat UInt32.toNat u32 (fun _ _ => UInt32.toNat_inj.mp) ?_ first second
      exact fun _ _ less => putUint32_order (UInt32.lt_iff_toNat_lt.mpr less)
  case u64.u64.refl first second =>
      refine compared_of_toNat UInt64.toNat u64 (fun _ _ => UInt64.toNat_inj.mp) ?_ first second
      exact fun _ _ less => putUint64_order (UInt64.lt_iff_toNat_lt.mpr less)
  case f32.f32.refl first second =>
      simp only [compare, Binary32.less, first.number, second.number, Bool.not_false,
        Bool.true_and, decide_eq_true_eq]
      rcases lt_trichotomy (Binary32.rank first.bits) (Binary32.rank second.bits) with
        less | same | greater
      · rw [if_pos less]
        exact .less (putFloat32_order less)
      · rw [if_neg same.not_lt, if_neg same.not_gt]
        have bits := Binary32.rank_inj first.unsigned second.unsigned same
        obtain ⟨firstBits, _, _⟩ := first
        obtain ⟨secondBits, _, _⟩ := second
        subst bits
        exact .same rfl
      · rw [if_neg greater.asymm, if_pos greater]
        exact .greater (putFloat32_order greater)
  case str.str.refl first second =>
      simp only [compare]
      rcases lt_trichotomy first second with less | same | greater
      · rw [if_pos less]
        exact .less (putString_order less)
      · rw [if_neg same.not_lt, if_neg same.not_gt]
        exact .same (congrArg str same)
      · rw [if_neg greater.asymm, if_pos greater]
        exact .greater (putString_order greater)

theorem orderBytes_append_inj (types : first.type = second.type) {firstTail secondTail : Bytes}
    (equal : first.orderBytes ++ firstTail = second.orderBytes ++ secondTail) :
    first = second ∧ firstTail = secondTail := by
  have compared := compared types
  generalize first.compare second = ordering at compared
  cases compared with
  | less bytes => exact absurd equal (bytes firstTail secondTail).ne
  | same values =>
    subst values
    exact ⟨rfl, append_cancel_left equal⟩
  | greater bytes => exact absurd equal.symm (bytes secondTail firstTail).ne

theorem orderBytes_inj (types : first.type = second.type)
    (equal : first.orderBytes = second.orderBytes) : first = second := by
  have appended : first.orderBytes ++ [] = second.orderBytes ++ [] := by rw [equal]
  exact (orderBytes_append_inj types appended).1

theorem eq_of_compare (types : first.type = second.type) (same : first.compare second = .eq) :
    first = second := by
  have compared := compared types
  rw [same] at compared
  cases compared with
  | same equal => exact equal

end Value

end Remem.Attr
