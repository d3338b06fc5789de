import Remem.Attr.Value
import Remem.Base.OrderedMap

/-!
# Slot tables and rows

The registered table of attribute slots, a record projected onto it and the packed
bytes of such a row:

    [u8 row format version] [u32 slot schema version] [u8 bitmap length] [bitmap]
    [values, ascending slot order, present slots only]
-/

namespace Remem.Attr

open Base Keys List Option Bool

def maxEncodableSlot : Nat := 2039

structure SlotDef where
  slot : UInt16
  name : String
  type : SlotType
  indexed : Bool := false
  retired : Bool := false
  deriving DecidableEq, Repr

/-- `schema.Slots`: the declarations by slot number, with what `Register` refuses
ruled out. -/
structure Slots where
  version : UInt32
  defs : OrderedMap Nat SlotDef
  keyed : ∀ entry ∈ defs.entries, entry.2.slot.toNat = entry.1
  typed : ∀ entry ∈ defs.entries, entry.2.type ≠ .unspecified
  encodable : ∀ entry ∈ defs.entries, entry.1 ≤ maxEncodableSlot

namespace Slots

/-- `NewSlots`. -/
def new (version : UInt32) : Slots where
  version
  defs := .empty
  keyed _ membership := by cases membership
  typed _ membership := by cases membership
  encodable _ membership := by cases membership

/-- `Get`, retired or not. -/
def get (table : Slots) (slot : Nat) : Option SlotDef := table.defs.get slot

def register (table : Slots) (declared : SlotDef) : Result Slots :=
  let refuse (format : String) (operands : List Operand) : Result Slots :=
    .error ⟨.invalid, "schema.Slots.Register", format, operands⟩
  let slot : Operand := .number declared.slot.toNat
  if declared.name = "" then refuse "slot %d has no name" [slot]
  else if typed : declared.type = .unspecified then
    refuse "slot %d (%q) has no type; a slot with no type has no width, and nothing can skip past it"
      [slot, .word declared.name]
  else if encodable : maxEncodableSlot < declared.slot.toNat then
    refuse ("slot %d (%q) exceeds the highest encodable slot %d; an attribute row addresses " ++
      "slots through a presence bitmap whose length is one byte")
      [slot, .word declared.name, .number maxEncodableSlot]
  else match table.get declared.slot.toNat with
    | some existing =>
      refuse "slot %d is already %q and a slot number is never reused; retire it and add a new one instead"
        [slot, .word existing.name]
    | none =>
      match (table.defs.entries.map Prod.snd).find? fun other => other.name = declared.name with
      | some other =>
        refuse "slot %d is named %q, which slot %d already answers to"
          [slot, .word declared.name, .number other.slot.toNat]
      | none =>
        .ok {
          version := table.version
          defs := table.defs.set declared.slot.toNat declared
          keyed := by
            intro entry membership
            rcases OrderedMap.mem_set.mp membership with rfl | ⟨earlier, _⟩
            · rfl
            · exact table.keyed entry earlier
          typed := by
            intro entry membership
            rcases OrderedMap.mem_set.mp membership with rfl | ⟨earlier, _⟩
            · exact typed
            · exact table.typed entry earlier
          encodable := by
            intro entry membership
            rcases OrderedMap.mem_set.mp membership with rfl | ⟨earlier, _⟩
            · exact not_lt.mp encodable
            · exact table.encodable entry earlier }

/-- `IndexedSlots`: the live slots with an ordered index, in slot order. -/
def indexedSlots (table : Slots) : List SlotDef :=
  (table.defs.entries.map Prod.snd).filter fun declared =>
    declared.indexed && !declared.retired

def maxSlot (table : Slots) : Nat :=
  table.defs.entries.foldl (fun highest entry => max highest entry.1) 0

def bitmapLen (table : Slots) : Nat :=
  if table.defs.entries.length = 0 then 0 else table.maxSlot / 8 + 1

end Slots

def rowFormatVersion : UInt8 := 1

/-- `Row`: a value at each slot number the row carries. -/
structure Row where
  schemaVersion : UInt32
  values : List (Option Value) := []

namespace Row

def set (row : Row) (slot : Nat) (value : Value) : Row :=
  { row with
    values := (row.values ++ List.replicate (slot + 1 - row.values.length) none).set slot
      (some value) }

def get (row : Row) (slot : Nat) : Option Value := (row.values[slot]?).join

/-- `Slots`: the slot numbers the row carries, ascending. -/
def slots (row : Row) : List Nat :=
  (List.range row.values.length).filter fun slot => (row.get slot).isSome

def slotMask (slot : Nat) : UInt8 := 1 <<< (slot % 8).toUInt8

def setBit (bitmap : Bytes) (slot : Nat) : Bytes :=
  bitmap.modify (slot / 8) fun byte => byte ||| slotMask slot

def hasBit (bitmap : Bytes) (slot : Nat) : Bool :=
  (bitmap[slot / 8]?).getD 0 &&& slotMask slot ≠ 0

def bitmapWidth (row : Row) (table : Slots) : Nat :=
  max (match row.slots.getLast? with
    | none => 0
    | some highest => highest / 8 + 1) table.bitmapLen

/-- What the row carries at a slot, as `Encode` writes it. -/
def encodedAt (row : Row) (slot : Nat) : Bytes := ((row.get slot).map Value.encode).getD []

def encode (row : Row) (table : Slots) : Result Bytes :=
  let slots := row.slots
  match slots.getLast?.filter fun highest => maxEncodableSlot < highest with
  | some highest =>
    .error ⟨.invalid, "attr.Row.Encode", "row carries slot %d, above the highest encodable slot %d",
      [.number highest, .number maxEncodableSlot]⟩
  | none =>
    let bitmapLen := row.bitmapWidth table
    let bitmap := slots.foldl setBit (List.replicate bitmapLen 0)
    .ok (rowFormatVersion :: (uint32 row.schemaVersion ++ bitmapLen.toUInt8 ::
      (bitmap ++ slots.flatMap row.encodedAt)))

end Row

/-- The loop of `DecodeRow` over the slot numbers the bitmap can hold. -/
def decodeSlots (table : Slots) (bitmap : Bytes) : List Nat → Bytes → Row → Result Row
  | [], _, row => .ok row
  | slot :: slots, bytes, row =>
    if !Row.hasBit bitmap slot then decodeSlots table bitmap slots bytes row
    else match table.get slot with
      | none =>
        .error ⟨.corruption, "attr.DecodeRow",
          "attribute row carries slot %d, which the registered schema does not declare; " ++
            "without a type it has no width, so nothing after it can be read",
          [.number slot]⟩
      | some declared =>
        match decodeValue declared.type bytes with
        | .error _ =>
          .error ⟨.corruption, "attr.DecodeRow", "slot %d (%q): %w",
            [.number slot, .word declared.name]⟩
        | .ok (value, rest) =>
          decodeSlots table bitmap slots rest (if declared.retired then row else row.set slot value)

def decodeRow (table : Slots) (bytes : Bytes) : Result Row :=
  if bytes.length < 6 then
    .error ⟨.corruption, "attr.DecodeRow", "attribute row is %d bytes, need at least %d",
      [.number bytes.length, .number 6]⟩
  else
    let version := bytes.headD 0
    let bitmapLen := ((bytes.drop 5).headD 0).toNat
    if version ≠ rowFormatVersion then
      .error ⟨.corruption, "attr.DecodeRow",
        "attribute row format version %d is not one this binary reads (it writes %d)",
        [.number version.toNat, .number rowFormatVersion.toNat]⟩
    else if bytes.length < 6 + bitmapLen then
      .error ⟨.corruption, "attr.DecodeRow", "attribute row is truncated inside its bitmap", []⟩
    else
      let row : Row := ⟨(ofBigEndian ((bytes.drop 1).take 4)).toUInt32,
        List.replicate (bitmapLen * 8) none⟩
      decodeSlots table ((bytes.drop 6).take bitmapLen) (List.range (bitmapLen * 8))
        (bytes.drop (6 + bitmapLen)) row

namespace Row

theorem get_set (row : Row) (slot other : Nat) (value : Value) :
    (row.set slot value).get other = if other = slot then some value else row.get other := by
  unfold set get
  have inside : slot < (row.values ++
      List.replicate (slot + 1 - row.values.length) none).length := by
    simp
    omega
  by_cases same : other = slot
  · subst same
    simp [getElem?_set_self inside]
  rw [getElem?_set_ne (Ne.symm same), if_neg same, getElem?_append]
  split
  · rfl
  next outside =>
  rw [getElem?_eq_none (by omega : row.values.length ≤ other)]
  simp only [getElem?_replicate]
  split <;> rfl

variable {slot : Nat}

theorem lt_length_of_get {row : Row} {value : Value} (found : row.get slot = some value) :
    slot < row.values.length := by
  by_contra outside
  rw [get, getElem?_eq_none (not_lt.mp outside)] at found
  cases found

theorem mem_slots {row : Row} : slot ∈ row.slots ↔ (row.get slot).isSome := by
  rw [slots, mem_filter, mem_range]
  refine ⟨fun member => member.2, fun present => ⟨?_, present⟩⟩
  rcases isSome_iff_exists.mp present with ⟨value, found⟩
  exact lt_length_of_get found

theorem toNat_slotMask (slot : Nat) : (slotMask slot).toNat = 2 ^ (slot % 8) := by
  have small : slot % 8 < 8 := Nat.mod_lt _ (by omega)
  unfold slotMask
  generalize slot % 8 = bit at small
  interval_cases bit <;> rfl

theorem and_slotMask_ne_zero_iff (byte : UInt8) (slot : Nat) :
    byte &&& slotMask slot ≠ 0 ↔ byte.toNat.testBit (slot % 8) = true := by
  rw [← UInt8.toNat_inj.ne, UInt8.toNat_and, toNat_slotMask, Nat.and_two_pow]
  cases set : byte.toNat.testBit (slot % 8) <;> simp

theorem hasBit_setBit {bitmap : Bytes} (inside : slot / 8 < bitmap.length) (other : Nat) :
    hasBit (setBit bitmap slot) other = (decide (other = slot) || hasBit bitmap other) := by
  unfold hasBit setBit
  by_cases sameByte : slot / 8 = other / 8
  · have marked : (bitmap.modify (slot / 8) fun byte => byte ||| slotMask slot)[other / 8]? =
        (bitmap[other / 8]?).map fun byte => byte ||| slotMask slot := by
      rw [← sameByte, getElem?_modify_eq]
      rfl
    rw [marked]
    have present := getElem?_eq_getElem (sameByte ▸ inside : other / 8 < bitmap.length)
    rw [present]
    simp only [map_some, getD_some]
    rw [Bool.eq_iff_iff]
    simp only [decide_eq_true_eq, or_eq_true, and_slotMask_ne_zero_iff, UInt8.toNat_or,
      toNat_slotMask, Nat.testBit_or, Nat.testBit_two_pow]
    have sameBit : slot % 8 = other % 8 ↔ other = slot := by omega
    rw [sameBit]
    tauto
  · have different : other ≠ slot := by
      rintro rfl
      exact sameByte rfl
    rw [getElem?_modify_ne _ _ sameByte]
    simp [different]

theorem length_foldl_setBit (slots : List Nat) (bitmap : Bytes) :
    (slots.foldl setBit bitmap).length = bitmap.length := by
  induction slots generalizing bitmap with
  | nil => rfl
  | cons slot slots ih =>
    rw [foldl_cons, ih]
    simp [setBit]

theorem hasBit_foldl_setBit (slots : List Nat) (bitmap : Bytes)
    (inside : ∀ slot ∈ slots, slot / 8 < bitmap.length) (other : Nat) :
    hasBit (slots.foldl setBit bitmap) other = (decide (other ∈ slots) || hasBit bitmap other) := by
  induction slots generalizing bitmap with
  | nil => simp
  | cons slot slots ih =>
    rw [foldl_cons, ih, hasBit_setBit (inside slot (by simp))]
    · rw [Bool.eq_iff_iff]
      simp only [or_eq_true, decide_eq_true_eq, mem_cons]
      tauto
    · intro later membership
      rw [setBit, length_modify]
      exact inside later (mem_cons_of_mem _ membership)

/-- A row the table can read back: its slots are declared with its values' types. -/
def DeclaredBy (row : Row) (table : Slots) : Prop :=
  ∀ slot value, row.get slot = some value → value.Fits ∧
    ∃ declared, table.get slot = some declared ∧ declared.type = value.type

def liveAt (row : Row) (table : Slots) (slot : Nat) : Option Value :=
  match table.get slot with
  | some declared => if declared.retired then none else row.get slot
  | none => none

end Row

variable {table : Slots}

/-- The decoding loop over encoded slots: each carried slot that is not retired is
set, every other is left. -/
theorem decodeSlots_encoded {bitmap : Bytes} {source : Row} (declared : source.DeclaredBy table)
    (slots : List Nat) (row : Row) (tail : Bytes)
    (bits : ∀ slot ∈ slots, Row.hasBit bitmap slot = (source.get slot).isSome) :
    ∃ after, decodeSlots table bitmap slots (slots.flatMap source.encodedAt ++ tail) row =
        .ok after ∧
      ∀ slot, after.get slot =
        if slot ∈ slots then (source.liveAt table slot).or (row.get slot)
        else row.get slot := by
  induction slots generalizing row with
  | nil => exact ⟨row, rfl, by simp⟩
  | cons slot slots ih =>
    have laterBits := forall_mem_of_forall_mem_cons bits
    have bit := bits slot mem_cons_self
    rw [flatMap_cons, append_assoc]
    cases carried : source.get slot with
    | none =>
      rcases ih row laterBits with ⟨after, decoded, values⟩
      have nothing : source.encodedAt slot = [] := by simp [Row.encodedAt, carried]
      have notLive : source.liveAt table slot = none := by
        unfold Row.liveAt
        split
        · rw [carried, ite_self]
        · rfl
      refine ⟨after, ?_, ?_⟩
      · rw [decodeSlots, nothing, nil_append]
        simpa [bit, carried] using decoded
      intro other
      rw [values other]
      by_cases same : other = slot
      · subst same
        simp [notLive]
      · simp [same]
    | some value =>
      rcases declared slot value carried with ⟨fits, declaration, found, type⟩
      have written : source.encodedAt slot = value.encode := by
        simp [Row.encodedAt, carried]
      rcases ih (if declaration.retired then row else row.set slot value) laterBits with
        ⟨after, decoded, values⟩
      refine ⟨after, ?_, ?_⟩
      · rw [decodeSlots, written]
        simp only [bit, carried, isSome_some, Bool.not_true, false_eq_true,
          if_false, found, type, decodeValue_encode fits]
        exact decoded
      intro other
      rw [values other]
      by_cases same : other = slot
      · subst same
        cases retired : declaration.retired
        · simp [Row.liveAt, found, retired, carried, Row.get_set]
        · simp [Row.liveAt, found, retired]
      cases retired : declaration.retired
      · simp [same, Row.get_set]
      · simp [same]

theorem Slots.bitmapLen_lt (table : Slots) : table.bitmapLen < 256 := by
  have bounded : ∀ entries : List (Nat × SlotDef), (∀ entry ∈ entries, entry.1 ≤ 2039) →
      ∀ start, start ≤ 2039 →
      entries.foldl (fun highest entry => max highest entry.1) start ≤ 2039 := by
    intro entries
    induction entries with
    | nil => exact fun _ _ small => small
    | cons entry entries ih =>
      intro all start small
      apply ih
      · exact fun later membership => all later (mem_cons_of_mem _ membership)
      · exact max_le small (all entry mem_cons_self)
  have highest : table.maxSlot ≤ 2039 := bounded _ table.encodable 0 (by omega)
  rw [bitmapLen]
  split <;> omega

namespace Row

variable {row : Row}

theorem le_getLast_slots {highest : Nat} (last : row.slots.getLast? = some highest) {slot : Nat}
    (carried : slot ∈ row.slots) : slot ≤ highest := by
  have sorted : row.slots.Pairwise (· < ·) := pairwise_lt_range.filter _
  obtain ⟨earlier, shape⟩ := getLast?_eq_some_iff.mp last
  rw [shape] at sorted carried
  rcases mem_append.mp carried with before | equal
  · exact ((pairwise_append.mp sorted).2.2 slot before highest (by simp)).le
  · exact (mem_singleton.mp equal).le

theorem slot_lt_bitmapWidth {slot : Nat} (carried : slot ∈ row.slots) (table : Slots) :
    slot / 8 < row.bitmapWidth table := by
  cases last : row.slots.getLast? with
  | none =>
    rw [getLast?_eq_none_iff] at last
    rw [last] at carried
    cases carried
  | some highest =>
    have bound := le_getLast_slots last carried
    have wide : highest / 8 + 1 ≤ row.bitmapWidth table := by
      rw [bitmapWidth, last]
      exact le_max_left _ _
    omega

theorem flatMap_encodedAt_range {width : Nat} (inside : ∀ slot ∈ row.slots, slot < width) :
    (List.range width).flatMap row.encodedAt = row.slots.flatMap row.encodedAt := by
  have skips : ∀ slots : List Nat, slots.flatMap row.encodedAt =
      (slots.filter fun slot => (row.get slot).isSome).flatMap row.encodedAt := by
    intro slots
    induction slots with
    | nil => rfl
    | cons slot slots ih =>
      rw [flatMap_cons, filter_cons, ih]
      cases carried : row.get slot with
      | none => simp [encodedAt, carried]
      | some value => simp
  have agree : (List.range width).filter (fun slot => (row.get slot).isSome) = row.slots := by
    have sorted : ((List.range width).filter fun slot => (row.get slot).isSome).Pairwise
        (· < ·) := pairwise_lt_range.filter _
    have sortedSlots : row.slots.Pairwise (· < ·) := pairwise_lt_range.filter _
    refine List.Perm.eq_of_pairwise ?_ sorted sortedSlots ?_
    · intro first second _ _ less greater
      omega
    · rw [perm_ext_iff_of_nodup (sorted.imp ne_of_lt) (sortedSlots.imp ne_of_lt)]
      intro slot
      rw [mem_slots, mem_filter, mem_range]
      exact ⟨fun member => member.2, fun carried => ⟨inside slot (mem_slots.mpr carried), carried⟩⟩
  rw [skips, agree]

end Row

theorem hasBit_replicate_zero (width slot : Nat) :
    Row.hasBit (List.replicate width 0) slot = false := by
  have zero : ((List.replicate width (0 : UInt8))[slot / 8]?).getD 0 = 0 := by
    rw [getElem?_replicate]
    split <;> rfl
  rw [Row.hasBit, zero]
  simp

variable {row : Row} {bytes : Bytes}

theorem Row.encode_eq_ok (encoded : row.encode table = .ok bytes) : row.bitmapWidth table < 256 ∧
    bytes = rowFormatVersion :: (uint32 row.schemaVersion ++ (row.bitmapWidth table).toUInt8 ::
        (row.slots.foldl Row.setBit (List.replicate (row.bitmapWidth table) 0) ++
          row.slots.flatMap row.encodedAt)) := by
  unfold Row.encode at encoded
  cases checked : row.slots.getLast?.filter fun highest => maxEncodableSlot < highest with
  | some highest =>
    simp only [checked] at encoded
    cases encoded
  | none =>
    simp only [checked, Except.ok.injEq] at encoded
    refine ⟨max_lt ?_ table.bitmapLen_lt, encoded.symm⟩
    cases last : row.slots.getLast? with
    | none => simp
    | some highest =>
      rw [last, filter_eq_none_iff] at checked
      have small : ¬ 2039 < highest := fun large => checked highest rfl (decide_eq_true large)
      change highest / 8 + 1 < 256
      omega

theorem Row.encodes_of_le (table : Slots)
    (small : ∀ slot value, row.get slot = some value → slot ≤ maxEncodableSlot) :
    ∃ bytes, row.encode table = .ok bytes := by
  unfold Row.encode
  cases checked : row.slots.getLast?.filter fun highest => maxEncodableSlot < highest with
  | none =>
    simp only [checked]
    exact ⟨_, rfl⟩
  | some highest =>
    obtain ⟨last, large⟩ := filter_eq_some_iff.mp checked
    have carried := Row.mem_slots.mp (mem_of_getLast? last)
    obtain ⟨value, found⟩ := isSome_iff_exists.mp carried
    exact absurd (of_decide_eq_true large) (small highest value found).not_gt

theorem decodeRow_encode {writer : Slots} (declared : row.DeclaredBy table)
    (encoded : row.encode writer = .ok bytes) :
    ∃ after, decodeRow table bytes = .ok after ∧
      ∀ slot, after.get slot = row.liveAt table slot := by
  obtain ⟨narrow, shape⟩ := Row.encode_eq_ok encoded
  have inside : ∀ slot ∈ row.slots, slot / 8 < row.bitmapWidth writer :=
    fun slot carried => Row.slot_lt_bitmapWidth carried writer
  generalize row.bitmapWidth writer = width at shape narrow inside
  have insideSlots : ∀ slot ∈ row.slots, slot < width * 8 := by
    intro slot carried
    have := inside slot carried
    omega
  generalize bits : row.slots.foldl Row.setBit (List.replicate width 0) = bitmap at shape
  have bitmapLength : bitmap.length = width := by
    rw [← bits, Row.length_foldl_setBit, length_replicate]
  have marks : ∀ slot ∈ List.range (width * 8), Row.hasBit bitmap slot = (row.get slot).isSome := by
    intro slot _
    rw [← bits, Row.hasBit_foldl_setBit _ _ (by simpa using inside), hasBit_replicate_zero,
      Bool.or_false, Bool.eq_iff_iff, decide_eq_true_eq, Row.mem_slots]
  obtain ⟨after, decoded, values⟩ := decodeSlots_encoded declared (List.range (width * 8))
    ⟨(ofBigEndian (uint32 row.schemaVersion)).toUInt32, List.replicate (width * 8) none⟩ []
    marks
  rw [Row.flatMap_encodedAt_range insideSlots, append_nil] at decoded
  refine ⟨after, ?_, ?_⟩
  · have four : (uint32 row.schemaVersion).length = 4 := length_bigEndian _ _
    have byte : width.toUInt8.toNat = width := by
      simpa using Nat.mod_eq_of_lt narrow
    have header : (bytes.drop 1).take 4 = uint32 row.schemaVersion := by
      rw [shape, drop_succ_cons, drop_zero, take_left' four]
    have lengthByte : bytes.drop 5 = width.toUInt8 :: (bitmap ++ row.slots.flatMap row.encodedAt) := by
      rw [shape, drop_succ_cons, drop_left' four]
    have body : bytes.drop 6 = bitmap ++ row.slots.flatMap row.encodedAt := by
      rw [show 6 = 5 + 1 from rfl, ← drop_drop, lengthByte]
      rfl
    have long : 6 + width ≤ bytes.length := by
      simp [shape, four, bitmapLength]
      omega
    have rest : bytes.drop (6 + width) = row.slots.flatMap row.encodedAt := by
      rw [← drop_drop, body, drop_left' bitmapLength]
    have first : bytes.headD 0 = rowFormatVersion := by
      rw [shape]
      rfl
    unfold decodeRow
    simp only [first, lengthByte, headD_cons, byte, header, body, rest, take_left' bitmapLength]
    rw [if_neg (by omega), if_neg (by simp), if_neg (by omega)]
    exact decoded
  · intro slot
    have empty : Row.get ⟨(ofBigEndian (uint32 row.schemaVersion)).toUInt32,
        List.replicate (width * 8) none⟩ slot = none := by
      rw [Row.get, getElem?_replicate]
      split <;> rfl
    rw [values, empty, or_none]
    split
    · rfl
    next outside =>
    rw [mem_range] at outside
    cases carried : row.get slot with
    | none =>
      unfold Row.liveAt
      split
      · rw [carried, ite_self]
      · rfl
    | some value =>
      exact absurd (insideSlots slot (Row.mem_slots.mpr (by simp [carried]))) outside

theorem decodeValue_type {type : SlotType} {rest : Bytes} {value : Value}
    (decoded : decodeValue type bytes = .ok (value, rest)) : value.type = type := by
  have mapped : ∀ {Read : Type} {result : Result (Read × Bytes)} {make : Read → Value}
      {expected : SlotType}, (∀ read, (make read).type = expected) →
      (result.map fun read => (make read.1, read.2)) = .ok (value, rest) →
      value.type = expected := by
    intro Read result make expected typed equal
    cases result with
    | error fault => cases equal
    | ok read =>
      cases equal
      exact typed _
  cases type with
  | unspecified => cases decoded
  | bool => exact mapped (fun _ => rfl) decoded
  | u8 => exact mapped (fun _ => rfl) decoded
  | u32 => exact mapped (fun _ => rfl) decoded
  | u64 => exact mapped (fun _ => rfl) decoded
  | f32 => exact mapped (fun _ => rfl) decoded
  | string =>
    simp only [decodeValue, decodeString] at decoded
    split at decoded
    · cases decoded
    split at decoded
    · cases decoded
    · cases decoded
      rfl

def Row.TypedBy (row : Row) (table : Slots) : Prop :=
  ∀ slot value, row.get slot = some value →
    ∃ declared, table.get slot = some declared ∧ declared.type = value.type

theorem decodeSlots_typedBy {bitmap : Bytes} {slots : List Nat} {after : Row}
    (decoded : decodeSlots table bitmap slots bytes row = .ok after) (typed : row.TypedBy table) :
    after.TypedBy table := by
  induction slots generalizing bytes row with
  | nil =>
    cases decoded
    exact typed
  | cons slot slots ih =>
    rw [decodeSlots] at decoded
    split at decoded
    · exact ih decoded typed
    split at decoded
    · cases decoded
    next declared registered =>
    split at decoded
    · cases decoded
    next value rest read =>
    apply ih decoded
    split
    · exact typed
    intro other held found
    rw [Row.get_set] at found
    split at found
    · next same =>
      cases found
      exact ⟨declared, same ▸ registered, (decodeValue_type read).symm⟩
    · exact typed other held found

theorem decodeRow_typedBy (decoded : decodeRow table bytes = .ok row) : row.TypedBy table := by
  unfold decodeRow at decoded
  simp only at decoded
  split at decoded
  · cases decoded
  split at decoded
  · cases decoded
  split at decoded
  · cases decoded
  apply decodeSlots_typedBy decoded
  intro slot value found
  rw [Row.get, getElem?_replicate] at found
  split at found <;> cases found

end Remem.Attr
