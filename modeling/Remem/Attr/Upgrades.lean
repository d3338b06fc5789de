import Remem.Attr.Row
import Remem.Base.Blocks
import Remem.Storage.Batch

/-!
# Slot tables over upgrades

The table a binary registers is validated at every start against the one the store keeps, and
replaces it. Each table is compared with the one before it only; a later table still reads
what any earlier one wrote. The protobuf encoding of the kept table is a parameter that reads
back what it wrote.
-/

namespace Remem.Attr

open Base Keys Storage List OrderedMap

namespace Slots

def retire (table : Slots) (slot : UInt16) : Result Slots :=
  match found : table.get slot.toNat with
  | none =>
    .error ⟨.invalid, "schema.Slots.Retire",
      "slot %d is not registered, so there is nothing to retire", [.number slot.toNat]⟩
  | some declared =>
    have listed := OrderedMap.get_eq_some_iff.mp found
    .ok {
      version := table.version
      defs := table.defs.set slot.toNat { declared with retired := true }
      keyed := by
        intro entry membership
        rcases OrderedMap.mem_set.mp membership with rfl | ⟨earlier, _⟩
        · exact table.keyed (slot.toNat, declared) listed
        · exact table.keyed entry earlier
      typed := by
        intro entry membership
        rcases OrderedMap.mem_set.mp membership with rfl | ⟨earlier, _⟩
        · exact table.typed (slot.toNat, declared) listed
        · exact table.typed entry earlier
      encodable := by
        intro entry membership
        rcases OrderedMap.mem_set.mp membership with rfl | ⟨earlier, _⟩
        · exact table.encodable (slot.toNat, declared) listed
        · exact table.encodable entry earlier }

/-- `Defs`: every declaration, in slot order. -/
def declarations (table : Slots) : List SlotDef := table.defs.entries.map Prod.snd

/-- The loop of `Validate` over the declarations of the kept table. -/
def validateDefs (table : Slots) : List SlotDef → Result Unit
  | [] => .ok ()
  | old :: rest =>
    let op := "schema.Slots.Validate"
    let slot : Operand := .number old.slot.toNat
    match table.get old.slot.toNat with
    | none =>
      .error ⟨.incompatibleVersion, op,
        "slot %d (%q) exists on disk but not in the registered schema: retire slots, never " ++
          "drop them — the declaration is the width a reader needs to skip past a value it " ++
          "no longer has a name for", [slot, .word old.name]⟩
    | some now =>
      if now.type ≠ old.type ∨ now.name ≠ old.name then
        .error ⟨.incompatibleVersion, op,
          "slot %d changed from %q/%s to %q/%s: retire the slot and add a new one instead",
          [slot, .word old.name, .word old.type.name, .word now.name, .word now.type.name]⟩
      else if old.retired && !now.retired then
        .error ⟨.incompatibleVersion, op,
          "slot %d (%q) is retired on disk and cannot be revived; rows written since the " ++
            "retirement do not carry it", [slot, .word old.name]⟩
      else validateDefs table rest

def validate (table persisted : Slots) : Result Unit := table.validateDefs persisted.declarations

def equal (table other : Slots) : Bool :=
  decide (table.version = other.version) &&
    decide (table.defs.entries.length = other.defs.entries.length) &&
    table.defs.entries.all fun entry => decide (other.get entry.1 = some entry.2)

end Slots

/-- `pb.Slot`. -/
structure SlotRow where
  slot : UInt32
  name : String
  type : UInt32
  indexed : Bool
  retired : Bool

/-- `pb.SlotSchema`. -/
structure SchemaRow where
  version : UInt32
  slots : List SlotRow

structure SchemaCodec where
  marshal : SchemaRow → Bytes
  unmarshal : Bytes → Option SchemaRow
  unmarshal_marshal : ∀ row, unmarshal (marshal row) = some row

def slotTypeToProto (type : SlotType) : UInt32 := UInt32.ofNat type.number

def slotTypeFromProto (number : UInt32) : SlotType :=
  if number = 1 then .bool
  else if number = 2 then .u8
  else if number = 3 then .u32
  else if number = 4 then .u64
  else if number = 5 then .f32
  else if number = 6 then .string
  else .unspecified

def slotsKey : Bytes := system (ascii "/slots")

def SlotDef.row (declared : SlotDef) : SlotRow :=
  ⟨declared.slot.toUInt32, declared.name, slotTypeToProto declared.type, declared.indexed,
    declared.retired⟩

def Slots.row (table : Slots) : SchemaRow := ⟨table.version, table.declarations.map SlotDef.row⟩

def SlotRow.declared (row : SlotRow) : SlotDef :=
  ⟨row.slot.toUInt16, row.name, slotTypeFromProto row.type, row.indexed, row.retired⟩

def readSlot (table : Slots) (row : SlotRow) : Result Slots :=
  let op := "schema.ReadSlots"
  if maxEncodableSlot < row.slot.toNat then
    .error ⟨.corruption, op, "the slot schema declares slot %d, above the highest encodable slot %d",
      [.number row.slot.toNat, .number maxEncodableSlot]⟩
  else if row.declared.type = .unspecified then
    .error ⟨.corruption, op,
      "slot %d (%q) on disk has a type this binary does not know (%d); it cannot be given a " ++
        "width, so no row carrying it can be decoded",
      [.number row.declared.slot.toNat, .word row.declared.name, .number row.type.toNat]⟩
  else match table.register row.declared with
    | .error _ => .error ⟨.corruption, op, "the slot schema on disk is not a valid table: %w", []⟩
    | .ok table => .ok table

section

variable (codec : SchemaCodec)

def readSlots (store : Store) : Result (Option Slots) :=
  match store.get slotsKey with
  | none => .ok none
  | some value =>
    match codec.unmarshal value with
    | none =>
      .error ⟨.corruption, "schema.ReadSlots", "the slot schema row will not parse", []⟩
    | some row =>
      match row.slots.foldlM readSlot (Slots.new row.version) with
      | .error fault => .error fault
      | .ok table => .ok (some table)

def writeSlots (store : Store) (table : Slots) : Store :=
  store.set slotsKey (codec.marshal table.row)

def openSlots (registered : Slots) (store : Store) : Result Store :=
  match readSlots codec store with
  | .error fault => .error fault
  | .ok none => .ok (writeSlots codec store registered)
  | .ok (some persisted) =>
    match registered.validate persisted with
    | .error fault => .error fault
    | .ok () =>
      if registered.equal persisted then .ok store
      else .ok (writeSlots codec store registered)

end

/-- A table that `Register` and `Retire` made. -/
inductive Slots.Built : Slots → Prop where
  | new (version : UInt32) : Built (.new version)
  | register {table after : Slots} {declared : SlotDef} : Built table →
      table.register declared = .ok after → Built after
  | retire {table after : Slots} {slot : UInt16} : Built table →
      table.retire slot = .ok after → Built after

structure Slots.Named (table : Slots) : Prop where
  named : ∀ entry ∈ table.defs.entries, entry.2.name ≠ ""
  distinct : ∀ first ∈ table.defs.entries, ∀ second ∈ table.defs.entries,
    first.2.name = second.2.name → first.1 = second.1

namespace Slots

variable {table after persisted : Slots} {declared : SlotDef} {slot : UInt16}

theorem register_eq_ok (registered : table.register declared = .ok after) :
    declared.name ≠ "" ∧ (∀ entry ∈ table.defs.entries, entry.2.name ≠ declared.name) ∧
      after.defs = table.defs.set declared.slot.toNat declared := by
  unfold register at registered
  dsimp only at registered
  split at registered
  · cases registered
  next named =>
  split at registered
  · cases registered
  split at registered
  · cases registered
  split at registered
  · cases registered
  split at registered
  · cases registered
  next unused =>
  cases registered
  refine ⟨named, fun entry listed same => ?_, rfl⟩
  have other := find?_eq_none.mp unused entry.2 (mem_map_of_mem listed)
  exact other (decide_eq_true same)

theorem register_of_fresh (named : declared.name ≠ "") (typed : declared.type ≠ .unspecified)
    (encodable : declared.slot.toNat ≤ maxEncodableSlot)
    (free : table.get declared.slot.toNat = none)
    (unused : ∀ entry ∈ table.defs.entries, entry.2.name ≠ declared.name) :
    ∃ after, table.register declared = .ok after ∧ after.version = table.version ∧
      after.defs = table.defs.set declared.slot.toNat declared := by
  have none : (table.defs.entries.map Prod.snd).find? (fun other => other.name = declared.name) =
      none := by
    rw [find?_eq_none]
    intro other listed same
    obtain ⟨entry, isEntry, rfl⟩ := mem_map.mp listed
    exact unused entry isEntry (of_decide_eq_true same)
  unfold register
  dsimp only
  rw [if_neg named, dif_neg typed, dif_neg (not_lt.mpr encodable)]
  split
  · next existing => exact absurd (free.symm.trans existing) nofun
  split
  · next other => exact absurd (none.symm.trans other) nofun
  · exact ⟨_, rfl, rfl, rfl⟩

theorem retire_eq_ok (retired : table.retire slot = .ok after) :
    ∃ declared, (slot.toNat, declared) ∈ table.defs.entries ∧
      after.defs = table.defs.set slot.toNat { declared with retired := true } := by
  unfold retire at retired
  split at retired
  · cases retired
  next declared found =>
  cases retired
  exact ⟨declared, get_eq_some_iff.mp found, rfl⟩

theorem Named.set (named : table.Named) {number : Nat} (hasName : declared.name ≠ "")
    (own : ∀ entry ∈ table.defs.entries, entry.2.name = declared.name → entry.1 = number)
    (sets : after.defs = table.defs.set number declared) : after.Named := by
  constructor
  · intro entry listed
    rw [sets] at listed
    rcases OrderedMap.mem_set.mp listed with rfl | ⟨earlier, _⟩
    · exact hasName
    · exact named.named entry earlier
  · intro first isFirst second isSecond same
    rw [sets] at isFirst isSecond
    rcases OrderedMap.mem_set.mp isFirst with rfl | ⟨firstEarlier, _⟩
    · rcases OrderedMap.mem_set.mp isSecond with rfl | ⟨secondEarlier, _⟩
      · rfl
      · exact (own second secondEarlier same.symm).symm
    rcases OrderedMap.mem_set.mp isSecond with rfl | ⟨secondEarlier, _⟩
    · exact own first firstEarlier same
    · exact named.distinct first firstEarlier second secondEarlier same

theorem Built.named (built : table.Built) : table.Named := by
  induction built with
  | new version =>
    constructor
    · intro entry listed
      cases listed
    · intro entry listed
      cases listed
  | register _ registered ih =>
    obtain ⟨hasName, unused, sets⟩ := register_eq_ok registered
    exact ih.set hasName (fun entry listed same => absurd same (unused entry listed)) sets
  | retire _ retired ih =>
    obtain ⟨declared, listed, sets⟩ := retire_eq_ok retired
    have hasName : ({ declared with retired := true } : SlotDef).name ≠ "" :=
      ih.named _ listed
    exact ih.set hasName (fun entry isEntry same => ih.distinct entry isEntry _ listed same) sets

theorem slotTypeFromProto_toProto (type : SlotType) :
    slotTypeFromProto (slotTypeToProto type) = type := by
  cases type <;> rfl

theorem readSlot_row {entry : Nat × SlotDef} (typed : entry.2.type ≠ .unspecified)
    (keyed : entry.2.slot.toNat = entry.1) (encodable : entry.1 ≤ maxEncodableSlot)
    (named : entry.2.name ≠ "") (above : ∀ earlier ∈ table.defs.entries, earlier.1 < entry.1)
    (unused : ∀ earlier ∈ table.defs.entries, earlier.2.name ≠ entry.2.name) :
    ∃ after, readSlot table entry.2.row = .ok after ∧ after.version = table.version ∧
      after.defs.entries = table.defs.entries ++ [entry] := by
  obtain ⟨number, declared⟩ := entry
  dsimp only at typed keyed encodable named above unused
  subst keyed
  have free : table.get declared.slot.toNat = none := by
    by_contra present
    obtain ⟨other, found⟩ := Option.ne_none_iff_exists'.mp present
    exact absurd (above _ (get_eq_some_iff.mp found)) (lt_irrefl _)
  obtain ⟨after, registered, version, sets⟩ := register_of_fresh named typed encodable free unused
  have same : declared.row.declared = declared := by
    simp [SlotDef.row, SlotRow.declared, slotTypeFromProto_toProto]
  refine ⟨after, ?_, version, ?_⟩
  · unfold readSlot
    dsimp only
    rw [same, if_neg typed, registered]
    exact if_neg (by simpa [SlotDef.row] using encodable)
  · rw [sets, OrderedMap.set]
    dsimp only
    rw [filter_eq_self.mpr fun earlier listed => decide_eq_true (above earlier listed),
      filter_eq_nil_iff.mpr fun earlier listed => by simpa using (above earlier listed).le]

theorem foldlM_readSlot (named : table.Named) {done rest : List (Nat × SlotDef)} {read : Slots}
    (whole : table.defs.entries = done ++ rest) (soFar : read.defs.entries = done) :
    ∃ after, (rest.map fun entry => entry.2.row).foldlM readSlot read = .ok after ∧
      after.version = read.version ∧ after.defs.entries = table.defs.entries := by
  induction rest generalizing done read with
  | nil =>
    rw [append_nil] at whole
    exact ⟨read, rfl, rfl, soFar.trans whole.symm⟩
  | cons entry rest ih =>
    have listed : entry ∈ table.defs.entries := by
      rw [whole]
      exact mem_append_right _ mem_cons_self
    have above : ∀ earlier ∈ done, earlier.1 < entry.1 := by
      have sorted := table.defs.sorted
      rw [whole, pairwise_append] at sorted
      exact fun earlier isEarlier => sorted.2.2 earlier isEarlier entry mem_cons_self
    have unused : ∀ earlier ∈ done, earlier.2.name ≠ entry.2.name := by
      intro earlier isEarlier same
      have isListed : earlier ∈ table.defs.entries := by
        rw [whole]
        exact mem_append_left _ isEarlier
      exact (above earlier isEarlier).ne (named.distinct earlier isListed entry listed same)
    rw [← soFar] at above unused
    obtain ⟨between, readsOne, version, grown⟩ := readSlot_row (table.typed entry listed)
      (table.keyed entry listed) (table.encodable entry listed) (named.named entry listed)
      above unused
    have wholeNow : table.defs.entries = done ++ [entry] ++ rest := by
      rw [whole, append_assoc]
      rfl
    obtain ⟨after, readsRest, sameVersion, entries⟩ := ih wholeNow (by rw [grown, soFar])
    refine ⟨after, ?_, sameVersion.trans version, entries⟩
    rw [map_cons, foldlM_cons, readsOne]
    exact readsRest

end Slots

variable {codec : SchemaCodec} {table earlier persisted : Slots} {store after : Store}

def Slots.Same (table other : Slots) : Prop := ∀ slot, table.get slot = other.get slot

/-- The table reads what the earlier one wrote: it declares every slot with the same type, and
revives none. -/
def Slots.Reads (table earlier : Slots) : Prop :=
  ∀ slot old, earlier.get slot = some old → ∃ now, table.get slot = some now ∧
    now.type = old.type ∧ (old.retired = true → now.retired = true)

theorem Slots.Reads.refl (table : Slots) : table.Reads table :=
  fun _ old found => ⟨old, found, rfl, id⟩

theorem Slots.Reads.trans {later : Slots} (reads : later.Reads table)
    (readsEarlier : table.Reads earlier) : later.Reads earlier := by
  intro slot old found
  obtain ⟨between, isBetween, type, kept⟩ := readsEarlier slot old found
  obtain ⟨now, isNow, sameType, keptOn⟩ := reads slot between isBetween
  exact ⟨now, isNow, sameType.trans type, fun retired => keptOn (kept retired)⟩

theorem readSlots_writeSlots (named : table.Named) (store : Store) :
    ∃ persisted, readSlots codec (writeSlots codec store table) = .ok (some persisted) ∧
      persisted.Same table := by
  obtain ⟨persisted, read, _, entries⟩ := Slots.foldlM_readSlot named
    (nil_append table.defs.entries).symm
    (show (Slots.new table.version).defs.entries = [] from rfl)
  refine ⟨persisted, ?_, fun slot => ?_⟩
  · unfold readSlots writeSlots
    rw [get_set_self]
    dsimp only
    rw [codec.unmarshal_marshal]
    have rows : table.row.slots = table.defs.entries.map fun entry => entry.2.row := by
      rw [Slots.row, Slots.declarations, map_map]
      rfl
    dsimp only
    rw [rows, show table.row.version = table.version from rfl, read]
  · rw [Slots.get, Slots.get, OrderedMap.get, OrderedMap.get, entries]

theorem Slots.same_of_equal (equals : table.equal persisted = true) : persisted.Same table := by
  unfold Slots.equal at equals
  rw [Bool.and_eq_true, Bool.and_eq_true, all_eq_true] at equals
  obtain ⟨⟨_, lengths⟩, same⟩ := equals
  -- as many entries as the other table and all of them its own
  have included : table.defs.entries ⊆ persisted.defs.entries := fun entry listed =>
    get_eq_some_iff.mp (of_decide_eq_true (same entry listed))
  have permuted := (subperm_of_subset table.defs.nodup_keys.of_map included).perm_of_length_le
    (of_decide_eq_true lengths).ge
  intro slot
  ext declared
  rw [Slots.get, Slots.get, get_eq_some_iff, get_eq_some_iff, permuted.mem_iff]

theorem Slots.reads_of_validateDefs {defs : List SlotDef}
    (accepted : table.validateDefs defs = .ok ()) : ∀ old ∈ defs,
      ∃ now, table.get old.slot.toNat = some now ∧ now.type = old.type ∧
        (old.retired = true → now.retired = true) := by
  induction defs with
  | nil => exact nofun
  | cons first rest ih =>
    unfold Slots.validateDefs at accepted
    dsimp only at accepted
    split at accepted
    · cases accepted
    next now found =>
    split at accepted
    · cases accepted
    next unchanged =>
    split at accepted
    · cases accepted
    next notRevived =>
    intro old listed
    rcases mem_cons.mp listed with rfl | later
    · rw [not_or, not_not] at unchanged
      refine ⟨now, found, unchanged.1, fun retired => ?_⟩
      simpa [retired] using notRevived
    · exact ih accepted old later

theorem Slots.reads_of_validate (accepted : table.validate persisted = .ok ()) :
    table.Reads persisted := by
  intro slot old found
  have listed := get_eq_some_iff.mp found
  obtain ⟨now, isNow, kept⟩ := Slots.reads_of_validateDefs accepted old (mem_map_of_mem listed)
  rw [persisted.keyed _ listed] at isNow
  exact ⟨now, isNow, kept⟩

theorem openSlots_spec (named : table.Named) (opened : openSlots codec table store = .ok after) :
    (∀ persisted, readSlots codec store = .ok (some persisted) → table.Reads persisted) ∧
      ∃ persisted, readSlots codec after = .ok (some persisted) ∧ persisted.Same table := by
  unfold openSlots at opened
  split at opened
  · cases opened
  · next absent =>
    cases opened
    rw [absent]
    exact ⟨nofun, readSlots_writeSlots named store⟩
  next persisted present =>
  split at opened
  · cases opened
  next accepted =>
  refine ⟨fun other isOther => ?_, ?_⟩
  · cases present.symm.trans isOther
    exact Slots.reads_of_validate accepted
  split at opened
  · next equals =>
    cases opened
    exact ⟨persisted, present, Slots.same_of_equal equals⟩
  · cases opened
    exact readSlots_writeSlots named store

/-- The tables have been opened in turn on the store, with anything else written in between. -/
inductive Opened (codec : SchemaCodec) : List Slots → Store → Prop where
  | start (store : Store) : Opened codec [] store
  | other {tables : List Slots} {store after : Store} : Opened codec tables store →
      after.get slotsKey = store.get slotsKey → Opened codec tables after
  | opens {tables : List Slots} {table : Slots} {store after : Store} :
      Opened codec tables store → table.Built → openSlots codec table store = .ok after →
      Opened codec (tables ++ [table]) after

def Keeps (codec : SchemaCodec) (tables : List Slots) (store : Store) : Prop :=
  ∀ table, tables.getLast? = some table →
    ∃ persisted, readSlots codec store = .ok (some persisted) ∧ persisted.Same table

theorem Opened.reads {tables : List Slots} (opened : Opened codec tables store) :
    Keeps codec tables store ∧ tables.Pairwise fun first second => second.Reads first := by
  induction opened with
  | start store => exact ⟨nofun, .nil⟩
  | other _ untouched ih =>
    obtain ⟨keeps, pairwise⟩ := ih
    refine ⟨fun table last => ?_, pairwise⟩
    rw [readSlots, untouched]
    exact keeps table last
  | @opens tables table store after _ built opens ih =>
    obtain ⟨keeps, pairwise⟩ := ih
    obtain ⟨checked, kept⟩ := openSlots_spec built.named opens
    refine ⟨fun last isLast => ?_, ?_⟩
    · rw [getLast?_concat] at isLast
      cases isLast
      exact kept
    rw [pairwise_append]
    refine ⟨pairwise, pairwise_singleton _ _, fun first listed second isSecond => ?_⟩
    rw [mem_singleton.mp isSecond]
    -- the last table stands between, and the store still has it
    obtain ⟨before, last, rfl⟩ : ∃ before last, tables = before ++ [last] :=
      (eq_nil_or_concat tables).resolve_left (ne_nil_of_mem listed) |>.imp
        fun before isTables => isTables.imp fun last isLast => by simpa using isLast
    obtain ⟨persisted, present, same⟩ := keeps last getLast?_concat
    have readsLast : table.Reads last := by
      intro slot old found
      rw [← same slot] at found
      exact checked persisted present slot old found
    rcases mem_append.mp listed with earlier | isLast
    · exact readsLast.trans ((pairwise_append.mp pairwise).2.2 first earlier last
        (mem_singleton_self last))
    · rw [mem_singleton.mp isLast]
      exact readsLast

variable {row : Row}

theorem Row.DeclaredBy.of_reads (declared : row.DeclaredBy earlier) (reads : table.Reads earlier) :
    row.DeclaredBy table := by
  intro slot value carried
  obtain ⟨fits, old, found, type⟩ := declared slot value carried
  obtain ⟨now, isNow, sameType, _⟩ := reads slot old found
  exact ⟨fits, now, isNow, sameType.trans type⟩

theorem Row.DeclaredBy.encodes (declared : row.DeclaredBy table) :
    ∃ bytes, row.encode table = .ok bytes := by
  apply Row.encodes_of_le
  intro slot value carried
  obtain ⟨_, found, isFound, _⟩ := declared slot value carried
  exact table.encodable _ (get_eq_some_iff.mp isFound)

variable {bitmap bytes : Bytes} {slots : List Nat} {read : Row}

theorem decodeSlots_version (decoded : decodeSlots table bitmap slots bytes row = .ok read) :
    read.schemaVersion = row.schemaVersion := by
  induction slots generalizing bytes row with
  | nil =>
    cases decoded
    rfl
  | cons slot slots ih =>
    unfold decodeSlots at decoded
    split at decoded
    · exact ih decoded
    split at decoded
    · cases decoded
    split at decoded
    · cases decoded
    · rw [ih decoded]
      split <;> rfl

variable {fault : Fault}

theorem decodeSlots_corrupt (refused : decodeSlots table bitmap slots bytes row = .error fault) :
    fault.kind = .corruption := by
  induction slots generalizing bytes row with
  | nil => cases refused
  | cons slot slots ih =>
    unfold decodeSlots at refused
    split at refused
    · exact ih refused
    split at refused
    · cases refused
      rfl
    split at refused
    · cases refused
      rfl
    · exact ih refused

theorem decodeRow_corrupt (refused : decodeRow table bytes = .error fault) :
    fault.kind = .corruption := by
  unfold decodeRow at refused
  dsimp only at refused
  split at refused
  · cases refused
    rfl
  split at refused
  · cases refused
    rfl
  split at refused
  · cases refused
    rfl
  · exact decodeSlots_corrupt refused

theorem decodeRow_version (encoded : row.encode earlier = .ok bytes)
    (decoded : decodeRow table bytes = .ok read) : read.schemaVersion = row.schemaVersion := by
  obtain ⟨_, shape⟩ := Row.encode_eq_ok encoded
  have four : (uint32 row.schemaVersion).length = 4 := length_bigEndian _ _
  have header : (bytes.drop 1).take 4 = uint32 row.schemaVersion := by
    rw [shape, drop_succ_cons, drop_zero, take_left' four]
  unfold decodeRow at decoded
  dsimp only at decoded
  split at decoded
  · cases decoded
  split at decoded
  · cases decoded
  split at decoded
  · cases decoded
  rw [decodeSlots_version decoded, header, uint32, ofBigEndian_bigEndian,
    Nat.mod_eq_of_lt (show _ < 256 ^ 4 from row.schemaVersion.toNat_lt)]
  simp

/-- Whatever tables are opened in turn, what one of them encodes, that one and every later one
reads, without the slots it has retired; and bytes that are no row are corrupt. -/
theorem rows_survive_upgrades (codec : SchemaCodec) (tables : List Slots) (store : Store)
    (opened : Opened codec tables store) (writer reader : Slots) (written read : Nat)
    (isWriter : tables[written]? = some writer) (isReader : tables[read]? = some reader)
    (ordered : written ≤ read) :
    (∀ row : Row, row.DeclaredBy writer → ∃ bytes, row.encode writer = .ok bytes ∧
      ∃ after, decodeRow reader bytes = .ok after ∧ after.schemaVersion = row.schemaVersion ∧
        ∀ slot, after.get slot =
          if ∃ declared, reader.get slot = some declared ∧ declared.retired = true then none
          else row.get slot) ∧
      ∀ bytes, (∃ row, decodeRow reader bytes = .ok row) ∨
        ∃ fault, decodeRow reader bytes = .error fault ∧ fault.kind = .corruption := by
  have reads : reader.Reads writer := by
    rcases ordered.eq_or_lt with rfl | before
    · cases isWriter.symm.trans isReader
      exact .refl writer
    obtain ⟨within, rfl⟩ := List.getElem?_eq_some_iff.mp isReader
    obtain ⟨_, rfl⟩ := List.getElem?_eq_some_iff.mp isWriter
    exact pairwise_iff_getElem.mp opened.reads.2 written read (before.trans within) within before
  refine ⟨fun row declared => ?_, fun bytes => ?_⟩
  · have declaredNow := declared.of_reads reads
    obtain ⟨bytes, encoded⟩ := declared.encodes
    obtain ⟨after, decoded, values⟩ := decodeRow_encode declaredNow encoded
    refine ⟨bytes, encoded, after, decoded, decodeRow_version encoded decoded, fun slot => ?_⟩
    rw [values, Row.liveAt]
    cases found : reader.get slot with
    | none =>
      cases carried : row.get slot with
      | none => simp
      | some value =>
        obtain ⟨_, _, isFound, _⟩ := declaredNow slot value carried
        cases found.symm.trans isFound
    | some declaration => simp
  · cases decoded : decodeRow reader bytes with
    | ok row => exact .inl ⟨row, rfl⟩
    | error fault => exact .inr ⟨fault, rfl, decodeRow_corrupt decoded⟩

def nameBlock (name : String) : Bytes :=
  packBlocks (name.toList.map fun char => numberBlock char.val.toUInt64)

def ofNameBlock (block : Bytes) : Option String :=
  (unpackBlocks block).map fun blocks =>
    String.ofList (blocks.map fun block => Char.ofNat (ofNumberBlock block).toUInt32.toNat)

theorem ofNameBlock_nameBlock (name : String) : ofNameBlock (nameBlock name) = some name := by
  have chars : (name.toList.map fun char => numberBlock char.val.toUInt64).map
      (fun block => Char.ofNat (ofNumberBlock block).toUInt32.toNat) = name.toList := by
    rw [map_map]
    apply map_id''
    intro char
    simp only [Function.comp_apply, ofNumberBlock_numberBlock, UInt32.toUInt32_toUInt64]
    exact Char.ofNat_toNat char
  rw [ofNameBlock, nameBlock, unpackBlocks_packBlocks, Option.map_some, chars, String.ofList_toList]

def SlotRow.block (row : SlotRow) : Bytes :=
  packBlocks [numberBlock row.slot.toUInt64, nameBlock row.name, numberBlock row.type.toUInt64,
    [if row.indexed then 1 else 0], [if row.retired then 1 else 0]]

def SlotRow.ofBlock (block : Bytes) : Option SlotRow :=
  match unpackBlocks block with
  | some [slot, name, type, indexed, retired] =>
    (ofNameBlock name).map fun name =>
      ⟨(ofNumberBlock slot).toUInt32, name, (ofNumberBlock type).toUInt32, indexed = [1],
        retired = [1]⟩
  | _ => none

theorem SlotRow.ofBlock_block (row : SlotRow) : ofBlock row.block = some row := by
  obtain ⟨slot, name, type, indexed, retired⟩ := row
  cases indexed <;> cases retired <;>
    simp [block, ofBlock, ofNameBlock_nameBlock]

theorem mapM_ofBlock (rows : List SlotRow) :
    (rows.map SlotRow.block).mapM SlotRow.ofBlock = some rows := by
  induction rows with
  | nil => rfl
  | cons row rows ih =>
    rw [map_cons, mapM_cons, SlotRow.ofBlock_block, ih]
    rfl

def blockSchema : SchemaCodec where
  marshal row := packBlocks (numberBlock row.version.toUInt64 :: row.slots.map SlotRow.block)
  unmarshal bytes :=
    match unpackBlocks bytes with
    | some (version :: slots) =>
      (slots.mapM SlotRow.ofBlock).map fun slots => ⟨(ofNumberBlock version).toUInt32, slots⟩
    | _ => none
  unmarshal_marshal row := by
    rw [unpackBlocks_packBlocks]
    dsimp only
    rw [mapM_ofBlock]
    simp

def firstTable : Result Slots := do
  let table ← (Slots.new 1).register ⟨0, "kind", .u8, true, false⟩
  table.register ⟨1, "title", .string, false, false⟩

def secondTable : Result Slots := do
  let table ← (← firstTable).register ⟨20, "score", .f32, true, false⟩
  table.retire 0

theorem built_firstTable {table : Slots} (made : firstTable = .ok table) : table.Built := by
  obtain ⟨between, isBetween, made⟩ := Result.ok_of_bind made
  exact .register (.register (.new 1) isBetween) made

theorem built_secondTable {table : Slots} (made : secondTable = .ok table) : table.Built := by
  obtain ⟨first, isFirst, made⟩ := Result.ok_of_bind made
  obtain ⟨between, isBetween, made⟩ := Result.ok_of_bind made
  exact .retire (.register (built_firstTable isFirst) isBetween) made

def upgrade : Result (Slots × Slots × Store) := do
  let first ← firstTable
  let second ← secondTable
  let store ← openSlots blockSchema first .empty
  let store ← openSlots blockSchema second store
  return (first, second, store)

theorem upgrade_opens : ∃ first second store, firstTable = .ok first ∧ secondTable = .ok second ∧
    Opened blockSchema [first, second] store := by
  have succeeds : upgrade.toBool = true := by decide +kernel
  cases upgraded : upgrade with
  | error fault =>
    rw [upgraded] at succeeds
    cases succeeds
  | ok made =>
    obtain ⟨first, isFirst, upgraded⟩ := Result.ok_of_bind upgraded
    obtain ⟨second, isSecond, upgraded⟩ := Result.ok_of_bind upgraded
    obtain ⟨between, opensFirst, upgraded⟩ := Result.ok_of_bind upgraded
    obtain ⟨store, opensSecond, _⟩ := Result.ok_of_bind upgraded
    have opened : Opened blockSchema ([] ++ [first]) between :=
      .opens (.start .empty) (built_firstTable isFirst) opensFirst
    exact ⟨first, second, store, isFirst, isSecond,
      opened.opens (built_secondTable isSecond) opensSecond⟩

/-- What the table of two slots wrote is read by the one that retired the first of them. -/
theorem rows_survive_upgrades_two : ∃ first second, firstTable = .ok first ∧
    secondTable = .ok second ∧ ∀ row : Row, row.DeclaredBy first →
      ∃ bytes, row.encode first = .ok bytes ∧ ∃ after, decodeRow second bytes = .ok after ∧
        after.schemaVersion = row.schemaVersion := by
  obtain ⟨first, second, store, isFirst, isSecond, opened⟩ := upgrade_opens
  refine ⟨first, second, isFirst, isSecond, fun row declared => ?_⟩
  obtain ⟨bytes, encoded, after, decoded, version, _⟩ := (rows_survive_upgrades blockSchema
    [first, second] store opened first second 0 1 rfl rfl (by decide)).1 row declared
  exact ⟨bytes, encoded, after, decoded, version⟩

end Remem.Attr
