import Remem.Attr.Row
import Remem.Record

/-!
# The memory slot table

The slots a record is projected onto, the table that declares them and the
projection.
-/

namespace Remem.Attr

open Base Keys List

def schemaVersion : UInt32 := 1

/-- `slotDefs`, in slot order. -/
def slotDefs : List SlotDef :=
  [{ slot := 0, name := "archived", type := .bool },
   { slot := 1, name := "policy", type := .string },
   { slot := 2, name := "importance", type := .f32, indexed := true },
   { slot := 3, name := "created_at", type := .u64, indexed := true },
   { slot := 4, name := "accessed_at", type := .u64 },
   { slot := 5, name := "access_count", type := .u32 },
   { slot := 6, name := "health", type := .f32, indexed := true },
   { slot := 7, name := "emotional_valence", type := .f32 },
   { slot := 8, name := "arousal", type := .f32 },
   { slot := 9, name := "next_attention_at", type := .u64, indexed := true },
   { slot := 10, name := "updated_at", type := .u64, indexed := true },
   { slot := 11, name := "last_recalled_at", type := .u64, indexed := true }]

def table : Result Slots := slotDefs.foldlM Slots.register (Slots.new schemaVersion)

/-- `unixMs`; the milliseconds are an `int64`. -/
def unixMs (time : Time) : UInt64 :=
  if time.isZero then 0
  else
    let milliseconds := time.unixMilli.bmod (2 ^ 64)
    if milliseconds < 0 then 0 else milliseconds.toNat.toUInt64

/-- The slots `Project` sets, in the order it sets them. -/
def projected (record : Record) : List (Nat × Value) :=
  let fields := record.fields.withDefaults
  [(0, .bool fields.archived), (1, .str fields.policy.bytes), (2, .ofFloat32 fields.importance),
   (3, .u64 (unixMs record.createdAt)), (4, .u64 (unixMs fields.accessedAt)),
   (5, .u32 fields.accessCount), (6, .ofFloat32 fields.health), (7, .ofFloat32 fields.valence),
   (8, .ofFloat32 fields.arousal), (9, .u64 (unixMs fields.nextAttentionAt)),
   (10, .u64 (unixMs record.updatedAt)), (11, .u64 (unixMs fields.lastRecalledAt))]

@[irreducible]
def project (record : Record) : Row :=
  (projected record).foldl (fun row entry => row.set entry.1 entry.2) { schemaVersion }

/-- A table that still declares every slot `Project` sets, at its type. The slots
may since have been retired or lost their index, and others may have been added. -/
def Slots.DeclaresProjection (table : Slots) : Prop :=
  ∀ declared ∈ slotDefs, (table.get declared.slot.toNat).map SlotDef.type = some declared.type

instance (table : Slots) : Decidable table.DeclaresProjection :=
  inferInstanceAs (Decidable (∀ declared ∈ slotDefs, _))

theorem table_registers : ∃ registered, table = .ok registered ∧ registered.DeclaresProjection := by
  have registers : table.toOption.any (fun registered => registered.DeclaresProjection) := by
    decide +kernel
  cases built : table with
  | error fault =>
    rw [built] at registers
    cases registers
  | ok registered =>
    rw [built] at registers
    exact ⟨registered, rfl, of_decide_eq_true registers⟩

variable {slot : Nat} {value : Value}

theorem mem_of_get_foldl_set {entries : List (Nat × Value)} {row : Row}
    (found : (entries.foldl (fun row entry => row.set entry.1 entry.2) row).get slot = some value) :
    (slot, value) ∈ entries ∨ row.get slot = some value := by
  induction entries generalizing row with
  | nil => exact .inr found
  | cons entry entries ih =>
    rcases ih found with later | earlier
    · exact .inl (mem_cons_of_mem _ later)
    rw [Row.get_set] at earlier
    split at earlier
    · next same =>
      cases earlier
      subst same
      exact .inl mem_cons_self
    · exact .inr earlier

variable {record : Record}

theorem mem_projected_of_get (found : (project record).get slot = some value) :
    (slot, value) ∈ projected record := by
  unfold project at found
  rcases mem_of_get_foldl_set found with listed | empty
  · exact listed
  · cases empty

theorem types_projected (record : Record) :
    (projected record).map (fun entry => (entry.1, entry.2.type)) =
      slotDefs.map fun declared => (declared.slot.toNat, declared.type) := rfl

theorem declared_of_get_project (found : (project record).get slot = some value) :
    ∃ declared ∈ slotDefs, declared.slot.toNat = slot ∧ declared.type = value.type := by
  have listed := mem_map_of_mem (f := fun entry => (entry.1, entry.2.type))
    (mem_projected_of_get found)
  rw [types_projected, mem_map] at listed
  obtain ⟨declared, membership, equal⟩ := listed
  exact ⟨declared, membership, congrArg Prod.fst equal, congrArg Prod.snd equal⟩

theorem fits_of_get_project (found : (project record).get slot = some value) : value.Fits := by
  have listed := mem_projected_of_get found
  cases value with
  | str text =>
    -- the policy is the only string a projection carries
    have policy : slot = 1 ∧ text = record.fields.withDefaults.policy.bytes := by
      simpa [projected, Value.ofFloat32] using listed
    obtain ⟨_, rfl⟩ := policy
    exact record.fields.withDefaults.policy.fits.trans (by norm_num)
  | _ => trivial

theorem project_declaredBy {table : Slots} (declares : table.DeclaresProjection)
    (record : Record) : (project record).DeclaredBy table := by
  intro slot value found
  obtain ⟨declared, listed, rfl, type⟩ := declared_of_get_project found
  obtain ⟨registered, registeredAt, same⟩ := Option.map_eq_some_iff.mp (declares declared listed)
  exact ⟨fits_of_get_project found, registered, registeredAt, same.trans type⟩

theorem project_encodes (record : Record) (table : Slots) :
    ∃ bytes, (project record).encode table = .ok bytes := by
  apply Row.encodes_of_le
  intro slot value found
  obtain ⟨declared, listed, rfl, _⟩ := declared_of_get_project found
  have small : ∀ declared ∈ slotDefs, declared.slot.toNat ≤ maxEncodableSlot := by decide
  exact small declared listed

end Remem.Attr
