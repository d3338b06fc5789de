import Remem.Storage.Transaction

/-!
# What a computation leaves alone

`Stays` is about a computation inside a transaction that reads, expects and stages
nothing but keys of one kind. Whatever a transaction has established about its other
keys is still so after it.
-/

namespace Remem.Storage

open Base List

variable {Label Value Other : Type}

/-- More may be read, expected and staged, all of it at keys of the given kind. -/
structure Batch.Grows (inside : Bytes → Prop) (before after : Batch) : Prop where
  ops : ∃ more, after.ops = before.ops ++ more ∧ ∀ op ∈ more, inside op.key
  conditions : ∃ more, after.conditions = before.conditions ++ more ∧
    ∀ condition ∈ more, inside condition.key
  reads : ∃ more, after.reads = before.reads ++ more ∧ ∀ read ∈ more, inside read.1

namespace Batch.Grows

variable {inside : Bytes → Prop} {before middle after : Batch}

theorem refl (batch : Batch) : batch.Grows inside batch := by
  constructor <;> exact ⟨[], by simp, by simp⟩

theorem append_trans {Item : Type} {keep : Item → Prop} {first second third : List Item}
    (earlier : ∃ more, second = first ++ more ∧ ∀ item ∈ more, keep item)
    (later : ∃ more, third = second ++ more ∧ ∀ item ∈ more, keep item) :
    ∃ more, third = first ++ more ∧ ∀ item ∈ more, keep item := by
  obtain ⟨one, rfl, oneKept⟩ := earlier
  obtain ⟨two, rfl, twoKept⟩ := later
  refine ⟨one ++ two, append_assoc .., ?_⟩
  intro item listed
  exact (mem_append.mp listed).elim (oneKept item) (twoKept item)

theorem trans (first : before.Grows inside middle) (second : middle.Grows inside after) :
    before.Grows inside after :=
  ⟨append_trans first.ops second.ops, append_trans first.conditions second.conditions,
    append_trans first.reads second.reads⟩

theorem mono {wider : Bytes → Prop} (grows : before.Grows inside after)
    (implies : ∀ key, inside key → wider key) : before.Grows wider after := by
  obtain ⟨⟨ops, opsGrow, opsKept⟩, ⟨conditions, conditionsGrow, conditionsKept⟩,
    ⟨reads, readsGrow, readsKept⟩⟩ := grows
  exact ⟨⟨ops, opsGrow, fun op listed => implies _ (opsKept op listed)⟩,
    ⟨conditions, conditionsGrow, fun condition listed => implies _ (conditionsKept condition listed)⟩,
    ⟨reads, readsGrow, fun read listed => implies _ (readsKept read listed)⟩⟩

variable {key : Bytes}

theorem set (batch : Batch) (value : Bytes) (kept : inside key) :
    batch.Grows inside (batch.set key value) :=
  ⟨⟨[.set key value], rfl, by simpa [Op.key] using kept⟩, ⟨[], by simp [Batch.set], by simp⟩,
    ⟨[], by simp [Batch.set], by simp⟩⟩

theorem delete (batch : Batch) (kept : inside key) : batch.Grows inside (batch.delete key) :=
  ⟨⟨[.delete key], rfl, by simpa [Op.key] using kept⟩, ⟨[], by simp [Batch.delete], by simp⟩,
    ⟨[], by simp [Batch.delete], by simp⟩⟩

theorem expect (batch : Batch) (value : Bytes) (present : Bool) (kept : inside key) :
    batch.Grows inside (batch.expect key value present) := by
  unfold Batch.expect
  split
  · exact refl batch
  split
  · exact refl batch
  · exact ⟨⟨[], by simp, by simp⟩, ⟨[_], rfl, by simpa using kept⟩, ⟨[], by simp, by simp⟩⟩

theorem mem_conditions (grows : before.Grows inside after) {condition : Condition}
    (listed : condition ∈ after.conditions) :
    condition ∈ before.conditions ∨ inside condition.key := by
  obtain ⟨more, grown, kept⟩ := grows.conditions
  rw [grown] at listed
  exact (mem_append.mp listed).imp_right (kept condition)

theorem mem_ops (grows : before.Grows inside after) {op : Op} (listed : op ∈ after.ops) :
    op ∈ before.ops ∨ inside op.key := by
  obtain ⟨more, grown, kept⟩ := grows.ops
  rw [grown] at listed
  exact (mem_append.mp listed).imp_right (kept op)

theorem conditions_subset (grows : before.Grows inside after) :
    before.conditions ⊆ after.conditions := by
  obtain ⟨more, grown, _⟩ := grows.conditions
  rw [grown]
  exact subset_append_left _ _

theorem reads_subset (grows : before.Grows inside after) : before.reads ⊆ after.reads := by
  obtain ⟨more, grown, _⟩ := grows.reads
  rw [grown]
  exact subset_append_left _ _

end Batch.Grows

def Stays (inside : Bytes → Prop) (computation : TxM Label Value) : Prop :=
  ∀ before, Triple (fun _ => True) (· = before) computation fun _ after => before.Grows inside after

namespace Stays

variable {inside : Bytes → Prop}

theorem pure (value : Value) : Stays inside (Pure.pure value : TxM Label Value) := by
  intro before
  exact Triple.pure fun batch same => same ▸ .refl batch

theorem lift (result : Result Value) : Stays inside (Result.lift result : TxM Label Value) := by
  intro before
  exact Triple.lift fun batch same => same ▸ .refl batch

variable {computation : TxM Label Value}

theorem bind {continuation : Value → TxM Label Other} (first : Stays inside computation)
    (next : ∀ value, Stays inside (continuation value)) :
    Stays inside (computation >>= continuation) := by
  intro before
  refine (first before).bind ?_ fun _ _ grown => grown
  intro value middle grown
  exact (next value middle middle rfl).imp fun _ => grown.trans

theorem mono {wider : Bytes → Prop} (stays : Stays inside computation)
    (implies : ∀ key, inside key → wider key) : Stays wider computation := by
  intro before
  exact (stays before).imp fun _ _ grown => grown.mono implies

variable {key : Bytes}

theorem update {change : Batch → Batch} (grows : ∀ batch : Batch, batch.Grows inside (change
      batch)) : Stays inside (Tx.update change : TxM Label Unit) := by
  intro before
  exact Triple.update fun batch same => same ▸ grows batch

theorem set (value : Bytes) (kept : inside key) :
    Stays inside (Tx.set key value : TxM Label Unit) :=
  update fun batch => .set batch value kept

theorem delete (kept : inside key) : Stays inside (Tx.delete key : TxM Label Unit) :=
  update fun batch => .delete batch kept

theorem triple {holds : Store → Prop} (stays : Stays inside computation) {kept : Batch → Prop}
    (stable : ∀ before after, kept before → before.Grows inside after → kept after) :
    Triple holds kept computation fun _ after => kept after := by
  intro before held
  refine ((stays before before rfl).mono fun _ _ => trivial).imp ?_
  exact fun outcome grown => stable before outcome.2 held grown

end Stays

end Remem.Storage
