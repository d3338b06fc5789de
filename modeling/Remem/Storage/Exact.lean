import Remem.Storage.Transaction

/-!
# Transactions from a known batch

Where the batch before a computation is known, each of its operations gives the batch after
it. What a known batch asks of a store and makes of it is then read off its conditions and
operations.
-/

namespace Remem.Storage

open Base Keys List

variable {Label Value Other : Type}

namespace Batch

def reading (batch : Batch) (key : Bytes) (value : Option Bytes) : Batch :=
  { batch with reads := batch.reads ++ [(key, value)] }

@[simp]
theorem reading_ops (batch : Batch) (key : Bytes) (value : Option Bytes) :
    (batch.reading key value).ops = batch.ops := rfl

@[simp]
theorem expect_reads (batch : Batch) (key value : Bytes) (present : Bool) :
    (batch.expect key value present).reads = batch.reads := by
  unfold expect
  split
  · rfl
  · split <;> rfl

/-- What a batch asks of a store and what it leaves there. `touched` are the keys that it
was told about. -/
structure Means (batch : Batch) (touched : List Bytes) (asks : Store → Prop)
    (leaves : Store → Bytes → Option Bytes) : Prop where
  ops : ∀ op ∈ batch.ops, op.key ∈ touched
  conditions : ∀ condition ∈ batch.conditions, condition.key ∈ touched
  accepts : ∀ store, batch.Accepts store → asks store
  get : ∀ store key, (batch.effect store).get key = leaves store key

theorem means_nil : ({} : Batch).Means [] (fun _ => True) OrderedMap.get :=
  ⟨by simp, by simp, fun _ _ => trivial, fun _ _ => rfl⟩

variable {batch : Batch} {touched : List Bytes} {asks : Store → Prop}
  {leaves : Store → Bytes → Option Bytes} {key value : Bytes}

theorem Means.reading (means : batch.Means touched asks leaves) (key : Bytes)
    (found : Option Bytes) : (batch.reading key found).Means touched asks leaves :=
  ⟨means.ops, means.conditions, means.accepts, means.get⟩

theorem Means.widen {more : List Bytes} (means : batch.Means touched asks leaves)
    (within : touched ⊆ more) : batch.Means more asks leaves :=
  ⟨fun op listed => within (means.ops op listed),
    fun condition listed => within (means.conditions condition listed), means.accepts, means.get⟩

theorem Means.expect (means : batch.Means touched asks leaves) (fresh : key ∉ touched)
    (value : Bytes) (present : Bool) :
    (batch.expect key value present).Means (key :: touched)
      (fun store => store.get key = (if present then some value else none) ∧ asks store)
      leaves where
  ops op listed := by
    rw [expect_ops] at listed
    exact mem_cons_of_mem _ (means.ops op listed)
  conditions condition listed := by
    rcases mem_conditions_expect listed with earlier | same
    · exact mem_cons_of_mem _ (means.conditions condition earlier)
    · exact mem_cons.mpr (.inl same)
  accepts store accepts := by
    refine ⟨get_of_accepts_expect ?_ ?_ accepts, means.accepts store (accepts_of_expect accepts)⟩
    · rintro op listed rfl
      exact fresh (means.ops op listed)
    · rintro condition listed rfl
      exact fresh (means.conditions condition listed)
  get store key := by
    rw [effect_expect]
    exact means.get store key

theorem Means.set (means : batch.Means touched asks leaves) (told : key ∈ touched) (value : Bytes) :
    (batch.set key value).Means touched asks
      fun store place => if place = key then some value else leaves store place where
  ops op listed := by
    rcases mem_append.mp listed with earlier | new
    · exact means.ops op earlier
    · rw [mem_singleton.mp new]
      exact told
  conditions := means.conditions
  accepts := means.accepts
  get store place := by
    rw [effect_set, OrderedMap.get_set, means.get]

theorem Means.delete (means : batch.Means touched asks leaves) (told : key ∈ touched) :
    (batch.delete key).Means touched asks
      fun store place => if place = key then none else leaves store place where
  ops op listed := by
    rcases mem_append.mp listed with earlier | new
    · exact means.ops op earlier
    · rw [mem_singleton.mp new]
      exact told
  conditions := means.conditions
  accepts := means.accepts
  get store place := by
    rw [effect_delete, OrderedMap.get_erase, means.get]

end Batch

namespace Triple

variable {holds : Store → Prop} {batch : Batch} {post : Result Value → Batch → Prop}

theorem of_known {pre : Batch → Prop} {computation : TxM Label Value}
    (known : ∀ batch, pre batch → Triple holds (· = batch) computation post) :
    Triple holds pre computation post :=
  fun batch held => known batch held batch rfl

theorem read_bind {key : Bytes} {continuation : Option Bytes → TxM Label Value}
    (unstaged : batch.staged key = none)
    (continues : ∀ store, holds store →
      Triple holds (· = batch.reading key (store.get key)) (continuation (store.get key)) post) :
    Triple holds (· = batch) (Tx.get key >>= continuation) post := by
  have first : Triple holds (· = batch) (Tx.get key : TxM Label (Option Bytes))
      fun result after => ∃ store, holds store ∧ result = .ok (store.get key) ∧
        after = batch.reading key (store.get key) := by
    refine Triple.get ?_ ?_
    · rintro _ value rfl staged
      rw [unstaged] at staged
      cases staged
    · rintro _ store rfl _ held
      exact ⟨store, held, rfl, rfl⟩
  refine first.bind ?_ ?_
  · rintro value after ⟨store, held, same, rfl⟩
    cases same
    exact continues store held _ rfl
  · rintro fault after ⟨store, _, same, _⟩
    cases same

theorem update_bind {change : Batch → Batch} {continuation : Unit → TxM Label Value}
    (continues : Triple holds (· = change batch) (continuation ()) post) :
    Triple holds (· = batch) (Tx.update change >>= continuation) post := by
  have first : Triple holds (· = batch) (Tx.update change : TxM Label Unit)
      fun result after => result = .ok () ∧ after = change batch :=
    Triple.update fun _ same => ⟨rfl, by rw [same]⟩
  refine first.bind ?_ ?_
  · rintro ⟨⟩ after ⟨_, rfl⟩
    exact continues _ rfl
  · rintro fault after ⟨same, _⟩
    cases same

end Triple

end Remem.Storage
