import Remem.Storage.Batch

/-!
# Reasoning about transactions

What a batch does to the store it commits into, and a rule for each operation of
a transaction. `Triple` is about a computation inside a transaction: it only
observes the store, and relates the batch before it to its answer and the batch
after it.
-/

namespace Remem.Storage

open Base Keys List

variable {Label Value Answer : Type}

theorem Op.get_apply (store : Store) (op : Op) (key : Bytes) :
    (op.apply store).get key = if key = op.key then op.value else store.get key := by
  cases op with
  | set staged value => exact OrderedMap.get_set store staged key value
  | delete staged => exact OrderedMap.get_erase store staged key

namespace Batch

def Accepts (batch : Batch) (store : Store) : Prop :=
  ∀ condition ∈ batch.conditions, condition.holds store = true

instance (batch : Batch) (store : Store) : Decidable (batch.Accepts store) :=
  inferInstanceAs (Decidable (∀ condition ∈ batch.conditions, _))

variable {batch : Batch} {store : Store}

theorem commit_of_accepts (accepts : batch.Accepts store) :
    batch.commit store = .ok (batch.effect store) := by
  rw [commit, if_pos]
  exact all_eq_true.mpr accepts

theorem commit_eq_ok_iff {after : Store} :
    batch.commit store = .ok after ↔ batch.Accepts store ∧ batch.effect store = after := by
  by_cases accepts : batch.Accepts store
  · simp [commit_of_accepts accepts, accepts]
  · rw [commit, if_neg (fun all => accepts (all_eq_true.mp all))]
    simp [accepts]

theorem commit_conflict (rejects : ¬ batch.Accepts store) : batch.commit store =
      .error ⟨.conflict, "memkv.Batch.Commit", "conditional write conflict", []⟩ := by
  rw [commit, if_neg (fun all => rejects (all_eq_true.mp all))]

@[simp]
theorem effect_nil (store : Store) : ({} : Batch).effect store = store := rfl

@[simp]
theorem effect_set (batch : Batch) (key value : Bytes) (store : Store) :
    (batch.set key value).effect store = (batch.effect store).set key value := by
  simp [effect, set, Op.apply]

@[simp]
theorem effect_delete (batch : Batch) (key : Bytes) (store : Store) :
    (batch.delete key).effect store = (batch.effect store).erase key := by
  simp [effect, delete, Op.apply]

@[simp]
theorem expect_ops (batch : Batch) (key value : Bytes) (present : Bool) :
    (batch.expect key value present).ops = batch.ops := by
  unfold expect
  split
  · rfl
  · split <;> rfl

@[simp]
theorem effect_expect (batch : Batch) (key value : Bytes) (present : Bool) (store : Store) :
    (batch.expect key value present).effect store = batch.effect store := by
  simp [effect]

variable {key value : Bytes} {present : Bool}

theorem accepts_of_expect (accepts : (batch.expect key value present).Accepts store) :
    batch.Accepts store := by
  intro condition membership
  apply accepts
  unfold expect
  split
  · exact membership
  split
  · exact membership
  · exact mem_append_left _ membership

def Current (batch : Batch) (store : Store) : Prop :=
  ∀ read ∈ batch.reads, store.get read.1 = read.2

instance (batch : Batch) (store : Store) : Decidable (batch.Current store) :=
  inferInstanceAs (Decidable (∀ read ∈ batch.reads, _))

/-- More is staged, under the same conditions. -/
structure Extends (before after : Batch) : Prop where
  conditions : after.conditions = before.conditions
  ops : before.ops <+: after.ops

theorem Extends.refl (batch : Batch) : batch.Extends batch := ⟨rfl, prefix_rfl⟩

variable {after before : Batch}

theorem Extends.trans {middle : Batch} (first : before.Extends middle)
    (second : middle.Extends after) : before.Extends after :=
  ⟨second.conditions.trans first.conditions, first.ops.trans second.ops⟩

theorem Extends.set (grown : before.Extends after) (key value : Bytes) :
    before.Extends (after.set key value) :=
  grown.trans ⟨rfl, prefix_append _ _⟩

theorem Extends.delete (grown : before.Extends after) (key : Bytes) :
    before.Extends (after.delete key) :=
  grown.trans ⟨rfl, prefix_append _ _⟩

theorem Extends.accepts (grown : before.Extends after) :
    after.Accepts store ↔ before.Accepts store := by
  rw [Accepts, Accepts, grown.conditions]

theorem mem_conditions_expect {condition : Condition}
    (membership : condition ∈ (batch.expect key value present).conditions) :
    condition ∈ batch.conditions ∨ condition.key = key := by
  unfold expect at membership
  split at membership
  · exact .inl membership
  split at membership
  · exact .inl membership
  rcases mem_append.mp membership with earlier | new
  · exact .inl earlier
  · rw [mem_singleton.mp new]
    exact .inr rfl

theorem conditions_subset_expect (batch : Batch) (key value : Bytes) (present : Bool) :
    batch.conditions ⊆ (batch.expect key value present).conditions := by
  unfold expect
  split
  · exact List.Subset.refl _
  split
  · exact List.Subset.refl _
  · exact subset_append_left _ _

theorem get_of_accepts_expect (unstaged : ∀ op ∈ batch.ops, op.key ≠ key)
    (fresh : ∀ condition ∈ batch.conditions, condition.key ≠ key)
    (accepts : (batch.expect key value present).Accepts store) :
    store.get key = if present then some value else none := by
  have recorded : (⟨key, value, present⟩ : Condition) ∈
      (batch.expect key value present).conditions := by
    rw [expect, if_neg (by simpa using unstaged), if_neg (by simpa using fresh)]
    simp
  have held := accepts _ recorded
  unfold Condition.holds at held
  cases found : store.get key <;> cases present <;> simp_all

theorem staged_eq_none_iff : batch.staged key = none ↔ ∀ op ∈ batch.ops, op.key ≠ key := by
  simp [staged]

theorem condition_of_expect (unstaged : batch.staged key = none) (value : Bytes) (present : Bool) :
    ∃ condition ∈ (batch.expect key value present).conditions, condition.key = key := by
  have noOp : ∀ op ∈ batch.ops, op.key ≠ key := staged_eq_none_iff.mp unstaged
  rw [expect, if_neg (by simpa using noOp)]
  split
  · next already =>
    obtain ⟨condition, listed, same⟩ := any_eq_true.mp already
    exact ⟨condition, listed, of_decide_eq_true same⟩
  · exact ⟨⟨key, value, present⟩, by simp, rfl⟩

theorem mem_of_staged {value : Option Bytes} (found : batch.staged key = some value) :
    ∃ op ∈ batch.ops, op.key = key ∧ op.value = value := by
  obtain ⟨op, first, isValue⟩ := Option.map_eq_some_iff.mp found
  refine ⟨op, mem_reverse.mp (mem_of_find?_eq_some first), ?_, isValue⟩
  simpa using find?_some first

theorem get_effect (batch : Batch) (store : Store) (key : Bytes) :
    (batch.effect store).get key = (batch.staged key).getD (store.get key) := by
  obtain ⟨ops, conditions, reads⟩ := batch
  simp only [effect, staged]
  induction ops using List.reverseRecOn with
  | nil => simp
  | append_singleton ops op ih =>
    rw [foldl_append, reverse_append]
    simp only [foldl_cons, foldl_nil, reverse_singleton, singleton_append, find?_cons]
    rw [Op.get_apply, ih]
    by_cases same : key = op.key
    · simp [same]
    · simp [same, Ne.symm same]

theorem get_effect_of_not_staged {batch : Batch} {key : Bytes}
    (untouched : ∀ op ∈ batch.ops, op.key ≠ key) (store : Store) :
    (batch.effect store).get key = store.get key := by
  rw [get_effect, staged_eq_none_iff.mpr untouched, Option.getD_none]

end Batch

/-- From a batch with the precondition, the computation only observes stores with
the given property and ends with an answer and a batch as stated. -/
def Triple (holds : Store → Prop) (pre : Batch → Prop) (computation : TxM Label Value)
    (post : Result Value → Batch → Prop) : Prop :=
  ∀ batch, pre batch →
    Program.Observes holds (fun outcome => post outcome.1 outcome.2) (computation batch)

namespace Triple

variable {Other : Type} {holds : Store → Prop} {pre : Batch → Prop}
  {post : Result Value → Batch → Prop}

theorem pure {value : Value} (established : ∀ batch, pre batch → post (.ok value) batch) :
    Triple holds pre (Pure.pure value : TxM Label Value) post := by
  intro batch held
  exact established batch held

theorem throw {fault : Fault} (established : ∀ batch, pre batch → post (.error fault) batch) :
    Triple holds pre (MonadExcept.throw fault : TxM Label Value) post := by
  intro batch held
  exact established batch held

variable {computation : TxM Label Value} {continuation : Value → TxM Label Other}

theorem bind {middle : Result Value → Batch → Prop} {after : Result Other → Batch → Prop}
    (first : Triple holds pre computation middle)
    (next : ∀ value, Triple holds (middle (.ok value)) (continuation value) after)
    (fails : ∀ fault batch, middle (.error fault) batch → after (.error fault) batch) :
    Triple holds pre (computation >>= continuation) after := by
  intro batch held
  refine Program.Observes.bind (first batch held) ?_
  rintro ⟨result, staged⟩ reached
  cases result with
  | ok value => exact next value staged reached
  | error fault => exact fails fault staged reached

theorem keeps_bind (first : Triple holds pre computation fun _ batch => pre batch)
    (next : ∀ value, Triple holds pre (continuation value) fun _ batch => pre batch) :
    Triple holds pre (computation >>= continuation) fun _ batch => pre batch :=
  first.bind next fun _ _ held => held

theorem imp {weaker : Result Value → Batch → Prop} (triple : Triple holds pre computation post)
    (implies : ∀ result batch, post result batch → weaker result batch) :
    Triple holds pre computation weaker := by
  intro batch held
  exact (triple batch held).imp fun outcome => implies outcome.1 outcome.2

theorem strengthen {stronger : Batch → Prop} (triple : Triple holds pre computation post)
    (implies : ∀ batch, stronger batch → pre batch) : Triple holds stronger computation post := by
  intro batch held
  exact triple batch (implies batch held)

theorem update {change : Batch → Batch} {post : Result Unit → Batch → Prop}
    (established : ∀ batch, pre batch → post (.ok ()) (change batch)) :
    Triple holds pre (Tx.update change : TxM Label Unit) post := by
  intro batch held
  exact established batch held

theorem get {key : Bytes} {post : Result (Option Bytes) → Batch → Prop}
    (stagedCase : ∀ batch value, pre batch → batch.staged key = some value → post (.ok value) batch)
    (storeCase : ∀ batch store, pre batch → batch.staged key = none → holds store →
      post (.ok (store.get key)) { batch with reads := batch.reads ++ [(key, store.get key)] }) :
    Triple holds pre (Tx.get key : TxM Label (Option Bytes)) post := by
  intro batch held
  unfold Tx.get
  cases found : batch.staged key with
  | some value => exact stagedCase batch value held found
  | none =>
    intro store storeHolds
    exact storeCase batch store held found storeHolds

theorem scan {range : KeyRange} {post : Result (List (Bytes × Bytes)) → Batch → Prop}
    (established : ∀ batch store, pre batch → holds store →
      post (.ok (scanRange store range)) batch) :
    Triple holds pre (Tx.scan range : TxM Label (List (Bytes × Bytes))) post := by
  intro batch held store storeHolds
  exact established batch store held storeHolds

theorem scan_bind {range : KeyRange} {continuation : List (Bytes × Bytes) → TxM Label Value}
    (continues : ∀ store, holds store →
      Triple holds pre (continuation (scanRange store range)) post) :
    Triple holds pre (Tx.scan range >>= continuation) post := by
  intro batch held store storeHolds
  exact continues store storeHolds batch held

theorem lift {result : Result Value} (established : ∀ batch, pre batch → post result batch) :
    Triple holds pre (Result.lift result : TxM Label Value) post := by
  cases result with
  | ok value => exact Triple.pure established
  | error fault => exact Triple.throw established

theorem lift_bind {result : Result Value} {post : Result Other → Batch → Prop}
    (passes : ∀ value, result = .ok value → Triple holds pre (continuation value) post)
    (fails : ∀ fault batch, pre batch → post (.error fault) batch) :
    Triple holds pre (Result.lift result >>= continuation) post := by
  intro batch held
  cases result with
  | ok value => exact passes value rfl batch held
  | error fault => exact fails fault batch held

theorem within {op : String} {post : Result Value → Batch → Prop}
    (triple : Triple holds pre computation fun result => post (Result.within op result)) :
    Triple holds pre (Tx.within op computation) post := by
  intro batch held
  refine Program.Observes.bind (triple batch held) ?_
  rintro ⟨result, staged⟩ reached
  exact reached

end Triple

section Transactions

variable {Operation : Type} {holds : Store → Prop}

theorem observes_runAll {perform : Operation → TxM Label Value}
    {kept : List (Operation × Result Value) → Batch → Prop}
    (keeps : ∀ operation done, Triple holds (kept done) (perform operation)
      fun result batch => kept (done ++ [(operation, result)]) batch)
    (operations : List Operation) (done : List (Operation × Result Value)) (batch : Batch)
    (held : kept done batch) :
    (runAll perform operations done batch).Observes holds
      fun outcome => kept outcome.1 outcome.2 := by
  induction operations generalizing done batch with
  | nil => exact held
  | cons operation rest ih =>
    refine Program.Observes.bind (keeps operation done batch held) ?_
    rintro ⟨result, staged⟩ reached
    exact ih _ staged reached

variable {perform : Operation → TxM (List (Operation × Result Value)) Value}
  {inv : Store → List (List (Operation × Result Value)) → Prop}
  {kept : List (Operation × Result Value) → Batch → Prop}

/-- A check of a batch, of the store it is committed into and of the work committed before
it, latest first. -/
def ChecksWork {Work : Type} (check : Labelled Work → Store → List Work → Prop)
    (entry : Entry (List Operation) (Labelled Work)) (store : Store)
    (history : List (Entry (List Operation) (Labelled Work))) : Prop :=
  check entry.batch store (history.map fun entry => entry.batch.label)

instance {Work : Type} (check : Labelled Work → Store → List Work → Prop)
    [∀ payload store work, Decidable (check payload store work)]
    (entry : Entry (List Operation) (Labelled Work)) (store : Store)
    (history : List (Entry (List Operation) (Labelled Work))) :
    Decidable (ChecksWork check entry store history) :=
  inferInstanceAs (Decidable (check _ _ _))

variable (inv kept) in
/-- The invariant rule for transactions: every operation keeps a property of the
batch staged so far, and a batch with that property that passes the check keeps the
invariant of the store and the work committed into it wherever its conditions hold. -/
theorem invariant_of_checked_transactions
    (check : Labelled (List (Operation × Result Value)) → Store →
      List (List (Operation × Result Value)) → Prop)
    {initial : Store} (initially : inv initial []) (empty : kept [] {})
    (keeps : ∀ operation done, Triple (fun store => ∃ committed, inv store committed)
      (kept done) (perform operation)
      fun result batch => kept (done ++ [(operation, result)]) batch)
    (commits : ∀ done batch store committed, kept done batch → inv store committed →
      batch.Accepts store → check ⟨batch, done⟩ store committed →
      inv (batch.effect store) (done :: committed))
    (schedule : List (Action (List Operation)))
    (meets : (transactions perform).Meets (ChecksWork check) (System.start initial) schedule) :
    let world := (transactions perform).run initial schedule
    inv world.state (world.history.map fun entry => entry.batch.label) := by
  let system := transactions perform
  have distinct : system.Distinct (system.run initial schedule) :=
    ⟨fun _ _ => trivial, pairwise_of_forall fun _ _ => trivial⟩
  have sound := system.sound_run
    (fun store history => inv store (history.map fun entry => entry.batch.label))
    (fun _ _ _ _ _ _ _ => True) initially ?_ schedule distinct meets
  · exact sound.holds
  · intro index operations born state _ _ _
    refine System.Safe.of_observes (fun outcome => kept outcome.1 outcome.2) ?_ ?_
    · apply (observes_runAll keeps operations [] {} empty).mono
      rintro store ⟨history, held, _⟩
      exact ⟨_, held⟩
    rintro ⟨done, batch⟩ _ _ staged store history held _ _
    by_cases accepts : batch.Accepts store
    · have applied : system.apply ⟨batch, done⟩ store = .ok (batch.effect store) :=
        Batch.commit_of_accepts accepts
      rw [applied]
      exact fun passes => ⟨commits done batch store _ staged held accepts passes, trivial⟩
    have rejected := Batch.commit_conflict accepts
    rw [show system.apply ⟨batch, done⟩ store = _ from rejected]
    trivial

variable (inv kept) in
theorem invariant_of_transactions {initial : Store} (initially : inv initial [])
    (empty : kept [] {})
    (keeps : ∀ operation done, Triple (fun store => ∃ committed, inv store committed)
      (kept done) (perform operation)
      fun result batch => kept (done ++ [(operation, result)]) batch)
    (commits : ∀ done batch store committed, kept done batch → inv store committed →
      batch.Accepts store → inv (batch.effect store) (done :: committed))
    (schedule : List (Action (List Operation))) :
    let world := (transactions perform).run initial schedule
    inv world.state (world.history.map fun entry => entry.batch.label) :=
  invariant_of_checked_transactions inv kept (fun _ _ _ => True) initially empty keeps
    (fun done batch store committed staged held accepts _ =>
      commits done batch store committed staged held accepts)
    schedule (System.meets_unchecked _ _ _)

end Transactions

end Remem.Storage
