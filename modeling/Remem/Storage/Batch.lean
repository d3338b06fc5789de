import Remem.Keys.Layout
import Remem.Base.OrderedMap
import Remem.Base.Concurrent

/-!
# The store and its conditional batches

The ordered key-value store, a batch staged over it and the transaction that
wraps the batch. A batch reads its own staged operations first and the live
store after them; it is not a snapshot. Its commit checks every condition and
applies every operation in one atomic step.
-/

namespace Remem.Storage

open Base Keys

abbrev Store := OrderedMap Bytes Bytes

def scanRange (store : Store) (range : KeyRange) : List (Bytes × Bytes) :=
  store.scan fun key => decide (range.Contains key)

inductive Op where
  | set (key value : Bytes)
  | delete (key : Bytes)
  deriving DecidableEq, Repr

def Op.key : Op → Bytes
  | set key _ => key
  | delete key => key

def Op.value : Op → Option Bytes
  | set _ value => some value
  | delete _ => none

def Op.apply (store : Store) : Op → Store
  | set key value => store.set key value
  | delete key => store.erase key

/-- A condition of a batch: the key holds this value, or nothing. -/
structure Condition where
  key : Bytes
  value : Bytes
  present : Bool
  deriving DecidableEq, Repr

/-- The check `Commit` makes of one condition. -/
def Condition.holds (condition : Condition) (store : Store) : Bool :=
  match store.get condition.key with
  | none => !condition.present
  | some value => condition.present && value = condition.value

/-- A batch: its operations in the order they were staged and its conditions.
`reads` records what the batch was made from: what `Get` answered from the store,
and the rows a job copies. The code keeps no such list and nothing it does depends
on it. -/
structure Batch where
  ops : List Op := []
  conditions : List Condition := []
  reads : List (Bytes × Option Bytes) := []
  deriving DecidableEq, Repr

namespace Batch

def staged (batch : Batch) (key : Bytes) : Option (Option Bytes) :=
  (batch.ops.reverse.find? fun op => op.key = key).map Op.value

def set (batch : Batch) (key value : Bytes) : Batch :=
  { batch with ops := batch.ops ++ [.set key value] }

def delete (batch : Batch) (key : Bytes) : Batch :=
  { batch with ops := batch.ops ++ [.delete key] }

/-- `Expect`: ignored on a key the batch has staged or already has a condition on. -/
def expect (batch : Batch) (key value : Bytes) (present : Bool) : Batch :=
  if batch.ops.any fun op => op.key = key then batch
  else if batch.conditions.any fun condition => condition.key = key then batch
  else { batch with conditions := batch.conditions ++ [⟨key, value, present⟩] }

def effect (batch : Batch) (store : Store) : Store := batch.ops.foldl Op.apply store

def commit (batch : Batch) (store : Store) : Result Store :=
  if batch.conditions.all fun condition => condition.holds store then
    .ok (batch.effect store)
  else .error ⟨.conflict, "memkv.Batch.Commit", "conditional write conflict", []⟩

end Batch

/-- A batch with what its transaction says it did. -/
structure Labelled (Label : Type) where
  batch : Batch
  label : Label

variable {Label Value Answer : Type}

abbrev StoreProgram (Label : Type) := Program Store (Labelled Label) Fault

/-- A computation inside a transaction. Staged work survives an error, as it does
in the source until the transaction is closed. -/
abbrev TxM (Label Value : Type) := ExceptT Fault (StateT Batch (StoreProgram Label)) Value

namespace Tx

/-- `Get`: staged operations first, then the store; absent is the source's `NotFound`. -/
def get (key : Bytes) : TxM Label (Option Bytes) := fun batch =>
  match batch.staged key with
  | some value => .ret (.ok value, batch)
  | none => .read fun store =>
    .ret (.ok (store.get key), { batch with reads := batch.reads ++ [(key, store.get key)] })

def update (change : Batch → Batch) : TxM Label Unit := fun batch =>
  .ret (.ok (), change batch)

def set (key value : Bytes) : TxM Label Unit := update fun batch => batch.set key value

def delete (key : Bytes) : TxM Label Unit := update fun batch => batch.delete key

def expect (key value : Bytes) (present : Bool) : TxM Label Unit :=
  update fun batch => batch.expect key value present

def scan (range : KeyRange) : TxM Label (List (Bytes × Bytes)) := fun batch =>
  .read fun store => .ret (.ok (scanRange store range), batch)

/-- A computation whose error is reported as the outer operation's. -/
def within (op : String) (computation : TxM Label Value) : TxM Label Value := fun batch => do
  let (result, batch) ← computation batch
  return (Result.within op result, batch)

end Tx

section Transactions

variable {Operation : Type}

/-- Operations one after the other on one batch, whatever each answers: a caller
may go on after an error as well as give up. -/
def runAll (perform : Operation → TxM Label Value) :
    List Operation → List (Operation × Result Value) → Batch →
      StoreProgram Label (List (Operation × Result Value) × Batch)
  | [], done, batch => .ret (done, batch)
  | operation :: rest, done, batch => do
      let (result, batch) ← perform operation batch
      runAll perform rest (done ++ [(operation, result)]) batch

def transaction (perform : Operation → TxM (List (Operation × Result Value)) Value)
    (operations : List Operation) :
    StoreProgram (List (Operation × Result Value))
      (List (Operation × Result Value) × Result Unit) := do
  let (done, batch) ← runAll perform operations [] {}
  let outcome ← Program.attempt ⟨batch, done⟩
  return (done, outcome)

/-- Transactions of the given operations, any number of them side by side. -/
def transactions (perform : Operation → TxM (List (Operation × Result Value)) Value) :
    System (List Operation) Store (Labelled (List (Operation × Result Value))) Fault
      (List (Operation × Result Value) × Result Unit) where
  apply payload store := payload.batch.commit store
  body := transaction perform
  legal _ := True
  distinct _ _ := True
  distinct_symm _ _ _ := trivial

end Transactions

end Remem.Storage
