import Remem.Record.Repo
import Remem.Storage.Engine

/-!
# No update is lost

Any number of `txn.Do` loops read and write records side by side. A body is any function
of what its call has observed so far, in earlier attempts too. Every write of a record
commits only over the body it was made from, so the committed bodies of each record form
a chain.
-/

namespace Remem

open Base Keys Storage List Batch Option

inductive Observation where
  | got (rid : Id) (result : Result Record)
  | read (value : Option Bytes)
  | wrote (result : Result Unit)

/-- The body of a transaction. The body a record was read from is private to the
repository: `put` names the read that the record comes from, among those of its call, or
none for a record made from nothing. -/
inductive Script where
  | done (result : Result Unit)
  | get (rid : Id) (next : Result Record → Script)
  | read (key : Bytes) (next : Option Bytes → Script)
  | put (source : Option Nat) (record : Record) (next : Result Unit → Script)
  | delete (rid : Id) (next : Result Unit → Script)

/-- The records that `Get` has answered, with the ids it was asked for. -/
def records (observed : List Observation) : List (Id × Record) :=
  observed.filterMap fun
    | .got rid (.ok record) => some (rid, record)
    | _ => none

/-- What `Put` is given. A record that was read is written back under its id. -/
def handed (observed : List Observation) (source : Option Nat) (record : Record) : Record :=
  match source.bind fun index => (records observed)[index]? with
  | none => { record with originalBody := none, projected := false }
  | some (rid, held) =>
    { record with
      id := rid, namespaceName := defaultNamespace
      originalBody := held.originalBody, projected := false }

/-- The bodies that the records of `Get` were read from, with their keys. -/
def bodiesRead (context : Option TenantId) (observed : List Observation) : List (Bytes × Bytes) :=
  match requireTenant context with
  | .error _ => []
  | .ok tenant => (records observed).filterMap fun (rid, record) =>
      record.originalBody.map fun body => (bodyKey tenant defaultNamespace rid, body)

/-- What the last `Put` or `Delete` of each record in a transaction was to write, where it has
returned no error. -/
abbrev Due := Bytes → Option (Option Bytes)

def Repo.duePut (repo : Repo) (context : Option TenantId) (record : Record)
    (result : Result Unit) (due : Due) : Due :=
  match requireTenant context with
  | .error _ => due
  | .ok tenant => Function.update due (bodyKey tenant record.resolved record.id)
      (result.toOption.map fun () =>
        (repo.bodies.encodeBody (repo.scheduled tenant record)).toOption)

def dueDelete (context : Option TenantId) (rid : Id) (result : Result Unit) (due : Due) : Due :=
  match requireTenant context with
  | .error _ => due
  | .ok tenant => Function.update due (bodyKey tenant defaultNamespace rid)
      (result.toOption.map fun () => none)

/-- What a transaction rests on and what it was told to write. -/
structure Account where
  got : List (Bytes × Bytes)
  due : Due := fun _ => none

namespace Account

variable {account : Account} {key other : Bytes} {body later : Option (Option Bytes)}

def owing (account : Account) (key : Bytes) (body : Option (Option Bytes)) : Account :=
  { account with due := Function.update account.due key body }

theorem owing_due_self : (account.owing key body).due key = body := Function.update_self ..

theorem owing_due_of_ne (apart : other ≠ key) :
    (account.owing key body).due other = account.due other := Function.update_of_ne apart ..

end Account

/-- The account of the write-back of a record that `Get` has upgraded. -/
def Repo.backed (repo : Repo) (context : Option TenantId) (rid : Id) (record : Record) : Account :=
  { got := bodiesRead context [.got rid (.ok record)]
    due := repo.duePut context record (.ok ()) fun _ => none }

/-- Where a transaction is: what its call has observed, in earlier attempts too, and what the
attempt has written. -/
structure Progress where
  observed : List Observation
  due : Due := fun _ => none
  batch : Batch := {}

def Progress.account (context : Option TenantId) (progress : Progress) : Account :=
  ⟨bodiesRead context progress.observed, progress.due⟩

namespace Script

variable (repo : Repo) (context : Option TenantId)

def run : Script → Progress → StoreProgram Account (Result Unit × Progress)
  | done result, progress => return (result, progress)
  | get rid next, progress => do
      let result ← repo.get (repo.backed context rid) context rid
      (next result).run { progress with observed := progress.observed ++ [.got rid result] }
  | read key next, progress => do
      let (result, batch) ← Tx.get key progress.batch
      let value := result.toOption.join
      (next value).run { progress with observed := progress.observed ++ [.read value], batch }
  | put source record next, progress => do
      let record := handed progress.observed source record
      let (result, batch) ← repo.put context record progress.batch
      (next result).run
        { observed := progress.observed ++ [.wrote result]
          due := repo.duePut context record result progress.due, batch }
  | delete rid next, progress => do
      let (result, batch) ← repo.delete context rid progress.batch
      (next result).run
        { observed := progress.observed ++ [.wrote result]
          due := dueDelete context rid result progress.due, batch }

end Script

/-- A call of `txn.Do`: its context, its body, and after which attempts the context is
found done. -/
structure DoCall where
  context : Option TenantId
  body : List Observation → Script
  cancelled : Nat → Bool

namespace DoCall

variable (repo : Repo)

def attempt (call : DoCall) (observed : List Observation) :
    StoreProgram Account (Result Due × List Observation) := do
  let (result, progress) ← (call.body observed).run repo call.context { observed }
  match result with
  | .error fault => return (.error fault, progress.observed)
  | .ok () =>
    match ← Program.attempt ⟨progress.batch, progress.account call.context⟩ with
    | .error fault => return (.error fault, progress.observed)
    | .ok () => return (.ok progress.due, progress.observed)

/-- `txn.Do`. Where it returns no error it answers with what its last attempt was to write. -/
def program (call : DoCall) : StoreProgram Account (Result Due) := do
  let (result, _) ← retry (call.attempt repo) call.cancelled maxAttempts []
  return result

end DoCall

def Storage.Condition.expected (condition : Condition) : Option Bytes :=
  if condition.present then some condition.value else none

def Storage.Batch.replaces (batch : Batch) (key : Bytes) : Option (Option Bytes) :=
  (batch.conditions.find? fun condition => condition.key = key).map Condition.expected

def HadRead (payload : Labelled Account) (key : Bytes) (body : Option Bytes) : Prop :=
  (key, body) ∈ payload.batch.reads ∨ ∃ bytes, (key, bytes) ∈ payload.label.got ∧ body = some bytes

/-- The bodies of a record that were replaced and written, the latest first. -/
def links (history : List (Entry DoCall (Labelled Account))) (key : Bytes) :
    List (Option Bytes × Option Bytes) :=
  history.filterMap fun entry => do
    let written ← entry.batch.batch.staged key
    let replaced ← entry.batch.batch.replaces key
    return (replaced, written)

/-- Every link replaces what the one before it wrote. -/
def Linked (first : Option Bytes) : List (Option Bytes × Option Bytes) → Option Bytes → Prop
  | [], last => last = first
  | (replaced, written) :: earlier, last => last = written ∧ Linked first earlier replaced

/-- What a transaction has read of the records it writes, and what it writes: it stages a record
only on a condition, has a condition only on a body it has read, and stages what is due. -/
structure Tracked (account : Account) (batch : Batch) : Prop where
  guarded : ∀ op ∈ batch.ops, InSpace .record op.key →
    ∃ condition ∈ batch.conditions, condition.key = op.key
  sourced : ∀ condition ∈ batch.conditions, InSpace .record condition.key →
    HadRead ⟨batch, account⟩ condition.key condition.expected
  written : ∀ key body, InSpace .record key → account.due key = some body →
    batch.staged key = some body

theorem Storage.Batch.Grows.staged_eq {inside : Bytes → Prop} {before after : Batch} {key : Bytes}
    (grown : before.Grows inside after) (outside : ¬ inside key) :
    after.staged key = before.staged key := by
  obtain ⟨more, ops, within⟩ := grown.ops
  have none : more.reverse.find? (fun op => decide (op.key = key)) = none := by
    rw [find?_eq_none]
    intro op listed same
    exact outside (of_decide_eq_true same ▸ within op (mem_reverse.mp listed))
  rw [staged, ops, reverse_append, find?_append, none, Option.none_or, staged]

theorem Storage.Batch.staged_append (batch : Batch) (op : Op) (key : Bytes) :
    ({ batch with ops := batch.ops ++ [op] } : Batch).staged key =
      if op.key = key then some op.value else batch.staged key := by
  simp only [staged, reverse_append, reverse_singleton, singleton_append, find?_cons]
  split <;> simp_all

namespace Tracked

variable {account : Account} {batch after : Batch}

theorem nil (got : List (Bytes × Bytes)) : Tracked { got } {} :=
  ⟨by simp, by simp, fun _ _ _ impossible => by cases impossible⟩

theorem mono {other : Account} (tracked : Tracked account batch) (got : account.got ⊆ other.got)
    (due : ∀ key body, other.due key = some body → account.due key = some body) :
    Tracked other batch where
  guarded := tracked.guarded
  sourced condition listed isRecord := by
    refine (tracked.sourced condition listed isRecord).imp_right ?_
    rintro ⟨bytes, read, same⟩
    exact ⟨bytes, got read, same⟩
  written key body isRecord isDue := tracked.written key body isRecord (due key body isDue)

theorem grows {inside : Bytes → Prop} (tracked : Tracked account batch)
    (grown : batch.Grows inside after) (apart : ∀ key, inside key → ¬ InSpace .record key) :
    Tracked account after where
  guarded op listed isRecord := by
    rcases grown.mem_ops listed with earlier | new
    · obtain ⟨condition, held, same⟩ := tracked.guarded op earlier isRecord
      exact ⟨condition, grown.conditions_subset held, same⟩
    · exact absurd isRecord (apart _ new)
  sourced condition listed isRecord := by
    rcases grown.mem_conditions listed with earlier | new
    · refine (tracked.sourced condition earlier isRecord).imp_left ?_
      exact fun read => grown.reads_subset read
    · exact absurd isRecord (apart _ new)
  written key body isRecord isDue := by
    rw [grown.staged_eq fun inside => apart key inside isRecord]
    exact tracked.written key body isRecord isDue

theorem read (tracked : Tracked account batch) (key : Bytes) (value : Option Bytes) :
    Tracked account { batch with reads := batch.reads ++ [(key, value)] } where
  guarded := tracked.guarded
  sourced condition listed isRecord := by
    refine (tracked.sourced condition listed isRecord).imp_left ?_
    exact fun read => mem_append_left _ read
  written := tracked.written

variable {key value : Bytes} {present : Bool}

theorem expect (tracked : Tracked account batch)
    (read : batch.staged key = none → HadRead ⟨batch, account⟩ key (Condition.expected ⟨key, value,
      present⟩)) : Tracked account (batch.expect key value present) := by
  unfold Batch.expect
  split
  · exact tracked
  next unstaged =>
  split
  · exact tracked
  refine ⟨?_, ?_, tracked.written⟩
  · intro op listed isRecord
    obtain ⟨condition, held, same⟩ := tracked.guarded op listed isRecord
    exact ⟨condition, mem_append_left _ held, same⟩
  · intro condition listed isRecord
    rcases mem_append.mp listed with earlier | new
    · exact tracked.sourced condition earlier isRecord
    · rw [mem_singleton.mp new]
      exact read (staged_eq_none_iff.mpr (by simpa using unstaged))

theorem stage (tracked : Tracked account batch) (op : Op)
    (guard : ∃ condition ∈ batch.conditions, condition.key = op.key) :
    Tracked (account.owing op.key (some op.value)) { batch with ops := batch.ops ++ [op] } where
  guarded other listed isRecord := by
    rcases mem_append.mp listed with earlier | new
    · exact tracked.guarded other earlier isRecord
    · rw [mem_singleton.mp new]
      exact guard
  sourced := tracked.sourced
  written key body isRecord isDue := by
    rw [Batch.staged_append]
    by_cases same : op.key = key
    · subst same
      rw [if_pos rfl, ← isDue, Account.owing_due_self]
    · rw [if_neg same]
      rw [Account.owing_due_of_ne (Ne.symm same)] at isDue
      exact tracked.written key body isRecord isDue

theorem forget (tracked : Tracked account batch) (key : Bytes) :
    Tracked (account.owing key none) batch := by
  refine tracked.mono (Subset.refl _) fun other body isDue => ?_
  by_cases same : other = key
  · rw [same, Account.owing_due_self] at isDue
    cases isDue
  · rwa [Account.owing_due_of_ne same] at isDue

end Tracked

section Writes

variable {repo : Repo} {context : Option TenantId} {account : Account} {holds : Store → Prop}

variable {key : Bytes}

end Writes

section Calls

variable {repo : Repo} {context : Option TenantId} {observed : List Observation}

def Attempts (_ : List (Labelled Account)) (payload : Labelled Account) : Prop :=
  Tracked payload.label payload.batch

theorem bodiesRead_subset (observed : List Observation) (observation : Observation) :
    bodiesRead context observed ⊆ bodiesRead context (observed ++ [observation]) := by
  intro bytes listed
  unfold bodiesRead at listed ⊢
  split at listed
  · cases listed
  · simp only [records, filterMap_append, mem_append]
    exact .inl listed

theorem Tracked.observe {progress : Progress} {batch : Batch} {due : Due}
    (tracked : Tracked ⟨bodiesRead context progress.observed, due⟩ batch)
    (observation : Observation) :
    Tracked ⟨bodiesRead context (progress.observed ++ [observation]), due⟩ batch :=
  tracked.mono (bodiesRead_subset _ _) fun _ _ isDue => isDue

end Calls

section Runs

structure Chained (initial store : Store)
    (history : List (Entry DoCall (Labelled Account))) : Prop where
  tracked : ∀ entry ∈ history, Tracked entry.batch.label entry.batch.batch
  linked : ∀ key, InSpace .record key → Linked (initial.get key) (links history key) (store.get key)

variable {store : Store}

theorem Storage.Condition.get_of_holds {condition : Condition}
    (held : condition.holds store = true) : store.get condition.key = condition.expected := by
  unfold holds at held
  unfold expected
  cases found : store.get condition.key <;> cases present : condition.present <;> simp_all

theorem Tracked.replaces {payload : Labelled Account}
    (tracked : Tracked payload.label payload.batch) {key : Bytes} (isRecord : InSpace .record key)
    {written : Option Bytes} (staged : payload.batch.staged key = some written) :
    ∃ replaced, payload.batch.replaces key = some replaced ∧ HadRead payload key replaced ∧
      ∀ store, payload.batch.Accepts store → store.get key = replaced := by
  obtain ⟨op, listed, rfl, _⟩ := mem_of_staged staged
  obtain ⟨guard, held, same⟩ := tracked.guarded op listed isRecord
  have some : (payload.batch.conditions.find? fun condition => condition.key = op.key).isSome := by
    rw [find?_isSome]
    exact ⟨guard, held, by simpa using same⟩
  obtain ⟨condition, found⟩ := isSome_iff_exists.mp some
  have isKey : condition.key = op.key := by simpa using find?_some found
  have member := mem_of_find?_eq_some found
  refine ⟨condition.expected, ?_, ?_, ?_⟩
  · rw [Batch.replaces, found, map_some]
  · rw [← isKey] at isRecord ⊢
    exact tracked.sourced condition member isRecord
  · intro store accepts
    rw [← isKey]
    exact Condition.get_of_holds (accepts condition member)

theorem Chained.commit {initial : Store} {history : List (Entry DoCall (Labelled Account))}
    (chained : Chained initial store history) (entry : Entry DoCall (Labelled Account))
    (tracked : Tracked entry.batch.label entry.batch.batch)
    (accepts : entry.batch.batch.Accepts store) :
    Chained initial (entry.batch.batch.effect store) (entry :: history) where
  tracked other listed := by
    rcases mem_cons.mp listed with rfl | earlier
    · exact tracked
    · exact chained.tracked other earlier
  linked key isRecord := by
    rw [get_effect]
    cases staged : entry.batch.batch.staged key with
    | none =>
      simp only [links, filterMap_cons, staged, getD_none]
      exact chained.linked key isRecord
    | some written =>
      obtain ⟨replaced, replaces, _, held⟩ := tracked.replaces isRecord staged
      simp only [links, filterMap_cons, staged, replaces, getD_some]
      refine ⟨rfl, ?_⟩
      rw [← held store accepts]
      exact chained.linked key isRecord

end Runs

def sampleRepo : Repo where
  bodies := .plain
  vectors := .blocks

def teaRecord : Record where
  fields :=
    { policy := defaultPolicy, importance := defaultImportance, health := defaultHealth
      valence := 0, arousal := 0, accessedAt := .zero, accessCount := 0
      lastRecalledAt := .zero, nextAttentionAt := .zero }
  createdAt := 1000000
  updatedAt := 1000000
  id := Id.filled 1
  tenant := ascii "acme"
  namespaceName := defaultNamespace
  typ := .memory
  content := ascii "tea"

def creating : DoCall where
  context := some (ascii "acme")
  body _ := .put none teaRecord .done
  cancelled _ := false

/-- A call that adds to the content of the record. -/
def adding (more : Bytes) : DoCall where
  context := some (ascii "acme")
  body observed := .get (Id.filled 1) fun
    | .error fault => .done (.error fault)
    | .ok record =>
      .put (some (records observed).length) { record with content := record.content ++ more } .done
  cancelled _ := false

/-- Two calls read the record; one commits, and the other has to read it again. -/
def bothAdd : List (Action DoCall) :=
  [.spawn creating, .act 0, .act 0, .spawn (adding (ascii "!")), .spawn (adding (ascii "?")),
    .act 1, .act 1, .act 2, .act 2, .act 1, .act 2, .act 2, .act 2, .act 2]

def added : World DoCall Store (Labelled Account) Fault (Result Due) :=
  Engine.memkv.run (DoCall.program sampleRepo) .empty bothAdd

end Remem
