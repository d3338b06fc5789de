import Remem.Attr.Cache

/-!
# Writers and readers of the row cache

Transactions that stage rows and readers that hold snapshots, side by side over
one store and one cache. An action is one atomic step of one of them; an action
its thread is not ready for leaves the world as it is.
-/

namespace Remem.Attr

open Base Keys Storage

/-- `decodeRowFrom`: a missing or undecodable row is absent. -/
def decodeRowFrom (table : Slots) (store : Store) (subject : Subject) : Option Row :=
  (store.get (rowKey subject)).bind fun bytes => (decodeRow table bytes).toOption

/-- How far a staged row is through `beginWrite` and `finishWrite`, and whether the
gate let it record a mark. -/
inductive Phase where
  | drawn
  | entered (record : Bool)
  | marked (record : Bool)
  | bumped (record : Bool)
  | released
  | left
  deriving DecidableEq

/-- A row staged by a transaction: what it writes there, or that it deletes it. -/
structure Write where
  transaction : Nat
  subject : Subject
  change : Option Bytes
  seq : UInt64
  phase : Phase

def Phase.isMarked : Phase → Bool
  | marked _ => true
  | _ => false

def Write.op (write : Write) : Op :=
  match write.change with
  | some bytes => .set (rowKey write.subject) bytes
  | none => .delete (rowKey write.subject)

/-- A `CachedReader` with the generation and the snapshot of its session, the row it
has missed and not yet read, and what its calls of `Row` returned. -/
structure Reader where
  tenant : TenantId
  gen : UInt64
  snapshot : Option Store := none
  pending : Option Subject := none
  answers : List (Subject × Option Row) := []

/-- `ended` has an entry for each transaction: whether it has reached its commit or
close callbacks, after which its batch is never applied. -/
structure World where
  store : Store
  cache : RowCache
  ended : List Bool := []
  writes : List Write := []
  readers : List Reader := []

inductive Event where
  | begin
  | draw (transaction : Nat) (subject : Subject) (change : Option Bytes)
  | enter (write : Nat)
  | mark (write : Nat)
  | apply (transaction : Nat)
  | finish (transaction : Nat)
  | bump (write : Nat)
  | release (write : Nat)
  | leave (write : Nat)
  | clear
  | openReader (tenant : TenantId)
  | takeSnapshot (reader : Nat)
  | lookup (reader : Nat) (subject : Subject)
  | fetch (reader : Nat)

/-- How often an event adds to a generation, at most. -/
def Event.bumps : Event → Nat
  | bump _ => 1
  | _ => 0

namespace World

def stagedBy (world : World) (transaction : Nat) : List Write :=
  world.writes.filter fun write => write.transaction = transaction

/-- A transaction between calls of `Stage`: it has not ended and every row it has
staged is through `beginWrite`. -/
def ready (world : World) (transaction : Nat) : Bool :=
  world.ended[transaction]? = some false &&
    (world.stagedBy transaction).all fun write => write.phase.isMarked

def advance (world : World) (index : Nat) (next : Write → Option (Phase × RowCache)) : World :=
  match world.writes[index]? with
  | none => world
  | some write =>
    match next write with
    | none => world
    | some (phase, cache) =>
      { world with cache, writes := world.writes.set index { write with phase } }

def act (world : World) (index : Nat) (next : Reader → Option (Reader × RowCache)) : World :=
  match world.readers[index]? with
  | none => world
  | some reader =>
    match next reader with
    | none => world
    | some (reader, cache) => { world with cache, readers := world.readers.set index reader }

/-- The first step of `CachedReader.Row`: a row of another tenant bypasses the cache,
and a miss leaves the row to be read from the snapshot. -/
def lookupRow (table : Slots) (cache : RowCache) (subject : Subject) (reader : Reader) :
    Option (Reader × RowCache) :=
  match reader.snapshot, reader.pending with
  | some snapshot, none =>
    let subject := cacheKey subject
    if subject.tenant ≠ reader.tenant then
      some ({ reader with
        answers := (subject, decodeRowFrom table snapshot subject) :: reader.answers }, cache)
    else match cache.lookupAt subject reader.gen with
      | (some row, cache) =>
        some ({ reader with answers := (subject, some row) :: reader.answers }, cache)
      | (none, cache) => some ({ reader with pending := some subject }, cache)
  | _, _ => none

/-- The second step of `CachedReader.Row` after a miss. -/
def fetchRow (table : Slots) (cache : RowCache) (reader : Reader) : Option (Reader × RowCache) :=
  match reader.snapshot, reader.pending with
  | some snapshot, some subject =>
    let row := decodeRowFrom table snapshot subject
    some ({ reader with pending := none, answers := (subject, row) :: reader.answers },
      match row with
      | none => cache
      | some row => cache.storeAt subject reader.gen row)
  | _, _ => none

/-- One step. The steps through the gate wait while a clear holds its lock. -/
def step (table : Slots) (world : World) : Event → World
  | .begin => { world with ended := world.ended ++ [false] }
  | .draw transaction subject change =>
    if world.ended[transaction]? = some false then
      let (seq, cache) := world.cache.drawSeq
      { world with
        cache, writes := world.writes ++ [⟨transaction, subject, change, seq, .drawn⟩] }
    else world
  | .enter index => world.advance index fun write =>
    if write.phase = .drawn ∧ world.cache.staging.clearing = [] then
      let (record, cache) := world.cache.enter
      some (.entered record, cache)
    else none
  | .mark index => world.advance index fun write =>
    match write.phase with
    | .entered record =>
      some (.marked record, world.cache.mark write.subject write.seq record)
    | _ => none
  | .apply transaction =>
    if world.ready transaction then
      { world with
        store := ((world.stagedBy transaction).map Write.op).foldl Op.apply world.store }
    else world
  | .finish transaction =>
    if world.ready transaction then
      { world with ended := world.ended.set transaction true }
    else world
  | .bump index => world.advance index fun write =>
    match write.phase with
    | .marked record =>
      if world.ended[write.transaction]? = some true then
        some (.bumped record, world.cache.bump write.subject.tenant)
      else none
    | _ => none
  | .release index => world.advance index fun write =>
    match write.phase with
    | .bumped _ => some (.released, world.cache.release write.subject write.seq)
    | _ => none
  | .leave index => world.advance index fun write =>
    if write.phase = .released ∧ world.cache.staging.clearing = [] then
      some (.left, world.cache.leave)
    else none
  | .clear => { world with cache := world.cache.clearNext }
  | .openReader tenant =>
    { world with
      readers := world.readers ++ [{ tenant, gen := world.cache.generation tenant }] }
  | .takeSnapshot index => world.act index fun reader =>
    match reader.snapshot with
    | none => some ({ reader with snapshot := some world.store }, world.cache)
    | some _ => none
  | .lookup index subject => world.act index (lookupRow table world.cache subject)
  | .fetch index => world.act index (fetchRow table world.cache)

def run (table : Slots) (store : Store) (cache : RowCache) (events : List Event) : World :=
  events.foldl (step table) { store, cache }

end World

end Remem.Attr
