import Remem.Attr.Indexer

/-!
# The row cache

A bounded cache of decoded attribute rows, shared by readers that hold different
snapshots. Each definition below is one hold of a shard's lock, one hold of the
gate's lock or one change of an atomic counter.

The generations, which count the finished writes of a tenant, and the sequence numbers
that tell marks apart wrap as the source's do.
-/

namespace Remem.Attr

open Base Keys Storage

/-- `RowCache.key`: an empty namespace is the default one. -/
def cacheKey (subject : Subject) : Subject :=
  if subject.namespaceName = [] then { subject with namespaceName := defaultNamespace }
  else subject

/-- `rowCacheEntry`. -/
structure CacheEntry where
  key : Subject
  gen : UInt64
  row : Row

/-- `rowCacheShard`. The source's map of entries is the search of `order` by key;
the most recently used entry is first. -/
structure Shard where
  capacity : Nat
  order : List CacheEntry := []
  staged : Subject → List UInt64 := fun _ => []

namespace Shard

/-- `removeLocked`. -/
def remove (shard : Shard) (key : Subject) : Shard :=
  { shard with order := shard.order.eraseP fun entry => entry.key = key }

/-- The hold of the shard in `beginWrite`. -/
def mark (shard : Shard) (key : Subject) (seq : UInt64) : Shard :=
  Shard.remove
    { shard with staged := Function.update shard.staged key (shard.staged key ++ [seq]) } key

def withoutMark (marks : List UInt64) (seq : UInt64) : List UInt64 :=
  match marks.idxOf? seq, marks.getLast? with
  | some index, some last => (marks.set index last).dropLast
  | _, _ => marks

/-- `finishLocked`. -/
def finish (shard : Shard) (key : Subject) (seq : UInt64) : Shard :=
  { shard with
    staged := Function.update shard.staged key (withoutMark (shard.staged key) seq) }

/-- What `releaseEverything` does to one shard. -/
def clear (shard : Shard) : Shard := { capacity := shard.capacity }

def push (shard : Shard) (entry : CacheEntry) : Shard :=
  if shard.order.any fun held => held.key = entry.key then
    { shard with order := entry :: shard.order.eraseP fun held => held.key = entry.key }
  else { shard with order := (entry :: shard.order).take shard.capacity }

end Shard

def maxStagedRows : Int := 65536

/-- `stagingGate`. `clearing` lists the shards that the clear under the gate's lock
has still to empty; the lock is free when there are none. -/
structure StagingGate where
  outstanding : Int := 0
  latched : Bool := false
  disabled : Bool := false
  clearing : List (Fin 16) := []

namespace StagingGate

/-- `enter`, up to the clear that a trip starts. -/
def enter (gate : StagingGate) : Bool × StagingGate :=
  let gate := { gate with outstanding := gate.outstanding + 1 }
  if gate.disabled then (false, gate)
  else if gate.outstanding > maxStagedRows then
    (false, { gate with disabled := true, clearing := List.finRange 16 })
  else (true, gate)

/-- `leave`, up to the clear that an underflow starts. -/
def leave (gate : StagingGate) : StagingGate :=
  let gate := { gate with outstanding := gate.outstanding - 1 }
  if gate.outstanding < 0 then
    { gate with
      outstanding := 0, latched := true, disabled := true, clearing := List.finRange 16 }
  else if gate.latched || gate.outstanding > 0 || !gate.disabled then gate
  else { gate with disabled := false }

end StagingGate

structure RowCache where
  shards : Fin 16 → Shard
  gens : TenantId → UInt64 := fun _ => 0
  staging : StagingGate := {}
  stageSeq : UInt64 := 0

/-- `binary.LittleEndian.Uint64`. -/
def littleEndian64 (bytes : Bytes) : UInt64 := (ofBigEndian bytes.reverse).toUInt64

/-- `RowCache.shard`: the top bits of a multiplicative hash of the id. -/
@[irreducible]
def shardOf (key : Subject) : Fin 16 :=
  let hash := littleEndian64 (key.rid.bytes.take 8) ^^^ littleEndian64 (key.rid.bytes.drop 8)
  Fin.ofNat 16 ((hash * 0x9e3779b97f4a7c15) >>> 60).toNat

namespace RowCache

/-- `NewRowCache`. -/
def new (entries : Int) : Option RowCache :=
  if entries ≤ 0 then none
  else some { shards := fun _ => { capacity := ((entries + 15) / 16).toNat } }

def generation (cache : RowCache) (tenant : TenantId) : UInt64 := cache.gens tenant

def shard (cache : RowCache) (key : Subject) : Shard := cache.shards (shardOf key)

def withShard (cache : RowCache) (key : Subject) (change : Shard → Shard) : RowCache :=
  { cache with
    shards := Function.update cache.shards (shardOf key) (change (cache.shard key)) }

/-- The checks that `lookupAt` and `storeAt` make under the shard's lock. -/
def refuses (cache : RowCache) (key : Subject) (gen : UInt64) : Bool :=
  cache.staging.disabled || 0 < ((cache.shard key).staged key).length ||
    cache.generation key.tenant ≠ gen

def lookupAt (cache : RowCache) (subject : Subject) (gen : UInt64) : Option Row × RowCache :=
  let key := cacheKey subject
  if cache.refuses key gen then (none, cache)
  else match (cache.shard key).order.find? fun entry => entry.key = key with
    | none => (none, cache)
    | some entry =>
      if entry.gen ≠ gen then (none, cache)
      else (some entry.row, cache.withShard key fun shard =>
        { shard with order := entry :: shard.order.eraseP fun held => held.key = key })

def storeAt (cache : RowCache) (subject : Subject) (gen : UInt64) (row : Row) : RowCache :=
  let key := cacheKey subject
  if cache.refuses key gen then cache
  else cache.withShard key fun shard => shard.push ⟨key, gen, row⟩

/-- The draw of a sequence number in `beginWrite`. -/
def drawSeq (cache : RowCache) : UInt64 × RowCache :=
  (cache.stageSeq + 1, { cache with stageSeq := cache.stageSeq + 1 })

/-- The gate of `beginWrite`. -/
def enter (cache : RowCache) : Bool × RowCache :=
  let (record, gate) := cache.staging.enter
  (record, { cache with staging := gate })

/-- The mark of `beginWrite`, which the gate may have refused. -/
def mark (cache : RowCache) (subject : Subject) (seq : UInt64) (record : Bool) : RowCache :=
  let key := cacheKey subject
  if record then cache.withShard key fun shard => shard.mark key seq else cache

/-- The bump of `finishWrite`. -/
def bump (cache : RowCache) (tenant : TenantId) : RowCache :=
  { cache with gens := Function.update cache.gens tenant (cache.gens tenant + 1) }

/-- The hold of the shard in `finishWrite`. -/
def release (cache : RowCache) (subject : Subject) (seq : UInt64) : RowCache :=
  let key := cacheKey subject
  cache.withShard key fun shard => (shard.remove key).finish key seq

/-- The gate of `finishWrite`. -/
def leave (cache : RowCache) : RowCache := { cache with staging := cache.staging.leave }

/-- `releaseEverything` at the next of its shards. -/
def clearNext (cache : RowCache) : RowCache :=
  match cache.staging.clearing with
  | [] => cache
  | index :: rest =>
    { cache with
      shards := Function.update cache.shards index (cache.shards index).clear
      staging := { cache.staging with clearing := rest } }

end RowCache

end Remem.Attr
