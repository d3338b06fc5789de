import Remem.Base.Calls
import Remem.Base.Machine
import Remem.Keys.Layout

/-!
# The residency cache

Graphs are held in memory under a budget. What a graph costs is measured under its own lock
and charged under the cache's lock, so that calls may be between the two, and a graph may have
been dropped in between.
-/

namespace Remem.Residency

open Base Keys

structure Size where
  bytes : Int
  seq : UInt64
  deriving DecidableEq

/-- `resident`, but for what the cache does not read. The graph is known by its
`residentBytes`, zero where there is none. -/
structure Resident where
  tenant : TenantId
  loaded : Bool := false
  graph : Int := 0
  measured : UInt64 := 0
  bytes : Int := 0
  charged : UInt64 := 0
  pin : Nat := 0
  deriving DecidableEq

/-- `measure`, of what the graph has become. -/
def Resident.measure (resident : Resident) (graph : Int) : Resident :=
  { resident with graph, loaded := true, measured := resident.measured + 1 }

/-- What `measure` answers then. -/
def Resident.size (resident : Resident) : Size := ⟨resident.graph, resident.measured⟩

structure Cache where
  budget : Int
  /-- Every `resident` that was made; the map and the calls point to them by their place. -/
  residents : List Resident := []
  tenants : TenantId → Option Nat := fun _ => none
  order : List TenantId := []
  bytes : Int := 0
  /-- Every resident that was evicted, as it was. -/
  evicted : List Resident := []

namespace Cache

variable (cache : Cache)

def held (tenant : TenantId) : Option Resident := do cache.residents[← cache.tenants tenant]?

def touch (tenant : TenantId) : Cache :=
  { cache with order := cache.order.erase tenant ++ [tenant] }

/-- The resident of the tenant is pinned, and made if there is none. -/
def pin (tenant : TenantId) : Cache × Nat :=
  match cache.tenants tenant with
  | some slot =>
    (touch { cache with
      residents := cache.residents.modify slot fun resident =>
        { resident with pin := resident.pin + 1 } } tenant, slot)
  | none =>
    (touch { cache with
      residents := cache.residents ++ [{ tenant, pin := 1 }]
      tenants := Function.update cache.tenants tenant (some cache.residents.length) } tenant,
      cache.residents.length)

def release (slot : Nat) : Cache :=
  { cache with
    residents := cache.residents.modify slot fun resident =>
      if 0 < resident.pin then { resident with pin := resident.pin - 1 } else resident }

def write (slot : Nat) (graph : Int) : Cache :=
  { cache with residents := cache.residents.modify slot (Resident.measure · graph) }

def charge (slot : Nat) (size : Size) : Cache :=
  match cache.residents[slot]? with
  | none => cache
  | some resident =>
    if size.seq ≤ resident.charged then cache
    else
      { cache with
        bytes := cache.bytes + (size.bytes - resident.bytes)
        residents := cache.residents.set slot
          { resident with bytes := size.bytes, charged := size.seq } }

def forget (tenant : TenantId) : Cache :=
  { cache with
    bytes := cache.bytes - ((cache.held tenant).map Resident.bytes).getD 0
    tenants := Function.update cache.tenants tenant none
    order := cache.order.erase tenant }

def victim : Option TenantId :=
  cache.order.find? fun tenant =>
    (cache.held tenant).any fun resident => resident.pin = 0 && resident.loaded

/-- The loop of `evict`. Every round drops a tenant of the order, so that as many rounds as
there are tenants are enough. -/
def evictRounds : Nat → Cache → Cache
  | 0, cache => cache
  | rounds + 1, cache =>
    if cache.bytes ≤ cache.budget then cache
    else match cache.victim with
      | none => cache
      | some tenant =>
        evictRounds rounds
          { cache.forget tenant with evicted := (cache.held tenant).toList ++ cache.evicted }

def evict : Cache := evictRounds cache.order.length cache

end Cache

inductive CallKind where
  /-- `Search`, and `Stats` and `Health`, which use the graph as it is. -/
  | search
  | indexed
  | removed
  | rebuild
  deriving DecidableEq

inductive Next where
  /-- The graph was loaded: evict, and go on. -/
  | works
  /-- The node records were committed: evict, and release. -/
  | evicts
  | releases
  /-- Another batch of a rebuild. -/
  | builds
  /-- The rebuild failed: release, and forget. -/
  | aborts
  deriving DecidableEq

/-- Where a call is; the slot is that of the resident it has pinned. -/
inductive Phase where
  | called
  | pinned (slot : Nat)
  /-- The graph was not loaded. -/
  | unloaded (slot : Nat)
  | working (slot : Nat)
  | charging (slot : Nat) (size : Size) (next : Next)
  | evicting (slot : Nat) (works : Bool)
  | releasing (slot : Nat) (forgets : Bool)
  | forgetting (rejoins : Bool)
  /-- At `residentForRebuild`. -/
  | rejoining
  | materialising (slot : Nat)
  | building (slot : Nat)
  | returned
  deriving DecidableEq

def Phase.holds : Phase → Option Nat
  | pinned slot | unloaded slot | working slot | charging slot _ _ | evicting slot _
  | releasing slot _ | materialising slot | building slot => some slot
  | _ => none

def Phase.pending : Phase → Option (Nat × Size)
  | charging slot size _ => some (slot, size)
  | _ => none

def Next.phase (slot : Nat) : Next → Phase
  | works => .evicting slot true
  | evicts => .evicting slot false
  | releases => .releasing slot false
  | builds => .building slot
  | aborts => .releasing slot true

structure Call where
  kind : CallKind
  tenant : TenantId
  phase : Phase := .called
  deriving DecidableEq

inductive CallAct where
  /-- The first half of `acquire`, under the cache's lock. -/
  | acquire
  | look
  /-- The second half of `acquire`, under the graph's lock, and what loading came to. -/
  | load (graph : Option Int)
  /-- The call leaves the graph as it is. -/
  | leave
  /-- The call has changed the graph; whether its node records were staged and committed. -/
  | write (graph : Int) (commits : Bool)
  | charge
  | evict
  | release
  | forget
  /-- `replace`, up to its `forget`, and whether it came that far. -/
  | replace (succeeds : Bool)
  /-- The rebuild has a cursor and skips `replace`. -/
  | resume
  /-- The cursor could not be saved. -/
  | giveUp
  | rejoin
  | materialise (graph : Option Int)
  | batch (graph : Int) (succeeds : Bool)
  | abort
  | finish
  deriving DecidableEq

structure State where
  cache : Cache
  calls : List Call := []

namespace State

variable (state : State)

def goes (index : Nat) (call : Call) (phase : Phase) (cache : Cache) : State :=
  ⟨cache, state.calls.set index { call with phase }⟩

def measured (index : Nat) (call : Call) (slot : Nat) (graph : Int) (next : Next) : Option State :=
  (state.cache.residents[slot]?).map fun resident =>
    state.goes index call (.charging slot (resident.measure graph).size next)
      (state.cache.write slot graph)

def isLoaded (slot : Nat) : Bool := (state.cache.residents[slot]?).any Resident.loaded

def callStep (index : Nat) (act : CallAct) : Option State :=
  match state.calls[index]? with
  | none => none
  | some call =>
    let stays (phase : Phase) := some (state.goes index call phase state.cache)
    match call.phase, act with
    | .called, .acquire =>
      if call.kind = .rebuild then none
      else
        let (cache, slot) := state.cache.pin call.tenant
        some (state.goes index call (.pinned slot) cache)
    | .pinned slot, .look =>
      stays (if state.isLoaded slot then .working slot else .unloaded slot)
    | .unloaded slot, .load graph =>
      if state.isLoaded slot then stays (.working slot)
      else match graph with
        | none => stays (.releasing slot false)
        | some graph => state.measured index call slot graph .works
    | .working slot, .leave =>
      if call.kind = .indexed then none else stays (.releasing slot false)
    | .working slot, .write graph commits =>
      match call.kind with
      | .indexed =>
        state.measured index call slot graph (if commits then .evicts else .releases)
      | .removed => state.measured index call slot graph .releases
      | _ => none
    | .charging slot size next, .charge =>
      some (state.goes index call (next.phase slot) (state.cache.charge slot size))
    | .evicting slot works, .evict =>
      some (state.goes index call (if works then .working slot else .releasing slot false)
        state.cache.evict)
    | .releasing slot forgets, .release =>
      some (state.goes index call (if forgets then .forgetting false else .returned)
        (state.cache.release slot))
    | .forgetting rejoins, .forget =>
      some (state.goes index call (if rejoins then .rejoining else .returned)
        (state.cache.forget call.tenant))
    | .called, .replace succeeds =>
      if call.kind = .rebuild then stays (if succeeds then .forgetting true else .returned)
      else none
    | .called, .resume => if call.kind = .rebuild then stays .rejoining else none
    | .rejoining, .giveUp => stays .returned
    | .rejoining, .rejoin =>
      let (cache, slot) := state.cache.pin call.tenant
      some (state.goes index call (.materialising slot) cache)
    | .materialising slot, .materialise graph =>
      match graph with
      | none => stays (.releasing slot false)
      | some graph => state.measured index call slot graph .builds
    | .building slot, .batch graph succeeds =>
      state.measured index call slot graph (if succeeds then .builds else .aborts)
    | .building slot, .abort => stays (.releasing slot true)
    | .building slot, .finish => stays (.evicting slot false)
    | _, _ => none

end State

inductive Act where
  | call (kind : CallKind) (tenant : TenantId)
  | step (index : Nat) (act : CallAct)

def machine : Machine State Act where
  step state act := match act with
    | .call kind tenant => some { state with calls := state.calls ++ [⟨kind, tenant, .called⟩] }
    | .step index act => state.callStep index act

end Remem.Residency
