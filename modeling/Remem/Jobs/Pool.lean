import Remem.Base.Traces
import Remem.Jobs.Queue

/-!
# The worker pool

One dispatch cycle of the pool as a program over the store: the tenants it walks, and for each
what it gives back to the queue and what it claims from it. How many worker slots were free,
clock readings and drawn tokens are arguments; so is the tenant directory.
-/

namespace Remem.Jobs

open Base Keys Storage

def maxTenantsPerPoll : Nat := 32

/-- `tenantListEvery`, in nanoseconds. -/
def tenantListEvery : Int := 10 * 1000000000

def reclaimPerPoll : Int := 16

structure PoolConfig where
  queue : Queue
  /-- What `ForEach` of the directory visits, of one state of the store. -/
  listing : Store → Result (List TenantId)
  owner : Bytes
  types : List Bytes := []

/-- What the pool remembers from one poll to the next. The tenants are empty until they are
first listed. -/
structure Pool where
  tenants : List TenantId := []
  tenantAt : Time := .zero
  cursor : Nat := 0

/-- What the calls for one tenant read from the clock and draw. -/
structure Visit where
  reclaimedAt : Time
  claimedAt : Time
  tokens : Nat → Id

structure Round where
  draining : Bool := false
  /-- How many slots `take` found free. -/
  slots : Nat
  now : Time
  visits : Nat → Visit

/-- What a poll came to: the jobs it launched, the tenants it called `Reclaim` and `Claim`
for, and the error it returned. -/
structure Polled where
  slots : Nat
  launched : List Job := []
  visited : List TenantId := []
  fault : Option Fault := none

def Polled.returned (polled : Polled) : Nat := polled.slots - polled.launched.length

def Pool.rotate (pool : Pool) : List TenantId × Pool :=
  if pool.tenants.length = 0 then ([], pool)
  else
    let cursor := if pool.tenants.length ≤ pool.cursor then 0 else pool.cursor
    let n := min maxTenantsPerPoll pool.tenants.length
    ((List.range n).map fun i => pool.tenants.getD ((cursor + i) % pool.tenants.length) [],
      { pool with cursor := (cursor + n) % pool.tenants.length })

/-- The jobs that a call of `Claim` returned. -/
def Answer.claimed : Answer → List Job
  | jobs claimed _ => claimed
  | _ => []

namespace PoolConfig

variable (config : PoolConfig)

def refreshTenants (now : Time) (pool : Pool) : QueueProgram (Result Pool) :=
  if pool.tenants ≠ [] ∧ now - pool.tenantAt < tenantListEvery then .ret (.ok pool)
  else do
    match ← Program.observe config.listing with
    | .error fault => return .error fault
    | .ok all => return .ok { pool with tenants := all, tenantAt := now }

/-- The loop of `Poll` over the tenants it walks. -/
def dispatch (visits : Nat → Visit) : List TenantId → (index : Nat) → Polled → QueueProgram Polled
  | [], _, polled => .ret polled
  | tenant :: rest, index, polled =>
    if polled.launched.length = polled.slots then .ret polled
    else do
      let visit := visits index
      match (← config.queue.reclaim visit.reclaimedAt tenant reclaimPerPoll).fault with
      | some fault => return { polled with fault := some fault }
      | none =>
        let answer ← config.queue.claim visit.claimedAt tenant config.owner config.types
          (polled.slots - polled.launched.length) visit.tokens
        let polled := { polled with visited := polled.visited ++ [tenant] }
        match answer.fault with
        | some fault => return { polled with fault := some fault }
        | none =>
          dispatch visits rest (index + 1)
            { polled with launched := polled.launched ++ answer.claimed }

def poll (round : Round) (pool : Pool) : QueueProgram (Pool × Polled) :=
  if round.draining then .ret (pool, { slots := 0 })
  else if round.slots = 0 then .ret (pool, { slots := 0 })
  else do
    match ← config.refreshTenants round.now pool with
    | .error fault => return (pool, { slots := round.slots, fault := some fault })
    | .ok pool =>
      let (tenants, pool) := pool.rotate
      return (pool, ← config.dispatch round.visits tenants 0 { slots := round.slots })

end PoolConfig

end Remem.Jobs
