import Remem.Base.Machine
import Remem.Keys.Layout
import Remem.Time

/-!
# The paging registry

A session pins a snapshot from its first page on. Requests read through a session between
`acquireSession` and `release`; the expiry ticker, a full registry, a last page and `close`
retire sessions while others read. Every method holds the registry's lock from its first line
to its last one, but for `close`, which gives it up to wait.

A session is known by its place in the list of all that were ever opened. What the snapshot
holds is not modelled, only how often it was closed.
-/

namespace Remem.Paging

open Base Keys

/-- `pagingTTL`, in nanoseconds. -/
def pagingTTL : Int := 5 * 60 * 1000000000

def pagingCapacity : Int := 128

/-- `pagingBinding`. -/
structure Binding where
  tenant : TenantId
  slot : UInt16 := 0
  desc : Bool := false
  archived : Bool := false
  ranked : Bool := false
  fingerprint : UInt64 := 0
  deriving DecidableEq

/-- `pagingSession`. -/
structure Session where
  id : Id
  binding : Binding
  expires : Time
  readers : Int := 0
  retired : Bool := false
  lastUse : UInt64
  /-- How often its snapshot was closed. -/
  closes : Nat := 0
  deriving DecidableEq

/-- `pagingRegistry`. -/
structure Registry where
  rankedTTL : Int
  opened : List Session := []
  /-- The map from the ids to the places of their sessions. -/
  sessions : List (Id × Nat) := []
  closed : Bool := false
  active : Int := 0
  pinned : Int := 0
  useSeq : UInt64 := 0
  deriving DecidableEq

/-- The order in which a map is ranged over, which is any. -/
structure Ranging where
  visit : List (Id × Nat) → List (Id × Nat)
  perm : ∀ entries, (visit entries).Perm entries

def Ranging.plain : Ranging := ⟨fun entries => entries, fun _ => .refl _⟩

/-- What a method is told by the clock and by the map: the clock is read once for each session
that is looked at, and once for the request's own deadline. -/
structure Readings where
  expiry : Nat → Time
  now : Time
  expiring : Ranging
  idling : Ranging

namespace Registry

variable (registry : Registry)

def closeSnapshot (place : Nat) : Registry :=
  { registry with
    opened := registry.opened.modify place fun session =>
      { session with closes := session.closes + 1 }
    pinned := registry.pinned - 1 }

def retireLocked (place : Nat) : Registry :=
  match registry.opened[place]? with
  | none => registry
  | some session =>
    if session.retired then registry
    else
      let retired := { registry with
        opened := registry.opened.set place { session with retired := true }
        sessions := registry.sessions.filter fun entry => entry.1 ≠ session.id }
      if session.readers = 0 then retired.closeSnapshot place else retired

/-- One round of `expireLocked`. -/
def expireOne (expiry : Nat → Time) (registry : Registry) (entry : Id × Nat) : Registry :=
  match registry.opened[entry.2]? with
  | none => registry
  | some session =>
    if session.binding.ranked && decide (0 < session.readers) then registry
    else if ¬ expiry entry.2 < session.expires then registry.retireLocked entry.2
    else registry

def expireLocked (readings : Readings) : Registry :=
  (readings.expiring.visit registry.sessions).foldl (expireOne readings.expiry) registry

/-- One round of `idlestLocked`. -/
def idlerOne (victim : Option Nat) (entry : Id × Nat) : Option Nat :=
  match registry.opened[entry.2]? with
  | none => victim
  | some session =>
    if 0 < session.readers then victim
    else match victim.bind fun place => registry.opened[place]? with
      | none => some entry.2
      | some best => if session.lastUse < best.lastUse then some entry.2 else victim

def idlestLocked (idling : Ranging) : Option Nat :=
  (idling.visit registry.sessions).foldl registry.idlerOne none

/-- The entry of the map at the id, and its session. -/
def lookup (id : Id) : Option (Nat × Session) := do
  let (_, place) ← registry.sessions.find? fun entry => entry.1 = id
  let session ← registry.opened[place]?
  pure (place, session)

def reclaim (idling : Ranging) : Registry :=
  if pagingCapacity ≤ registry.pinned then
    match registry.idlestLocked idling with
    | some victim => registry.retireLocked victim
    | none => registry
  else registry

/-- `bad` of `acquireSession`. -/
def bad (op noun message : String) : Fault :=
  ⟨.invalid, op, "%s; start the %s again", [.word message, .word noun]⟩

/-- A session goes on: its deadline is put off. -/
def continueSession (binding : Binding) (id : Id) (op noun : String) (now : Time) :
    Registry × Result Nat :=
  match registry.lookup id with
  | none => (registry, .error (bad op noun (
      "paging session is missing or expired: it was idle past its deadline, reclaimed for a " ++
      "newer request, or issued before a restart (tokens do not survive restart)")))
  | some (place, session) =>
    if session.binding ≠ binding then
      (registry, .error (bad op noun "page token was issued for a different tenant or query"))
    else
      let ttl := if binding.ranked then registry.rankedTTL else pagingTTL
      let useSeq := registry.useSeq + 1
      ({ registry with
        useSeq
        active := registry.active + 1
        opened := registry.opened.set place { session with
          expires := now + ttl, lastUse := useSeq, readers := session.readers + 1 } },
        .ok place)

/-- A session is opened, at the first id drawn that no session has; the ids end where
`rand.Read` fails. -/
def openSession (binding : Binding) (op noun : String) (readings : Readings) (draws : List Id) :
    Registry × Result Nat :=
  let registry := registry.reclaim readings.idling
  if pagingCapacity ≤ registry.pinned then
    (registry, .error ⟨.unavailable, op,
      "all %d paging sessions are being read; retry after a %s finishes",
      [.number pagingCapacity, .word noun]⟩)
  else
    let ttl := if binding.ranked then registry.rankedTTL else pagingTTL
    let useSeq := registry.useSeq + 1
    match draws.find? fun id => registry.sessions.all fun entry => entry.1 ≠ id with
    | none => ({ registry with useSeq }, .error ⟨.unavailable, op,
        "creating paging session: %w", []⟩)
    | some id =>
      ({ registry with
        useSeq
        active := registry.active + 1
        pinned := registry.pinned + 1
        sessions := registry.sessions ++ [(id, registry.opened.length)]
        opened := registry.opened ++
          [{ id, binding, expires := readings.now + ttl, lastUse := useSeq, readers := 1 }] },
        .ok registry.opened.length)

def acquireSession (binding : Binding) (session : Option Id) (op noun : String)
    (readings : Readings) (draws : List Id) : Registry × Result Nat :=
  let registry := registry.expireLocked readings
  if registry.closed then (registry, .error (bad op noun (noun ++ " service is closed")))
  else match session with
    | some id => registry.continueSession binding id op noun readings.now
    | none => registry.openSession binding op noun readings draws

def release (place : Nat) (finish : Bool) (now : Time) : Registry :=
  let registry := if finish then registry.retireLocked place else registry
  match registry.opened[place]? with
  | none => registry
  | some session =>
    let useSeq := registry.useSeq + 1
    let readers := session.readers - 1
    let expires := if !session.retired && readers = 0 && session.binding.ranked then
      now + registry.rankedTTL else session.expires
    let left := { registry with
      useSeq
      active := registry.active - 1
      opened := registry.opened.set place { session with readers, expires, lastUse := useSeq } }
    if session.retired && readers = 0 then left.closeSnapshot place else left

/-- What `close` does before it waits. -/
def shut (ranging : Ranging) : Registry :=
  if registry.closed then registry
  else (ranging.visit registry.sessions).foldl (fun registry entry => registry.retireLocked entry.2)
    { registry with closed := true }

def openSnapshots : Nat := registry.opened.countP fun session => session.closes = 0

end Registry

/-- Where a call of `close` is. -/
inductive Closer where
  /-- Waiting for the requests in progress. -/
  | waiting
  /-- Waiting for the ticker. -/
  | draining
  | returned
  deriving DecidableEq

/-- A request that was given a session: who opened it, and who went on with it. -/
inductive Event where
  | opened (place : Nat) (id : Id) (binding : Binding)
  | continued (place : Nat) (id : Id) (binding : Binding)
  deriving DecidableEq

structure State where
  registry : Registry
  /-- The sessions of the requests that have not released theirs, one for each request. -/
  holders : List Nat := []
  /-- The ticker has not returned. -/
  ticking : Bool := true
  closers : List Closer := []
  log : List Event := []
  deriving DecidableEq

inductive Act where
  | acquire (binding : Binding) (session : Option Id) (op noun : String) (readings : Readings)
      (draws : List Id)
  | release (place : Nat) (finish : Bool) (now : Time)
  | tick (readings : Readings)
  /-- The ticker's goroutine takes the stop branch. -/
  | leave
  | close (ranging : Ranging)
  /-- A closer finds that no request is in progress. -/
  | pass (index : Nat)
  /-- A closer has seen the ticker return. -/
  | done (index : Nat)

def Event.of (registry : Registry) (place : Nat) (binding : Binding) : Option Id → Option Event
  | some id => some (.continued place id binding)
  | none => registry.opened[place]?.map fun session => .opened place session.id binding

def step (state : State) : Act → Option State
  | .acquire binding session op noun readings draws =>
    match state.registry.acquireSession binding session op noun readings draws with
    | (registry, .error _) => some { state with registry }
    | (registry, .ok place) => some { state with
        registry
        holders := place :: state.holders
        log := state.log ++ (Event.of registry place binding session).toList }
  | .release place finish now =>
    if place ∈ state.holders then
      some { state with
        registry := state.registry.release place finish now
        holders := state.holders.erase place }
    else none
  | .tick readings =>
    if state.ticking then
      some { state with registry := state.registry.expireLocked readings }
    else none
  | .leave =>
    if state.ticking && state.registry.closed then some { state with ticking := false }
    else none
  | .close ranging =>
    some { state with
      registry := state.registry.shut ranging
      closers := state.closers ++ [.waiting] }
  | .pass index =>
    match state.closers[index]? with
    | some .waiting =>
      if 0 < state.registry.active then none
      else some { state with closers := state.closers.set index .draining }
    | _ => none
  | .done index =>
    match state.closers[index]? with
    | some .draining =>
      if state.ticking then none
      else some { state with closers := state.closers.set index .returned }
    | _ => none

def machine : Machine State Act := ⟨step⟩

/-- `newPagingRegistry`. -/
def State.new (rankedTTL : Int) : State := { registry := { rankedTTL } }

end Remem.Paging
