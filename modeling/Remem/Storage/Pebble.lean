import Remem.Storage.Engine

/-!
# Writers and the close of a store

The writing calls of the Pebble store, step by step: a stripe taken or released, the closed flag
read or set, a condition read, a call of the engine. An engine that is closed panics when it is
written to. Batches that were closed and failures of the engine are not modelled.
-/

namespace Remem.Storage.Pebble

open Base Keys List

abbrev Stripe := Fin stripeCount

inductive Staging where
  | set (key value : Bytes)
  | delete (key : Bytes)
  | expect (key value : Bytes) (present : Bool)
  deriving DecidableEq

def Staging.key : Staging → Bytes
  | set key _ => key
  | delete key => key
  | expect key _ _ => key

def Staging.stage (batch : Batch) : Staging → Batch
  | set key value => batch.set key value
  | delete key => batch.delete key
  | expect key value present => batch.expect key value present

def built (stagings : List Staging) : Batch := stagings.foldl Staging.stage {}

def stripesOf (stagings : List Staging) : List Stripe :=
  (List.finRange stripeCount).filter fun stripe =>
    stagings.any fun staging => stripeOf staging.key = stripe

inductive Call where
  | set (key value : Bytes)
  | delete (key : Bytes)
  | flush
  | commit (stagings : List Staging) (sync : Bool)
  | close
  deriving DecidableEq

namespace Call

def batch : Call → Batch
  | set key value => { ops := [.set key value] }
  | delete key => { ops := [.delete key] }
  | commit stagings _ => built stagings
  | flush | close => {}

def stripes : Call → List Stripe
  | set key _ | delete key => [stripeOf key]
  | commit stagings _ => stripesOf stagings
  | flush => []
  | close => List.finRange stripeCount

def op : Call → String
  | set _ _ => "pebble.Set"
  | delete _ => "pebble.Delete"
  | flush => "pebble.Flush"
  | commit _ _ => "pebble.Batch.Commit"
  | close => "pebble.Close"

end Call

def unavailable (op : String) : Fault := ⟨.unavailable, op, "store is closed", []⟩

def conflict : Fault := Engine.conflict .pebble

/-- Where a call is. A commit whose result is still missing goes on to sync. -/
inductive Stage where
  | looking
  | locking (left held : List Stripe)
  | checking (held : List Stripe)
  | reading (left : List Condition) (held : List Stripe)
  | writing (held : List Stripe)
  | unlocking (held : List Stripe) (result : Option (Result Unit))
  | syncing
  | done (result : Result Unit)
  | panicked

def Stage.held : Stage → List Stripe
  | locking _ held | checking held | reading _ held | writing held | unlocking held _ => held
  | looking | syncing | done _ | panicked => []

structure Thread where
  call : Call
  stage : Stage

/-- `history` has the calls in the order in which they take effect, the last one first; the code
keeps no such list. -/
structure World where
  store : Store
  closed : Bool
  engineClosed : Bool
  threads : List Thread
  lateWrite : Bool
  history : List (Nat × Call × Result Unit)

namespace World

def start (store : Store) : World := ⟨store, false, false, [], false, []⟩

def setStage (world : World) (index : Nat) (thread : Thread) (stage : Stage) : World :=
  { world with threads := world.threads.set index { thread with stage } }

def record (world : World) (index : Nat) (thread : Thread) (result : Result Unit) : World :=
  { world with history := (index, thread.call, result) :: world.history }

def free (world : World) (index : Nat) (stripe : Stripe) : Bool :=
  (List.range world.threads.length).all fun other =>
    other = index || !((world.threads[other]?.map fun thread => thread.stage.held).getD []).contains
      stripe

def panic (world : World) (index : Nat) (thread : Thread) : World :=
  { world.setStage index thread .panicked with lateWrite := true }

end World

def Call.first : Call → Stage
  | flush | commit _ _ => .looking
  | call => .locking call.stripes []

/-- `batch.Commit` with `sync` goes on after its stripes are released. -/
def Call.result : Call → Option (Result Unit)
  | commit _ true => none
  | _ => some (.ok ())

def advance (world : World) (index : Nat) (thread : Thread) : World :=
  match thread.stage, thread.call with
  | .looking, call =>
    if world.closed then
      (world.setStage index thread (.done (.error (unavailable call.op)))).record index thread
        (.error (unavailable call.op))
    else if call = .flush then (world.setStage index thread .syncing).record index thread (.ok ())
    else world.setStage index thread (.locking call.stripes [])
  | .locking (stripe :: left) held, _ =>
    if world.free index stripe then world.setStage index thread (.locking left (stripe :: held))
    else world
  | .locking [] held, _ => world.setStage index thread (.checking held)
  | .checking held, .close =>
    -- `closed.Swap(true)`
    if world.closed then
      (world.setStage index thread (.unlocking held (some (.ok ())))).record index thread (.ok ())
    else
      { (world.setStage index thread (.writing held)).record index thread (.ok ()) with
        closed := true }
  | .checking held, call =>
    if world.closed then
      (world.setStage index thread
        (.unlocking held (some (.error (unavailable call.op))))).record index thread
        (.error (unavailable call.op))
    else if call.stripes = [] then
      -- A batch without keys takes effect here: nothing can come between.
      (world.setStage index thread (.reading call.batch.conditions held)).record index thread
        (.ok ())
    else world.setStage index thread (.reading call.batch.conditions held)
  | .reading (condition :: left) held, _ =>
    if world.closed then
      (world.setStage index thread
        (.unlocking held (some (.error (unavailable "pebble.Get"))))).record index thread
        (.error (unavailable "pebble.Get"))
    else if condition.holds world.store then
      world.setStage index thread (.reading left held)
    else
      (world.setStage index thread (.unlocking held (some (.error conflict)))).record index
        thread (.error conflict)
  | .reading [] held, _ => world.setStage index thread (.writing held)
  | .writing held, .close =>
    { world.setStage index thread (.unlocking held (some (.ok ()))) with engineClosed := true }
  | .writing held, call =>
    if world.engineClosed then world.panic index thread
    else if call.stripes = [] then world.setStage index thread (.unlocking held call.result)
    else
      { (world.setStage index thread (.unlocking held call.result)).record index thread (.ok ())
        with store := call.batch.effect world.store }
  | .unlocking (_ :: held) result, _ => world.setStage index thread (.unlocking held result)
  | .unlocking [] (some result), _ => world.setStage index thread (.done result)
  | .unlocking [] none, _ => world.setStage index thread .syncing
  | .syncing, _ =>
    if world.engineClosed then world.panic index thread
    else world.setStage index thread (.done (.ok ()))
  | .done _, _ => world
  | .panicked, _ => world

inductive Action where
  | spawn (call : Call)
  | act (index : Nat)

def step (world : World) : Action → World
  | .spawn call => { world with threads := world.threads ++ [⟨call, call.first⟩] }
  | .act index =>
    match world.threads[index]? with
    | none => world
    | some thread => advance world index thread

def run (store : Store) (schedule : List Action) : World := schedule.foldl step (World.start store)

/-- The call by itself, on the contents of the store and its closed flag. -/
def Call.execute (call : Call) (state : Store × Bool) : (Store × Bool) × Result Unit :=
  match call with
  | .close => ((state.1, true), .ok ())
  | call =>
    if state.2 then (state, .error (unavailable call.op))
    else if call.batch.conditions.all fun condition => condition.holds state.1 then
      ((call.batch.effect state.1, false), .ok ())
    else (state, .error conflict)

/-- The calls of a history, one after the other, with these results, lead here. -/
inductive Replays (store : Store) : List (Nat × Call × Result Unit) → Store × Bool → Prop
  | nil : Replays store [] (store, false)
  | cons {history state index call} (earlier : Replays store history state) :
      Replays store ((index, call, (call.execute state).2) :: history) (call.execute state).1

theorem mem_stripesOf {stagings : List Staging} {staging : Staging} (listed : staging ∈ stagings) :
    stripeOf staging.key ∈ stripesOf stagings := by
  simp only [stripesOf, mem_filter, mem_finRange, true_and, any_eq_true, decide_eq_true_eq]
  exact ⟨staging, listed, rfl⟩

theorem key_of_built (stagings : List Staging) :
    (∀ op ∈ (built stagings).ops, ∃ staging ∈ stagings, staging.key = op.key) ∧
      ∀ condition ∈ (built stagings).conditions, ∃ staging ∈ stagings,
        staging.key = condition.key := by
  induction stagings using List.reverseRecOn with
  | nil => simp [built]
  | append_singleton earlier staging ih =>
    have isBuilt : built (earlier ++ [staging]) = staging.stage (built earlier) := by
      simp [built]
    obtain ⟨ops, conditions⟩ := ih
    have older : ∀ {key : Bytes}, (∃ staging ∈ earlier, staging.key = key) →
        ∃ other ∈ earlier ++ [staging], other.key = key := by
      rintro key ⟨other, listed, same⟩
      exact ⟨other, mem_append_left _ listed, same⟩
    have newest : staging ∈ earlier ++ [staging] := by simp
    rw [isBuilt]
    cases staging with
    | set _ _ | delete _ =>
      refine ⟨fun op listed => ?_, fun condition listed => older (conditions condition listed)⟩
      rcases mem_append.mp listed with before | isLast
      · exact older (ops op before)
      · rw [mem_singleton.mp isLast]
        exact ⟨_, newest, rfl⟩
    | expect key value present =>
      refine ⟨fun op listed => older (ops op ?_), fun condition listed => ?_⟩
      · simpa [Staging.stage] using listed
      · rcases Batch.mem_conditions_expect listed with before | isNew
        · exact older (conditions condition before)
        · exact ⟨_, newest, by rw [isNew]; rfl⟩

variable {call : Call}

theorem Call.stripe_of_op {op : Op} (listed : op ∈ call.batch.ops) :
    stripeOf op.key ∈ call.stripes := by
  cases call with
  | set _ _ | delete _ =>
    rw [mem_singleton.mp listed]
    exact mem_singleton_self _
  | flush => cases listed
  | close => cases listed
  | commit stagings sync =>
    obtain ⟨staging, isStaged, same⟩ := (key_of_built stagings).1 op listed
    rw [← same]
    exact mem_stripesOf isStaged

variable {condition : Condition}

theorem Call.stripe_of_condition (listed : condition ∈ call.batch.conditions) :
    stripeOf condition.key ∈ call.stripes := by
  cases call with
  | set key value => cases listed
  | delete key => cases listed
  | flush => cases listed
  | close => cases listed
  | commit stagings sync =>
    obtain ⟨staging, isStaged, same⟩ := (key_of_built stagings).2 condition listed
    rw [← same]
    exact mem_stripesOf isStaged

theorem Call.batch_of_no_stripes (none : call.stripes = []) :
    call.batch.conditions = [] ∧ call.batch.ops = [] := by
  constructor
  · refine eq_nil_iff_forall_not_mem.mpr fun condition listed => ?_
    have := Call.stripe_of_condition listed
    rw [none] at this
    cases this
  · refine eq_nil_iff_forall_not_mem.mpr fun op listed => ?_
    have := Call.stripe_of_op listed
    rw [none] at this
    cases this

theorem Call.holds_effect {other : Call} (listed : condition ∈ call.batch.conditions)
    (apart : call.stripes.Disjoint other.stripes) (store : Store) :
    condition.holds (other.batch.effect store) = condition.holds store := by
  have untouched : ∀ op ∈ other.batch.ops, op.key ≠ condition.key := by
    intro op staged same
    apply apart (Call.stripe_of_condition listed)
    rw [← same]
    exact Call.stripe_of_op staged
  rw [Condition.holds, Condition.holds, Batch.get_effect_of_not_staged untouched]

def Recorded (world : World) (index : Nat) (call : Call) (result : Result Unit) : Prop :=
  (index, call, result) ∈ world.history

def Unrecorded (world : World) (index : Nat) : Prop := ∀ entry ∈ world.history, entry.1 ≠ index

/-- Past the check of the flag: a call with stripes holds the store open until it releases them,
one without has taken effect. -/
def Admitted (world : World) (index : Nat) (call : Call) : Prop :=
  if call.stripes = [] then Recorded world index call (.ok ())
  else Unrecorded world index ∧ world.closed = false

def Stands (world : World) (index : Nat) (call : Call) : Stage → Prop
  | .looking => Unrecorded world index ∧ call ≠ .close
  | .locking left held =>
    held.reverse ++ left = call.stripes ∧ Unrecorded world index ∧ call ≠ .flush
  | .checking held => held.reverse = call.stripes ∧ Unrecorded world index ∧ call ≠ .flush
  | .reading left held =>
    held.reverse = call.stripes ∧ call ≠ .close ∧ Admitted world index call ∧
      left ⊆ call.batch.conditions ∧
      ∀ condition ∈ call.batch.conditions, condition ∈ left ∨ condition.holds world.store = true
  | .writing held =>
    held.reverse = call.stripes ∧
      if call = .close then Recorded world index call (.ok ()) ∧ world.closed = true
      else Admitted world index call ∧
        ∀ condition ∈ call.batch.conditions, condition.holds world.store = true
  | .unlocking _ result => Recorded world index call (result.getD (.ok ()))
  | .syncing => Recorded world index call (.ok ())
  | .done result => Recorded world index call result
  | .panicked => True

/-- What a step does to what the calls share: nothing, or its call takes effect, and then it
changes the store under the stripes of the call and sets the flag under all stripes. -/
inductive Shift (world after : World) (index : Nat) (thread : Thread) : Prop
  | same (store : after.store = world.store) (closed : after.closed = world.closed)
      (history : after.history = world.history)
  | took (fresh : Unrecorded world index)
      (state : (thread.call.execute (world.store, world.closed)).1 = (after.store, after.closed))
      (history : after.history =
        (index, thread.call, (thread.call.execute (world.store, world.closed)).2) :: world.history)
      (store : after.store = world.store ∨ after.store = thread.call.batch.effect world.store ∧
          thread.call.stripes ⊆ thread.stage.held)
      (closed : after.closed = world.closed ∨ ∀ stripe, stripe ∈ thread.stage.held)

theorem Call.execute_closed (notClose : call ≠ .close) (store : Store) :
    call.execute (store, true) = ((store, true), .error (unavailable call.op)) := by
  cases call <;> first | rfl | exact absurd rfl notClose

theorem Call.execute_open (notClose : call ≠ .close) (store : Store)
    (holds : ∀ condition ∈ call.batch.conditions, condition.holds store = true) :
    call.execute (store, false) = ((call.batch.effect store, false), .ok ()) := by
  have all := all_eq_true.mpr holds
  cases call <;> first | exact absurd rfl notClose | simp [Call.execute, all]

theorem Call.execute_conflict (notClose : call ≠ .close) {store : Store}
    (listed : condition ∈ call.batch.conditions) (fails : condition.holds store = false) :
    call.execute (store, false) = ((store, false), .error conflict) := by
  have some : ¬ (call.batch.conditions.all fun condition => condition.holds store) = true := by
    intro all
    have := all_eq_true.mp all condition listed
    rw [fails] at this
    cases this
  cases call <;> first | exact absurd rfl notClose | simp [Call.execute, some]

variable {world : World}

theorem Shift.stands {after : World} {index other : Nat} {thread : Thread} {stage : Stage}
    (shift : Shift world after index thread) (different : other ≠ index)
    (apart : stage.held.Disjoint thread.stage.held) (stands : Stands world other call stage) :
    Stands after other call stage := by
  have recorded : ∀ {result}, Recorded world other call result → Recorded after other call result := by
    intro result before
    cases shift with
    | same _ _ history => rwa [Recorded, history]
    | took _ _ history _ _ =>
      rw [Recorded, history]
      exact mem_cons_of_mem _ before
  have unrecorded : Unrecorded world other → Unrecorded after other := by
    intro before entry listed
    cases shift with
    | same _ _ history =>
      rw [history] at listed
      exact before entry listed
    | took _ _ history _ _ =>
      rw [history] at listed
      rcases mem_cons.mp listed with rfl | earlier
      · exact different.symm
      · exact before entry earlier
  -- The flag is set only while no other call holds a stripe.
  have admitted : stage.held.reverse = call.stripes → Admitted world other call →
      Admitted after other call := by
    intro whole before
    unfold Admitted at before ⊢
    split
    · next none =>
      rw [if_pos none] at before
      exact recorded before
    next some =>
    rw [if_neg some] at before
    refine ⟨unrecorded before.1, ?_⟩
    cases shift with
    | same _ closed _ => rw [closed, before.2]
    | took _ _ _ _ closed =>
      rcases closed with closed | all
      · rw [closed, before.2]
      obtain ⟨stripe, rest, isCons⟩ := exists_cons_of_ne_nil some
      have mine : stripe ∈ stage.held := by
        rw [← mem_reverse, whole, isCons]
        exact mem_cons_self
      exact (apart mine (all stripe)).elim
  have holds : stage.held.reverse = call.stripes → ∀ condition ∈ call.batch.conditions,
      condition.holds after.store = condition.holds world.store := by
    intro whole condition listed
    cases shift with
    | same store _ _ => rw [store]
    | took _ _ _ store _ =>
      rcases store with store | ⟨store, covered⟩
      · rw [store]
      rw [store]
      refine Call.holds_effect listed ?_ _
      intro stripe mine theirs
      rw [← whole, mem_reverse] at mine
      exact apart mine (covered theirs)
  cases stage with
  | looking => exact ⟨unrecorded stands.1, stands.2⟩
  | locking left held => exact ⟨stands.1, unrecorded stands.2.1, stands.2.2⟩
  | checking held => exact ⟨stands.1, unrecorded stands.2.1, stands.2.2⟩
  | reading left held =>
    obtain ⟨whole, notClose, before, pending, passed⟩ := stands
    refine ⟨whole, notClose, admitted whole before, pending, fun condition listed => ?_⟩
    rw [holds whole condition listed]
    exact passed condition listed
  | writing held =>
    obtain ⟨whole, before⟩ := stands
    refine ⟨whole, ?_⟩
    split
    · next isClose =>
      rw [if_pos isClose] at before
      refine ⟨recorded before.1, ?_⟩
      cases shift with
      | same _ closed _ => rw [closed, before.2]
      | took _ state _ _ _ =>
        rw [before.2] at state
        by_cases closes : thread.call = .close
        · rw [closes] at state
          exact (congrArg Prod.snd state).symm
        · rw [Call.execute_closed closes] at state
          exact (congrArg Prod.snd state).symm
    · next notClose =>
      rw [if_neg notClose] at before
      refine ⟨admitted whole before.1, fun condition listed => ?_⟩
      rw [holds whole condition listed]
      exact before.2 condition listed
  | unlocking held result => exact recorded stands
  | syncing => exact recorded stands
  | done result => exact recorded stands
  | panicked => trivial

/-- No stripe has two holders, every call stands where its stage says, and the calls that took
effect did so one after the other. -/
structure Guarded (initial : Store) (world : World) : Prop where
  apart : ∀ (index other : Nat) (first second : Thread), index ≠ other →
    world.threads[index]? = some first → world.threads[other]? = some second →
    first.stage.held.Disjoint second.stage.held
  stands : ∀ index thread, world.threads[index]? = some thread →
    Stands world index thread.call thread.stage
  engine : world.engineClosed = true → world.closed = true
  replays : Replays initial world.history (world.store, world.closed)
  once : (world.history.map Prod.fst).Nodup
  born : ∀ entry ∈ world.history, ∃ thread, world.threads[entry.1]? = some thread ∧
    thread.call = entry.2.1

section Steps

variable {initial : Store} {world after : World} {index : Nat} {thread : Thread} {stage : Stage}

theorem Guarded.update (guarded : Guarded initial world)
    (found : world.threads[index]? = some thread)
    (threads : after.threads = world.threads.set index { thread with stage })
    (shift : Shift world after index thread)
    (engine : after.engineClosed = true → after.closed = true)
    (apart : ∀ other second, other ≠ index → world.threads[other]? = some second →
      stage.held.Disjoint second.stage.held)
    (stands : Stands after index thread.call stage) : Guarded initial after := by
  have inside := (List.getElem?_eq_some_iff.mp found).1
  have own : after.threads[index]? = some { thread with stage } := by
    rw [threads, getElem?_set_self inside]
  have others : ∀ other, other ≠ index → after.threads[other]? = world.threads[other]? := by
    intro other different
    rw [threads, getElem?_set_ne different.symm]
  have kept : ∀ {entry : Nat × Call × Result Unit},
      (∃ before, world.threads[entry.1]? = some before ∧ before.call = entry.2.1) →
      ∃ thread, after.threads[entry.1]? = some thread ∧ thread.call = entry.2.1 := by
    rintro entry ⟨before, isBefore, call⟩
    by_cases same : entry.1 = index
    · rw [same, found] at isBefore
      cases isBefore
      exact ⟨{ thread with stage }, by rw [same]; exact own, call⟩
    · exact ⟨before, by rw [others _ same]; exact isBefore, call⟩
  refine ⟨?_, ?_, engine, ?_, ?_, ?_⟩
  · intro first second firstThread secondThread different isFirst isSecond
    by_cases firstOwn : first = index
    · subst firstOwn
      rw [own] at isFirst
      cases isFirst
      rw [others second different.symm] at isSecond
      exact apart second _ different.symm isSecond
    rw [others first firstOwn] at isFirst
    by_cases secondOwn : second = index
    · subst secondOwn
      rw [own] at isSecond
      cases isSecond
      exact (apart first _ firstOwn isFirst).symm
    · rw [others second secondOwn] at isSecond
      exact guarded.apart first second _ _ different isFirst isSecond
  · intro other otherThread isOther
    by_cases same : other = index
    · subst same
      rw [own] at isOther
      cases isOther
      exact stands
    rw [others other same] at isOther
    exact shift.stands same (guarded.apart other index _ _ same isOther found)
      (guarded.stands other otherThread isOther)
  · cases shift with
    | same store closed history =>
      rw [store, closed, history]
      exact guarded.replays
    | took _ state history _ _ =>
      rw [history, ← state]
      exact .cons guarded.replays
  · cases shift with
    | same _ _ history =>
      rw [history]
      exact guarded.once
    | took fresh _ history _ _ =>
      rw [history, map_cons, nodup_cons]
      refine ⟨?_, guarded.once⟩
      intro again
      obtain ⟨entry, listed, same⟩ := mem_map.mp again
      exact fresh entry listed same
  · intro entry listed
    cases shift with
    | same _ _ history =>
      rw [history] at listed
      exact kept (guarded.born entry listed)
    | took _ _ history _ _ =>
      rw [history] at listed
      rcases mem_cons.mp listed with rfl | earlier
      · exact ⟨_, own, rfl⟩
      · exact kept (guarded.born entry earlier)

theorem Guarded.apart_of_subset (guarded : Guarded initial world)
    (found : world.threads[index]? = some thread) (fewer : stage.held ⊆ thread.stage.held)
    (other : Nat) (second : Thread) (different : other ≠ index)
    (isOther : world.threads[other]? = some second) : stage.held.Disjoint second.stage.held :=
  disjoint_of_subset_left fewer (guarded.apart index other _ _ different.symm found isOther)

theorem free_iff {stripe : Stripe} : world.free index stripe = true ↔
    ∀ other thread, other ≠ index → world.threads[other]? = some thread →
      stripe ∉ thread.stage.held := by
  simp only [World.free, all_eq_true, mem_range, Bool.or_eq_true, decide_eq_true_eq,
    Bool.not_eq_true', contains_eq_mem, decide_eq_false_iff_not]
  constructor
  · intro free other thread different isOther
    have := (free other (List.getElem?_eq_some_iff.mp isOther).1).resolve_left different
    simpa [isOther] using this
  intro free other inside
  by_cases same : other = index
  · exact .inl same
  right
  have isOther := getElem?_eq_getElem inside
  simpa [isOther] using free other _ same isOther

theorem Call.result_getD (call : Call) : call.result.getD (.ok ()) = .ok () := by
  unfold Call.result
  split <;> rfl

theorem all_stripes_of_close {held : List Stripe} (whole : held.reverse = Call.close.stripes)
    (stripe : Stripe) : stripe ∈ held := by
  rw [← mem_reverse, whole]
  exact mem_finRange stripe

theorem Guarded.moved (guarded : Guarded initial world)
    (found : world.threads[index]? = some thread)
    (apart : ∀ other second, other ≠ index → world.threads[other]? = some second →
      stage.held.Disjoint second.stage.held)
    (stands : Stands world index thread.call stage) :
    Guarded initial (world.setStage index thread stage) :=
  guarded.update found rfl (.same rfl rfl rfl) guarded.engine apart stands

theorem Guarded.recorded (guarded : Guarded initial world)
    (found : world.threads[index]? = some thread) (fresh : Unrecorded world index)
    {result : Result Unit}
    (executed : thread.call.execute (world.store, world.closed) = ((world.store, world.closed),
      result))
    (fewer : stage.held ⊆ thread.stage.held)
    (stands : Stands ((world.setStage index thread stage).record index thread result) index
      thread.call stage) :
    Guarded initial ((world.setStage index thread stage).record index thread result) := by
  refine guarded.update found rfl (.took fresh ?_ ?_ (.inl rfl) (.inl rfl)) guarded.engine
    (guarded.apart_of_subset found fewer) stands
  · rw [executed]
    rfl
  · rw [executed]
    rfl

theorem Guarded.advance (guarded : Guarded initial world)
    (found : world.threads[index]? = some thread) : Guarded initial (advance world index thread) :=
      by
  have stands := guarded.stands index thread found
  obtain ⟨call, stage⟩ := thread
  unfold Pebble.advance
  dsimp only at stands ⊢
  split
  · -- a first look at the flag
    obtain ⟨fresh, notClose⟩ := stands
    split
    · next closed =>
      refine guarded.recorded found fresh ?_ (nil_subset _) mem_cons_self
      rw [closed]
      exact Call.execute_closed notClose world.store
    next isOpen =>
    split
    · next isFlush =>
      refine guarded.recorded found fresh ?_ (nil_subset _) mem_cons_self
      rw [Bool.not_eq_true] at isOpen
      rw [isOpen]
      dsimp only
      rw [isFlush]
      rfl
    next notFlush =>
    refine guarded.moved found ?_ ⟨rfl, fresh, notFlush⟩
    intro other second _ _
    exact disjoint_nil_left _
  · -- a stripe
    obtain ⟨order, fresh, notFlush⟩ := stands
    split
    · next isFree =>
      refine guarded.moved found ?_ ⟨by simpa using order, fresh, notFlush⟩
      intro other second different isOther
      refine disjoint_cons_left.mpr ⟨free_iff.mp isFree other second different isOther, ?_⟩
      exact guarded.apart index other _ _ different.symm found isOther
    · exact guarded
  · obtain ⟨order, fresh, notFlush⟩ := stands
    refine guarded.moved found (guarded.apart_of_subset found (List.Subset.refl _))
      ⟨by simpa using order, fresh, notFlush⟩
  · -- the flag, for a close
    obtain ⟨whole, fresh, _⟩ := stands
    split
    · next closed =>
      refine guarded.recorded found fresh ?_ (List.Subset.refl _) mem_cons_self
      rw [closed]
      rfl
    refine guarded.update found rfl
      (.took fresh rfl rfl (.inl rfl) (.inr (all_stripes_of_close whole))) (fun _ => rfl)
      (guarded.apart_of_subset found (List.Subset.refl _)) ⟨whole, ?_⟩
    rw [if_pos rfl]
    exact ⟨mem_cons_self, rfl⟩
  · -- the flag, for a writer
    next notClose =>
    obtain ⟨whole, fresh, _⟩ := stands
    split
    · next closed =>
      refine guarded.recorded found fresh ?_ (List.Subset.refl _) mem_cons_self
      rw [closed]
      exact Call.execute_closed notClose world.store
    next isOpen =>
    rw [Bool.not_eq_true] at isOpen
    split
    · next none =>
      obtain ⟨noConditions, noOps⟩ := Call.batch_of_no_stripes none
      have executed := Call.execute_open notClose world.store (by simp [noConditions])
      have unchanged : call.batch.effect world.store = world.store := by
        rw [Batch.effect, noOps, foldl_nil]
      refine guarded.recorded found fresh ?_ (List.Subset.refl _) ?_
      · rw [isOpen]
        exact executed.trans (by rw [unchanged])
      · refine ⟨whole, notClose, ?_, List.Subset.refl _, fun _ listed => .inl listed⟩
        rw [Admitted, if_pos none]
        exact mem_cons_self
    · next some =>
      refine guarded.moved found (guarded.apart_of_subset found (List.Subset.refl _))
        ⟨whole, notClose, ?_, List.Subset.refl _, fun _ listed => .inl listed⟩
      rw [Admitted, if_neg some]
      exact ⟨fresh, isOpen⟩
  · -- a condition
    next condition left held =>
    obtain ⟨whole, notClose, admitted, pending, passed⟩ := stands
    have listed : condition ∈ call.batch.conditions := pending mem_cons_self
    have some : call.stripes ≠ [] := ne_nil_of_mem (Call.stripe_of_condition listed)
    rw [Admitted, if_neg some] at admitted
    rw [admitted.2]
    split
    · next impossible => cases impossible
    split
    · next holds =>
      refine guarded.moved found (guarded.apart_of_subset found (List.Subset.refl _))
        ⟨whole, notClose, by rw [Admitted, if_neg some]; exact admitted,
          subset_of_cons_subset pending, fun other isListed => ?_⟩
      rcases passed other isListed with waiting | done
      · rcases mem_cons.mp waiting with rfl | later
        · exact .inr holds
        · exact .inl later
      · exact .inr done
    · next fails =>
      rw [Bool.not_eq_true] at fails
      refine guarded.recorded found admitted.1 ?_ (List.Subset.refl _) mem_cons_self
      rw [admitted.2]
      exact Call.execute_conflict notClose listed fails
  · obtain ⟨whole, notClose, admitted, _, passed⟩ := stands
    refine guarded.moved found (guarded.apart_of_subset found (List.Subset.refl _)) ⟨whole, ?_⟩
    rw [if_neg notClose]
    exact ⟨admitted, fun condition listed => (passed condition listed).resolve_left (by simp)⟩
  · -- the engine's close
    obtain ⟨whole, recorded⟩ := stands
    rw [if_pos rfl] at recorded
    exact guarded.update found rfl (.same rfl rfl rfl) (fun _ => recorded.2)
      (guarded.apart_of_subset found (List.Subset.refl _)) recorded.1
  · -- the engine's write
    next held notClose =>
    obtain ⟨whole, secured⟩ := stands
    rw [if_neg notClose] at secured
    obtain ⟨admitted, holds⟩ := secured
    split
    · exact guarded.update found rfl (.same rfl rfl rfl) guarded.engine
        (guarded.apart_of_subset found (nil_subset _)) trivial
    split
    · next none =>
      rw [Admitted, if_pos none] at admitted
      refine guarded.moved found (guarded.apart_of_subset found (List.Subset.refl _)) ?_
      rw [Stands, Call.result_getD]
      exact admitted
    next some =>
    rw [Admitted, if_neg some] at admitted
    have executed := Call.execute_open notClose world.store holds
    refine guarded.update found rfl (.took admitted.1 ?_ ?_ (.inr ⟨rfl, ?_⟩) (.inl rfl))
      guarded.engine (guarded.apart_of_subset found (List.Subset.refl _)) ?_
    · rw [admitted.2]
      exact (congrArg Prod.fst executed).trans (by rw [← admitted.2]; rfl)
    · rw [admitted.2]
      exact congrArg (fun result => (index, call, result) :: world.history)
        (congrArg Prod.snd executed).symm
    · rw [← whole]
      exact reverse_subset.mpr (List.Subset.refl _)
    · rw [Stands, Call.result_getD]
      exact mem_cons_self
  · exact guarded.moved found (guarded.apart_of_subset found (subset_cons_self _ _)) stands
  · exact guarded.moved found (guarded.apart_of_subset found (nil_subset _)) stands
  · exact guarded.moved found (guarded.apart_of_subset found (nil_subset _)) stands
  · split
    · exact guarded.update found rfl (.same rfl rfl rfl) guarded.engine
        (guarded.apart_of_subset found (nil_subset _)) trivial
    · exact guarded.moved found (guarded.apart_of_subset found (nil_subset _)) stands
  · exact guarded
  · exact guarded

end Steps

variable {initial : Store}

theorem Guarded.step (guarded : Guarded initial world) (action : Action) :
    Guarded initial (step world action) := by
  cases action with
  | act index =>
    simp only [Pebble.step]
    split
    · exact guarded
    · next found => exact guarded.advance found
  | spawn call =>
    have older : ∀ {index thread}, (world.threads ++ [⟨call, call.first⟩])[index]? = some thread →
        world.threads[index]? = some thread ∨
          index = world.threads.length ∧ thread = ⟨call, call.first⟩ := by
      intro index thread found
      rcases Nat.lt_trichotomy index world.threads.length with inside | last | outside
      · rw [getElem?_append_left inside] at found
        exact .inl found
      · subst last
        simp only [getElem?_concat_length, Option.some.injEq] at found
        exact .inr ⟨rfl, found.symm⟩
      · rw [getElem?_eq_none (by simp; omega)] at found
        cases found
    have none : call.first.held = [] := by cases call <;> rfl
    refine ⟨?_, ?_, guarded.engine, guarded.replays, guarded.once, ?_⟩
    · intro index other first second different isFirst isSecond
      rcases older isFirst with isFirst | ⟨_, rfl⟩
      · rcases older isSecond with isSecond | ⟨_, rfl⟩
        · exact guarded.apart index other first second different isFirst isSecond
        · rw [none]
          exact disjoint_nil_right _
      · rw [none]
        exact disjoint_nil_left _
    · intro index thread found
      rcases older found with before | ⟨rfl, rfl⟩
      · exact guarded.stands index thread before
      have fresh : Unrecorded world world.threads.length := by
        intro entry listed same
        obtain ⟨thread, isThread, _⟩ := guarded.born entry listed
        rw [same, getElem?_eq_none (le_refl _)] at isThread
        cases isThread
      cases call with
      | set key value => exact ⟨rfl, fresh, by simp⟩
      | delete key => exact ⟨rfl, fresh, by simp⟩
      | flush => exact ⟨fresh, by simp⟩
      | commit stagings sync => exact ⟨fresh, by simp⟩
      | close => exact ⟨rfl, fresh, by simp⟩
    · intro entry listed
      obtain ⟨thread, isThread, same⟩ := guarded.born entry listed
      refine ⟨thread, ?_, same⟩
      change (world.threads ++ [_])[entry.1]? = some thread
      rw [getElem?_append_left (List.getElem?_eq_some_iff.mp isThread).1]
      exact isThread

theorem run_append (store : Store) (schedule : List Action) (action : Action) :
    run store (schedule ++ [action]) = step (run store schedule) action := by
  simp [run]

theorem guarded_run (store : Store) (schedule : List Action) :
    Guarded store (run store schedule) := by
  induction schedule using List.reverseRecOn with
  | nil => exact ⟨by simp [run, World.start], by simp [run, World.start], by simp [run, World.start],
      .nil, nodup_nil, by simp [run, World.start]⟩
  | append_singleton schedule action ih =>
    rw [run_append]
    exact ih.step action

def Waits (world : World) (index : Nat) (stripe : Stripe) : Prop :=
  ∃ call left held, world.threads[index]? = some ⟨call, .locking (stripe :: left) held⟩

def Holds (world : World) (index : Nat) (stripe : Stripe) : Prop :=
  ∃ thread, world.threads[index]? = some thread ∧ stripe ∈ thread.stage.held

theorem Call.stripes_sorted (call : Call) : call.stripes.Pairwise (· < ·) := by
  have all : (List.finRange stripeCount).Pairwise (· < ·) := pairwise_lt_finRange _
  cases call with
  | set key value => exact pairwise_singleton _ _
  | delete key => exact pairwise_singleton _ _
  | flush => exact List.Pairwise.nil
  | commit stagings sync =>
    exact all.filter fun stripe => stagings.any fun staging => stripeOf staging.key = stripe
  | close => exact all

theorem Guarded.held_lt (guarded : Guarded initial world) {index : Nat} {stripe other : Stripe}
    (waits : Waits world index stripe) (holds : Holds world index other) : other < stripe := by
  obtain ⟨call, left, held, found⟩ := waits
  obtain ⟨thread, isThread, inHeld⟩ := holds
  rw [found] at isThread
  cases isThread
  have order := (guarded.stands index _ found).1
  have sorted := call.stripes_sorted
  rw [← order, pairwise_append] at sorted
  exact sorted.2.2 other (mem_reverse.mpr inHeld) stripe mem_cons_self

theorem Guarded.no_deadlock (guarded : Guarded initial world) (calls : Finset Nat)
    (some : calls.Nonempty) :
    ¬ ∀ index ∈ calls, ∃ stripe, Waits world index stripe ∧
      ∃ other ∈ calls, Holds world other stripe := by
  intro circle
  have : Nonempty Stripe := ⟨⟨0, by decide⟩⟩
  choose! wanted waits using fun index membership => circle index membership
  obtain ⟨index, isCall, highest⟩ := calls.exists_max_image wanted some
  obtain ⟨_, other, isOther, holds⟩ := waits index isCall
  have above := guarded.held_lt (waits other isOther).1 holds
  exact absurd above (not_lt.mpr (highest other isOther))

/-- Calls on a store have the results and the effect of the same calls made one after the other
in some order, a condition and the write that it guards being one step there, and no calls wait
for each other in a circle. -/
theorem striped_calls_atomic (store : Store) (schedule : List Action) :
    (∃ order : List (Nat × Call × Result Unit),
      Replays store order ((run store schedule).store, (run store schedule).closed) ∧
        (order.map Prod.fst).Nodup ∧
        (∀ entry ∈ order, ∃ thread, (run store schedule).threads[entry.1]? = some thread ∧
          thread.call = entry.2.1) ∧
        ∀ index call result, (run store schedule).threads[index]? = some ⟨call, .done result⟩ →
          (index, call, result) ∈ order) ∧
      ∀ calls : Finset Nat, calls.Nonempty →
        ¬ ∀ index ∈ calls, ∃ stripe, Waits (run store schedule) index stripe ∧
          ∃ other ∈ calls, Holds (run store schedule) other stripe := by
  have guarded := guarded_run store schedule
  refine ⟨⟨(run store schedule).history, guarded.replays, guarded.once, guarded.born, ?_⟩,
    guarded.no_deadlock⟩
  intro index call result found
  exact guarded.stands index _ found

def Thread.pending (thread : Thread) : Bool :=
  match thread.stage with
  | .reading _ _ | .writing _ => thread.call ≠ .close
  | .unlocking _ none | .syncing => true
  | _ => false

/-- Such a call that no stripe protects from a close: a flush, a commit that is to sync, a batch
without keys. -/
def Thread.exposed (thread : Thread) : Bool := thread.pending && thread.stage.held.isEmpty

def World.closing (world : World) (index : Nat) : Bool :=
  match world.threads[index]? with
  | some ⟨.close, .writing _⟩ => true
  | _ => false

def clearStep (world : World) : Action → Bool
  | .spawn _ => true
  | .act index => !world.closing index || world.threads.all fun thread => !thread.exposed

/-- Whenever the engine is closed, no call is exposed. -/
def clear (world : World) : List Action → Bool
  | [] => true
  | action :: rest => clearStep world action && clear (step world action) rest

/-- Nothing was written late, and once the engine is closed no call is to write to it. -/
structure Calm (world : World) : Prop where
  early : world.lateWrite = false
  alive : ∀ thread ∈ world.threads, thread.stage ≠ .panicked
  ended : world.engineClosed = true → ∀ thread ∈ world.threads, thread.pending = false

section CalmSteps

variable {initial : Store} {world after : World} {index : Nat} {thread : Thread} {stage : Stage}

theorem Calm.moved (calm : Calm world)
    (threads : after.threads = world.threads.set index { thread with stage })
    (late : after.lateWrite = world.lateWrite) (engine : after.engineClosed = world.engineClosed)
    (alive : stage ≠ .panicked)
    (quiet : world.engineClosed = true → Thread.pending { thread with stage } = false) :
    Calm after := by
  refine ⟨late.trans calm.early, ?_, ?_⟩
  · intro other listed
    rw [threads] at listed
    rcases mem_or_eq_of_mem_set listed with before | rfl
    · exact calm.alive other before
    · exact alive
  · intro isClosed other listed
    rw [engine] at isClosed
    rw [threads] at listed
    rcases mem_or_eq_of_mem_set listed with before | rfl
    · exact calm.ended isClosed other before
    · exact quiet isClosed

theorem Guarded.none_pending (guarded : Guarded initial world) {held : List Stripe}
    (found : world.threads[index]? = some ⟨.close, .writing held⟩)
    (hidden : ∀ thread ∈ world.threads, thread.exposed = false) :
    ∀ thread ∈ world.threads, thread.pending = false := by
  intro other listed
  by_contra pending
  rw [Bool.not_eq_false] at pending
  obtain ⟨place, isOther⟩ := mem_iff_getElem?.mp listed
  have whole := (guarded.stands index _ found).1
  have different : place ≠ index := by
    rintro rfl
    rw [found] at isOther
    cases isOther
    simp [Thread.pending] at pending
  have holds : other.stage.held ≠ [] := by
    intro none
    have := hidden other listed
    simp [Thread.exposed, pending, none] at this
  obtain ⟨stripe, rest, isCons⟩ := exists_cons_of_ne_nil holds
  have apart := guarded.apart place index _ _ different isOther found
  exact apart (isCons ▸ mem_cons_self) (all_stripes_of_close whole stripe)

theorem Calm.advance (calm : Calm world) (guarded : Guarded initial world)
    (found : world.threads[index]? = some thread)
    (clear : clearStep world (.act index) = true) : Calm (advance world index thread) := by
  have stands := guarded.stands index thread found
  have isOpen : ¬ world.closed = true → world.engineClosed = true → False :=
    fun notClosed engine => notClosed (guarded.engine engine)
  have own := fun engine => calm.ended engine thread (mem_of_getElem? found)
  obtain ⟨call, stage⟩ := thread
  unfold Pebble.advance
  dsimp only at stands ⊢
  split
  · split
    · exact calm.moved rfl rfl rfl (by simp) fun _ => rfl
    next notClosed =>
    split
    · exact calm.moved rfl rfl rfl (by simp) fun engine => (isOpen notClosed engine).elim
    · exact calm.moved rfl rfl rfl (by simp) fun _ => rfl
  · split
    · exact calm.moved rfl rfl rfl (by simp) fun _ => rfl
    · exact calm
  · exact calm.moved rfl rfl rfl (by simp) fun _ => rfl
  · split
    · exact calm.moved rfl rfl rfl (by simp) fun _ => rfl
    · exact calm.moved rfl rfl rfl (by simp) fun _ => rfl
  · split
    · exact calm.moved rfl rfl rfl (by simp) fun _ => rfl
    next notClosed =>
    split
    · exact calm.moved rfl rfl rfl (by simp) fun engine => (isOpen notClosed engine).elim
    · exact calm.moved rfl rfl rfl (by simp) fun engine => (isOpen notClosed engine).elim
  · -- a pending call keeps reading, or gives up
    split
    · exact calm.moved rfl rfl rfl (by simp) fun _ => rfl
    split
    · exact calm.moved rfl rfl rfl (by simp) own
    · exact calm.moved rfl rfl rfl (by simp) fun _ => rfl
  · exact calm.moved rfl rfl rfl (by simp) own
  · -- the engine's close
    next held =>
    have hidden : ∀ thread ∈ world.threads, thread.exposed = false := by
      simpa [clearStep, World.closing, found] using clear
    have none := guarded.none_pending found hidden
    refine ⟨calm.early, ?_, ?_⟩
    · intro other listed
      rcases mem_or_eq_of_mem_set listed with before | rfl
      · exact calm.alive other before
      · simp
    · intro _ other listed
      rcases mem_or_eq_of_mem_set listed with before | rfl
      · exact none other before
      · rfl
  · -- a write finds the engine open, as the call was pending
    next notClose =>
    split
    · next engine =>
      have := own engine
      simp only [Thread.pending, decide_eq_false_iff_not, not_not] at this
      exact (notClose this).elim
    next engineOpen =>
    split
    · exact calm.moved rfl rfl rfl (by simp) fun engine => (engineOpen engine).elim
    · exact calm.moved rfl rfl rfl (by simp) fun engine => (engineOpen engine).elim
  · next result =>
    cases result with
    | none => exact calm.moved rfl rfl rfl (by simp) own
    | some result => exact calm.moved rfl rfl rfl (by simp) fun _ => rfl
  · exact calm.moved rfl rfl rfl (by simp) fun _ => rfl
  · exact calm.moved rfl rfl rfl (by simp) own
  · split
    · next engine => exact absurd (own engine) (by simp [Thread.pending])
    · exact calm.moved rfl rfl rfl (by simp) fun _ => rfl
  · exact calm
  · exact calm

end CalmSteps

end Remem.Storage.Pebble
