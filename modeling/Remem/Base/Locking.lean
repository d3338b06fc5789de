import Remem.Base.Concurrent

/-!
# Locks that make an attempt atomic

A batch is checked one condition after the other and then applied, by a thread that
holds the lock of everything the batch touches. Every run of such threads is a run of
threads whose attempts are one atomic step each.
-/

namespace Remem.Base

open List Function

variable {Call State Batch Failure Answer Check Lock : Type}

inductive Phase (Check Lock : Type) where
  | idle
  | locking (left held : List Lock)
  | checking (left : List Check) (held : List Lock)
  | unlocking (held : List Lock)

def Phase.held : Phase Check Lock → List Lock
  | idle => []
  | locking _ held => held
  | checking _ held => held
  | unlocking held => held

/-- A system whose batches are checks and an effect, with the locks that an attempt of a
batch takes. -/
structure Locking (Call State Batch Failure Answer Check Lock : Type) where
  system : System Call State Batch Failure Answer
  checks : Batch → List Check
  passes : Check → State → Bool
  effect : Batch → State → State
  refusal : Failure
  locks : Batch → List Lock
  apply_eq : ∀ batch state, system.apply batch state =
    if (checks batch).all fun check => passes check state then .ok (effect batch state)
    else .error refusal
  /-- A batch that shares no lock with another cannot change what the other checks. -/
  separate : ∀ batch other check state, check ∈ checks batch →
    (locks batch).Disjoint (locks other) →
    passes check (effect other state) = passes check state

structure LockedWorld (Call State Batch Failure Answer Check Lock : Type) where
  core : World Call State Batch Failure Answer
  phases : Nat → Phase Check Lock

namespace LockedWorld

variable (world : LockedWorld Call State Batch Failure Answer Check Lock)

def setPhase (index : Nat) (phase : Phase Check Lock) :
    LockedWorld Call State Batch Failure Answer Check Lock :=
  { world with phases := Function.update world.phases index phase }

def free [DecidableEq Lock] (index : Nat) (lock : Lock) : Bool :=
  (List.range world.core.threads.length).all fun other =>
    other = index || !(world.phases other).held.contains lock

end LockedWorld

namespace Locking

variable (locking : Locking Call State Batch Failure Answer Check Lock)

/-- The effect of a batch, whose checks are not made again. -/
def applied (core : World Call State Batch Failure Answer) (index : Nat)
    (thread : Thread Call State Batch Failure Answer) (batch : Batch)
    (next : Except Failure Unit → Program State Batch Failure Answer) :
    World Call State Batch Failure Answer :=
  { state := locking.effect batch core.state
    history := ⟨index, thread.call, batch⟩ :: core.history
    threads := core.threads.set index
      { thread with program := next (.ok ()), committed := batch :: thread.committed } }

def refused (core : World Call State Batch Failure Answer) (index : Nat)
    (thread : Thread Call State Batch Failure Answer)
    (next : Except Failure Unit → Program State Batch Failure Answer) :
    World Call State Batch Failure Answer :=
  { core with
    threads := core.threads.set index { thread with program := next (.error locking.refusal) } }

/-- One step of a thread: a lock taken or released, a check made, the batch applied, or a
step that is no attempt. A thread whose lock is taken waits. -/
def advance [DecidableEq Lock] (world : LockedWorld Call State Batch Failure Answer Check Lock)
    (index : Nat) (thread : Thread Call State Batch Failure Answer) :
    LockedWorld Call State Batch Failure Answer Check Lock :=
  match world.phases index, thread.program with
  | .idle, .commit batch _ => world.setPhase index (.locking (locking.locks batch) [])
  | .idle, _ => { world with core := locking.system.stepThread world.core index thread }
  | .locking (lock :: left) held, _ =>
    if world.free index lock then world.setPhase index (.locking left (lock :: held))
    else world
  | .locking [] held, .commit batch _ =>
    world.setPhase index (.checking (locking.checks batch) held)
  | .checking (check :: left) held, .commit _ next =>
    if locking.passes check world.core.state then
      world.setPhase index (.checking left held)
    else
      { world.setPhase index (.unlocking held) with
        core := locking.refused world.core index thread next }
  | .checking [] held, .commit batch next =>
    { world.setPhase index (.unlocking held) with
      core := locking.applied world.core index thread batch next }
  | .unlocking (_ :: held), _ => world.setPhase index (.unlocking held)
  | .unlocking [], _ => world.setPhase index .idle
  | _, _ => world

def step [DecidableEq Lock] (world : LockedWorld Call State Batch Failure Answer Check Lock) :
    Action Call → LockedWorld Call State Batch Failure Answer Check Lock
  | .spawn call => { world with core := locking.system.step world.core (.spawn call) }
  | .act index =>
    match world.core.threads[index]? with
    | none => world
    | some thread => locking.advance world index thread

def start (initial : State) : LockedWorld Call State Batch Failure Answer Check Lock :=
  ⟨System.start initial, fun _ => .idle⟩

def run [DecidableEq Lock] (initial : State) (schedule : List (Action Call)) :
    LockedWorld Call State Batch Failure Answer Check Lock :=
  schedule.foldl locking.step (start initial)

variable {core : World Call State Batch Failure Answer} {index : Nat}
  {thread : Thread Call State Batch Failure Answer} {batch : Batch}
  {next : Except Failure Unit → Program State Batch Failure Answer}

theorem stepThread_applied (program : thread.program = .commit batch next)
    (passes : ∀ check ∈ locking.checks batch, locking.passes check core.state = true) :
    locking.system.stepThread core index thread = locking.applied core index thread batch next := by
  have applies : locking.system.apply batch core.state = .ok (locking.effect batch core.state) := by
    rw [locking.apply_eq, if_pos (all_eq_true.mpr passes)]
  simp only [System.stepThread, program, applies]
  rfl

theorem stepThread_refused (program : thread.program = .commit batch next)
    (fails : ¬ ∀ check ∈ locking.checks batch, locking.passes check core.state = true) :
    locking.system.stepThread core index thread = locking.refused core index thread next := by
  have rejects : locking.system.apply batch core.state = .error locking.refusal := by
    rw [locking.apply_eq, if_neg (fun all => fails (all_eq_true.mp all))]
  simp only [System.stepThread, program, rejects]
  rfl

def Secured (state : State) (program : Program State Batch Failure Answer) : Phase Check Lock → Prop
  | .locking left held => ∃ batch next, program = .commit batch next ∧
      ∀ lock ∈ locking.locks batch, lock ∈ left ∨ lock ∈ held
  | .checking left held => ∃ batch next, program = .commit batch next ∧
      locking.locks batch ⊆ held ∧ left ⊆ locking.checks batch ∧
      ∀ check ∈ locking.checks batch, check ∈ left ∨ locking.passes check state = true
  | _ => True

/-- No lock has two holders, and every thread has secured what its phase says. -/
structure Guarded (world : LockedWorld Call State Batch Failure Answer Check Lock) : Prop where
  apart : ∀ index other, index ≠ other →
    (world.phases index).held.Disjoint (world.phases other).held
  unborn : ∀ index, world.core.threads.length ≤ index → world.phases index = .idle
  secured : ∀ index thread, world.core.threads[index]? = some thread →
    locking.Secured world.core.state thread.program (world.phases index)

section Steps

variable {locking} {world after : LockedWorld Call State Batch Failure Answer Check Lock}
  {index : Nat} {thread : Thread Call State Batch Failure Answer}

theorem Guarded.changed (guarded : locking.Guarded world)
    (found : world.core.threads[index]? = some thread)
    (phases : ∀ other, other ≠ index → after.phases other = world.phases other)
    (threads : ∀ other, other ≠ index → after.core.threads[other]? = world.core.threads[other]?)
    (length : after.core.threads.length = world.core.threads.length)
    (apart : ∀ other, other ≠ index → (after.phases index).held.Disjoint (world.phases other).held)
    (own : ∀ thread, after.core.threads[index]? = some thread →
      locking.Secured after.core.state thread.program (after.phases index))
    (kept : ∀ other thread, other ≠ index → world.core.threads[other]? = some thread →
      locking.Secured after.core.state thread.program (world.phases other)) :
    locking.Guarded after where
  apart first second different := by
    by_cases isFirst : first = index
    · subst isFirst
      rw [phases second (Ne.symm different)]
      exact apart second (Ne.symm different)
    by_cases isSecond : second = index
    · subst isSecond
      rw [phases first isFirst]
      exact (apart first isFirst).symm
    · rw [phases first isFirst, phases second isSecond]
      exact guarded.apart first second different
  unborn other outside := by
    have inside := (List.getElem?_eq_some_iff.mp found).1
    rw [length] at outside
    rw [phases other (by omega)]
    exact guarded.unborn other outside
  secured other thread otherFound := by
    by_cases same : other = index
    · subst same
      exact own thread otherFound
    rw [phases other same]
    rw [threads other same] at otherFound
    exact kept other thread same otherFound

theorem Guarded.setPhase (guarded : locking.Guarded world)
    (found : world.core.threads[index]? = some thread) {phase : Phase Check Lock}
    (apart : ∀ other, other ≠ index → phase.held.Disjoint (world.phases other).held)
    (secured : locking.Secured world.core.state thread.program phase) :
    locking.Guarded (world.setPhase index phase) := by
  have own : (world.setPhase index phase).phases index = phase := update_self ..
  refine guarded.changed found (fun other different => update_of_ne different ..)
    (fun _ _ => rfl) rfl ?_ ?_ fun other thread _ => guarded.secured other thread
  · intro other different
    rw [own]
    exact apart other different
  · intro same sameFound
    obtain rfl : thread = same := Option.some.inj (found.symm.trans sameFound)
    rw [own]
    exact secured

variable {held : List Lock}

theorem Guarded.ended (guarded : locking.Guarded world)
    (found : world.core.threads[index]? = some thread) (holds : (world.phases index).held = held)
    {changed : Thread Call State Batch Failure Answer} {state : State}
    {history : List (Entry Call Batch)}
    (kept : ∀ other thread, other ≠ index → world.core.threads[other]? = some thread →
      locking.Secured state thread.program (world.phases other)) :
    locking.Guarded { world.setPhase index (.unlocking held) with
        core := ⟨state, history, world.core.threads.set index changed⟩ } := by
  have own : (world.setPhase index (.unlocking held)).phases index = .unlocking held :=
    update_self ..
  refine guarded.changed found (fun other different => update_of_ne different ..)
    (fun other different => getElem?_set_ne different.symm) (length_set ..) ?_ ?_ kept
  · intro other different
    change ((world.setPhase index (.unlocking held)).phases index).held.Disjoint _
    rw [own]
    exact holds ▸ guarded.apart index other different.symm
  · intro thread _
    change locking.Secured _ _ ((world.setPhase index (.unlocking held)).phases index)
    rw [own]
    trivial

theorem Guarded.stepThread (guarded : locking.Guarded world)
    (found : world.core.threads[index]? = some thread)
    (isIdle : world.phases index = .idle)
    (noAttempt : ∀ batch next, thread.program = .commit batch next → False) :
    locking.Guarded { world with core := locking.system.stepThread world.core index thread } := by
  unfold System.stepThread
  split
  · exact guarded
  · refine guarded.changed found (fun _ _ => rfl)
      (fun other different => getElem?_set_ne different.symm) (length_set ..)
      (fun other different => guarded.apart index other different.symm) ?_
      fun other thread _ => guarded.secured other thread
    intro thread _
    change locking.Secured _ _ (world.phases index)
    rw [isIdle]
    trivial
  · next batch next program => exact (noAttempt batch next program).elim

variable {other : Nat}

theorem Guarded.kept_applied (guarded : locking.Guarded world) {batch : Batch}
    (holds : (world.phases index).held = held) (locked : locking.locks batch ⊆ held)
    {otherThread : Thread Call State Batch Failure Answer} (different : other ≠ index)
    (otherFound : world.core.threads[other]? = some otherThread) :
    locking.Secured (locking.effect batch world.core.state) otherThread.program
      (world.phases other) := by
  have secured := guarded.secured other otherThread otherFound
  have apart := guarded.apart index other different.symm
  cases phase : world.phases other with
  | idle => trivial
  | unlocking _ => trivial
  | locking left mine =>
    rw [phase] at secured
    exact secured
  | checking left mine =>
    rw [phase] at secured
    rw [holds, phase] at apart
    obtain ⟨theirs, next, program, covers, pending, passed⟩ := secured
    refine ⟨theirs, next, program, covers, pending, fun check listed => ?_⟩
    refine (passed check listed).imp_right fun passes => ?_
    rw [locking.separate theirs batch check _ listed, passes]
    intro lock inTheirs inBatch
    exact apart (locked inBatch) (covers inTheirs)

variable [DecidableEq Lock]

variable {lock : Lock}

theorem free_iff : world.free index lock = true ↔
    ∀ other < world.core.threads.length, other ≠ index → lock ∉ (world.phases other).held := by
  simp [LockedWorld.free, or_iff_not_imp_left]

theorem Guarded.locked (guarded : locking.Guarded world) (free : world.free index lock = true)
    (different : other ≠ index) :
    (lock :: (world.phases index).held).Disjoint (world.phases other).held := by
  rw [disjoint_cons_left]
  refine ⟨?_, guarded.apart index other different.symm⟩
  by_cases inside : other < world.core.threads.length
  · exact free_iff.mp free other inside different
  · rw [guarded.unborn other (not_lt.mp inside)]
    simp [Phase.held]

theorem Guarded.advance (guarded : locking.Guarded world)
    (found : world.core.threads[index]? = some thread) :
    locking.Guarded (locking.advance world index thread) ∧
      ((locking.advance world index thread).core = world.core ∨
        (locking.advance world index thread).core =
          locking.system.stepThread world.core index thread) := by
  have secured := guarded.secured index thread found
  have apart : ∀ other, other ≠ index →
      (world.phases index).held.Disjoint (world.phases other).held :=
    fun other different => guarded.apart index other different.symm
  unfold Locking.advance
  split
  · -- an attempt begins
    next batch next isIdle program =>
      refine ⟨guarded.setPhase found (fun _ _ => disjoint_nil_left _) ?_, .inl rfl⟩
      exact ⟨batch, next, program, fun lock listed => .inl listed⟩
  · next isIdle noAttempt =>
    refine ⟨guarded.stepThread found isIdle noAttempt, .inr rfl⟩
  · next lock left held phase =>
    rw [phase] at secured apart
    split
    · next free =>
      refine ⟨guarded.setPhase found ?_ ?_, .inl rfl⟩
      · intro other different
        have taken := guarded.locked free different
        rw [phase] at taken
        exact taken
      · obtain ⟨batch, next, program, covers⟩ := secured
        refine ⟨batch, next, program, fun needed listed => ?_⟩
        have := covers needed listed
        simp only [mem_cons] at this ⊢
        tauto
    · exact ⟨guarded, .inl rfl⟩
  · next held batch next phase program =>
    rw [phase] at secured apart
    refine ⟨guarded.setPhase found apart ?_, .inl rfl⟩
    obtain ⟨same, _, sameProgram, covers⟩ := secured
    cases program.symm.trans sameProgram
    refine ⟨batch, next, program, ?_, List.Subset.refl _, fun check listed => .inl listed⟩
    intro lock needed
    simpa using covers lock needed
  · next check left held batch next phase program =>
    rw [phase] at secured apart
    obtain ⟨same, _, sameProgram, covers, pending, passed⟩ := secured
    cases program.symm.trans sameProgram
    split
    · next passes =>
      refine ⟨guarded.setPhase found apart ?_, .inl rfl⟩
      refine ⟨batch, next, program, covers, subset_of_cons_subset pending, fun other listed => ?_⟩
      rcases passed other listed with waiting | done
      · rcases mem_cons.mp waiting with rfl | later
        · exact .inr passes
        · exact .inl later
      · exact .inr done
    next fails =>
    refine ⟨guarded.ended found (by rw [phase]; rfl) fun other thread _ =>
      guarded.secured other thread, .inr ?_⟩
    refine (locking.stepThread_refused program ?_).symm
    intro passes
    exact fails (passes check (pending mem_cons_self))
  · next held batch next phase program =>
    have holds : (world.phases index).held = held := by rw [phase]; rfl
    rw [phase] at secured
    obtain ⟨same, _, sameProgram, covers, _, passed⟩ := secured
    cases program.symm.trans sameProgram
    refine ⟨guarded.ended found holds fun other thread different otherFound =>
      guarded.kept_applied holds covers different otherFound, .inr ?_⟩
    refine (locking.stepThread_applied program ?_).symm
    intro check listed
    simpa using passed check listed
  · next lock held phase =>
    rw [phase] at apart
    refine ⟨guarded.setPhase found ?_ trivial, .inl rfl⟩
    intro other different
    exact (disjoint_cons_left.mp (apart other different)).2
  · exact ⟨guarded.setPhase found (fun _ _ => disjoint_nil_left _) trivial, .inl rfl⟩
  · exact ⟨guarded, .inl rfl⟩

theorem Guarded.step (guarded : locking.Guarded world) (action : Action Call) :
    locking.Guarded (locking.step world action) ∧ ((locking.step world action).core = world.core ∨
        (locking.step world action).core = locking.system.step world.core action) := by
  cases action with
  | spawn call =>
    refine ⟨⟨guarded.apart, ?_, ?_⟩, .inr rfl⟩
    · intro index outside
      apply guarded.unborn
      simp only [Locking.step, System.step, length_append] at outside
      omega
    intro index thread found
    change (world.core.threads ++ [_])[index]? = some thread at found
    by_cases inside : index < world.core.threads.length
    · rw [getElem?_append_left inside] at found
      exact guarded.secured index thread found
    change locking.Secured _ _ (world.phases index)
    rw [guarded.unborn index (not_lt.mp inside)]
    trivial
  | act index =>
    simp only [Locking.step, System.step]
    cases found : world.core.threads[index]? with
    | none => exact ⟨guarded, .inl rfl⟩
    | some thread => exact guarded.advance found

end Steps

section Runs

variable [DecidableEq Lock]

variable (initial : State) (schedule : List (Action Call)) (action : Action Call)

@[simp]
theorem run_append_singleton : locking.run initial (schedule ++ [action]) =
      locking.step (locking.run initial schedule) action := by
  simp [run]

end Runs

end Locking

end Remem.Base
