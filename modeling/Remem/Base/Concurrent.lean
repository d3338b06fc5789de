import Mathlib

/-!
# Programs over a shared state

A program observes a shared state and attempts batches against it. Every
observation and every attempt is one atomic step; between two steps of a program
any steps of other programs may fall. `Safe` is the proof rule: a program that
keeps an invariant at each of its own attempts, whatever states it observes, keeps
it in every schedule of any number of such programs.
-/

namespace Remem.Base

open List

/-- A program: it answers, observes the state, or attempts a batch and goes on
with what became of it. -/
inductive Program (State Batch Failure Answer : Type) where
  | ret (answer : Answer)
  | read (next : State → Program State Batch Failure Answer)
  | commit (batch : Batch)
      (next : Except Failure Unit → Program State Batch Failure Answer)

namespace Program

variable {State Batch Failure Answer Result : Type}

def bind : Program State Batch Failure Answer →
    (Answer → Program State Batch Failure Result) → Program State Batch Failure Result
  | ret answer, continuation => continuation answer
  | read next, continuation => read fun state => bind (next state) continuation
  | commit batch next, continuation =>
    commit batch fun outcome => bind (next outcome) continuation

instance : Monad (Program State Batch Failure) where
  pure := ret
  bind := bind

theorem bind_ret (program : Program State Batch Failure Answer) : program >>= ret = program := by
  induction program with
  | ret answer => rfl
  | read next ih => exact congrArg read (funext ih)
  | commit batch next ih => exact congrArg (commit batch) (funext ih)

def answer? : Program State Batch Failure Answer → Option Answer
  | ret answer => some answer
  | _ => none

theorem answer?_eq_some_iff {program : Program State Batch Failure Answer} {answer : Answer} :
    program.answer? = some answer ↔ program = ret answer := by
  cases program <;> simp [answer?]

def attempted? : Program State Batch Failure Answer → Option Batch
  | commit batch _ => some batch
  | _ => none

def observe (look : State → Answer) : Program State Batch Failure Answer :=
  read fun state => ret (look state)

def attempt (batch : Batch) : Program State Batch Failure (Except Failure Unit) :=
  commit batch ret

def mapBatch {Other : Type} (change : Batch → Other) :
    Program State Batch Failure Answer → Program State Other Failure Answer
  | ret answer => ret answer
  | read next => read fun state => mapBatch change (next state)
  | commit batch next => commit (change batch) fun outcome => mapBatch change (next outcome)

/-- A program that only observes, and whose answer is as stated whatever states
with the given property it observes. -/
def Observes (holds : State → Prop) (post : Answer → Prop) :
    Program State Batch Failure Answer → Prop
  | ret answer => post answer
  | read next => ∀ state, holds state → Observes holds post (next state)
  | commit _ _ => False

section Observes

variable {holds : State → Prop} {post : Answer → Prop}

variable {program : Program State Batch Failure Answer}

theorem Observes.mono {stronger : State → Prop} (observes : program.Observes holds post)
    (implies : ∀ state, stronger state → holds state) : program.Observes stronger post := by
  induction program with
  | ret answer => exact observes
  | read next ih =>
    intro state stateHolds
    exact ih state (observes state (implies state stateHolds))
  | commit batch next _ => exact observes

theorem Observes.bind {after : Result → Prop}
    {continuation : Answer → Program State Batch Failure Result}
    (observes : program.Observes holds post)
    (continues : ∀ answer, post answer → (continuation answer).Observes holds after) :
    (program >>= continuation).Observes holds after := by
  induction program with
  | ret answer => exact continues answer observes
  | read next ih =>
    intro state stateHolds
    exact ih state (observes state stateHolds)
  | commit batch next _ => exact False.elim observes

theorem Observes.imp {weaker : Answer → Prop} (observes : program.Observes holds post)
    (implies : ∀ answer, post answer → weaker answer) : program.Observes holds weaker := by
  have bound : (program >>= ret).Observes holds weaker := observes.bind implies
  rwa [bind_ret] at bound

theorem observes_observe_bind {Seen : Type} {look : State → Seen}
    {continuation : Seen → Program State Batch Failure Answer}
    (continues : ∀ state, holds state → (continuation (look state)).Observes holds post) :
    (observe look >>= continuation).Observes holds post :=
  continues

end Observes

/-- A program that may attempt certain batches, given its own commits so far, latest first,
and answers as stated; it observes states with the given property, and an attempt that
does not succeed fails in one of the given ways. -/
def Performs (holds : State → Prop) (refusal : Failure → Prop)
    (may : List Batch → Batch → Prop) (post : Answer → List Batch → Prop) :
    Program State Batch Failure Answer → List Batch → Prop
  | ret answer, committed => post answer committed
  | read next, committed =>
    ∀ state, holds state → Performs holds refusal may post (next state) committed
  | commit batch next, committed =>
    may committed batch ∧ Performs holds refusal may post (next (.ok ())) (batch :: committed) ∧
      ∀ failure, refusal failure → Performs holds refusal may post (next (.error failure)) committed

section Performs

variable {holds : State → Prop} {refusal : Failure → Prop} {may : List Batch → Batch → Prop}
  {post : Answer → List Batch → Prop}

variable {program : Program State Batch Failure Answer} {committed : List Batch}

theorem Performs.bind {after : Result → List Batch → Prop}
    {continuation : Answer → Program State Batch Failure Result}
    (performs : program.Performs holds refusal may post committed)
    (continues : ∀ answer committed, post answer committed → (continuation answer).Performs holds
      refusal may after committed) :
    (program >>= continuation).Performs holds refusal may after committed := by
  induction program generalizing committed with
  | ret answer => exact continues answer committed performs
  | read next ih =>
    intro state stateHolds
    exact ih state (performs state stateHolds)
  | commit batch next ih =>
    obtain ⟨allowed, succeeds, fails⟩ := performs
    exact ⟨allowed, ih _ succeeds, fun failure refused =>
      ih _ (fails failure refused)⟩

theorem Performs.imp {weaker : Answer → List Batch → Prop}
    (performs : program.Performs holds refusal may post committed)
    (implies : ∀ answer committed, post answer committed → weaker answer committed) :
    program.Performs holds refusal may weaker committed := by
  have bound : (program >>= ret).Performs holds refusal may weaker committed := performs.bind implies
  rwa [bind_ret] at bound

theorem Performs.mono {stronger : State → Prop}
    (performs : program.Performs holds refusal may post committed)
    (implies : ∀ state, stronger state → holds state) :
    program.Performs stronger refusal may post committed := by
  induction program generalizing committed with
  | ret answer => exact performs
  | read next ih =>
    intro state stateHolds
    exact ih state (performs state (implies state stateHolds))
  | commit batch next ih =>
    obtain ⟨allowed, succeeds, fails⟩ := performs
    exact ⟨allowed, ih _ succeeds, fun failure refused =>
      ih _ (fails failure refused)⟩

theorem Performs.mapBatch {Other : Type} {change : Batch → Other} {may : Batch → Prop}
    {allowed : Other → Prop} {post : Answer → Prop}
    (performs : program.Performs holds refusal (fun _ => may) (fun answer _ => post answer)
      committed)
    (allows : ∀ batch, may batch → allowed (change batch)) (others : List Other) :
    (program.mapBatch change).Performs holds refusal (fun _ => allowed)
      (fun answer _ => post answer) others := by
  induction program generalizing committed others with
  | ret answer => exact performs
  | read next ih =>
    intro state stateHolds
    exact ih state (performs state stateHolds) others
  | commit batch next ih =>
    obtain ⟨isAllowed, succeeds, fails⟩ := performs
    exact ⟨allows batch isAllowed, ih _ succeeds _, fun failure refused =>
      ih _ (fails failure refused) others⟩

theorem Observes.performs {post : Answer → Prop} (observes : program.Observes holds post)
    (committed : List Batch) :
    program.Performs holds refusal may (fun answer now => post answer ∧ now = committed)
      committed := by
  induction program with
  | ret answer => exact ⟨observes, rfl⟩
  | read next ih =>
    intro state stateHolds
    exact ih state (observes state stateHolds)
  | commit batch next _ => exact False.elim observes

theorem performs_observe_bind {Seen : Type} {look : State → Seen}
    {continuation : Seen → Program State Batch Failure Answer}
    (continues : ∀ state, holds state → (continuation (look state)).Performs holds refusal may post
      committed) : (observe look >>= continuation).Performs holds refusal may post committed :=
  continues

theorem performs_attempt_bind {batch : Batch}
    {continuation : Except Failure Unit → Program State Batch Failure Answer}
    (allowed : may committed batch)
    (succeeds : (continuation (.ok ())).Performs holds refusal may post (batch :: committed))
    (fails : ∀ failure, refusal failure → (continuation (.error failure)).Performs holds refusal
      may post committed) :
    (attempt batch >>= continuation).Performs holds refusal may post committed :=
  ⟨allowed, succeeds, fails⟩

end Performs

end Program

/-- A successful commit: which thread, running which call, committed what. -/
structure Entry (Call Batch : Type) where
  thread : Nat
  call : Call
  batch : Batch

/-- A call in progress or finished, with the history it was born into and its own
commits, latest first. -/
structure Thread (Call State Batch Failure Answer : Type) where
  call : Call
  born : List (Entry Call Batch)
  program : Program State Batch Failure Answer
  committed : List Batch

/-- The shared state, the commits that made it, latest first, and every thread. -/
structure World (Call State Batch Failure Answer : Type) where
  state : State
  history : List (Entry Call Batch)
  threads : List (Thread Call State Batch Failure Answer)

inductive Action (Call : Type) where
  | spawn (call : Call)
  | act (thread : Nat)

def Action.spawned {Call : Type} : Action Call → Option Call
  | spawn call => some call
  | act _ => none

/-- What a batch does to the state, what program each call runs, what is assumed of each
call, and what two different calls are assumed to have distinct. -/
structure System (Call State Batch Failure Answer : Type) where
  apply : Batch → State → Except Failure State
  body : Call → Program State Batch Failure Answer
  legal : Call → Prop
  distinct : Call → Call → Prop
  distinct_symm : ∀ first second, distinct first second → distinct second first

namespace System

variable {Call State Batch Failure Answer : Type}
variable (system : System Call State Batch Failure Answer)

def stepThread (world : World Call State Batch Failure Answer) (index : Nat)
    (thread : Thread Call State Batch Failure Answer) : World Call State Batch Failure Answer :=
  match thread.program with
  | .ret _ => world
  | .read next =>
    { world with
      threads := world.threads.set index { thread with program := next world.state } }
  | .commit batch next =>
    match system.apply batch world.state with
    | .ok state =>
      { state
        history := ⟨index, thread.call, batch⟩ :: world.history
        threads := world.threads.set index
          { thread with
            program := next (.ok ())
            committed := batch :: thread.committed } }
    | .error failure =>
      { world with
        threads := world.threads.set index
          { thread with program := next (.error failure) } }

def step (world : World Call State Batch Failure Answer) :
    Action Call → World Call State Batch Failure Answer
  | .spawn call =>
    { world with
      threads := world.threads ++ [⟨call, world.history, system.body call, []⟩] }
  | .act index =>
    match world.threads[index]? with
    | none => world
    | some thread => system.stepThread world index thread

def start (initial : State) : World Call State Batch Failure Answer := ⟨initial, [], []⟩

def run (initial : State) (schedule : List (Action Call)) : World Call State Batch Failure Answer :=
  schedule.foldl system.step (start initial)

/-- The calls of a schedule are legal and distinct as assumed. -/
def Distinct (world : World Call State Batch Failure Answer) : Prop :=
  (∀ call ∈ world.threads.map Thread.call, system.legal call) ∧
    (world.threads.map Thread.call).Pairwise system.distinct

@[simp]
theorem run_nil (initial : State) : system.run initial [] = start initial := rfl

@[simp]
theorem run_append_singleton (initial : State) (schedule : List (Action Call))
    (action : Action Call) :
    system.run initial (schedule ++ [action]) =
      system.step (system.run initial schedule) action := by
  simp [run]

section Meets

variable (check : Entry Call Batch → State → List (Entry Call Batch) → Prop)

def committing (world : World Call State Batch Failure Answer) :
    Action Call → Option (Entry Call Batch)
  | .spawn _ => none
  | .act index => do
      let thread ← world.threads[index]?
      let batch ← thread.program.attempted?
      if (system.apply batch world.state).isOk then some ⟨index, thread.call, batch⟩ else none

/-- Everything the schedule commits passes the check, made of the state and the history it
is committed into. -/
def Meets : World Call State Batch Failure Answer → List (Action Call) → Prop
  | _, [] => True
  | world, action :: rest =>
    (∀ entry ∈ system.committing world action, check entry world.state world.history) ∧
      Meets (system.step world action) rest

instance Meets.decidable [∀ entry state history, Decidable (check entry state history)] :
    ∀ (world : World Call State Batch Failure Answer) (schedule : List (Action Call)),
      Decidable (system.Meets check world schedule)
  | _, [] => inferInstanceAs (Decidable True)
  | world, action :: rest =>
    have := decidable (system.step world action) rest
    inferInstanceAs (Decidable (_ ∧ _))

variable {system check}

variable {world : World Call State Batch Failure Answer}

theorem committing_act {index : Nat} {thread : Thread Call State Batch Failure Answer}
    (found : world.threads[index]? = some thread) {batch : Batch}
    {next : Except Failure Unit → Program State Batch Failure Answer}
    (program : thread.program = .commit batch next) {state : State}
    (applied : system.apply batch world.state = .ok state) :
    system.committing world (.act index) = some ⟨index, thread.call, batch⟩ := by
  simp [committing, found, program, Program.attempted?, applied, Except.isOk, Except.toBool]

theorem Meets.append_singleton {schedule : List (Action Call)} {action : Action Call}
    (meets : system.Meets check world (schedule ++ [action])) :
    system.Meets check world schedule ∧
      ∀ entry ∈ system.committing (schedule.foldl system.step world) action,
        check entry (schedule.foldl system.step world).state
          (schedule.foldl system.step world).history := by
  induction schedule generalizing world with
  | nil => exact ⟨trivial, meets.1⟩
  | cons first rest ih =>
    obtain ⟨restMeets, last⟩ := ih meets.2
    exact ⟨⟨meets.1, restMeets⟩, last⟩

end Meets

def Unchecked (_ : Entry Call Batch) (_ : State) (_ : List (Entry Call Batch)) : Prop := True

theorem meets_unchecked (world : World Call State Batch Failure Answer)
    (schedule : List (Action Call)) : system.Meets Unchecked world schedule := by
  induction schedule generalizing world with
  | nil => trivial
  | cons action rest ih => exact ⟨fun _ _ => trivial, ih _⟩

/-- What a thread knows of any history it can meet: it extends the one the thread
was born into, its own commits in it are the ones it made, and every other commit
is of a call distinct from its own. -/
structure View (index : Nat) (call : Call) (born : List (Entry Call Batch))
    (committed : List Batch) (history : List (Entry Call Batch)) : Prop where
  grows : born <:+ history
  own : (history.filter fun entry => entry.thread = index).map Entry.batch = committed
  ownCall : ∀ entry ∈ history, entry.thread = index → entry.call = call
  apart : ∀ entry ∈ history, entry.thread ≠ index → system.distinct entry.call call

/-- What the commits of other threads made of a state and its history, the invariant holding
throughout. -/
inductive Later (check : Entry Call Batch → State → List (Entry Call Batch) → Prop)
    (inv : State → List (Entry Call Batch) → Prop) (index : Nat) (seen : State)
    (past : List (Entry Call Batch)) : State → List (Entry Call Batch) → Prop
  | refl : Later check inv index seen past seen past
  | step {state after : State} {history : List (Entry Call Batch)} {entry : Entry Call Batch}
      (earlier : Later check inv index seen past state history) (foreign : entry.thread ≠ index)
      (before : inv state history) (checked : check entry state history)
      (applied : system.apply entry.batch state = .ok after)
      (kept : inv after (entry :: history)) :
      Later check inv index seen past after (entry :: history)

/-- A program that keeps the invariant at each attempt and answers as stated. At each of its
steps it knows the state and the history of its last one. -/
def Safe (check : Entry Call Batch → State → List (Entry Call Batch) → Prop)
    (inv : State → List (Entry Call Batch) → Prop) (index : Nat) (call : Call)
    (born : List (Entry Call Batch))
    (post : State → List (Entry Call Batch) → Answer → List Batch → Prop) :
    Program State Batch Failure Answer → List Batch → State → List (Entry Call Batch) → Prop
  | .ret answer, committed, seen, past => post seen past answer committed
  | .read next, committed, seen, past =>
    ∀ state history, inv state history → system.View index call born committed history →
      system.Later check inv index seen past state history →
      Safe check inv index call born post (next state) committed state history
  | .commit batch next, committed, seen, past =>
    ∀ state history, inv state history → system.View index call born committed history →
      system.Later check inv index seen past state history →
      match system.apply batch state with
      | .ok after =>
        check ⟨index, call, batch⟩ state history → inv after (⟨index, call, batch⟩ :: history) ∧
            Safe check inv index call born post (next (.ok ())) (batch :: committed) after
              (⟨index, call, batch⟩ :: history)
      | .error failure =>
        Safe check inv index call born post (next (.error failure)) committed state history

section Rule

variable {system}
variable {check : Entry Call Batch → State → List (Entry Call Batch) → Prop}
variable {inv : State → List (Entry Call Batch) → Prop}
variable {post : Nat → Call → List (Entry Call Batch) → State → List (Entry Call Batch) →
  Answer → List Batch → Prop}

structure Sound (system : System Call State Batch Failure Answer)
    (check : Entry Call Batch → State → List (Entry Call Batch) → Prop)
    (inv : State → List (Entry Call Batch) → Prop)
    (post : Nat → Call → List (Entry Call Batch) → State → List (Entry Call Batch) →
      Answer → List Batch → Prop)
    (world : World Call State Batch Failure Answer) : Prop where
  holds : inv world.state world.history
  known : ∀ entry ∈ world.history, ∃ thread,
    world.threads[entry.thread]? = some thread ∧ thread.call = entry.call
  view : ∀ index thread, world.threads[index]? = some thread →
    system.View index thread.call thread.born thread.committed world.history
  safe : ∀ index thread, world.threads[index]? = some thread →
    ∃ seen past, system.Later check inv index seen past world.state world.history ∧
      system.Safe check inv index thread.call thread.born
        (post index thread.call thread.born) thread.program thread.committed seen past

variable {world : World Call State Batch Failure Answer}
  {thread : Thread Call State Batch Failure Answer}

theorem distinct_of_ne (distinct : system.Distinct world) {first second : Nat}
    {other : Thread Call State Batch Failure Answer} (found : world.threads[first]? = some thread)
    (otherFound : world.threads[second]? = some other) (different : first ≠ second) :
    system.distinct thread.call other.call := by
  replace distinct := distinct.2
  rw [pairwise_map, pairwise_iff_getElem] at distinct
  rcases List.getElem?_eq_some_iff.mp found with ⟨firstBound, rfl⟩
  rcases List.getElem?_eq_some_iff.mp otherFound with ⟨secondBound, rfl⟩
  rcases lt_or_gt_of_ne different with less | greater
  · exact distinct first second firstBound secondBound less
  · exact system.distinct_symm _ _ (distinct second first secondBound firstBound greater)

variable {threads : List (Thread Call State Batch Failure Answer)} {index : Nat}
  {changed : Thread Call State Batch Failure Answer}

theorem calls_set (found : threads[index]? = some thread) (sameCall : changed.call = thread.call) :
    (threads.set index changed).map Thread.call = threads.map Thread.call := by
  rcases List.getElem?_eq_some_iff.mp found with ⟨bound, rfl⟩
  have mapBound : index < (threads.map Thread.call).length := by simpa using bound
  have same := set_getElem_self mapBound
  rw [map_set, sameCall]
  simpa using same

theorem calls_step (world : World Call State Batch Failure Answer) (action : Action Call) :
    (system.step world action).threads.map Thread.call =
      world.threads.map Thread.call ++ action.spawned.toList := by
  cases action with
  | spawn call => simp [step, Action.spawned]
  | act index =>
    rw [show (Action.act index : Action Call).spawned.toList = [] from rfl, append_nil]
    cases found : world.threads[index]? with
    | none => simp only [step, found]
    | some thread =>
      simp only [step, found, stepThread]
      split
      · rfl
      · exact calls_set found rfl
      split
      · exact calls_set found rfl
      · exact calls_set found rfl

theorem calls_run (initial : State) (schedule : List (Action Call)) :
    (system.run initial schedule).threads.map Thread.call = schedule.filterMap Action.spawned := by
  induction schedule using List.reverseRecOn with
  | nil => rfl
  | append_singleton schedule action ih =>
    rw [run_append_singleton, calls_step, ih, filterMap_append]
    cases action <;> rfl

theorem distinct_of_step {action : Action Call}
    (distinct : system.Distinct (system.step world action)) : system.Distinct world := by
  obtain ⟨legal, apart⟩ := distinct
  rw [calls_step] at legal apart
  exact ⟨fun call spawned => legal call (mem_append_left _ spawned), (pairwise_append.mp apart).1⟩

variable {initial : State}

theorem distinct_take {schedule : List (Action Call)}
    (distinct : system.Distinct (system.run initial schedule)) (count : Nat) :
    system.Distinct (system.run initial (schedule.take count)) := by
  have fewer := (take_sublist count schedule).filterMap Action.spawned
  rw [Distinct, calls_run] at distinct ⊢
  exact ⟨fun call spawned => distinct.1 call (fewer.subset spawned), distinct.2.sublist fewer⟩

theorem getElem?_set_cases {other : Nat}
    (found : (threads.set index changed)[other]? = some thread) :
    (other = index ∧ thread = changed) ∨ (other ≠ index ∧ threads[other]? = some thread) := by
  by_cases same : index = other
  · subst same
    rcases List.getElem?_eq_some_iff.mp found with ⟨bound, equal⟩
    rw [getElem_set_self] at equal
    exact Or.inl ⟨rfl, equal.symm⟩
  · rw [getElem?_set_ne same] at found
    exact Or.inr ⟨Ne.symm same, found⟩

theorem known_set (found : threads[index]? = some thread) (sameCall : changed.call = thread.call)
    {entry : Entry Call Batch}
    (known : ∃ thread, threads[entry.thread]? = some thread ∧ thread.call = entry.call) :
    ∃ thread, (threads.set index changed)[entry.thread]? = some thread ∧
      thread.call = entry.call := by
  rcases known with ⟨owner, ownerFound, ownerCall⟩
  by_cases same : entry.thread = index
  · rw [same] at ownerFound ⊢
    obtain rfl : owner = thread := by simpa [found] using ownerFound.symm
    refine ⟨changed, ?_, sameCall.trans ownerCall⟩
    rw [getElem?_set_self (List.getElem?_eq_some_iff.mp found).1]
  · exact ⟨owner, by rwa [getElem?_set_ne (Ne.symm same)], ownerCall⟩

theorem Sound.quiet (sound : Sound system check inv post world)
    (found : world.threads[index]? = some thread) (program : Program State Batch Failure Answer)
    (safe : system.Safe check inv index thread.call thread.born (post index thread.call
      thread.born) program thread.committed world.state world.history) :
    Sound system check inv post
      { world with threads := world.threads.set index { thread with program } } where
  holds := sound.holds
  known entry membership := by
    refine known_set found ?_ (sound.known entry membership)
    rfl
  view other changed otherFound := by
    rcases getElem?_set_cases otherFound with ⟨rfl, rfl⟩ | ⟨_, unchanged⟩
    · exact sound.view other thread found
    · exact sound.view other changed unchanged
  safe other changed otherFound := by
    rcases getElem?_set_cases otherFound with ⟨rfl, rfl⟩ | ⟨_, unchanged⟩
    · exact ⟨_, _, .refl, safe⟩
    · exact sound.safe other changed unchanged

theorem Sound.committed (sound : Sound system check inv post world)
    (distinct : system.Distinct world) (found : world.threads[index]? = some thread) {batch : Batch}
    {state : State} (program : Program State Batch Failure Answer)
    (checked : check ⟨index, thread.call, batch⟩ world.state world.history)
    (applied : system.apply batch world.state = .ok state)
    (holds : inv state (⟨index, thread.call, batch⟩ :: world.history))
    (safe : system.Safe check inv index thread.call thread.born (post index thread.call
      thread.born) program (batch :: thread.committed) state (⟨index, thread.call, batch⟩ ::
      world.history)) :
    Sound system check inv post
      { state
        history := ⟨index, thread.call, batch⟩ :: world.history
        threads := world.threads.set index
          { thread with program, committed := batch :: thread.committed } } where
  holds := holds
  known entry membership := by
    refine known_set found ?_ ?_
    · rfl
    · rcases mem_cons.mp membership with rfl | earlier
      · exact ⟨thread, found, rfl⟩
      · exact sound.known entry earlier
  view other changed otherFound := by
    rcases getElem?_set_cases otherFound with ⟨rfl, rfl⟩ | ⟨different, unchanged⟩
    · have view := sound.view other thread found
      refine ⟨view.grows.trans (suffix_cons _ _), ?_, ?_, ?_⟩
      · simp [view.own]
      · intro entry membership own
        rcases mem_cons.mp membership with rfl | earlier
        · rfl
        · exact view.ownCall entry earlier own
      · intro entry membership foreign
        rcases mem_cons.mp membership with rfl | earlier
        · exact absurd rfl foreign
        · exact view.apart entry earlier foreign
    · have view := sound.view other changed unchanged
      refine ⟨view.grows.trans (suffix_cons _ _), ?_, ?_, ?_⟩
      · simp [different.symm, view.own]
      · intro entry membership own
        rcases mem_cons.mp membership with rfl | earlier
        · exact absurd own different.symm
        · exact view.ownCall entry earlier own
      · intro entry membership foreign
        rcases mem_cons.mp membership with rfl | earlier
        · exact distinct_of_ne distinct found unchanged different.symm
        · exact view.apart entry earlier foreign
  safe other changed otherFound := by
    rcases getElem?_set_cases otherFound with ⟨rfl, rfl⟩ | ⟨different, unchanged⟩
    · exact ⟨_, _, .refl, safe⟩
    · obtain ⟨seen, past, later, otherSafe⟩ := sound.safe other changed unchanged
      exact ⟨seen, past, later.step different.symm sound.holds checked applied holds, otherSafe⟩

theorem Sound.spawned (sound : Sound system check inv post world) (call : Call)
    (distinct : system.Distinct (system.step world (.spawn call)))
    (safe : system.legal call → system.View world.threads.length call world.history []
      world.history → system.Safe check inv world.threads.length call world.history (post
      world.threads.length call world.history) (system.body call) [] world.state world.history) :
    Sound system check inv post (system.step world (.spawn call)) := by
  have bound : ∀ entry ∈ world.history, entry.thread < world.threads.length := by
    intro entry membership
    rcases sound.known entry membership with ⟨thread, found, _⟩
    exact (List.getElem?_eq_some_iff.mp found).1
  have newest : (system.step world (.spawn call)).threads[world.threads.length]? =
      some ⟨call, world.history, system.body call, []⟩ := by
    simp [step]
  have older : ∀ index, index < world.threads.length →
      (system.step world (.spawn call)).threads[index]? = world.threads[index]? := by
    intro index inside
    exact getElem?_append_left inside
  have view : system.View world.threads.length call world.history [] world.history := by
    refine ⟨suffix_refl _, ?_, ?_, ?_⟩
    · rw [map_eq_nil_iff, filter_eq_nil_iff]
      intro entry membership own
      exact absurd (of_decide_eq_true own) (bound entry membership).ne
    · intro entry membership own
      exact absurd own (bound entry membership).ne
    intro entry membership foreign
    rcases sound.known entry membership with ⟨thread, found, sameCall⟩
    have olderFound := older entry.thread (bound entry membership)
    rw [found] at olderFound
    rw [← sameCall]
    exact distinct_of_ne distinct olderFound newest foreign
  -- a thread of the new world is an old one or the one just born
  have threads : ∀ index thread, (system.step world (.spawn call)).threads[index]? = some thread →
      world.threads[index]? = some thread ∨
        index = world.threads.length ∧ thread = ⟨call, world.history, system.body call, []⟩ := by
    intro index thread found
    by_cases inside : index < world.threads.length
    · rw [older index inside] at found
      exact Or.inl found
    have inNew := (List.getElem?_eq_some_iff.mp found).1
    simp only [step, length_append, length_singleton] at inNew
    obtain rfl : index = world.threads.length := by omega
    rw [newest] at found
    exact Or.inr ⟨rfl, (Option.some.inj found).symm⟩
  refine ⟨sound.holds, ?_, ?_, ?_⟩
  · intro entry membership
    rcases sound.known entry membership with ⟨thread, found, sameCall⟩
    exact ⟨thread, by rw [older _ (bound entry membership), found], sameCall⟩
  · intro index thread found
    rcases threads index thread found with old | ⟨rfl, rfl⟩
    · exact sound.view index thread old
    · exact view
  · intro index thread found
    rcases threads index thread found with old | ⟨rfl, rfl⟩
    · exact sound.safe index thread old
    · refine ⟨_, _, .refl, safe (distinct.1 call ?_) view⟩
      simp [step]

theorem Sound.step (sound : Sound system check inv post world) (action : Action Call)
    (distinct : system.Distinct (system.step world action))
    (checked : ∀ entry ∈ system.committing world action, check entry world.state world.history)
    (bodies : ∀ index call born state, inv state born → system.legal call → system.View index call
      born [] born → system.Safe check inv index call born (post index call born) (system.body
      call) [] state born) : Sound system check inv post (system.step world action) := by
  cases action with
  | spawn call =>
    exact sound.spawned call distinct (bodies _ call _ world.state sound.holds)
  | act index =>
    have distinctBefore := distinct_of_step distinct
    cases found : world.threads[index]? with
    | none => simpa only [System.step, found] using sound
    | some thread =>
      obtain ⟨seen, past, later, safe⟩ := sound.safe index thread found
      have view := sound.view index thread found
      simp only [System.step, found]
      cases program : thread.program with
      | ret answer => simpa only [stepThread, program] using sound
      | read next =>
        simp only [stepThread, program]
        rw [program] at safe
        exact sound.quiet found _ (safe world.state world.history sound.holds view later)
      | commit batch next =>
        rw [program] at safe
        have attempted := safe world.state world.history sound.holds view later
        simp only [stepThread, program]
        cases applied : system.apply batch world.state with
        | ok state =>
          rw [applied] at attempted
          have passes := checked _ (committing_act found program applied)
          obtain ⟨holds, continues⟩ := attempted passes
          exact sound.committed distinctBefore found _ passes applied holds continues
        | error failure =>
          rw [applied] at attempted
          exact sound.quiet found _ attempted

variable (system inv post) in
theorem sound_run (initially : inv initial [])
    (bodies : ∀ index call born state, inv state born → system.legal call → system.View index call
      born [] born → system.Safe check inv index call born (post index call born) (system.body
      call) [] state born)
    (schedule : List (Action Call)) (distinct : system.Distinct (system.run initial schedule))
    (meets : system.Meets check (start initial) schedule) :
    Sound system check inv post (system.run initial schedule) := by
  induction schedule using List.reverseRecOn with
  | nil =>
    refine ⟨initially, ?_, ?_, ?_⟩
    · intro entry membership
      cases membership
    · intro index thread found
      cases found
    · intro index thread found
      cases found
  | append_singleton schedule action ih =>
    rw [run_append_singleton] at distinct ⊢
    obtain ⟨meetsBefore, checked⟩ := meets.append_singleton
    exact (ih (distinct_of_step distinct) meetsBefore).step action distinct checked bodies

theorem Sound.answered (sound : Sound system check inv post world)
    (found : world.threads[index]? = some thread) {answer : Answer}
    (finished : thread.program = .ret answer) :
    ∃ seen past, system.Later check inv index seen past world.state world.history ∧
      post index thread.call thread.born seen past answer thread.committed := by
  obtain ⟨seen, past, later, safe⟩ := sound.safe index thread found
  rw [finished] at safe
  exact ⟨seen, past, later, safe⟩

end Rule

section Safe

variable {system}
variable {check : Entry Call Batch → State → List (Entry Call Batch) → Prop}
variable {inv : State → List (Entry Call Batch) → Prop}
variable {index : Nat} {call : Call} {born : List (Entry Call Batch)}

variable {committed : List Batch} {last : State} {past : List (Entry Call Batch)}

theorem Safe.of_observes {Seen : Type}
    {post : State → List (Entry Call Batch) → Answer → List Batch → Prop} (seen : Seen → Prop)
    {program : Program State Batch Failure Seen}
    {continuation : Seen → Program State Batch Failure Answer}
    (observes : program.Observes (fun state => ∃ history, inv state history ∧ system.View index
      call born committed history) seen)
    (continues : ∀ answer last past, seen answer → system.Safe check inv index call born post
      (continuation answer) committed last past) :
    system.Safe check inv index call born post (program >>= continuation) committed last past := by
  induction program generalizing last past with
  | ret answer => exact continues answer last past observes
  | read next ih =>
    intro state history holds view _
    exact ih state (observes state ⟨history, holds, view⟩)
  | commit batch next _ => exact False.elim observes

theorem Safe.of_performs {post : Answer → List Batch → Prop} {refusal : Failure → Prop}
    {may : List Batch → Batch → Prop} {program : Program State Batch Failure Answer}
    (performs : program.Performs (fun state => ∃ history, inv state history ∧ born <:+ history)
      refusal may post committed)
    (refuses : ∀ batch state failure, system.apply batch state = .error failure → refusal failure)
    (keeps : ∀ committed batch state history after, may committed batch → inv state history →
      system.View index call born committed history → system.apply batch state = .ok after → check
      ⟨index, call, batch⟩ state history → inv after (⟨index, call, batch⟩ :: history)) :
    system.Safe check inv index call born (fun _ _ => post) program committed last past := by
  induction program generalizing committed last past with
  | ret answer => exact performs
  | read next ih =>
    intro state history holds view _
    exact ih state (performs state ⟨history, holds, view.grows⟩)
  | commit batch next ih =>
    intro state history holds view _
    obtain ⟨allowed, succeeds, fails⟩ := performs
    cases applied : system.apply batch state with
    | ok after =>
      exact fun passes =>
        ⟨keeps committed batch state history after allowed holds view applied passes, ih _ succeeds⟩
    | error failure =>
      exact ih _ (fails failure (refuses batch state failure applied))

end Safe

end System

end Remem.Base
