import Remem.Storage.Transaction

/-!
# Programs beside each other

A program over the store works through several observations and commits while others do
the same. `Works` is the proof rule for one of them: at each of its steps it may use
whatever it knew at its last one and no other program can have undone since.
-/

namespace Remem.Storage

open Base Relation List

variable {Call Label Answer Outcome : Type}

/-- The check of a batch and the store, of everything that commits. -/
def Checks (check : Labelled Label → Store → Prop) (entry : Entry Call (Labelled Label))
    (store : Store) (_ : List (Entry Call (Labelled Label))) : Prop :=
  check entry.batch store

instance (check : Labelled Label → Store → Prop)
    [∀ payload store, Decidable (check payload store)] (entry : Entry Call (Labelled Label))
    (store : Store) (history : List (Entry Call (Labelled Label))) :
    Decidable (Checks check entry store history) :=
  inferInstanceAs (Decidable (check _ _))

def labels (history : List (Entry Call (Labelled Label))) : List Label :=
  history.map fun entry => entry.batch.label

section Works

variable (check : Labelled Label → Store → Prop) (inv : Store → List Label → Prop)

/-- What the commit of one of the given batches makes of the store and of the labels
committed into it. -/
def Moves (batches : Labelled Label → Prop) (before after : Store × List Label) : Prop :=
  ∃ payload, batches payload ∧ inv before.1 before.2 ∧ payload.batch.Accepts before.1 ∧
    check payload before.1 ∧ inv after.1 after.2 ∧
    after = (payload.batch.effect before.1, payload.label :: before.2)

/-- A program that keeps the invariant with batches of its own kind and ends as stated,
from the store of its last step, whatever batches others commit in between. -/
def Works (others mine : Labelled Label → Prop) (post : Outcome → Store → List Label → Prop) :
    StoreProgram Label Outcome → Store → List Label → Prop
  | .ret outcome, seen, past => post outcome seen past
  | .read next, seen, past =>
    ∀ store done, inv store done →
      ReflTransGen (Moves check inv others) (seen, past) (store, done) →
      Works others mine post (next store) store done
  | .commit payload next, seen, past =>
    mine payload ∧ ∀ store done, inv store done →
      ReflTransGen (Moves check inv others) (seen, past) (store, done) →
      (payload.batch.Accepts store → check payload store →
        inv (payload.batch.effect store) (payload.label :: done) ∧
          Works others mine post (next (.ok ())) (payload.batch.effect store)
            (payload.label :: done)) ∧
      ∀ fault, Works others mine post (next (.error fault)) store done

variable {check inv} {others mine : Labelled Label → Prop}

variable {seen : Store} {past : List Label}

variable {store : Store} {done : List Label}

theorem stable_of_moves (holds : Store → List Label → Prop)
    (moved : ReflTransGen (Moves check inv others) (seen, past) (store, done))
    (stable : ∀ store done payload, others payload → inv store done → payload.batch.Accepts store →
      check payload store → holds store done → holds (payload.batch.effect store) (payload.label ::
      done)) (held : holds seen past) : holds store done := by
  have carried : ∀ after : Store × List Label,
      ReflTransGen (Moves check inv others) (seen, past) after → holds after.1 after.2 := by
    intro after moved
    induction moved with
    | refl => exact held
    | tail _ move ih =>
      obtain ⟨payload, isOther, before, accepts, passes, _, rfl⟩ := move
      exact stable _ _ payload isOther before accepts passes ih
  exact carried _ moved

theorem suffix_of_moves (moved : ReflTransGen (Moves check inv others) (seen, past) (store, done)) :
    past <:+ done :=
  stable_of_moves (fun _ done => past <:+ done) moved
    (fun _ _ _ _ _ _ _ grown => grown.trans (suffix_cons _ _)) (suffix_refl past)

variable {fewer : Labelled Label → Prop}

variable {before after : Store × List Label}

theorem Moves.mono (implies : ∀ payload, fewer payload → others payload)
    (moves : Moves check inv fewer before after) : Moves check inv others before after := by
  obtain ⟨payload, isFewer, rest⟩ := moves
  exact ⟨payload, implies payload isFewer, rest⟩

theorem moved_mono (implies : ∀ payload, fewer payload → others payload)
    (moved : ReflTransGen (Moves check inv fewer) before after) :
    ReflTransGen (Moves check inv others) before after :=
  ReflTransGen.mono (fun _ _ => Moves.mono implies) _ _ moved

variable {post : Outcome → Store → List Label → Prop} {program : StoreProgram Label Outcome}

theorem Works.mono (works : Works check inv others mine post program seen past)
    (implies : ∀ payload, fewer payload → others payload) :
    Works check inv fewer mine post program seen past := by
  induction program generalizing seen past with
  | ret outcome => exact works
  | read next ih =>
    intro store done held moved
    exact ih store (works store done held (moved_mono implies moved))
  | commit payload next ih =>
    refine ⟨works.1, fun store done held moved => ?_⟩
    obtain ⟨succeeds, fails⟩ := works.2 store done held (moved_mono implies moved)
    refine ⟨fun accepts passes => ?_, fun fault => ih _ (fails fault)⟩
    obtain ⟨keeps, goesOn⟩ := succeeds accepts passes
    exact ⟨keeps, ih _ goesOn⟩

theorem Works.bind {after : Answer → Store → List Label → Prop}
    {continuation : Outcome → StoreProgram Label Answer}
    (works : Works check inv others mine post program seen past)
    (continues : ∀ outcome seen past, post outcome seen past → Works check inv others mine after
      (continuation outcome) seen past) :
    Works check inv others mine after (program >>= continuation) seen past := by
  induction program generalizing seen past with
  | ret outcome => exact continues outcome seen past works
  | read next ih =>
    intro store done held moved
    exact ih store (works store done held moved)
  | commit payload next ih =>
    refine ⟨works.1, fun store done held moved => ?_⟩
    obtain ⟨succeeds, fails⟩ := works.2 store done held moved
    refine ⟨fun accepts passes => ?_, fun fault => ih _ (fails fault)⟩
    obtain ⟨keeps, goesOn⟩ := succeeds accepts passes
    exact ⟨keeps, ih _ goesOn⟩

theorem Works.imp {weaker : Outcome → Store → List Label → Prop}
    (works : Works check inv others mine post program seen past)
    (implies : ∀ outcome store done, post outcome store done → weaker outcome store done) :
    Works check inv others mine weaker program seen past := by
  have bound : Works check inv others mine weaker (program >>= .ret) seen past := works.bind implies
  rwa [Program.bind_ret] at bound

theorem works_observe_bind {Seen : Type} {look : Store → Seen}
    {continuation : Seen → StoreProgram Label Outcome}
    (continues : ∀ store done, inv store done → ReflTransGen (Moves check inv others) (seen, past)
      (store, done) → Works check inv others mine post (continuation (look store)) store done) :
    Works check inv others mine post (Program.observe look >>= continuation) seen past :=
  continues

theorem works_attempt_bind {payload : Labelled Label}
    {continuation : Result Unit → StoreProgram Label Outcome} (isMine : mine payload)
    (succeeds : ∀ store done, inv store done → ReflTransGen (Moves check inv others) (seen, past)
      (store, done) → payload.batch.Accepts store → check payload store → inv (payload.batch.effect
      store) (payload.label :: done) ∧ Works check inv others mine post (continuation (.ok ()))
      (payload.batch.effect store) (payload.label :: done))
    (fails : ∀ store done fault, inv store done → ReflTransGen (Moves check inv others) (seen,
      past) (store, done) → Works check inv others mine post (continuation (.error fault)) store
      done) :
    Works check inv others mine post (Program.attempt payload >>= continuation) seen past :=
  ⟨isMine, fun store done held moved =>
    ⟨succeeds store done held moved, fun fault => fails store done fault held moved⟩⟩

theorem works_of_observes {post : Outcome → Prop}
    (observes : program.Observes (fun store => ∃ done, inv store done) post) (seen : Store)
    (past : List Label) :
    Works check inv others mine (fun outcome store done => post outcome ∧
      ReflTransGen (Moves check inv others) (seen, past) (store, done)) program seen past := by
  have walks : ∀ {program : StoreProgram Label Outcome} {store : Store} {done : List Label},
      program.Observes (fun store => ∃ done, inv store done) post →
      ReflTransGen (Moves check inv others) (seen, past) (store, done) →
      Works check inv others mine (fun outcome store done => post outcome ∧
        ReflTransGen (Moves check inv others) (seen, past) (store, done)) program store done := by
    intro program
    induction program with
    | ret outcome => exact fun observes moved => ⟨observes, moved⟩
    | read next ih =>
      intro _ _ observes moved store done held further
      exact ih store (observes store ⟨done, held⟩) (moved.trans further)
    | commit payload next _ => exact fun observes => False.elim observes
  exact walks observes .refl

end Works

section Runs

variable {system : System Call Store (Labelled Label) Fault Answer}
  {check : Labelled Label → Store → Prop} {inv : Store → List Label → Prop}
  {batches : Call → Labelled Label → Prop}

def Others (system : System Call Store (Labelled Label) Fault Answer)
    (batches : Call → Labelled Label → Prop) (call : Call) (payload : Labelled Label) : Prop :=
  ∃ other, system.distinct other call ∧ batches other payload

/-- The invariant, and of which kind every commit is. -/
def Holds (inv : Store → List Label → Prop) (batches : Call → Labelled Label → Prop)
    (store : Store) (history : List (Entry Call (Labelled Label))) : Prop :=
  inv store (labels history) ∧ ∀ entry ∈ history, batches entry.call entry.batch

def CommitsBatches (system : System Call Store (Labelled Label) Fault Answer) : Prop :=
  ∀ payload store after, system.apply payload store = .ok after →
    payload.batch.Accepts store ∧ payload.batch.effect store = after

variable {index : Nat} {call : Call} {seen : Store} {past : List (Entry Call (Labelled Label))}

theorem moved_of_later (applies : CommitsBatches system) {store : Store}
    {history : List (Entry Call (Labelled Label))}
    (later : system.Later (Checks check) (Holds inv batches) index seen past store history)
    (apart : ∀ entry ∈ history, entry.thread ≠ index → system.distinct entry.call call) :
    ReflTransGen (Moves check inv (Others system batches call)) (seen, labels past)
      (store, labels history) := by
  induction later with
  | refl => exact .refl
  | step _ foreign before passes applied after ih =>
    refine .tail (ih fun entry listed =>
      apart entry (mem_cons_of_mem _ listed)) ?_
    obtain ⟨accepts, rfl⟩ := applies _ _ _ applied
    exact ⟨_, ⟨_, apart _ mem_cons_self foreign, after.2 _ mem_cons_self⟩,
      before.1, accepts, passes, after.1, rfl⟩

theorem safe_of_works (applies : CommitsBatches system) {born : List (Entry Call (Labelled Label))}
    {committed : List (Labelled Label)} {post : Answer → Store → List Label → Prop}
    {program : StoreProgram Label Answer}
    (works : Works check inv (Others system batches call) (batches call) post program seen (labels
      past)) :
    system.Safe (Checks check) (Holds inv batches) index call born
      (fun seen past answer _ => post answer seen (labels past)) program committed seen past := by
  induction program generalizing seen past committed with
  | ret answer => exact works
  | read next ih =>
    intro store history held view later
    apply ih
    exact works store _ held.1 (moved_of_later applies later view.apart)
  | commit payload next ih =>
    intro store history held view later
    obtain ⟨succeeds, fails⟩ :=
      works.2 store _ held.1 (moved_of_later applies later view.apart)
    cases applied : system.apply payload store with
    | error fault => exact ih _ (fails fault)
    | ok changed =>
      intro passes
      obtain ⟨accepts, rfl⟩ := applies _ _ _ applied
      obtain ⟨keeps, goesOn⟩ := succeeds accepts passes
      refine ⟨⟨keeps, ?_⟩, ih _ goesOn⟩
      intro entry listed
      rcases mem_cons.mp listed with rfl | earlier
      · exact works.1
      · exact held.2 entry earlier

variable {initial : Store} {schedule : List (Action Call)}

/-- In every run whose commits pass the check, the invariant holds, every commit is of its
call's kind, and what a thread that has ended promises, of what was committed before it
began, was so at its end and has been moved by others only since. -/
theorem run_of_works_since (applies : CommitsBatches system)
    (batches : Call → Labelled Label → Prop)
    (post : Call → List Label → Answer → Store → List Label → Prop)
    (works : ∀ call seen done, inv seen done → system.legal call → Works check inv (Others system
      batches call) (batches call) (post call done) (system.body call) seen done)
    (initially : inv initial []) (distinct : system.Distinct (system.run initial schedule))
    (meets : system.Meets (Checks check) (System.start initial) schedule) :
    let world := system.run initial schedule
    Holds inv batches world.state world.history ∧
      ∀ (index : Nat) (thread : Thread Call Store (Labelled Label) Fault Answer) (answer : Answer),
        world.threads[index]? = some thread → thread.program = .ret answer →
        thread.born <:+ world.history ∧
        ∃ seen past, ReflTransGen (Moves check inv (Others system batches thread.call))
            (seen, past) (world.state, labels world.history) ∧
          post thread.call (labels thread.born) answer seen past := by
  intro world
  have sound := System.sound_run system (Holds inv batches)
    (fun _ call born seen past answer _ => post call (labels born) answer seen (labels past))
    ⟨initially, by simp⟩ ?_ schedule distinct meets
  · refine ⟨sound.holds, ?_⟩
    intro index thread answer found ended
    obtain ⟨seen, past, later, promised⟩ := sound.answered found ended
    have view := sound.view index thread found
    exact ⟨view.grows, seen, labels past, moved_of_later applies later view.apart, promised⟩
  · intro index call born store held legal _
    exact safe_of_works applies (works call store _ held.1 legal)

/-- In every run whose commits pass the check, the invariant holds, and what a thread that
has ended promises was so at its end and has been moved by others only since. -/
theorem run_of_works (applies : CommitsBatches system) (batches : Call → Labelled Label → Prop)
    (post : Call → Answer → Store → List Label → Prop)
    (works : ∀ call seen done, inv seen done → system.legal call → Works check inv (Others system
      batches call) (batches call) (post call) (system.body call) seen done)
    (initially : inv initial []) (distinct : system.Distinct (system.run initial schedule))
    (meets : system.Meets (Checks check) (System.start initial) schedule) :
    let world := system.run initial schedule
    inv world.state (labels world.history) ∧
      ∀ (index : Nat) (thread : Thread Call Store (Labelled Label) Fault Answer) (answer : Answer),
        world.threads[index]? = some thread → thread.program = .ret answer →
        ∃ seen past, ReflTransGen (Moves check inv (Others system batches thread.call))
            (seen, past) (world.state, labels world.history) ∧
          post thread.call answer seen past := by
  obtain ⟨holds, ended⟩ := run_of_works_since applies batches (fun call _ => post call) works
    initially distinct meets
  exact ⟨holds.1, fun index thread answer found isEnd => (ended index thread answer found isEnd).2⟩

end Runs

end Remem.Storage
