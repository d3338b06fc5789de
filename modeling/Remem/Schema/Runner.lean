import Remem.Schema.Plan
import Remem.Time

/-!
# Running migrations

The runner takes the steps of a plan in order. What a step has done lives in three places: the
data, the row of the step with its cursor, and the manifest. A process may stop between any two
commits, and the next one plans again from the manifest it finds.
-/

namespace Remem.Schema

open Base List Function

section Replanning

variable {target state : Versions} {migration : Migration}

def Steady : Versions → List Migration → Prop
  | _, [] => True
  | state, next :: rest =>
    (∀ name, state name ≤ advance state next name) ∧ Steady (advance state next) rest

def Reached (state : Versions) (migration : Migration) : Prop :=
  ∀ entry ∈ migration.advances.entries, entry.2 ≤ state entry.1

theorem Reached.not_applies (reached : Reached state migration) :
    applies migration state target = false := by
  rw [Bool.eq_false_iff]
  intro runs
  obtain ⟨entry, listed, below⟩ := (applies_iff.mp runs).2.2
  exact absurd (reached entry listed) (Nat.not_le.mpr below)

variable {later : Versions}

theorem Reached.mono (reached : Reached state migration) (above : ∀ name, state name ≤ later name) :
    Reached later migration :=
  fun entry listed => (reached entry listed).trans (above entry.1)

theorem reached_advance (state : Versions) (migration : Migration) :
    Reached (advance state migration) migration := by
  intro entry listed
  rw [advance, migration.advances.lookup_of_mem listed]
  exact le_refl _

theorem after_append (state : Versions) (first second : List Migration) :
    after state (first ++ second) = after (after state first) second := foldl_append

theorem Steady.le {steps : List Migration} (steady : Steady state steps) (name : String) :
    state name ≤ after state steps name := by
  induction steps generalizing state with
  | nil => exact le_refl _
  | cons next rest ih =>
    exact (steady.1 name).trans (ih steady.2)

theorem Steady.append {first second : List Migration} (steady : Steady state (first ++ second)) :
    Steady state first ∧ Steady (after state first) second := by
  induction first generalizing state with
  | nil => exact ⟨trivial, steady⟩
  | cons next rest ih =>
    obtain ⟨early, late⟩ := ih steady.2
    exact ⟨⟨steady.1, early⟩, late⟩

variable {fuel : Nat} {remaining : List Migration}

theorem planLoop_succ (enough : remaining.length ≤ fuel) (state : Versions) :
    planLoop target (fuel + 1) remaining state = planLoop target fuel remaining state := by
  induction fuel generalizing remaining state with
  | zero =>
    rw [length_eq_zero_iff.mp (Nat.le_zero.mp enough)]
    rfl
  | succ fuel ih =>
    rw [planLoop]
    conv_rhs => rw [planLoop]
    cases found : remaining.find? (applies · state target) with
    | none => rfl
    | some next =>
      have lengths := (perm_of_find? found).length_eq
      rw [length_cons] at lengths
      dsimp only
      rw [ih (by omega)]

theorem eraseP_around {Element : Type} {holds : Element → Bool} {element : Element}
    (passed : holds element = false) (before later : List Element) :
    ∃ first second, (before ++ element :: later).eraseP holds = first ++ element :: second ∧
      (before ++ later).eraseP holds = first ++ second := by
  by_cases early : ∃ other ∈ before, holds other = true
  · obtain ⟨other, isOther, sought⟩ := early
    exact ⟨before.eraseP holds, later, eraseP_append_left sought _ isOther,
      eraseP_append_left sought _ isOther⟩
  have skipped : ∀ other ∈ before, ¬ holds other = true :=
    fun other isOther sought => early ⟨other, isOther, sought⟩
  refine ⟨before, later.eraseP holds, ?_, eraseP_append_right _ skipped⟩
  rw [eraseP_append_right _ skipped, eraseP_cons_of_neg (by simp [passed])]

theorem planLoop_pass {before later : List Migration} (reached : Reached state migration)
    (steady : Steady state (planLoop target fuel (before ++ later) state).1) :
    planLoop target fuel (before ++ migration :: later) state =
      planLoop target fuel (before ++ later) state := by
  induction fuel generalizing before later state with
  | zero => rfl
  | succ fuel ih =>
    have idle : applies migration state target = false := reached.not_applies
    have same : (before ++ migration :: later).find? (applies · state target) =
        (before ++ later).find? (applies · state target) := by
      simp [find?_append, idle]
    rw [planLoop, same]
    conv_rhs => rw [planLoop]
    rw [planLoop] at steady
    cases found : (before ++ later).find? (applies · state target) with
    | none => rfl
    | some next =>
      rw [found] at steady
      dsimp only at steady ⊢
      have still := reached.mono steady.1
      obtain ⟨first, second, without, around⟩ :=
        @eraseP_around Migration (applies · state target) migration idle before later
      rw [around] at steady
      rw [without, around, ih still steady.2]

variable {rest : List Migration} {final : Versions}

theorem planLoop_again {next : Migration}
    (planned : planLoop target remaining.length remaining state = (next :: rest, final))
    (steady : Steady state (next :: rest)) :
    planLoop target remaining.length remaining (advance state next) = (rest, final) := by
  cases size : remaining.length with
  | zero =>
    rw [size] at planned
    cases planned
  | succ fuel =>
    rw [size, planLoop] at planned
    cases found : remaining.find? (applies · state target) with
    | none =>
      rw [found] at planned
      cases planned
    | some first =>
      rw [found] at planned
      dsimp only at planned
      obtain ⟨isNext, before, later, rfl, skipped⟩ := find?_eq_some_iff_append.mp found
      have erased : (before ++ first :: later).eraseP (applies · state target) =
          before ++ later := by
        rw [eraseP_append_right _ (by simpa using skipped), eraseP_cons, isNext]
        rfl
      rw [erased] at planned
      obtain ⟨rfl, isRest⟩ := List.cons.inj (congrArg Prod.fst planned)
      have isFinal := congrArg Prod.snd planned
      dsimp only at isFinal
      have short : (before ++ later).length ≤ fuel := by
        simp only [length_append, length_cons] at size ⊢
        omega
      rw [planLoop_pass (reached_advance state first), planLoop_succ short, ← isRest, ← isFinal]
      rw [planLoop_succ short, isRest]
      exact steady.2

variable {steps : List Migration}

theorem planLoop_suffix
    (planned : planLoop target remaining.length remaining state = (steps ++ rest, final))
    (steady : Steady state (steps ++ rest)) :
    planLoop target remaining.length remaining (after state steps) = (rest, final) := by
  induction steps generalizing state with
  | nil => exact planned
  | cons next steps ih =>
    exact ih (planLoop_again planned steady) steady.2

theorem Registry.plan_suffix {registry : Registry} {manifest goal : Versions}
    (planned : registry.plan manifest goal = .ok (steps ++ rest))
    (steady : Steady (known manifest) (steps ++ rest))
    (reached : known later = after (known manifest) steps) :
    registry.plan later goal = .ok rest := by
  unfold Registry.plan at planned ⊢
  dsimp only at planned ⊢
  split at planned
  · cases planned
  next enough =>
  have whole := Except.ok.inj planned
  have suffix := planLoop_suffix
    (Prod.ext whole rfl : planLoop (known goal) registry.sorted.length registry.sorted
      (known manifest) = (steps ++ rest, _)) steady
  rw [reached, suffix]
  dsimp only
  rw [enough]

end Replanning

structure Subsystem where
  current : Nat
  minReader : Nat
  minWriter : Nat

/-- `Format`: the manifest. -/
abbrev Manifest := String → Option Subsystem

/-- `currentVersions`; a format that is absent is at zero. -/
def currentVersions (format : Manifest) : Versions :=
  fun name => ((format name).map Subsystem.current).getD 0

/-- `State`, as it is ever persisted. -/
inductive Standing where
  | pending
  | running
  | done
  | failed
  deriving DecidableEq

structure MigrationState where
  id : Bytes
  source : Versions
  target : Versions
  standing : Standing
  cursor : Bytes := []
  processed : UInt64 := 0
  startedAt : Time
  lastProgressAt : Time
  error : Bytes := []

/-- The body of a step: it walks its items in a fixed order, and its cursor says how many of
them are behind it. -/
structure Walk where
  size : Nat
  cursor : Nat → Bytes
  position : Bytes → Nat
  small : size < 2 ^ 64
  position_nil : position [] = 0
  position_cursor : ∀ count ≤ size, position (cursor count) = count

/-- What is committed. The data are known by the items that checkpoints have covered, in the
order of their commits. -/
structure Disk where
  manifest : Manifest
  states : Bytes → Option MigrationState
  covered : List (Bytes × Nat) := []

/-- Where a process is in `Run`: between two steps, or in the body of one. `format` and `state`
are what it keeps in memory. -/
inductive Phase where
  | idle
  | between (plan : List Migration) (format : Manifest)
  | walking (migration : Migration) (state : MigrationState) (position : Nat) (done : UInt64)
      (rest : List Migration) (format : Manifest)

structure World where
  disk : Disk
  phase : Phase := .idle

structure Runner where
  registry : Registry
  target : Versions
  walks : Bytes → Walk

/-- What can happen next. A process that stops, and a call that returns an error without a
commit, is a `crash`. -/
inductive Event where
  | start
  | next (now : Time)
  | checkpoint (items : Nat) (now : Time)
  | fail (error : Bytes) (now : Time) (written : Bool)
  | finish (now : Time)
  | crash

def begin (found : Option MigrationState) (migration : Migration) (format : Manifest) (now : Time) :
    MigrationState :=
  let fresh : MigrationState :=
    { id := migration.id
      source := currentVersions format
      target := advance (currentVersions format) migration
      standing := .running
      startedAt := now
      lastProgressAt := now }
  match found with
  | none => fresh
  | some state =>
    if state.standing = .running ∨ state.standing = .failed then
      { state with standing := .running, error := [], lastProgressAt := now }
    else fresh

/-- `WriteState` and `StageState`. -/
def Disk.put (disk : Disk) (id : Bytes) (state : MigrationState) : Disk :=
  { disk with states := Function.update disk.states id (some state) }

def advanceManifest (format : Manifest) (migration : Migration) : Manifest :=
  fun name => match migration.advances.entries.lookup name with
    | some version => some ⟨version, version, version⟩
    | none => format name

namespace Runner

variable (runner : Runner)

/-- One event: at most one commit. -/
def step (world : World) : Event → World
  | .start =>
    match world.phase with
    | .idle =>
      match runner.registry.plan (currentVersions world.disk.manifest) runner.target with
      | .error _ => world
      | .ok plan => { world with phase := .between plan world.disk.manifest }
    | _ => world
  | .next now =>
    match world.phase with
    | .between (migration :: rest) format =>
      let found := world.disk.states migration.id
      if found.map MigrationState.standing = some .done then
        { world with phase := .between rest format }
      else
        let state := begin found migration format now
        ⟨world.disk.put migration.id state, .walking migration state
          ((runner.walks migration.id).position state.cursor) state.processed rest format⟩
    | _ => world
  | .checkpoint items now =>
    match world.phase with
    | .walking migration state position done rest format =>
      let walk := runner.walks migration.id
      if position + items ≤ walk.size then
        let next := { state with
          cursor := walk.cursor (position + items)
          processed := done + items.toUInt64
          standing := .running
          lastProgressAt := now }
        let disk := world.disk.put migration.id next
        ⟨{ disk with covered := disk.covered ++
            (List.range' position items).map fun item => (migration.id, item) },
          .walking migration next (position + items) (done + items.toUInt64) rest format⟩
      else world
    | _ => world
  | .fail error now written =>
    match world.phase with
    | .walking migration state _ _ _ _ =>
      let failed := { state with standing := .failed, error, lastProgressAt := now }
      ⟨if written then world.disk.put migration.id failed else world.disk, .idle⟩
    | _ => world
  | .finish now =>
    match world.phase with
    | .walking migration state position _ rest format =>
      if position = (runner.walks migration.id).size then
        let done := { state with standing := .done, error := [], lastProgressAt := now }
        let manifest := advanceManifest format migration
        ⟨{ world.disk.put migration.id done with manifest }, .between rest manifest⟩
      else world
    | _ => world
  | .crash => { world with phase := .idle }

def run (world : World) (events : List Event) : World := events.foldl runner.step world

end Runner

def Disk.coveredOf (disk : Disk) (id : Bytes) : List Nat :=
  (disk.covered.filter fun entry => entry.1 = id).map Prod.snd

def Disk.IsDone (disk : Disk) (migration : Migration) : Prop :=
  (disk.states migration.id).map MigrationState.standing = some .done

/-- The step has covered its first items, each once, and its row says so. -/
structure Stands (walk : Walk) (disk : Disk) (id : Bytes) (count : Nat) : Prop where
  within : count ≤ walk.size
  covered : disk.coveredOf id = List.range count
  fresh : disk.states id = none → count = 0
  counted : ∀ state, disk.states id = some state →
    state.processed.toNat = count ∧ walk.position state.cursor = count

def Open (disk : Disk) (id : Bytes) : Prop :=
  ∀ state, disk.states id = some state → state.standing = .running ∨ state.standing = .failed

variable {runner : Runner} {disk : Disk} {origin : Versions} {original : List Migration}

theorem Stands.congr {walk : Walk} {other : Disk} {id : Bytes} {count : Nat}
    (stands : Stands walk disk id count) (states : other.states id = disk.states id)
    (covered : other.coveredOf id = disk.coveredOf id) : Stands walk other id count where
  within := stands.within
  covered := covered.trans stands.covered
  fresh absent := stands.fresh (states ▸ absent)
  counted state found := stands.counted state (states ▸ found)

/-- The steps of the plan up to where the manifest has come, and those that are left. -/
structure Split (runner : Runner) (origin : Versions) (disk : Disk) (finished left : List Migration) :
    Prop where
  manifest : known (currentVersions disk.manifest) = after origin finished
  done : ∀ migration ∈ finished, disk.IsDone migration ∧
    Stands (runner.walks migration.id) disk migration.id (runner.walks migration.id).size
  opens : ∀ migration ∈ left, Open disk migration.id ∧
    ∃ count, Stands (runner.walks migration.id) disk migration.id count

def Phase.Follows (disk : Disk) (walks : Bytes → Walk) (left : List Migration) : Phase → Prop
  | .idle => True
  | .between plan format => plan = left ∧ format = disk.manifest
  | .walking migration state position done rest format =>
    left = migration :: rest ∧ format = disk.manifest ∧
      disk.states migration.id = some state ∧ state.standing = .running ∧
      position = (walks migration.id).position state.cursor ∧ done = state.processed

def Exact (runner : Runner) (origin : Versions) (original : List Migration) (world : World) : Prop :=
  ∃ finished left, original = finished ++ left ∧ Split runner origin world.disk finished left ∧
    world.phase.Follows world.disk runner.walks left

/-- The plan that is made of a manifest at first, and what is known of its steps. -/
structure Planned (runner : Runner) (manifest : Versions) (original : List Migration) : Prop where
  planned : runner.registry.plan manifest runner.target = .ok original
  steady : Steady (known manifest) original
  distinct : (original.map Migration.id).Nodup
  formats : ∀ migration ∈ original, ∀ entry ∈ migration.advances.entries, entry.1 ∈ formatNames

section Steps

variable {manifest : Versions} {finished rest : List Migration} {migration : Migration}
  {other : Disk}

def Disk.Touches (disk other : Disk) (id : Bytes) : Prop :=
  ∀ another ≠ id, other.states another = disk.states another ∧
    other.coveredOf another = disk.coveredOf another

theorem Disk.touches_put (disk : Disk) (id : Bytes) (state : MigrationState) :
    disk.Touches (disk.put id state) id :=
  fun _ apart => ⟨update_of_ne apart _ _, rfl⟩

theorem Disk.put_states (disk : Disk) (id : Bytes) (state : MigrationState) :
    (disk.put id state).states id = some state := update_self ..

theorem Split.around (distinct : ((finished ++ migration :: rest).map Migration.id).Nodup)
    (split : Split runner origin disk finished (migration :: rest))
    (touches : disk.Touches other migration.id) :
    (∀ before ∈ finished, other.IsDone before ∧
      Stands (runner.walks before.id) other before.id (runner.walks before.id).size) ∧
    ∀ later ∈ rest, Open other later.id ∧
      ∃ count, Stands (runner.walks later.id) other later.id count := by
  rw [map_append, map_cons, nodup_append] at distinct
  obtain ⟨_, laterDistinct, apart⟩ := distinct
  constructor
  · intro before listed
    have differs : before.id ≠ migration.id :=
      apart _ (mem_map_of_mem listed) _ mem_cons_self
    obtain ⟨states, covered⟩ := touches before.id differs
    obtain ⟨isDone, stands⟩ := split.done before listed
    exact ⟨by rwa [Disk.IsDone, states], stands.congr states covered⟩
  · intro later listed
    have differs : later.id ≠ migration.id := by
      intro same
      exact (nodup_cons.mp laterDistinct).1 (same ▸ mem_map_of_mem listed)
    obtain ⟨states, covered⟩ := touches later.id differs
    obtain ⟨opens, count, stands⟩ := split.opens later (mem_cons_of_mem _ listed)
    exact ⟨fun state found => opens state (states ▸ found), count, stands.congr states covered⟩

variable {count : Nat}

theorem Split.touch (distinct : ((finished ++ migration :: rest).map Migration.id).Nodup)
    (split : Split runner origin disk finished (migration :: rest))
    (touches : disk.Touches other migration.id) (sameManifest : other.manifest = disk.manifest)
    (opens : Open other migration.id)
    (stands : Stands (runner.walks migration.id) other migration.id count) :
    Split runner origin other finished (migration :: rest) := by
  obtain ⟨done, later⟩ := split.around distinct touches
  refine ⟨sameManifest ▸ split.manifest, done, fun step listed => ?_⟩
  rcases mem_cons.mp listed with rfl | isLater
  · exact ⟨opens, count, stands⟩
  · exact later step isLater

theorem Split.finish (distinct : ((finished ++ migration :: rest).map Migration.id).Nodup)
    (split : Split runner origin disk finished (migration :: rest))
    (touches : disk.Touches other migration.id)
    (advances : known (currentVersions other.manifest) =
      advance (known (currentVersions disk.manifest)) migration)
    (isDone : other.IsDone migration)
    (stands : Stands (runner.walks migration.id) other migration.id
      (runner.walks migration.id).size) :
    Split runner origin other (finished ++ [migration]) rest := by
  obtain ⟨done, later⟩ := split.around distinct touches
  refine ⟨?_, fun step listed => ?_, later⟩
  · rw [advances, split.manifest, after_append]
    rfl
  · rcases mem_append.mp listed with earlier | isLast
    · exact done step earlier
    · rw [mem_singleton.mp isLast]
      exact ⟨isDone, stands⟩

theorem known_advanceManifest
    (formats : ∀ entry ∈ migration.advances.entries, entry.1 ∈ formatNames) (format : Manifest) :
    known (currentVersions (advanceManifest format migration)) =
      advance (known (currentVersions format)) migration := by
  funext name
  unfold known currentVersions advanceManifest advance
  cases found : migration.advances.entries.lookup name with
  | none => rfl
  | some version =>
    obtain ⟨before, later, split, _⟩ := lookup_eq_some_iff.mp found
    have isFormat : name ∈ formatNames := formats (name, version) (by simp [split])
    rw [if_pos isFormat]
    rfl

theorem begin_spec {found : Option MigrationState}
    (opens : ∀ state, found = some state → state.standing = .running ∨ state.standing = .failed)
    (migration : Migration) (format : Manifest) (now : Time) :
    (begin found migration format now).standing = .running ∧
      (begin found migration format now).cursor = (found.map MigrationState.cursor).getD [] ∧
      (begin found migration format now).processed =
        (found.map MigrationState.processed).getD 0 := by
  unfold begin
  cases found with
  | none => exact ⟨rfl, rfl, rfl⟩
  | some state =>
    dsimp only
    rw [if_pos (opens state rfl)]
    exact ⟨rfl, rfl, rfl⟩

variable {walk : Walk} {id : Bytes}

theorem Stands.put (stands : Stands walk disk id count) (state : MigrationState)
    (processed : state.processed.toNat = count) (position : walk.position state.cursor = count) :
    Stands walk (disk.put id state) id count where
  within := stands.within
  covered := stands.covered
  fresh absent := by
    rw [Disk.put_states] at absent
    cases absent
  counted found isFound := by
    rw [Disk.put_states] at isFound
    cases isFound
    exact ⟨processed, position⟩

variable {state : MigrationState}

theorem open_put (standing : state.standing = .running ∨ state.standing = .failed) :
    Open (disk.put id state) id := by
  intro found isFound
  rw [Disk.put_states] at isFound
  cases isFound
  exact standing

theorem coveredOf_append (disk : Disk) (id another : Bytes) (items : List Nat) :
    ({ disk with covered := disk.covered ++ items.map fun item => (id, item) } : Disk).coveredOf
      another = disk.coveredOf another ++ if id = another then items else [] := by
  unfold Disk.coveredOf
  rw [filter_append, map_append]
  congr 1
  split
  · next same =>
    rw [filter_eq_self.mpr fun entry listed => ?_, map_map]
    · exact map_id _
    · obtain ⟨item, _, rfl⟩ := mem_map.mp listed
      exact decide_eq_true same
  next apart =>
  rw [filter_eq_nil_iff.mpr fun entry listed => ?_]
  · rfl
  · obtain ⟨item, _, rfl⟩ := mem_map.mp listed
    simpa using apart

theorem checkpoint_stands (stands : Stands walk disk id (walk.position state.cursor)) {items : Nat}
    (within : walk.position state.cursor + items ≤ walk.size) (isRow : disk.states id = some state)
    (next : MigrationState)
    (cursor : next.cursor = walk.cursor (walk.position state.cursor + items))
    (processed : next.processed = state.processed + items.toUInt64) :
    Stands walk { disk.put id next with covered := (disk.put id next).covered ++
        (List.range' (walk.position state.cursor) items).map fun item => (id, item) } id
      (walk.position state.cursor + items) := by
  obtain ⟨counted, _⟩ := stands.counted state isRow
  have small := walk.small
  refine ⟨within, ?_, fun absent => ?_, fun found isFound => ?_⟩
  · rw [coveredOf_append, if_pos rfl]
    change disk.coveredOf id ++ _ = _
    have joins := @List.range'_append_1 0 (walk.position state.cursor) items
    rw [Nat.zero_add] at joins
    rw [stands.covered, range_eq_range', range_eq_range', joins]
  · change (disk.put id next).states id = none at absent
    rw [Disk.put_states] at absent
    cases absent
  · change (disk.put id next).states id = some found at isFound
    rw [Disk.put_states] at isFound
    cases isFound
    refine ⟨?_, by rw [cursor, walk.position_cursor _ within]⟩
    rw [processed, UInt64.toNat_add, counted]
    have fits : items.toUInt64.toNat = items := by
      simpa using Nat.mod_eq_of_lt (show items < 2 ^ 64 by omega)
    rw [fits, Nat.mod_eq_of_lt (by omega)]

variable {world : World}

theorem Open.not_done (opens : Open disk migration.id) : ¬ disk.IsDone migration := by
  intro isDone
  obtain ⟨state, found, standing⟩ := Option.map_eq_some_iff.mp isDone
  rcases opens state found with running | failed
  · cases running.symm.trans standing
  · cases failed.symm.trans standing

/-- Every event keeps the steps where their rows and the manifest say they are. -/
theorem Exact.step (planned : Planned runner manifest original)
    (exact : Exact runner (known manifest) original world) (event : Event) :
    Exact runner (known manifest) original (runner.step world event) := by
  obtain ⟨finished, left, isSplit, split, follows⟩ := exact
  have distinct := planned.distinct
  rw [isSplit] at distinct
  cases event with
  | crash => exact ⟨finished, left, isSplit, split, trivial⟩
  | start =>
    unfold Runner.step
    dsimp only
    split
    · have steady := planned.steady
      have isPlan := planned.planned
      rw [isSplit] at steady isPlan
      rw [Registry.plan_suffix isPlan steady split.manifest]
      exact ⟨finished, left, isSplit, split, rfl, rfl⟩
    · exact ⟨finished, left, isSplit, split, follows⟩
  | next now =>
    unfold Runner.step
    dsimp only
    split
    · next migration rest format isPhase =>
      rw [isPhase] at follows
      obtain ⟨rfl, rfl⟩ := follows
      obtain ⟨opens, count, stands⟩ := split.opens migration mem_cons_self
      rw [if_neg fun isDone => ?_]
      · obtain ⟨standing, cursor, processed⟩ := begin_spec opens migration world.disk.manifest now
        have atCount : (begin (world.disk.states migration.id) migration world.disk.manifest
            now).processed.toNat = count ∧
            (runner.walks migration.id).position (begin (world.disk.states migration.id)
              migration world.disk.manifest now).cursor = count := by
          rw [cursor, processed]
          cases found : world.disk.states migration.id with
          | none =>
            rw [stands.fresh found]
            exact ⟨rfl, (runner.walks migration.id).position_nil⟩
          | some state => exact stands.counted state found
        refine ⟨finished, _, isSplit, split.touch distinct (Disk.touches_put _ _ _) rfl
          (open_put (.inl standing)) (stands.put _ atCount.1 atCount.2), rfl, rfl,
          Disk.put_states _ _ _, standing, rfl, rfl⟩
      · exact Open.not_done opens isDone
    · exact ⟨finished, left, isSplit, split, follows⟩
  | checkpoint items now =>
    unfold Runner.step
    dsimp only
    split
    · next migration state position done rest format isPhase =>
      split
      · next within =>
        rw [isPhase] at follows
        obtain ⟨rfl, rfl, isRow, standing, rfl, rfl⟩ := follows
        obtain ⟨_, count, stands⟩ := split.opens migration mem_cons_self
        have atCount := (stands.counted state isRow).2
        subst atCount
        let next := { state with
          cursor := (runner.walks migration.id).cursor
            ((runner.walks migration.id).position state.cursor + items)
          processed := state.processed + items.toUInt64
          standing := .running
          lastProgressAt := now }
        have covers := checkpoint_stands stands within isRow next rfl rfl
        refine ⟨finished, _, isSplit, split.touch distinct (fun another apart => ?_) rfl
          (open_put (.inl rfl)) covers, rfl, rfl, Disk.put_states _ _ _, rfl,
          ((runner.walks migration.id).position_cursor _ within).symm, rfl⟩
        refine ⟨(Disk.touches_put _ _ _ another apart).1, ?_⟩
        rw [coveredOf_append, if_neg apart.symm, append_nil]
        rfl
      · exact ⟨finished, left, isSplit, split, follows⟩
    · exact ⟨finished, left, isSplit, split, follows⟩
  | fail error now written =>
    unfold Runner.step
    dsimp only
    split
    · next migration state position done rest format isPhase =>
      rw [isPhase] at follows
      obtain ⟨rfl, rfl, isRow, standing, rfl, rfl⟩ := follows
      obtain ⟨_, count, stands⟩ := split.opens migration mem_cons_self
      obtain ⟨counted, position⟩ := stands.counted state isRow
      cases written with
      | false => exact ⟨finished, _, isSplit, split, trivial⟩
      | true =>
        exact ⟨finished, _, isSplit, split.touch distinct (Disk.touches_put _ _ _) rfl
          (open_put (.inr rfl)) (stands.put _ counted position), trivial⟩
    · exact ⟨finished, left, isSplit, split, follows⟩
  | finish now =>
    unfold Runner.step
    dsimp only
    split
    · next migration state position done rest format isPhase =>
      split
      · next atEnd =>
        rw [isPhase] at follows
        obtain ⟨rfl, rfl, isRow, standing, rfl, rfl⟩ := follows
        obtain ⟨_, count, stands⟩ := split.opens migration mem_cons_self
        obtain ⟨counted, position⟩ := stands.counted state isRow
        have whole : count = (runner.walks migration.id).size := position.symm.trans atEnd
        subst whole
        have isStep : migration ∈ original := by
          rw [isSplit]
          simp
        refine ⟨finished ++ [migration], rest, by rw [isSplit, append_assoc]; rfl,
          split.finish distinct (fun another apart => ?_)
            (known_advanceManifest (planned.formats migration isStep) _) ?_ ?_, rfl, rfl⟩
        · exact Disk.touches_put _ _ _ another apart
        · change ((world.disk.put migration.id _).states migration.id).map _ = _
          rw [Disk.put_states]
          rfl
        · let done := { state with standing := .done, error := [], lastProgressAt := now }
          exact (stands.put done counted position).congr rfl rfl
      · exact ⟨finished, left, isSplit, split, follows⟩
    · exact ⟨finished, left, isSplit, split, follows⟩

theorem Exact.run (planned : Planned runner manifest original) (events : List Event)
    (exact : Exact runner (known manifest) original world) :
    Exact runner (known manifest) original (runner.run world events) := by
  induction events generalizing world with
  | nil => exact exact
  | cons event events ih => exact ih (exact.step planned event)

/-- Neither a stop nor an error. -/
def Event.smooth : Event → Bool
  | .fail _ _ _ | .crash => false
  | _ => true

variable {plan : List Migration} {format : Manifest}

/-- A step that is next is begun. -/
theorem phase_next (isPhase : world.phase = .between (migration :: rest) format)
    (opens : ¬ world.disk.IsDone migration) (now : Time) : ∃ state position done,
    (runner.step world (.next now)).phase = .walking migration state position done rest format := by
  unfold Disk.IsDone at opens
  simp only [Runner.step, isPhase, if_neg opens]
  exact ⟨_, _, _, rfl⟩

/-- What is left of a step's items is covered by one checkpoint, and the step is finished. -/
theorem phase_finish {state : MigrationState} {position : Nat} {done : UInt64}
    (isPhase : world.phase = .walking migration state position done rest format)
    (within : position ≤ (runner.walks migration.id).size) (now : Time) : ∃ manifest,
    (runner.run world [.checkpoint ((runner.walks migration.id).size - position) now,
      .finish now]).phase = .between rest manifest := by
  have whole : position + ((runner.walks migration.id).size - position) =
      (runner.walks migration.id).size := Nat.add_sub_of_le within
  simp only [Runner.run, List.foldl_cons, List.foldl_nil, Runner.step, isPhase, whole, le_refl,
    if_true]
  exact ⟨_, rfl⟩

theorem Exact.completes (planned : Planned runner manifest original)
    (exact : Exact runner (known manifest) original world)
    (isPhase : world.phase = .between plan format) :
    ∃ more, (∀ event ∈ more, event.smooth = true) ∧
      ∃ manifest, (runner.run world more).phase = .between [] manifest := by
  induction plan generalizing world format with
  | nil => exact ⟨[], nofun, format, isPhase⟩
  | cons migration rest ih =>
    have opens : ¬ world.disk.IsDone migration := by
      obtain ⟨finished, left, _, split, follows⟩ := exact
      rw [isPhase] at follows
      obtain ⟨rfl, _⟩ := follows
      exact (split.opens migration mem_cons_self).1.not_done
    obtain ⟨state, position, done, walks⟩ := @phase_next runner _ _ _ _ isPhase opens 0
    have begun := exact.step planned (.next 0)
    have within : position ≤ (runner.walks migration.id).size := by
      obtain ⟨finished, left, _, split, follows⟩ := begun
      rw [walks] at follows
      obtain ⟨rfl, _, isRow, _, rfl, _⟩ := follows
      obtain ⟨_, count, stands⟩ := split.opens migration mem_cons_self
      rw [(stands.counted state isRow).2]
      exact stands.within
    obtain ⟨later, finishes⟩ := phase_finish walks within 0
    obtain ⟨more, smooth, ends⟩ := ih (begun.run planned _) finishes
    refine ⟨.next 0 :: .checkpoint ((runner.walks migration.id).size - position) 0 ::
      .finish 0 :: more, ?_, ends⟩
    simpa [Event.smooth] using smooth

theorem Exact.restarts (planned : Planned runner manifest original)
    (exact : Exact runner (known manifest) original world) : ∃ plan format,
    (runner.run world [.crash, .start]).phase = .between plan format := by
  obtain ⟨finished, left, isSplit, split, _⟩ := exact
  have steady := planned.steady
  have isPlan := planned.planned
  rw [isSplit] at steady isPlan
  refine ⟨left, world.disk.manifest, ?_⟩
  simp only [Runner.run, List.foldl_cons, List.foldl_nil, Runner.step,
    Registry.plan_suffix isPlan steady split.manifest]

theorem Planned.runnable (planned : Planned runner manifest original) :
    Runnable (known runner.target) (known manifest) original := by
  have isPlan := planned.planned
  unfold Registry.plan at isPlan
  dsimp only at isPlan
  split at isPlan
  · cases isPlan
  · cases isPlan
    exact (planLoop_spec (le_refl _)).1

variable {left : List Migration}

theorem Split.not_reached (planned : Planned runner manifest original)
    (isSplit : original = finished ++ left)
    (split : Split runner (known manifest) disk finished left) (listed : migration ∈ left) :
    ¬ Reached (known (currentVersions disk.manifest)) migration := by
  intro reached
  obtain ⟨before, later, rfl⟩ := append_of_mem listed
  have runnable := planned.runnable
  have steady := planned.steady
  rw [isSplit] at runnable steady
  have rises := (steady.append.2).append.1.le
  rw [← append_assoc] at runnable
  have applies := runnable.applies_at
  rw [after_append] at applies
  rw [split.manifest] at reached
  rw [(reached.mono rises).not_applies] at applies
  cases applies

theorem Split.reached (planned : Planned runner manifest original)
    (isSplit : original = finished ++ left)
    (split : Split runner (known manifest) disk finished left) (listed : migration ∈ finished) :
    Reached (known (currentVersions disk.manifest)) migration := by
  obtain ⟨before, later, rfl⟩ := append_of_mem listed
  have steady := planned.steady
  rw [isSplit] at steady
  have rises := (steady.append.1).append.2.2.le
  rw [split.manifest, after_append]
  exact (reached_advance (after (known manifest) before) migration).mono rises

theorem reached_known (formats : ∀ entry ∈ migration.advances.entries, entry.1 ∈ formatNames)
    (versions : Versions) : Reached (known versions) migration ↔ Reached versions migration := by
  unfold Reached
  refine forall₂_congr fun entry listed => ?_
  rw [known, if_pos (formats entry listed)]

end Steps

section Accepted

variable {supported : Versions} {manifest : Versions}

theorem Registry.plan_sublist {registry : Registry} {target : Versions} {plan : List Migration}
    (planned : registry.plan manifest target = .ok plan) :
    ∃ left, (plan ++ left).Perm registry.migrations := by
  unfold Registry.plan at planned
  dsimp only at planned
  split at planned
  · cases planned
  cases planned
  obtain ⟨_, _, left, permuted, _⟩ :=
    @planLoop_spec (known target) (known manifest) _ registry.sorted (le_refl _)
  exact ⟨left, permuted.trans (perm_insertionSort _ _)⟩

theorem planned_of_accepted {runner : Runner} {migrations : List Migration}
    (accepted : newRegistry supported migrations = .ok runner.registry) {original : List Migration}
    (planned : runner.registry.plan manifest runner.target = .ok original)
    (steady : Steady (known manifest) original) : Planned runner manifest original := by
  obtain ⟨isList, distinct, forward⟩ := newRegistry_accepted accepted
  obtain ⟨left, permuted⟩ := Registry.plan_sublist planned
  rw [isList] at permuted
  refine ⟨planned, steady, ?_, ?_⟩
  · have ids := (permuted.map Migration.id).nodup_iff.mpr distinct
    rw [map_append] at ids
    exact ids.of_append_left
  · intro migration listed entry isEntry
    have isMigration := permuted.subset (mem_append_left left listed)
    exact (forward migration isMigration entry isEntry).1

end Accepted

/-- In every committed state, whatever stops and starts again: a step is done exactly when the
manifest has reached its versions, one that is done is not run, its items up to its count are
covered once each, and a run that comes to its end leaves what the first plan leads to. And where
the process is started once more and neither stops nor fails, it comes to its end, with every step
done and all its items covered. -/
theorem migrations_crash_exact (supported : Versions) (migrations original : List Migration)
    (runner : Runner) (disk : Disk) (events : List Event)
    (accepted : newRegistry supported migrations = .ok runner.registry)
    (planned : runner.registry.plan (currentVersions disk.manifest) runner.target = .ok original)
    (steady : Steady (known (currentVersions disk.manifest)) original)
    (noRows : ∀ id, disk.states id = none) (nothing : disk.covered = []) :
    let world := runner.run ⟨disk, .idle⟩ events
    (∀ migration ∈ original, world.disk.IsDone migration ↔
      Reached (currentVersions world.disk.manifest) migration) ∧
    (∀ migration state position done rest format,
      world.phase = .walking migration state position done rest format →
        ¬ world.disk.IsDone migration) ∧
    (∀ migration ∈ original, ∃ count ≤ (runner.walks migration.id).size,
      world.disk.coveredOf migration.id = List.range count ∧
      (world.disk.states migration.id = none → count = 0) ∧
      (∀ state, world.disk.states migration.id = some state → state.processed.toNat = count) ∧
      (world.disk.IsDone migration → count = (runner.walks migration.id).size)) ∧
    (∀ format, world.phase = .between [] format → ∀ name ∈ formatNames,
      currentVersions world.disk.manifest name =
        after (known (currentVersions disk.manifest)) original name) ∧
    ∃ more, (∀ event ∈ more, event.smooth = true) ∧
      let ended := runner.run world (.crash :: .start :: more)
      (∃ format, ended.phase = .between [] format) ∧
      (∀ migration ∈ original, ended.disk.IsDone migration ∧
        ended.disk.coveredOf migration.id = List.range (runner.walks migration.id).size) ∧
      ∀ name ∈ formatNames, currentVersions ended.disk.manifest name =
        after (known (currentVersions disk.manifest)) original name := by
  have isPlanned := planned_of_accepted accepted planned steady
  have start : Exact runner (known (currentVersions disk.manifest)) original ⟨disk, .idle⟩ := by
    refine ⟨[], original, rfl, ⟨rfl, nofun, fun migration _ => ⟨?_, 0, ?_⟩⟩, trivial⟩
    · intro state found
      cases (noRows migration.id).symm.trans found
    · refine ⟨Nat.zero_le _, by simp [Disk.coveredOf, nothing], fun _ => rfl, ?_⟩
      intro state found
      cases (noRows migration.id).symm.trans found
  have exact := start.run isPlanned events
  dsimp only
  generalize runner.run ⟨disk, .idle⟩ events = world at exact
  obtain ⟨plan, format, restarted⟩ := exact.restarts isPlanned
  obtain ⟨more, smooth, manifest, ends⟩ :=
    (exact.run isPlanned [.crash, .start]).completes isPlanned restarted
  have ended := (exact.run isPlanned [.crash, .start]).run isPlanned more
  obtain ⟨finished, left, isSplit, split, follows⟩ := exact
  have sorts : ∀ migration ∈ original, migration ∈ finished ∨ migration ∈ left := by
    intro migration listed
    rwa [isSplit, mem_append] at listed
  refine ⟨?_, ?_, ?_, ?_, more, smooth, ⟨manifest, ends⟩, ?_⟩
  · intro migration listed
    rw [← reached_known (isPlanned.formats migration listed)]
    rcases sorts migration listed with isFinished | isLeft
    · exact iff_of_true (split.done migration isFinished).1
        (split.reached isPlanned isSplit isFinished)
    · exact iff_of_false (split.opens migration isLeft).1.not_done
        (split.not_reached isPlanned isSplit isLeft)
  · intro migration state position done rest format isPhase
    rw [isPhase] at follows
    obtain ⟨rfl, _⟩ := follows
    exact (split.opens migration mem_cons_self).1.not_done
  · intro migration listed
    rcases sorts migration listed with isFinished | isLeft
    · obtain ⟨_, stands⟩ := split.done migration isFinished
      exact ⟨_, stands.within, stands.covered, stands.fresh,
        fun state found => (stands.counted state found).1, fun _ => rfl⟩
    obtain ⟨opens, count, stands⟩ := split.opens migration isLeft
    exact ⟨count, stands.within, stands.covered, stands.fresh,
      fun state found => (stands.counted state found).1,
      fun isDone => absurd isDone opens.not_done⟩
  · intro format isPhase name isFormat
    rw [isPhase] at follows
    obtain ⟨rfl, _⟩ := follows
    rw [append_nil] at isSplit
    rw [isSplit, ← split.manifest, known, if_pos isFormat]
  · obtain ⟨finished, left, isSplit, split, follows⟩ := ended
    rw [ends] at follows
    obtain ⟨rfl, _⟩ := follows
    rw [append_nil] at isSplit
    subst isSplit
    refine ⟨fun migration listed => ?_, fun name isFormat => ?_⟩
    · exact ⟨(split.done migration listed).1, (split.done migration listed).2.covered⟩
    · rw [← split.manifest, known, if_pos isFormat]
      rfl

def firstText : Disk where
  manifest name := if name = "text_index" then some ⟨1, 1, 1⟩ else none
  states _ := none

def textRunner : Runner where
  registry := ⟨[textOnly]⟩
  target name := if name = "text_index" then 3 else 0
  walks _ := ⟨2, fun count => List.replicate count 0, List.length, by decide, rfl,
    fun count _ => length_replicate⟩

/-- The process stops after the first item, and the next one finishes. -/
def stoppedOnce : List Event :=
  [.start, .next 1000000000, .checkpoint 1 2000000000, .crash, .start, .next 3000000000,
    .checkpoint 1 4000000000, .finish 5000000000]

theorem migrations_crash_exact_text :
    let world := textRunner.run ⟨firstText, .idle⟩ stoppedOnce
    world.disk.IsDone textOnly ∧ world.disk.coveredOf (ascii "b") = [0, 1] ∧
      currentVersions world.disk.manifest "text_index" = 3 := by
  have accepted : newRegistry newAttributes [textOnly] = .ok textRunner.registry := by
    decide +kernel
  have planned : textRunner.registry.plan (currentVersions firstText.manifest) textRunner.target =
      .ok [textOnly] := by decide +kernel
  have applied : applies textOnly (known (currentVersions firstText.manifest)) newAttributes =
      true := by decide +kernel
  have steady : Steady (known (currentVersions firstText.manifest)) [textOnly] :=
    ⟨advance_forward applied (by decide +kernel) (by decide +kernel), trivial⟩
  obtain ⟨reached, _, items, _⟩ := migrations_crash_exact newAttributes [textOnly] [textOnly]
    textRunner firstText stoppedOnce accepted planned steady (fun _ => rfl) rfl
  have manifest : currentVersions (textRunner.run ⟨firstText, .idle⟩ stoppedOnce).disk.manifest
      "text_index" = 3 := by decide +kernel
  have isDone : (textRunner.run ⟨firstText, .idle⟩ stoppedOnce).disk.IsDone textOnly := by
    refine (reached textOnly (mem_singleton_self _)).mpr ?_
    unfold Reached
    decide +kernel
  obtain ⟨count, _, covered, _, _, whole⟩ := items textOnly (mem_singleton_self _)
  exact ⟨isDone, covered.trans (congrArg List.range (whole isDone)), manifest⟩

end Remem.Schema
