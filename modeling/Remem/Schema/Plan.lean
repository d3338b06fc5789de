import Remem.Errs

/-!
# Migration plans

A migration names the exact versions it requires and the versions it leads to. A plan takes, as
long as there is one, the first migration by id whose requirements hold, that stays within the
target and has something to contribute.
-/

namespace Remem.Schema

open Base List

/-- `version.formats`: the key of each durable format, and its name for humans. -/
def formats : List (String × String) :=
  [("key_encoding", "key encoding"), ("record_envelope", "record envelope"),
    ("snapshot_format", "snapshot format"), ("attr_schema", "attribute slot schema"),
    ("cluster_compat", "cluster compatibility"), ("text_index", "text index"),
    ("passage_index", "passage index"), ("user_format", "user format")]

def formatNames : List String := formats.map Prod.fst

def describe (name : String) : String := (formats.lookup name).getD name

def binary : String := "dev"

abbrev Versions := String → Nat

def known (versions : Versions) : Versions :=
  fun name => if name ∈ formatNames then versions name else 0

/-- A `map[string]uint32`, its entries in the order of an iteration. -/
structure VersionMap where
  entries : List (String × Nat)
  distinct : (entries.map Prod.fst).Nodup
  deriving DecidableEq

def VersionMap.get (versions : VersionMap) (name : String) : Nat :=
  (versions.entries.lookup name).getD 0

theorem VersionMap.lookup_of_mem (versions : VersionMap) {entry : String × Nat}
    (listed : entry ∈ versions.entries) : versions.entries.lookup entry.1 = some entry.2 := by
  cases found : versions.entries.lookup entry.1 with
  | none => exact absurd (lookup_eq_none_iff.mp found _ listed) (by simp)
  | some other =>
    obtain ⟨before, later, split, _⟩ := lookup_eq_some_iff.mp found
    have isOther : (entry.1, other) ∈ versions.entries := by simp [split]
    have same := inj_on_of_nodup_map versions.distinct isOther listed rfl
    rw [← same]

inductive Strategy where
  | unspecified
  | instant
  | lazy
  | background
  | rebuild
  deriving DecidableEq

/-- `Migration`, with `Run` known by whether it is set. -/
structure Migration where
  id : Bytes
  requires : VersionMap
  advances : VersionMap
  strategy : Strategy
  hasRun : Bool
  deriving DecidableEq

structure Registry where
  migrations : List Migration
  deriving DecidableEq

/-- `bad` of `NewRegistry`. -/
def refused {Value : Type} (format : String) (operands : List Operand) : Result Value :=
  .error ⟨.invalid, "schema.NewRegistry", format, operands⟩

def checkMigration (seenId : List Bytes) (migration : Migration) : Result Unit :=
  if migration.id = [] then
    refused "a migration has no id; the id is how an interrupted run finds its own state" []
  else if !migration.hasRun then refused "migration %q has no Run" [.bytes migration.id]
  else if migration.strategy = .unspecified then
    refused ("migration %q has no strategy; instant, lazy and background put the cost in " ++
      "different places and the choice is not a default") [.bytes migration.id]
  else if migration.advances.entries = [] then
    refused "migration %q advances nothing, so nothing would ever mark it done"
      [.bytes migration.id]
  else if migration.id ∈ seenId then
    refused "migration id %q is used twice; ids are never reused" [.bytes migration.id]
  else .ok ()

def checkRequires (migration : Migration) : List (String × Nat) → Result Unit
  | [] => .ok ()
  | (name, _) :: rest =>
    if name ∉ formatNames then
      refused "migration %q requires %q, which is not a durable format this binary versions"
        [.bytes migration.id, .word name]
    else checkRequires migration rest

/-- The versions that some migration leads to, with its id: `seenAdvance`. -/
abbrev Seen := List ((String × Nat) × Bytes)

def checkAdvances (supported : Versions) (migration : Migration) :
    List (String × Nat) → Seen → Result Seen
  | [], seen => .ok seen
  | (name, version) :: rest, seen =>
    if name ∉ formatNames then
      refused "migration %q advances %q, which is not a durable format this binary versions"
        [.bytes migration.id, .word name]
    else if supported name < version then
      refused ("migration %q advances %s to version %d, but this binary writes version %d; " ++
        "the step would leave a directory this same binary then refuses to open")
        [.bytes migration.id, .word (describe name), .number version, .number (supported name)]
    else if version ≤ migration.requires.get name then
      refused "migration %q advances %s from %d to %d; a step must move a version forward"
        [.bytes migration.id, .word (describe name), .number (migration.requires.get name),
          .number version]
    else
      match seen.lookup (name, version) with
      | some other =>
        refused ("migrations %q and %q both advance %s to version %d; " ++
          "only one step may produce a given version of a format")
          [.bytes other, .bytes migration.id, .word (describe name), .number version]
      | none => checkAdvances supported migration rest (((name, version), migration.id) :: seen)

def checkMigrations (supported : Versions) :
    List Migration → (seenId : List Bytes) → (seenAdvance : Seen) → Result Unit
  | [], _, _ => .ok ()
  | migration :: rest, seenId, seenAdvance =>
    match checkMigration seenId migration with
    | .error fault => .error fault
    | .ok () =>
      match checkRequires migration migration.requires.entries with
      | .error fault => .error fault
      | .ok () =>
        match checkAdvances supported migration migration.advances.entries seenAdvance with
        | .error fault => .error fault
        | .ok seen => checkMigrations supported rest (migration.id :: seenId) seen

def newRegistry (supported : Versions) (migrations : List Migration) : Result Registry :=
  match checkMigrations supported migrations [] [] with
  | .error fault => .error fault
  | .ok () => .ok ⟨migrations⟩

def applies (migration : Migration) (state target : Versions) : Bool :=
  migration.requires.entries.all (fun entry => state entry.1 = entry.2) &&
    migration.advances.entries.all (fun entry => entry.2 ≤ target entry.1) &&
    migration.advances.entries.any (fun entry => state entry.1 < entry.2)

def advance (state : Versions) (migration : Migration) : Versions :=
  fun name => (migration.advances.entries.lookup name).getD (state name)

def after (state : Versions) (steps : List Migration) : Versions := steps.foldl advance state

/-- The loop of `Plan`: the steps, and the versions they lead to. -/
def planLoop (target : Versions) : (fuel : Nat) → (remaining : List Migration) → Versions →
    List Migration × Versions
  | 0, _, state => ([], state)
  | fuel + 1, remaining, state =>
    match remaining.find? (applies · state target) with
    | none => ([], state)
    | some next =>
      let rest := planLoop target fuel (remaining.eraseP (applies · state target))
        (advance state next)
      (next :: rest.1, rest.2)

def Registry.sorted (registry : Registry) : List Migration :=
  registry.migrations.insertionSort fun first second => first.id ≤ second.id

def Registry.plan (registry : Registry) (manifest target : Versions) : Result (List Migration) :=
  let remaining := registry.sorted
  let reached := planLoop (known target) remaining.length remaining (known manifest)
  match formatNames.find? fun name => reached.2 name < target name with
  | some name =>
    .error ⟨.migrationRequired, "schema.Registry.Plan",
      "no migration path for %s: this directory reaches version %d and this binary needs " ++
        "version %d. The step that closes that gap is missing from this build — upgrade to " ++
        "one that ships it (binary version %s)",
      [.word (describe name), .number (reached.2 name), .number (target name), .word binary]⟩
  | none => .ok reached.1

section Accepted

variable {supported : Versions}

variable {migration : Migration} {seen : Seen}

theorem checkAdvances_forward {entries : List (String × Nat)} {found : Seen}
    (accepted : checkAdvances supported migration entries seen = .ok found) :
    ∀ entry ∈ entries, entry.1 ∈ formatNames ∧ migration.requires.get entry.1 < entry.2 := by
  induction entries generalizing seen with
  | nil => simp
  | cons entry rest ih =>
    unfold checkAdvances at accepted
    split at accepted
    · cases accepted
    next isFormat =>
    split at accepted
    · cases accepted
    split at accepted
    · cases accepted
    next forward =>
    split at accepted
    · cases accepted
    intro other membership
    rcases mem_cons.mp membership with rfl | later
    · exact ⟨not_not.mp isFormat, Nat.not_le.mp forward⟩
    · exact ih accepted other later

variable {seenId : List Bytes}

theorem checkMigration_fresh (accepted : checkMigration seenId migration = .ok ()) :
    migration.id ∉ seenId := by
  unfold checkMigration at accepted
  split at accepted
  · cases accepted
  split at accepted
  · cases accepted
  split at accepted
  · cases accepted
  split at accepted
  · cases accepted
  split at accepted
  · cases accepted
  · assumption

variable {migrations : List Migration}

theorem checkMigrations_accepted
    (accepted : checkMigrations supported migrations seenId seen = .ok ()) :
    (migrations.map Migration.id).Nodup ∧ (∀ migration ∈ migrations, migration.id ∉ seenId) ∧
      ∀ migration ∈ migrations, ∀ entry ∈ migration.advances.entries,
        entry.1 ∈ formatNames ∧ migration.requires.get entry.1 < entry.2 := by
  induction migrations generalizing seenId seen with
  | nil => simp
  | cons migration rest ih =>
    unfold checkMigrations at accepted
    split at accepted
    · cases accepted
    next fresh =>
    split at accepted
    · cases accepted
    split at accepted
    · cases accepted
    next advances =>
    obtain ⟨distinct, unseen, forward⟩ := ih accepted
    refine ⟨?_, ?_, ?_⟩
    · rw [map_cons, nodup_cons]
      refine ⟨?_, distinct⟩
      intro membership
      obtain ⟨other, later, same⟩ := mem_map.mp membership
      exact unseen other later (by simp [same])
    · intro other membership
      rcases mem_cons.mp membership with rfl | later
      · exact checkMigration_fresh fresh
      · exact fun old => unseen other later (mem_cons_of_mem _ old)
    · intro other membership
      rcases mem_cons.mp membership with rfl | later
      · exact checkAdvances_forward advances
      · exact forward other later

variable {registry : Registry}

theorem newRegistry_accepted (accepted : newRegistry supported migrations = .ok registry) :
    registry.migrations = migrations ∧ (migrations.map Migration.id).Nodup ∧
      ∀ migration ∈ migrations, ∀ entry ∈ migration.advances.entries,
        entry.1 ∈ formatNames ∧ migration.requires.get entry.1 < entry.2 := by
  unfold newRegistry at accepted
  split at accepted
  · cases accepted
  next checked =>
  cases accepted
  obtain ⟨distinct, _, forward⟩ := checkMigrations_accepted checked
  exact ⟨rfl, distinct, forward⟩

theorem insertionSort_eq_of_perm {Item Key : Type} [LinearOrder Key] {key : Item → Key}
    {items others : List Item}
    (distinct : ∀ first ∈ items, ∀ second ∈ items, key first = key second → first = second)
    (same : others.Perm items) :
    others.insertionSort (fun first second => key first ≤ key second) =
      items.insertionSort fun first second => key first ≤ key second := by
  have : Std.Total fun first second => key first ≤ key second :=
    ⟨fun first second => le_total (key first) (key second)⟩
  have : IsTrans Item fun first second => key first ≤ key second := ⟨fun _ _ _ => le_trans⟩
  refine List.Perm.eq_of_pairwise ?_ (pairwise_insertionSort _ _) (pairwise_insertionSort _ _)
    ((perm_insertionSort _ _).trans (same.trans (perm_insertionSort _ _).symm))
  intro first second isFirst isSecond below above
  exact distinct first (same.subset ((mem_insertionSort _).mp isFirst)) second
    ((mem_insertionSort _).mp isSecond) (le_antisymm below above)

end Accepted

section Runs

variable {target state : Versions}

def Runnable (target : Versions) : Versions → List Migration → Prop
  | _, [] => True
  | state, next :: rest => applies next state target = true ∧ Runnable target (advance state next) rest

variable {migration : Migration}

theorem applies_iff : applies migration state target = true ↔
      (∀ entry ∈ migration.requires.entries, state entry.1 = entry.2) ∧
        (∀ entry ∈ migration.advances.entries, entry.2 ≤ target entry.1) ∧
        ∃ entry ∈ migration.advances.entries, state entry.1 < entry.2 := by
  simp [applies, and_assoc]

theorem perm_of_find? {Element : Type} {list : List Element} {holds : Element → Bool}
    {first : Element} (found : list.find? holds = some first) :
    (first :: list.eraseP holds).Perm list := by
  obtain ⟨isTrue, before, later, rfl, skipped⟩ := find?_eq_some_iff_append.mp found
  rw [eraseP_append_right _ (by simpa using skipped), eraseP_cons_of_pos isTrue]
  exact perm_middle.symm

theorem planLoop_spec {fuel : Nat} {remaining : List Migration} (enough : remaining.length ≤ fuel) :
    Runnable target state (planLoop target fuel remaining state).1 ∧
      (planLoop target fuel remaining state).2 =
        after state (planLoop target fuel remaining state).1 ∧
      ∃ left, ((planLoop target fuel remaining state).1 ++ left).Perm remaining ∧
        ∀ migration ∈ left,
          applies migration (planLoop target fuel remaining state).2 target = false := by
  induction fuel generalizing remaining state with
  | zero =>
    have empty : remaining = [] := length_eq_zero_iff.mp (Nat.le_zero.mp enough)
    subst empty
    exact ⟨trivial, rfl, [], List.Perm.refl _, by simp⟩
  | succ fuel ih =>
    cases found : remaining.find? (applies · state target) with
    | none =>
      simp only [planLoop, found]
      refine ⟨trivial, rfl, remaining, List.Perm.refl _, ?_⟩
      intro migration membership
      simpa using find?_eq_none.mp found migration membership
    | some next =>
      have split := perm_of_find? found
      have holds := find?_some found
      have fewer : (remaining.eraseP (applies · state target)).length ≤ fuel := by
        have lengths := split.length_eq
        rw [length_cons] at lengths
        omega
      obtain ⟨runnable, reached, left, permuted, ended⟩ :=
        @ih (advance state next) _ fewer
      simp only [planLoop, found]
      exact ⟨⟨holds, runnable⟩, reached, left, (permuted.cons next).trans split, ended⟩

variable {steps : List Migration}

theorem Runnable.applies_at {later : List Migration} {next : Migration}
    (runnable : Runnable target state (steps ++ next :: later)) :
    applies next (after state steps) target = true := by
  induction steps generalizing state with
  | nil => exact runnable.1
  | cons first rest ih => exact ih runnable.2

theorem advance_cases (migration : Migration) (name : String) :
    advance state migration name = state name ∨
      (name, advance state migration name) ∈ migration.advances.entries := by
  unfold advance
  cases found : migration.advances.entries.lookup name with
  | none => exact .inl rfl
  | some version =>
    right
    obtain ⟨before, later, split, _⟩ := lookup_eq_some_iff.mp found
    rw [split]
    simp

theorem required_of_applies (runs : applies migration state target = true) {name : String}
    (isRequired : name ∈ migration.requires.entries.map Prod.fst) :
    migration.requires.get name = state name := by
  obtain ⟨entry, membership, rfl⟩ := mem_map.mp isRequired
  rw [(applies_iff.mp runs).1 _ membership, VersionMap.get,
    migration.requires.lookup_of_mem membership]
  rfl

theorem advance_forward (runs : applies migration state target = true)
    (forward : ∀ entry ∈ migration.advances.entries, migration.requires.get entry.1 < entry.2)
    (requires : ∀ entry ∈ migration.advances.entries, entry.1 ∈ migration.requires.entries.map
      Prod.fst) (name : String) : state name ≤ advance state migration name := by
  rcases advance_cases migration name with same | assigned
  · exact same.ge
  -- The version that is required is the one in force.
  rw [← required_of_applies runs (requires _ assigned)]
  exact (forward _ assigned).le

/-- The migration leads to nothing beyond the target. -/
def Migration.Within (migration : Migration) (target : Versions) : Prop :=
  ∀ entry ∈ migration.advances.entries, entry.2 ≤ target entry.1

/-- A migration that advances a format whose version it does not require advances nothing else, or
neither the manifest nor another migration has a later version of the format. -/
def Orderly (manifest target : Versions) (migrations : List Migration) : Prop :=
  ∀ migration ∈ migrations, migration.Within target →
    ∀ entry ∈ migration.advances.entries, entry.1 ∉ migration.requires.entries.map Prod.fst →
      migration.advances.entries = [entry] ∨
        manifest entry.1 ≤ entry.2 ∧ ∀ other ∈ migrations, other.Within target →
          ∀ later ∈ other.advances.entries, later.1 = entry.1 → later.2 ≤ entry.2

variable {manifest : Versions} {migrations : List Migration}

/-- Where the version of a format is from. -/
def Sourced (manifest target : Versions) (migrations : List Migration) (state : Versions) : Prop :=
  ∀ name, state name = manifest name ∨ ∃ migration ∈ migrations, migration.Within target ∧
    (name, state name) ∈ migration.advances.entries

theorem Sourced.advance (sourced : Sourced manifest target migrations state)
    (listed : migration ∈ migrations) (runs : applies migration state target = true) :
    Sourced manifest target migrations (advance state migration) := by
  intro name
  rcases advance_cases migration name with same | assigned
  · rw [same]
    exact sourced name
  · exact .inr ⟨migration, listed, (applies_iff.mp runs).2.1, assigned⟩

theorem Orderly.advance_forward (orderly : Orderly manifest target migrations)
    (sourced : Sourced manifest target migrations state) (listed : migration ∈ migrations)
    (runs : applies migration state target = true)
    (forward : ∀ entry ∈ migration.advances.entries, migration.requires.get entry.1 < entry.2)
    (name : String) : state name ≤ Schema.advance state migration name := by
  rcases advance_cases migration name with same | assigned
  · exact same.ge
  have within := (applies_iff.mp runs).2.1
  by_cases isRequired : name ∈ migration.requires.entries.map Prod.fst
  · rw [← required_of_applies runs isRequired]
    exact (forward _ assigned).le
  rcases orderly migration listed within _ assigned isRequired with only | ⟨early, latest⟩
  · obtain ⟨entry, isEntry, behind⟩ := (applies_iff.mp runs).2.2
    rw [only, mem_singleton] at isEntry
    rw [isEntry] at behind
    exact behind.le
  · rcases sourced name with same | ⟨other, isOther, otherWithin, isLater⟩
    · rw [same]
      exact early
    · exact latest other isOther otherWithin _ isLater rfl

theorem Orderly.rises (orderly : Orderly manifest target migrations)
    (forward : ∀ migration ∈ migrations, ∀ entry ∈ migration.advances.entries,
      migration.requires.get entry.1 < entry.2)
    (sourced : Sourced manifest target migrations state) (runnable : Runnable target state steps)
    (listed : ∀ migration ∈ steps, migration ∈ migrations) :
    ∀ before next later, steps = before ++ next :: later → ∀ name,
      after state before name ≤ after state (before ++ [next]) name := by
  induction steps generalizing state with
  | nil => simp
  | cons first rest ih =>
    have isFirst := listed first mem_cons_self
    intro before next later split name
    cases before with
    | nil =>
      cases split
      exact orderly.advance_forward sourced isFirst runnable.1 (forward first isFirst) name
    | cons head before =>
      cases split
      exact ih (sourced.advance isFirst runnable.1) runnable.2
        (fun migration isLater => listed migration (mem_cons_of_mem _ isLater)) before next later
        rfl name

end Runs

def newAttributes : Versions := fun name =>
  if name = "attr_schema" then 2 else if name = "text_index" then 3 else 0

def textOnly : Migration :=
  ⟨ascii "b", ⟨[("text_index", 1)], by decide⟩, ⟨[("text_index", 3)], by decide⟩, .instant, true⟩

end Remem.Schema
