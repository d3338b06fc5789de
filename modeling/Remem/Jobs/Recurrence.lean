import Remem.Jobs.Scheduler

/-!
# Which recurring jobs a tick writes

A tick over given answers of the two calls it makes for each tenant. A type's due time moves on
before its tenants are visited, and the first call that fails ends the tick: the tenants of the
type that were still to come lose their job until the type is due again, while the types that
were still to come are due at the next tick.
-/

namespace Remem.Jobs

open Base Keys List Function

/-- What the two calls would answer for each tenant and type: whether a job is outstanding, and
whether the submission wrote one. -/
structure Answers where
  hasOutstanding : TenantId → Bytes → Result Bool
  submitUnlessPaused : TenantId → Bytes → Result Bool

abbrev Writes := List (TenantId × Bytes)

namespace Answers

variable (answers : Answers)

def look (tenant : TenantId) (typ : Bytes) : StateM Writes (Result Bool) :=
  return answers.hasOutstanding tenant typ

def submit (job : Job) : StateM Writes (Result Bool) := do
  match answers.submitUnlessPaused job.tenant job.typ with
  | .ok true =>
    modify (· ++ [(job.tenant, job.typ)])
    return .ok true
  | answer => return answer

def fails (tenant : TenantId) (typ : Bytes) : Bool :=
  match answers.hasOutstanding tenant typ, answers.submitUnlessPaused tenant typ with
  | .error _, _ => true
  | .ok false, .error _ => true
  | _, _ => false

def Eligible (tenant : TenantId) (typ : Bytes) : Prop :=
  answers.hasOutstanding tenant typ = .ok false ∧ answers.submitUnlessPaused tenant typ = .ok true

end Answers

/-- A call of `Tick`: what the clock reads, the directory, and what the calls answer. -/
structure Tick where
  now : Time
  tenants : List TenantId
  answers : Answers

namespace Tick

variable (tick : Tick) (recurring : List Recurring) (next : DueTimes)

def run : (DueTimes × Nat × Option Fault) × Writes :=
  StateT.run (Jobs.tick tick.answers.look tick.answers.submit tick.now tick.tenants recurring next
    0) []

def due : DueTimes := (tick.run recurring next).1.1

def enqueued : Writes := (tick.run recurring next).2

/-- No call fails for a type that the tick visits before the entry's. -/
def Reaches (typ : Bytes) : Prop :=
  ∀ earlier ∈ recurring.takeWhile fun earlier => earlier.typ ≠ typ,
    waits (next earlier.typ) tick.now = false →
      ∀ tenant ∈ tick.tenants, tick.answers.fails tenant earlier.typ = false

/-- No call fails that the tick makes before it visits the tenant for the type. -/
def Clear (typ : Bytes) (tenant : TenantId) : Prop :=
  tick.Reaches recurring next typ ∧
    ∀ earlier ∈ tick.tenants.takeWhile fun earlier => earlier ≠ tenant,
      tick.answers.fails earlier typ = false

end Tick

section Schedule

variable (recurring : List Recurring) (ticks : Nat → Tick)

def dueBefore : Nat → DueTimes
  | 0 => fun _ => none
  | number + 1 => (ticks number).due recurring (dueBefore number)

def enqueuedAt (number : Nat) : Writes :=
  (ticks number).enqueued recurring (dueBefore recurring ticks number)

def DueAt (number : Nat) (typ : Bytes) : Prop :=
  waits (dueBefore recurring ticks number typ) (ticks number).now = false

end Schedule

variable {answers : Answers} {tick : Tick} {recurring : List Recurring} {next : DueTimes}
  {entry : Recurring} {tenant : TenantId} {now : Time} {typ : Bytes}

/-- What a visit to one tenant answers and writes. -/
inductive Visited (answers : Answers) (tenant : TenantId) (typ : Bytes) :
    Result Bool → Writes → Prop
  | failed {fault : Fault} (fails : answers.fails tenant typ = true) :
      Visited answers tenant typ (.error fault) []
  | passed (fails : answers.fails tenant typ = false) (not : ¬ answers.Eligible tenant typ) :
      Visited answers tenant typ (.ok false) []
  | wrote (eligible : answers.Eligible tenant typ) :
      Visited answers tenant typ (.ok true) [(tenant, typ)]

theorem Answers.Eligible.fails_eq (eligible : answers.Eligible tenant typ) :
    answers.fails tenant typ = false := by
  rw [Answers.fails, eligible.1, eligible.2]

theorem visitTenant_spec (entry : Recurring) (tenant : TenantId) (log : Writes) :
    ∃ result wrote, StateT.run (visitTenant answers.look answers.submit now entry tenant) log =
      (result, log ++ wrote) ∧ Visited answers tenant entry.typ result wrote := by
  have eligible : answers.Eligible tenant entry.typ ↔ answers.hasOutstanding tenant entry.typ =
    .ok false ∧ answers.submitUnlessPaused tenant entry.typ = .ok true := Iff.rfl
  rcases looked : answers.hasOutstanding tenant entry.typ with fault | _ | _
  · refine ⟨.error fault, [], ?_, .failed ?_⟩
    · simp [visitTenant, Answers.look, looked]
      rfl
    · rw [Answers.fails, looked]
  · rcases submitted : answers.submitUnlessPaused tenant entry.typ with fault | _ | _
    · refine ⟨.error fault, [], ?_, .failed ?_⟩
      · simp [visitTenant, Answers.look, looked, Answers.submit, Recurring.job, submitted]
        rfl
      · rw [Answers.fails, looked, submitted]
    · refine ⟨.ok false, [], ?_, .passed ?_ ?_⟩
      · simp [visitTenant, Answers.look, looked, Answers.submit, Recurring.job, submitted]
        rfl
      · rw [Answers.fails, looked, submitted]
      · rw [eligible, submitted]
        nofun
    refine ⟨.ok true, [(tenant, entry.typ)], ?_, .wrote ⟨looked, submitted⟩⟩
    simp [visitTenant, Answers.look, looked, Answers.submit, Recurring.job, submitted]
    rfl
  · refine ⟨.ok false, [], ?_, .passed ?_ ?_⟩
    · simp [visitTenant, Answers.look, looked]
      rfl
    · rw [Answers.fails, looked]
    · rw [eligible, looked]
      nofun

/-- What a fan-out over the tenants comes to: it ends early only where a call fails, and up to
there writes for every tenant that is eligible. -/
structure FannedOut (answers : Answers) (typ : Bytes) (tenants : List TenantId)
    (fault : Option Fault) (wrote : Writes) : Prop where
  ends : fault = none ↔ ∀ tenant ∈ tenants, answers.fails tenant typ = false
  once : wrote.Sublist (tenants.map fun tenant => (tenant, typ))
  visited : ∀ tenant ∈ tenants, (∀ earlier ∈ tenants.takeWhile fun earlier => earlier ≠ tenant,
    answers.fails earlier typ = false) → answers.Eligible tenant typ → (tenant, typ) ∈ wrote

theorem FannedOut.cons {tenants : List TenantId} {fault : Option Fault} {first rest : Writes}
    {queued : Bool} (visited : Visited answers tenant typ (.ok queued) first)
    (fanned : FannedOut answers typ tenants fault rest) :
    FannedOut answers typ (tenant :: tenants) fault (first ++ rest) := by
  have succeeds : answers.fails tenant typ = false := by
    cases visited with
    | passed fails _ => exact fails
    | wrote eligible => exact eligible.fails_eq
  refine ⟨?_, ?_, ?_⟩
  · rw [fanned.ends, forall_mem_cons]
    exact (and_iff_right succeeds).symm
  · rw [map_cons]
    cases visited with
    | passed _ _ => exact fanned.once.cons _
    | wrote _ => exact fanned.once.cons_cons _
  intro other listed clear eligible
  by_cases same : tenant = other
  · subst same
    cases visited with
    | passed _ not => exact absurd eligible not
    | wrote _ => exact mem_cons_self
  rw [takeWhile_cons_of_pos (by simpa using same)] at clear
  refine mem_append_right _ (fanned.visited other ?_ ?_ eligible)
  · exact (mem_cons.mp listed).resolve_left fun equal => same equal.symm
  · exact fun earlier before => clear earlier (mem_cons_of_mem _ before)

theorem fanOut_spec (entry : Recurring) (tenants : List TenantId) (count : Nat) (log : Writes) :
    ∃ result wrote, StateT.run (fanOut answers.look answers.submit now entry tenants count) log =
      (result, log ++ wrote) ∧ FannedOut answers entry.typ tenants result.2 wrote := by
  induction tenants generalizing count log with
  | nil =>
    refine ⟨(count, none), [], ?_, ?_⟩
    · rw [append_nil]
      rfl
    · exact ⟨⟨fun _ => nofun, fun _ => rfl⟩, .slnil, nofun⟩
  | cons tenant tenants ih =>
    obtain ⟨answer, first, ran, visited⟩ :=
      @visitTenant_spec answers now entry tenant log
    rw [fanOut, StateT.run_bind, ran]
    cases answer with
    | error fault =>
      cases visited with
      | failed fails =>
        refine ⟨(count, some fault), [], rfl, ?_, nil_sublist _, ?_⟩
        · refine ⟨nofun, fun none => ?_⟩
          rw [none tenant mem_cons_self] at fails
          cases fails
        intro other listed clear eligible
        by_cases same : tenant = other
        · rw [same, eligible.fails_eq] at fails
          cases fails
        rw [takeWhile_cons_of_pos (by simpa using same)] at clear
        rw [clear tenant mem_cons_self] at fails
        cases fails
    | ok queued =>
      obtain ⟨result, rest, continues, fanned⟩ :=
        ih (if queued then count + 1 else count) (log ++ first)
      refine ⟨result, first ++ rest, ?_, fanned.cons visited⟩
      rw [← append_assoc]
      exact continues

structure Ticked (tick : Tick) (recurring : List Recurring) (before after : DueTimes)
    (wrote : Writes) : Prop where
  moves : ∀ typ, after typ = before typ ∨ ∃ entry ∈ recurring, entry.typ = typ ∧
    waits (before typ) tick.now = false ∧
      after typ = some (advance (before typ) tick.now entry.every)
  stays : ∀ typ, ¬ tick.Reaches recurring before typ → after typ = before typ
  due : ∀ tenant typ, (tenant, typ) ∈ wrote → ∃ entry ∈ recurring, entry.typ = typ ∧
    waits (before typ) tick.now = false ∧
      after typ = some (advance (before typ) tick.now entry.every)
  once : tick.tenants.Nodup → wrote.Nodup
  visited : ∀ entry ∈ recurring, waits (before entry.typ) tick.now = false →
    ∀ tenant ∈ tick.tenants, tick.Clear recurring before entry.typ tenant →
      tick.answers.Eligible tenant entry.typ → (tenant, entry.typ) ∈ wrote

theorem reaches_cons : tick.Reaches (entry :: recurring) next typ ↔ entry.typ = typ ∨
    (waits (next entry.typ) tick.now = false →
      ∀ tenant ∈ tick.tenants, tick.answers.fails tenant entry.typ = false) ∧
    tick.Reaches recurring next typ := by
  unfold Tick.Reaches
  by_cases same : entry.typ = typ
  · rw [takeWhile_cons_of_neg (by simpa using same)]
    exact ⟨fun _ => .inl same, fun _ => nofun⟩
  · rw [takeWhile_cons_of_pos (by simpa using same), forall_mem_cons]
    exact (or_iff_right same).symm

theorem typ_ne_of_mem {other : Recurring} (apart : entry.typ ∉ recurring.map Recurring.typ)
    (listed : other ∈ recurring) : other.typ ≠ entry.typ := by
  intro same
  rw [← same] at apart
  exact apart (mem_map_of_mem listed)

variable {tenants : List TenantId} {fault : Option Fault} {wrote : Writes}

theorem FannedOut.typ_eq {other : Bytes} (fanned : FannedOut answers typ tenants fault wrote)
    (listed : (tenant, other) ∈ wrote) : other = typ := by
  obtain ⟨_, _, same⟩ := mem_map.mp (fanned.once.subset listed)
  exact (congrArg Prod.snd same).symm

theorem FannedOut.nodup (fanned : FannedOut answers typ tenants fault wrote)
    (apart : tenants.Nodup) : wrote.Nodup := by
  refine fanned.once.nodup (apart.map fun first second same => ?_)
  exact congrArg Prod.fst same

section Cons

variable {after : DueTimes} {first wrote : Writes} (apart : entry.typ ∉ recurring.map Recurring.typ)

include apart

theorem reaches_update (due : Option Time) :
    tick.Reaches recurring (Function.update next entry.typ due) typ ↔
      tick.Reaches recurring next typ := by
  refine forall₂_congr fun earlier before => ?_
  have other := typ_ne_of_mem apart ((List.takeWhile_prefix _).subset before)
  rw [update_of_ne other]

theorem Ticked.waiting (ticked : Ticked tick recurring next after wrote)
    (waiting : waits (next entry.typ) tick.now = true) :
    Ticked tick (entry :: recurring) next after wrote where
  moves typ := by
    rcases ticked.moves typ with same | ⟨other, listed, moved⟩
    · exact .inl same
    · exact .inr ⟨other, mem_cons_of_mem _ listed, moved⟩
  stays typ unreached := by
    refine ticked.stays typ fun reaches => unreached (reaches_cons.mpr (.inr ⟨?_, reaches⟩))
    rw [waiting]
    nofun
  due tenant typ listed := by
    obtain ⟨other, isEntry, moved⟩ := ticked.due tenant typ listed
    exact ⟨other, mem_cons_of_mem _ isEntry, moved⟩
  once := ticked.once
  visited other listed isDue tenant inside clear := by
    rcases mem_cons.mp listed with rfl | tail
    · rw [waiting] at isDue
      cases isDue
    · refine ticked.visited other tail isDue tenant inside ⟨?_, clear.2⟩
      exact ((reaches_cons.mp clear.1).resolve_left (typ_ne_of_mem apart tail).symm).2

theorem Ticked.aborted {fault : Fault}
    (fanned : FannedOut tick.answers entry.typ tick.tenants (some fault) first)
    (isDue : waits (next entry.typ) tick.now = false) :
    Ticked tick (entry :: recurring) next (Function.update next entry.typ
      (some (advance (next entry.typ) tick.now entry.every))) first where
  moves typ := by
    by_cases same : typ = entry.typ
    · subst same
      exact .inr ⟨entry, mem_cons_self, rfl, isDue, update_self ..⟩
    · exact .inl (update_of_ne same ..)
  stays typ unreached := by
    refine update_of_ne (fun same => unreached ?_) ..
    exact reaches_cons.mpr (.inl same.symm)
  due tenant typ listed := by
    obtain rfl := fanned.typ_eq listed
    exact ⟨entry, mem_cons_self, rfl, isDue, update_self ..⟩
  once := fanned.nodup
  visited other listed _ tenant inside clear eligible := by
    rcases mem_cons.mp listed with rfl | tail
    · exact fanned.visited tenant inside clear.2 eligible
    · have passed := (reaches_cons.mp clear.1).resolve_left (typ_ne_of_mem apart tail).symm
      cases fanned.ends.mpr (passed.1 isDue)

theorem Ticked.followed (fanned : FannedOut tick.answers entry.typ tick.tenants none first)
    (isDue : waits (next entry.typ) tick.now = false)
    (ticked : Ticked tick recurring (Function.update next entry.typ
      (some (advance (next entry.typ) tick.now entry.every))) after wrote) :
    Ticked tick (entry :: recurring) next after (first ++ wrote) := by
  have moved : after entry.typ = some (advance (next entry.typ) tick.now entry.every) := by
    rcases ticked.moves entry.typ with same | ⟨other, listed, same, _⟩
    · rw [same, update_self]
    · exact absurd same (typ_ne_of_mem apart listed)
  have others : ∀ other ∈ recurring, Function.update next entry.typ
      (some (advance (next entry.typ) tick.now entry.every)) other.typ = next other.typ :=
    fun other listed => update_of_ne (typ_ne_of_mem apart listed) ..
  refine ⟨?_, ?_, ?_, ?_, ?_⟩
  · intro typ
    by_cases same : typ = entry.typ
    · subst same
      exact .inr ⟨entry, mem_cons_self, rfl, isDue, moved⟩
    rcases ticked.moves typ with kept | ⟨other, listed, rfl, moves⟩
    · rw [kept, update_of_ne same]
      exact .inl rfl
    · rw [others other listed] at moves
      exact .inr ⟨other, mem_cons_of_mem _ listed, rfl, moves⟩
  · intro typ unreached
    have same : typ ≠ entry.typ := fun same => unreached (reaches_cons.mpr (.inl same.symm))
    rw [ticked.stays typ, update_of_ne same]
    intro reaches
    refine unreached (reaches_cons.mpr (.inr ⟨fun _ => fanned.ends.mp rfl, ?_⟩))
    exact (reaches_update apart _).mp reaches
  · intro tenant typ listed
    rcases mem_append.mp listed with early | late
    · obtain rfl := fanned.typ_eq early
      exact ⟨entry, mem_cons_self, rfl, isDue, moved⟩
    obtain ⟨other, isEntry, rfl, moves⟩ := ticked.due tenant typ late
    rw [others other isEntry] at moves
    exact ⟨other, mem_cons_of_mem _ isEntry, rfl, moves⟩
  · intro distinct
    refine nodup_append.mpr ⟨fanned.nodup distinct, ticked.once distinct, ?_⟩
    rintro ⟨tenant, typ⟩ early _ late rfl
    obtain ⟨other, isEntry, same, _⟩ := ticked.due tenant typ late
    exact typ_ne_of_mem apart isEntry (same.trans (fanned.typ_eq early))
  · intro other listed otherDue tenant inside clear eligible
    rcases mem_cons.mp listed with rfl | tail
    · exact mem_append_left _ (fanned.visited tenant inside clear.2 eligible)
    have passed := (reaches_cons.mp clear.1).resolve_left (typ_ne_of_mem apart tail).symm
    refine mem_append_right _ (ticked.visited other tail ?_ tenant inside ⟨?_, clear.2⟩ eligible)
    · rw [others other tail]
      exact otherDue
    · exact (reaches_update apart _).mpr passed.2

end Cons

theorem tick_spec (tick : Tick) (distinct : (recurring.map Recurring.typ).Nodup)
    (next : DueTimes) (count : Nat) (log : Writes) :
    ∃ after left wrote, StateT.run (Jobs.tick tick.answers.look tick.answers.submit tick.now
        tick.tenants recurring next count) log = ((after, left), log ++ wrote) ∧
      Ticked tick recurring next after wrote := by
  induction recurring generalizing next count log with
  | nil =>
    refine ⟨next, (count, none), [], ?_, fun _ => .inl rfl, fun _ _ => rfl, nofun,
      fun _ => nodup_nil, nofun⟩
    rw [append_nil]
    rfl
  | cons entry recurring ih =>
    obtain ⟨apart, distinct⟩ := nodup_cons.mp distinct
    cases isDue : waits (next entry.typ) tick.now with
    | true =>
      obtain ⟨after, left, wrote, ran, ticked⟩ := ih distinct next count log
      refine ⟨after, left, wrote, ?_, ticked.waiting apart isDue⟩
      rw [Jobs.tick, if_pos isDue, ran]
    | false =>
      obtain ⟨⟨reached, fault⟩, first, fannedOut, fanned⟩ :=
        @fanOut_spec tick.answers tick.now entry tick.tenants count log
      rw [Jobs.tick, if_neg (Bool.eq_false_iff.mp isDue), StateT.run_bind, fannedOut]
      cases fault with
      | some fault => exact ⟨_, _, first, rfl, .aborted apart fanned isDue⟩
      | none =>
        obtain ⟨after, left, wrote, ran, ticked⟩ := ih distinct (Function.update next entry.typ
            (some (advance (next entry.typ) tick.now entry.every))) reached (log ++ first)
        refine ⟨after, left, first ++ wrote, ?_, ticked.followed apart fanned isDue⟩
        rw [← append_assoc]
        exact ran

theorem ticked_run (tick : Tick) (distinct : (recurring.map Recurring.typ).Nodup)
    (next : DueTimes) :
    Ticked tick recurring next (tick.due recurring next) (tick.enqueued recurring next) := by
  obtain ⟨after, left, wrote, ran, ticked⟩ := tick_spec tick distinct next 0 []
  rw [Tick.due, Tick.enqueued, Tick.run, ran]
  exact ticked

def Postponed (before after : Option Time) : Prop :=
  ∃ time, after = some time ∧ ∀ earlier ∈ before, earlier < time

theorem Postponed.trans {first second third : Option Time} (early : Postponed first second)
    (late : Postponed second third) : Postponed first third := by
  obtain ⟨middle, rfl, before⟩ := early
  obtain ⟨time, rfl, after⟩ := late
  exact ⟨time, rfl, fun earlier listed => (before earlier listed).trans (after middle rfl)⟩

theorem Postponed.ne {before after : Option Time} (postponed : Postponed before after) :
    before ≠ after := by
  rintro rfl
  obtain ⟨time, rfl, later⟩ := postponed
  exact lt_irrefl time (later time rfl)

variable {due : Option Time}

theorem postponed_advance {every : Int} (isDue : waits due now = false) (positive : 0 < every) :
    Postponed due (some (advance due now every)) := by
  refine ⟨_, rfl, ?_⟩
  rintro earlier ⟨⟩
  have reached : ¬ now < earlier := of_decide_eq_false isDue
  unfold advance
  dsimp only
  split
  · exact (not_lt.mp reached).trans_lt (lt_add_of_pos_right now positive)
  · exact lt_add_of_pos_right earlier positive

theorem waits_later {later : Time} (isDue : waits due now = false) (clock : now ≤ later) :
    waits due later = false := by
  cases due with
  | none => rfl
  | some due => exact decide_eq_false fun early => of_decide_eq_false isDue (clock.trans_lt early)

section Schedule

variable {ticks : Nat → Tick} (distinct : (recurring.map Recurring.typ).Nodup)
  (periods : ∀ entry ∈ recurring, 0 < entry.every)

include distinct periods

variable {first last : Nat}

theorem dueBefore_later (le : first ≤ last) (typ : Bytes) :
    dueBefore recurring ticks last typ = dueBefore recurring ticks first typ ∨
      Postponed (dueBefore recurring ticks first typ) (dueBefore recurring ticks last typ) := by
  induction last, le using Nat.le_induction with
  | base => exact .inl rfl
  | succ last _ ih =>
    rcases (ticked_run (ticks last) distinct (dueBefore recurring ticks last)).moves typ with
      same | ⟨entry, listed, _, isDue, moved⟩
    · rw [dueBefore, same]
      exact ih
    · have postponed := postponed_advance isDue (periods entry listed)
      rw [← moved] at postponed
      rcases ih with same | earlier
      · rw [same] at postponed
        exact .inr postponed
      · exact .inr (earlier.trans postponed)

theorem postponed_of_enqueuedAt (before : first < last)
    (listed : (tenant, typ) ∈ enqueuedAt recurring ticks first) :
    Postponed (dueBefore recurring ticks first typ) (dueBefore recurring ticks last typ) := by
  obtain ⟨entry, isEntry, _, isDue, moved⟩ :=
    (ticked_run (ticks first) distinct (dueBefore recurring ticks first)).due tenant typ listed
  have postponed := postponed_advance isDue (periods entry isEntry)
  rw [← moved] at postponed
  rcases dueBefore_later distinct periods before typ with same | later
  · rw [same]
    exact postponed
  · exact postponed.trans later

end Schedule

/-- No tenant loses its recurring job. When a type comes due at a tick, an eligible tenant has
its job written at that tick unless a call made before its own fails there; where that was for an
earlier type, the job is written at the next tick unless the same happens there. No type is
written twice for one due time in one tenant. -/
theorem due_type_enqueued (recurring : List Recurring)
    (distinct : (recurring.map Recurring.typ).Nodup)
    (periods : ∀ entry ∈ recurring, 0 < entry.every) (ticks : Nat → Tick)
    (clock : Monotone fun number => (ticks number).now)
    (directory : ∀ number, (ticks number).tenants.Nodup) :
    (∀ number, ∀ entry ∈ recurring, DueAt recurring ticks number entry.typ →
      ∀ tenant ∈ (ticks number).tenants, (ticks number).answers.Eligible tenant entry.typ →
        ((ticks number).Clear recurring (dueBefore recurring ticks number) entry.typ tenant →
          (tenant, entry.typ) ∈ enqueuedAt recurring ticks number) ∧
        (¬ (ticks number).Reaches recurring (dueBefore recurring ticks number) entry.typ →
          tenant ∈ (ticks (number + 1)).tenants →
          (ticks (number + 1)).answers.Eligible tenant entry.typ →
          (ticks (number + 1)).Clear recurring (dueBefore recurring ticks (number + 1)) entry.typ
            tenant →
          (tenant, entry.typ) ∈ enqueuedAt recurring ticks (number + 1))) ∧
    (∀ first second tenant typ, first < second → (tenant, typ) ∈ enqueuedAt recurring ticks first →
      (tenant, typ) ∈ enqueuedAt recurring ticks second →
      dueBefore recurring ticks first typ ≠ dueBefore recurring ticks second typ) ∧
    ∀ number, (enqueuedAt recurring ticks number).Nodup := by
  have ticked := fun number =>
    ticked_run (ticks number) distinct (dueBefore recurring ticks number)
  refine ⟨?_, ?_, ?_⟩
  · intro number entry listed isDue tenant inside eligible
    refine ⟨fun clear => ?_, fun unreached insideNext eligibleNext clear => ?_⟩
    · exact (ticked number).visited entry listed isDue tenant inside clear eligible
    · have unmoved : dueBefore recurring ticks (number + 1) entry.typ =
          dueBefore recurring ticks number entry.typ := (ticked number).stays entry.typ unreached
      refine (ticked (number + 1)).visited entry listed ?_ tenant insideNext clear eligibleNext
      rw [unmoved]
      exact waits_later isDue (clock (Nat.le_succ number))
  · intro first second tenant typ before listed _
    exact (postponed_of_enqueuedAt distinct periods before listed).ne
  · exact fun number => (ticked number).once (directory number)

/-- Ticks every fifty seconds; at the first of them the calls for the given tenant and type
fail. -/
def faltering (tenants : List TenantId) (tenant : TenantId) (typ : Bytes) (number : Nat) :
    Tick where
  now := 50000000000 * number
  tenants
  answers :=
    { hasOutstanding := fun other otherTyp =>
        if number = 0 ∧ other = tenant ∧ otherTyp = typ then .error ⟨.storage, "jobs.Outstanding", "", []⟩
        else .ok false
      submitUnlessPaused := fun _ _ => .ok true }

theorem monotone_faltering (tenants : List TenantId) (tenant : TenantId) (typ : Bytes) :
    Monotone fun number => (faltering tenants tenant typ number).now := by
  intro first second le
  change (50000000000 * first : Int) ≤ 50000000000 * second
  omega

/-- A type whose turn never came at the first tick is written at the second. -/
theorem due_type_enqueued_faltering :
    let recurring : List Recurring :=
      [⟨ascii "attr.rebuild", 100000000000, 1, 0⟩, ⟨ascii "text.rebuild", 100000000000, 1, 0⟩]
    let ticks := faltering [ascii "acme"] (ascii "acme") (ascii "attr.rebuild")
    (ascii "acme", ascii "text.rebuild") ∉ enqueuedAt recurring ticks 0 ∧
      (ascii "acme", ascii "text.rebuild") ∈ enqueuedAt recurring ticks 1 := by
  intro recurring ticks
  refine ⟨by decide +kernel, ?_⟩
  have due : DueAt recurring ticks 0 (ascii "text.rebuild") := rfl
  have aborted : ¬ (ticks 0).Reaches recurring (dueBefore recurring ticks 0)
      (ascii "text.rebuild") := by
    intro reaches
    have succeeds := reaches ⟨ascii "attr.rebuild", 100000000000, 1, 0⟩ (by decide) rfl
      (ascii "acme") (by decide)
    cases succeeds
  have clear : (ticks 1).Clear recurring (dueBefore recurring ticks 1) (ascii "text.rebuild")
      (ascii "acme") := by
    refine ⟨?_, by decide⟩
    intro earlier before waited tenant inside
    rfl
  exact ((due_type_enqueued recurring (by decide) (by decide) ticks
    (monotone_faltering _ _ _) (fun _ => nodup_singleton _)).1 0
    ⟨ascii "text.rebuild", 100000000000, 1, 0⟩ (by decide) due (ascii "acme") (by decide)
    ⟨rfl, rfl⟩).2 aborted (by decide) ⟨rfl, rfl⟩ clear

/-- The calls for one tenant fail when the type comes due: the tenant after it has its job
written neither then nor at the next tick, though nothing is outstanding for it and its own calls
would succeed at both. -/
theorem later_tenant_loses_period :
    let recurring : List Recurring := [⟨ascii "text.rebuild", 100000000000, 1, 0⟩]
    let ticks := faltering [ascii "acme", ascii "bolt"] (ascii "acme") (ascii "text.rebuild")
    DueAt recurring ticks 0 (ascii "text.rebuild") ∧
    (∀ number ∈ [0, 1], ascii "bolt" ∈ (ticks number).tenants ∧
      (ticks number).answers.Eligible (ascii "bolt") (ascii "text.rebuild") ∧
      (ascii "bolt", ascii "text.rebuild") ∉ enqueuedAt recurring ticks number) := by
  refine ⟨rfl, ?_⟩
  intro number listed
  rcases mem_pair.mp listed with rfl | rfl
  · exact ⟨by decide, ⟨rfl, rfl⟩, by decide +kernel⟩
  · exact ⟨by decide, ⟨rfl, rfl⟩, by decide +kernel⟩

end Remem.Jobs
