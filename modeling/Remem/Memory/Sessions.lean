import Remem.Base.Calls
import Remem.Memory.Paging

/-!
# Sessions neither leak nor cut a reader off

The readers of a session are the requests that have not released it, and its snapshot is
closed as soon as it is retired and has no reader, once.
-/

namespace Remem.Paging

open Base Keys List Bool Option

structure Kept (registry : Registry) (holders : List Nat) : Prop where
  readers : ∀ (place : Nat) (session : Session), registry.opened[place]? = some session →
    session.readers = holders.count place
  held : ∀ place ∈ holders, place < registry.opened.length
  active : registry.active = holders.length
  closes : ∀ (place : Nat) (session : Session), registry.opened[place]? = some session →
    session.closes = if session.retired ∧ session.readers = 0 then 1 else 0
  pinned : registry.pinned = registry.openSnapshots
  bounded : registry.pinned ≤ pagingCapacity
  listed : ∀ id place, (id, place) ∈ registry.sessions ↔
    ∃ session, registry.opened[place]? = some session ∧ session.id = id ∧ session.retired = false
  distinct : (registry.sessions.map Prod.fst).Nodup
  shut : registry.closed → registry.sessions = []

namespace Registry

variable (registry : Registry)

def names : List (Id × Binding) :=
  registry.opened.map fun session => (session.id, session.binding)

theorem names_set {place : Nat} {session next : Session}
    (found : registry.opened[place]? = some session)
    (same : (next.id, next.binding) = (session.id, session.binding)) :
    (registry.opened.set place next).map (fun session => (session.id, session.binding)) =
      registry.names := by
  rw [map_set, same, names]
  apply ext_getElem?
  intro other
  by_cases here : place = other
  · subst here
    have within := (List.getElem?_eq_some_iff.mp found).1
    rw [getElem?_set_self (by simpa using within), getElem?_map, found]
    rfl
  · rw [getElem?_set_ne here]

end Registry

theorem modify_set {Entry : Type*} (entries : List Entry) (place : Nat) (entry : Entry)
    (change : Entry → Entry) :
    (entries.set place entry).modify place change = entries.set place (change entry) := by
  induction entries generalizing place with
  | nil => cases place <;> rfl
  | cons first rest ih =>
    cases place with
    | zero => rfl
    | succ place => exact congrArg (first :: ·) (ih place)

namespace Kept

variable {registry : Registry} {holders : List Nat}

theorem initial (rankedTTL : Int) : Kept { rankedTTL } [] where
  readers := by simp
  held := nofun
  active := rfl
  closes := by simp
  pinned := rfl
  bounded := show (0 : Int) ≤ pagingCapacity by decide
  listed := by simp
  distinct := nodup_nil
  shut := nofun

variable {place : Nat} {after : Registry} {session : Session}

theorem of_set (kept : Kept registry holders) {left : List Nat}
    (found : registry.opened[place]? = some session) (next : Session)
    (opened : after.opened = registry.opened.set place next) (sameId : next.id = session.id)
    (retiring : session.retired = true → next.retired = true)
    (sessions : after.sessions = if session.retired = false ∧ next.retired = true then
      registry.sessions.filter fun entry => entry.1 ≠ session.id else registry.sessions)
    (closed : after.closed = registry.closed) (active : after.active = left.length)
    (others : ∀ other, other ≠ place → left.count other = holders.count other)
    (readers : next.readers = left.count place)
    (closes : next.closes = if next.retired ∧ next.readers = 0 then 1 else 0)
    (reopens : next.closes = 0 → session.closes = 0)
    (pinned : after.pinned + (decide (session.closes = 0)).toNat = registry.pinned + (decide
      (next.closes = 0)).toNat) : Kept after left := by
  have within := (List.getElem?_eq_some_iff.mp found).1
  have get : ∀ {other : Nat} {found' : Session}, after.opened[other]? = some found' →
      other = place ∧ found' = next ∨ other ≠ place ∧ registry.opened[other]? = some found' := by
    intro other found' isFound
    rw [opened] at isFound
    by_cases here : place = other
    · subst here
      rw [getElem?_set_self within] at isFound
      exact .inl ⟨rfl, (Option.some.inj isFound).symm⟩
    · rw [getElem?_set_ne here] at isFound
      exact .inr ⟨Ne.symm here, isFound⟩
  have here : after.opened[place]? = some next := by rw [opened, getElem?_set_self within]
  have away : ∀ {other : Nat}, other ≠ place → after.opened[other]? = registry.opened[other]? :=
    fun different => by rw [opened, getElem?_set_ne (Ne.symm different)]
  have member : ∀ {id : Id} {other : Nat}, other ≠ place →
      ((id, other) ∈ after.sessions ↔ (id, other) ∈ registry.sessions) := by
    intro id other different
    rw [sessions]
    split
    · next leaves =>
      rw [mem_filter, and_iff_left_iff_imp]
      intro isEntry
      have listed := (kept.listed session.id place).mpr ⟨session, found, rfl, leaves.1⟩
      refine decide_eq_true fun same => different ?_
      have injective := inj_on_of_nodup_map kept.distinct isEntry listed same
      exact congrArg Prod.snd injective
    · rfl
  constructor
  case readers =>
    intro other found' isFound
    rcases get isFound with ⟨rfl, rfl⟩ | ⟨different, old⟩
    · exact readers
    · rw [kept.readers other found' old, others other different]
  case held =>
    intro other listed
    rw [opened, length_set]
    by_cases same : other = place
    · exact same ▸ within
    refine kept.held other (count_pos_iff.mp ?_)
    rw [← others other same]
    exact count_pos_iff.mpr listed
  case active => exact active
  case closes =>
    intro other found' isFound
    rcases get isFound with ⟨rfl, rfl⟩ | ⟨_, old⟩
    · exact closes
    · exact kept.closes other found' old
  case pinned =>
    have total := countP_set_of_getElem? (fun session : Session => decide (session.closes = 0))
      found next
    have before := kept.pinned
    unfold Registry.openSnapshots at before ⊢
    rw [opened]
    omega
  case bounded =>
    have before := kept.bounded
    by_cases none : next.closes = 0
    · rw [decide_eq_true none, decide_eq_true (reopens none)] at pinned
      omega
    · rw [decide_eq_false none, toNat_false] at pinned
      omega
  case listed =>
    intro id other
    by_cases same : other = place
    · subst same
      rw [here, sessions]
      split
      · next leaves =>
        constructor
        · intro isEntry
          obtain ⟨old, unlike⟩ := mem_filter.mp isEntry
          obtain ⟨_, isSession, sameId', _⟩ := (kept.listed id other).mp old
          cases found.symm.trans isSession
          exact absurd sameId'.symm (of_decide_eq_true unlike)
        · rintro ⟨_, ⟨⟩, _, remains⟩
          rw [leaves.2] at remains
          cases remains
      · next stays =>
        rw [kept.listed id other, found]
        constructor
        · rintro ⟨_, ⟨⟩, rfl, remains⟩
          exact ⟨next, rfl, sameId, eq_false_iff.mpr fun leaves => stays ⟨remains, leaves⟩⟩
        · rintro ⟨_, ⟨⟩, rfl, remains⟩
          refine ⟨session, rfl, sameId.symm, eq_false_iff.mpr fun gone => ?_⟩
          rw [retiring gone] at remains
          cases remains
    · rw [member same, kept.listed, away same]
  case distinct =>
    rw [sessions]
    split
    · exact (filter_sublist.map Prod.fst).nodup kept.distinct
    · exact kept.distinct
  case shut =>
    intro isClosed
    rw [sessions, kept.shut (closed ▸ isClosed)]
    split <;> rfl

theorem retireLocked (kept : Kept registry holders) (place : Nat) :
    Kept (registry.retireLocked place) holders := by
  unfold Registry.retireLocked
  split
  · exact kept
  next session found =>
  split
  · exact kept
  next remains =>
  have unretired := eq_false_iff.mpr remains
  have unclosed : session.closes = 0 := by
    rw [kept.closes place session found, unretired]
    rfl
  dsimp only
  split
  · next idle =>
    refine kept.of_set found { session with retired := true, closes := session.closes + 1 }
      (modify_set _ _ _ _) rfl (fun _ => rfl) ?_ rfl kept.active (fun _ _ => rfl)
      (kept.readers place session found) ?_ ?_ ?_
    · rw [if_pos ⟨unretired, rfl⟩]
      rfl
    · rw [if_pos ⟨rfl, idle⟩, unclosed]
    · exact fun impossible => absurd impossible (Nat.succ_ne_zero _)
    · rw [decide_eq_true unclosed, decide_eq_false (Nat.succ_ne_zero _)]
      change registry.pinned - 1 + 1 = registry.pinned + 0
      omega
  · next read =>
    refine kept.of_set found { session with retired := true } rfl rfl
      (fun _ => rfl) ?_ rfl kept.active (fun _ _ => rfl)
      (kept.readers place session found) ?_ (fun _ => unclosed) rfl
    · rw [if_pos ⟨unretired, rfl⟩]
    · rw [if_neg fun both => read both.2]
      exact unclosed

theorem expireOne (kept : Kept registry holders) (expiry : Nat → Time) (entry : Id × Nat) :
    Kept (registry.expireOne expiry entry) holders := by
  unfold Registry.expireOne
  split
  · exact kept
  split
  · exact kept
  split
  · exact kept.retireLocked entry.2
  · exact kept

theorem expireLocked (kept : Kept registry holders) (readings : Readings) :
    Kept (registry.expireLocked readings) holders :=
  List.foldlRecOn (motive := fun registry => Kept registry holders) _ _ kept
    fun _ kept entry _ => kept.expireOne readings.expiry entry

theorem withUse (kept : Kept registry holders) (useSeq : UInt64) :
    Kept { registry with useSeq } holders :=
  ⟨kept.readers, kept.held, kept.active, kept.closes, kept.pinned, kept.bounded, kept.listed,
    kept.distinct, kept.shut⟩

theorem reclaim (kept : Kept registry holders) (idling : Ranging) :
    Kept (registry.reclaim idling) holders := by
  unfold Registry.reclaim
  split
  · split
    · exact kept.retireLocked _
    · exact kept
  · exact kept

variable {id : Id}

theorem of_lookup (kept : Kept registry holders)
    (found : registry.lookup id = some (place, session)) :
    registry.opened[place]? = some session ∧ session.id = id ∧ session.retired = false := by
  obtain ⟨⟨id', place'⟩, isEntry, rest⟩ := bind_eq_some_iff.mp found
  obtain ⟨session', isSession, same⟩ := bind_eq_some_iff.mp rest
  cases same
  have sameId := find?_some isEntry
  obtain ⟨_, again, named, remains⟩ :=
    (kept.listed id' place).mp (mem_of_find?_eq_some isEntry)
  cases isSession.symm.trans again
  exact ⟨isSession, named.trans (of_decide_eq_true sameId), remains⟩

variable {binding : Binding} {op noun : String} {now : Time}

theorem continueSession (kept : Kept registry holders)
    (continued : registry.continueSession binding id op noun now = (after, .ok place)) :
    Kept after (place :: holders) ∧ after.closed = registry.closed ∧
      after.names = registry.names ∧ registry.names[place]? = some (id, binding) := by
  unfold Registry.continueSession at continued
  split at continued
  · cases continued
  next found =>
  split at continued
  · cases continued
  next same =>
  rename_i session
  obtain ⟨isSession, named, remains⟩ := kept.of_lookup found
  have unclosed : session.closes = 0 := by
    rw [kept.closes _ session isSession, remains]
    rfl
  have count := kept.readers _ session isSession
  cases continued
  refine ⟨kept.of_set isSession _ rfl rfl (fun gone => gone) ?_ rfl ?_ ?_ ?_ ?_
    (fun _ => unclosed) rfl, rfl, registry.names_set isSession rfl, ?_⟩
  · exact (if_neg (by simp [remains])).symm
  · change registry.active + 1 = _
    rw [kept.active, length_cons]
    rfl
  · exact fun other different => count_cons_of_ne (Ne.symm different)
  · change session.readers + 1 = _
    rw [count_cons_self, count]
    rfl
  · exact unclosed.trans (if_neg (by simp [remains])).symm
  · rw [Registry.names, getElem?_map, isSession, ← named, ← not_not.mp same]
    rfl

theorem continueSession_error {registry : Registry} {fault : Fault}
    (refused : registry.continueSession binding id op noun now = (after, .error fault)) :
    after = registry := by
  unfold Registry.continueSession at refused
  split at refused
  · cases refused
    rfl
  split at refused
  · cases refused
    rfl
  · cases refused

theorem opens (kept : Kept registry holders) {session : Session} {after : Registry}
    (opened : after.opened = registry.opened ++ [session])
    (sessions : after.sessions = registry.sessions ++ [(session.id, registry.opened.length)])
    (fresh : ∀ entry ∈ registry.sessions, entry.1 ≠ session.id)
    (open' : registry.closed = false) (closed : after.closed = registry.closed)
    (active : after.active = registry.active + 1) (pinned : after.pinned = registry.pinned + 1)
    (room : registry.pinned < pagingCapacity) (reader : session.readers = 1)
    (remains : session.retired = false) (unclosed : session.closes = 0) :
    Kept after (registry.opened.length :: holders) := by
  have get : ∀ {other : Nat} {found : Session}, after.opened[other]? = some found →
      other = registry.opened.length ∧ found = session ∨
        other ≠ registry.opened.length ∧ registry.opened[other]? = some found := by
    intro other found isFound
    rw [opened] at isFound
    rcases lt_or_ge other registry.opened.length with old | new
    · rw [getElem?_append_left old] at isFound
      exact .inr ⟨old.ne, isFound⟩
    rw [getElem?_append_right new, getElem?_singleton] at isFound
    split at isFound
    · exact .inl ⟨by omega, (Option.some.inj isFound).symm⟩
    · cases isFound
  constructor
  case readers =>
    intro other found isFound
    rcases get isFound with ⟨rfl, rfl⟩ | ⟨different, old⟩
    · have none : holders.count registry.opened.length = 0 :=
        count_eq_zero.mpr fun listed => (kept.held _ listed).false
      rw [reader, count_cons_self, none]
      rfl
    · rw [kept.readers other found old, count_cons_of_ne (Ne.symm different)]
  case held =>
    intro other listed
    rw [opened, length_append]
    rcases mem_cons.mp listed with rfl | old
    · exact Nat.lt_succ_self _
    · exact (kept.held other old).trans (Nat.lt_succ_self _)
  case active =>
    rw [active, kept.active, length_cons]
    rfl
  case closes =>
    intro other found isFound
    rcases get isFound with ⟨rfl, rfl⟩ | ⟨_, old⟩
    · rw [unclosed, remains]
      rfl
    · exact kept.closes other found old
  case pinned =>
    rw [pinned, kept.pinned, Registry.openSnapshots, Registry.openSnapshots, opened,
      countP_append, countP_singleton, decide_eq_true unclosed]
    rfl
  case bounded => omega
  case listed =>
    intro id other
    rw [sessions, mem_append, mem_singleton, kept.listed]
    constructor
    · rintro (⟨found, isFound, rest⟩ | same)
      · have old := (List.getElem?_eq_some_iff.mp isFound).1
        exact ⟨found, by rw [opened, getElem?_append_left old, isFound], rest⟩
      · cases same
        exact ⟨session, by rw [opened, getElem?_concat_length], rfl, remains⟩
    · rintro ⟨found, isFound, rest⟩
      rcases get isFound with ⟨rfl, rfl⟩ | ⟨_, old⟩
      · exact .inr (by rw [rest.1])
      · exact .inl ⟨found, old, rest⟩
  case distinct =>
    rw [sessions, map_append, nodup_append]
    refine ⟨kept.distinct, nodup_singleton _, ?_⟩
    rintro id listed other isNew rfl
    obtain ⟨entry, isEntry, rfl⟩ := mem_map.mp listed
    exact fresh entry isEntry (mem_singleton.mp isNew)
  case shut =>
    intro isClosed
    rw [closed, open'] at isClosed
    cases isClosed

theorem release (kept : Kept registry holders) (held : place ∈ holders) (finish : Bool)
    (now : Time) : Kept (registry.release place finish now) (holders.erase place) := by
  have kept : Kept (if finish then registry.retireLocked place else registry) holders := by
    split
    · exact kept.retireLocked place
    · exact kept
  unfold Registry.release
  generalize (if finish then registry.retireLocked place else registry) = registry at kept
  dsimp only
  have within := kept.held place held
  rw [getElem?_eq_getElem within]
  dsimp only
  have found := getElem?_eq_getElem within
  generalize registry.opened[place] = session at found
  have count : session.readers - 1 = (holders.erase place).count place := by
    have positive := count_pos_iff.mpr held
    rw [kept.readers place session found, count_erase_self]
    omega
  have active : registry.active - 1 = (holders.erase place).length := by
    have positive := length_pos_of_mem held
    rw [kept.active, length_erase_of_mem held]
    omega
  have others : ∀ other, other ≠ place → (holders.erase place).count other = holders.count other :=
    fun other different => count_erase_of_ne different
  have unclosed : session.closes = 0 := by
    have positive := count_pos_iff.mpr held
    have readers := kept.readers place session found
    rw [kept.closes place session found, if_neg]
    omega
  have stays : registry.sessions = if session.retired = false ∧ session.retired = true then
      registry.sessions.filter fun entry => entry.1 ≠ session.id else registry.sessions :=
    (if_neg (by simp)).symm
  split
  · next last =>
    rw [and_eq_true, decide_eq_true_eq] at last
    refine kept.of_set found _ (modify_set _ _ _ _) rfl (fun gone => gone) stays rfl active others
      count ?_ ?_ ?_
    · rw [if_pos last, unclosed]
    · exact fun impossible => absurd impossible (Nat.succ_ne_zero _)
    · rw [decide_eq_true unclosed, decide_eq_false (Nat.succ_ne_zero _)]
      change registry.pinned - 1 + 1 = registry.pinned + 0
      omega
  · next more =>
    rw [and_eq_true, decide_eq_true_eq] at more
    refine kept.of_set found _ rfl rfl (fun gone => gone) stays rfl active others count ?_
      (fun _ => unclosed) rfl
    rw [if_neg more]
    exact unclosed

end Kept

/-- What retiring sessions leaves alone. -/
structure Retires (before after : Registry) : Prop where
  closed : after.closed = before.closed
  names : after.names = before.names
  fewer : after.sessions ⊆ before.sessions

namespace Retires

variable (registry : Registry) (place : Nat)

theorem refl : Retires registry registry :=
  ⟨rfl, rfl, List.Subset.refl _⟩

theorem trans {first second third : Registry} (early : Retires first second)
    (late : Retires second third) : Retires first third :=
  ⟨late.closed.trans early.closed, late.names.trans early.names,
    List.Subset.trans late.fewer early.fewer⟩

theorem of_set {before after : Registry} {place : Nat} {session : Session}
    (found : before.opened[place]? = some session) (next : Session)
    (opened : after.opened = before.opened.set place next) (closed : after.closed = before.closed)
    (same : (next.id, next.binding) = (session.id, session.binding))
    (fewer : after.sessions ⊆ before.sessions) : Retires before after := by
  refine ⟨closed, ?_, fewer⟩
  rw [Registry.names, opened]
  exact before.names_set found same

theorem of_retireLocked : Retires registry (registry.retireLocked place) := by
  unfold Registry.retireLocked
  split
  · exact refl registry
  next session found =>
  split
  · exact refl registry
  dsimp only
  split
  · exact of_set found _ (modify_set _ _ _ _) rfl rfl filter_sublist.subset
  · exact of_set found _ rfl rfl rfl filter_sublist.subset

theorem of_expireOne (expiry : Nat → Time) (registry : Registry) (entry : Id × Nat) :
    Retires registry (registry.expireOne expiry entry) := by
  unfold Registry.expireOne
  split
  · exact refl registry
  split
  · exact refl registry
  split
  · exact of_retireLocked registry entry.2
  · exact refl registry

theorem of_expireLocked (readings : Readings) : Retires registry (registry.expireLocked readings) :=
  List.foldlRecOn (motive := Retires registry) _ _ (refl registry)
    fun _ retires entry _ => retires.trans (of_expireOne _ _ entry)

theorem of_reclaim (idling : Ranging) : Retires registry (registry.reclaim idling) := by
  unfold Registry.reclaim
  split
  · split
    · exact of_retireLocked registry _
    · exact refl registry
  · exact refl registry

theorem of_release (finish : Bool) (now : Time) :
    Retires registry (registry.release place finish now) := by
  have early : Retires registry (if finish then registry.retireLocked place else registry) := by
    split
    · exact of_retireLocked registry place
    · exact refl registry
  refine early.trans ?_
  unfold Registry.release
  generalize (if finish then registry.retireLocked place else registry) = registry
  dsimp only
  split
  · exact refl registry
  next session found =>
  split
  · exact of_set found _ (modify_set _ _ _ _) rfl rfl (List.Subset.refl _)
  · exact of_set found _ rfl rfl rfl (List.Subset.refl _)

end Retires

namespace Registry

variable {registry : Registry} {entries : List (Id × Nat)} {victim : Option Nat}

theorem readers_of_idlest_none (nobody : entries.foldl registry.idlerOne victim = none) :
    victim = none ∧ ∀ entry ∈ entries, ∀ session, registry.opened[entry.2]? = some session →
      0 < session.readers := by
  induction entries generalizing victim with
  | nil => exact ⟨nobody, nofun⟩
  | cons first rest ih =>
    obtain ⟨still, later⟩ := ih nobody
    unfold idlerOne at still
    split at still
    · next missing =>
      refine ⟨still, fun entry listed session found => ?_⟩
      rcases mem_cons.mp listed with rfl | tail
      · rw [missing] at found
        cases found
      · exact later entry tail session found
    next session isSession =>
    split at still
    · next read =>
      refine ⟨still, fun entry listed other found => ?_⟩
      rcases mem_cons.mp listed with rfl | tail
      · cases isSession.symm.trans found
        exact read
      · exact later entry tail other found
    split at still
    · cases still
    next best isBest =>
    split at still
    · cases still
    · rw [still] at isBest
      cases isBest

theorem idle_of_idlest_some {place : Nat}
    (chosen : entries.foldl registry.idlerOne victim = some place) :
    victim = some place ∨ ∃ entry ∈ entries, entry.2 = place ∧
      ∃ session, registry.opened[place]? = some session ∧ ¬ 0 < session.readers := by
  induction entries generalizing victim with
  | nil => exact .inl chosen
  | cons first rest ih =>
    rcases ih chosen with early | ⟨entry, listed, found⟩
    · unfold idlerOne at early
      split at early
      · exact .inl early
      next session isSession =>
      have here : first.2 = place → ∀ (_ : ¬ 0 < session.readers),
          ∃ entry ∈ first :: rest, entry.2 = place ∧ ∃ session,
            registry.opened[place]? = some session ∧ ¬ 0 < session.readers :=
        fun same idle => ⟨first, mem_cons_self, same, session, same ▸ isSession, idle⟩
      split at early
      · exact .inl early
      next idle =>
      split at early
      · exact .inr (here (Option.some.inj early) idle)
      split at early
      · exact .inr (here (Option.some.inj early) idle)
      · exact .inl early
    · exact .inr ⟨entry, mem_cons_of_mem _ listed, found⟩

end Registry

namespace Kept

variable {registry : Registry} {holders : List Nat} {place : Nat} {session : Session}

theorem read_of_busy (kept : Kept registry holders)
    (busy : ∀ entry ∈ registry.sessions, ∀ session, registry.opened[entry.2]? = some session → 0 <
      session.readers)
    (found : registry.opened[place]? = some session) (unclosed : session.closes = 0) :
    place ∈ holders := by
  by_contra unheld
  have idle : session.readers = 0 := by
    rw [kept.readers place session found, count_eq_zero.mpr unheld]
    rfl
  cases gone : session.retired with
  | true =>
    have closed := kept.closes place session found
    rw [if_pos ⟨gone, idle⟩, unclosed] at closed
    cases closed
  | false =>
    have listed := (kept.listed session.id place).mpr ⟨session, found, rfl, gone⟩
    exact absurd (busy _ listed session found) (by omega)

theorem read_of_full (kept : Kept registry holders) {idling : Ranging}
    (full : pagingCapacity ≤ (registry.reclaim idling).pinned)
    (found : (registry.reclaim idling).opened[place]? = some session)
    (unclosed : session.closes = 0) : place ∈ holders := by
  unfold Registry.reclaim at full found
  split at full
  · next before =>
    rw [if_pos before] at found
    cases chosen : registry.idlestLocked idling with
    | none =>
      rw [chosen] at found
      refine kept.read_of_busy (fun entry listed => ?_) found unclosed
      exact (Registry.readers_of_idlest_none chosen).2 entry
        ((idling.perm registry.sessions).mem_iff.mpr listed)
    | some victim =>
      exfalso
      rw [chosen] at full
      have bounded := kept.bounded
      rcases Registry.idle_of_idlest_some chosen with impossible | ⟨entry, visited, same, idlest⟩
      · cases impossible
      subst same
      have listed := (idling.perm registry.sessions).mem_iff.mp visited
      obtain ⟨other, isOther, _, remains⟩ := (kept.listed entry.1 entry.2).mp listed
      obtain ⟨_, again, idle⟩ := idlest
      cases isOther.symm.trans again
      have readers := kept.readers entry.2 other isOther
      have lower : (registry.retireLocked entry.2).pinned = registry.pinned - 1 := by
        unfold Registry.retireLocked
        rw [isOther]
        dsimp only
        rw [if_neg (eq_false_iff.mp remains), if_pos (by omega)]
        rfl
      dsimp only at full
      omega
  · next room => exact absurd full room

theorem read_of_closed (kept : Kept registry holders) (closed : registry.closed)
    (found : registry.opened[place]? = some session) (unclosed : session.closes = 0) :
    place ∈ holders := by
  refine kept.read_of_busy ?_ found unclosed
  rw [kept.shut closed]
  exact nofun

variable {binding : Binding} {op noun : String} {readings : Readings} {draws : List Id}
  {after : Registry}

theorem openSession (kept : Kept registry holders) (open' : registry.closed = false)
    (opened : registry.openSession binding op noun readings draws = (after, .ok place)) :
    Kept after (place :: holders) ∧ after.closed = registry.closed ∧ place = registry.names.length ∧
      ∃ id, after.names = registry.names ++ [(id, binding)] := by
  have reclaimed := kept.reclaim readings.idling
  have retires := Retires.of_reclaim registry readings.idling
  unfold Registry.openSession at opened
  generalize registry.reclaim readings.idling = emptied at opened reclaimed retires
  dsimp only at opened
  split at opened
  · cases opened
  next room =>
  split at opened
  · cases opened
  next id drawn =>
  have fresh := find?_some drawn
  cases opened
  refine ⟨reclaimed.opens rfl rfl (fun entry listed => ?_) (retires.closed.trans open') rfl rfl
    rfl (not_le.mp room) rfl rfl rfl, retires.closed, ?_, id, ?_⟩
  · exact of_decide_eq_true (all_eq_true.mp fresh entry listed)
  · rw [← retires.names, Registry.names, length_map]
  · rw [← retires.names, Registry.names, map_append]
    rfl

theorem openSession_error (kept : Kept registry holders) {fault : Fault}
    (refused : registry.openSession binding op noun readings draws = (after, .error fault)) :
    Kept after holders ∧ Retires registry after ∧
      ((∃ id ∈ draws, ∀ entry ∈ registry.sessions, entry.1 ≠ id) →
        ∀ (place : Nat) (session : Session), after.opened[place]? = some session →
          session.closes = 0 → place ∈ holders) := by
  have reclaimed := kept.reclaim readings.idling
  have retires := Retires.of_reclaim registry readings.idling
  unfold Registry.openSession at refused
  dsimp only at refused
  split at refused
  · next full =>
    cases refused
    exact ⟨reclaimed, retires, fun _ place session => kept.read_of_full full⟩
  split at refused
  · next undrawn =>
    cases refused
    refine ⟨reclaimed.withUse _, ⟨retires.closed, retires.names, retires.fewer⟩, ?_⟩
    rintro ⟨id, drawn, fresh⟩
    have taken := find?_eq_none.mp undrawn id drawn
    refine absurd (all_eq_true.mpr fun entry listed => ?_) taken
    exact decide_eq_true (fresh entry (retires.fewer listed))
  · cases refused

theorem retireLocked_unlists (kept : Kept registry holders) (entry : Id × Nat) :
    entry ∉ (registry.retireLocked entry.2).sessions := by
  intro listed
  obtain ⟨session, found, named, remains⟩ :=
    (kept.listed entry.1 entry.2).mp ((Retires.of_retireLocked registry entry.2).fewer listed)
  unfold Registry.retireLocked at listed
  rw [found] at listed
  dsimp only at listed
  rw [if_neg (eq_false_iff.mp remains)] at listed
  have gone : entry ∈ registry.sessions.filter fun entry => entry.1 ≠ session.id := by
    split at listed
    · exact listed
    · exact listed
  exact of_decide_eq_true (mem_filter.mp gone).2 named.symm

theorem retireAll (kept : Kept registry holders) (entries : List (Id × Nat)) :
    Kept (entries.foldl (fun registry entry => registry.retireLocked entry.2) registry) holders ∧
      Retires registry
        (entries.foldl (fun registry entry => registry.retireLocked entry.2) registry) ∧
      ∀ entry ∈ entries, entry ∉
        (entries.foldl (fun registry entry => registry.retireLocked entry.2) registry).sessions := by
  induction entries generalizing registry with
  | nil => exact ⟨kept, .refl registry, nofun⟩
  | cons first rest ih =>
    obtain ⟨later, retires, unlisted⟩ := ih (kept.retireLocked first.2)
    refine ⟨later, (Retires.of_retireLocked registry first.2).trans retires, ?_⟩
    intro entry visited
    rcases mem_cons.mp visited with rfl | tail
    · exact fun listed => kept.retireLocked_unlists entry (retires.fewer listed)
    · exact unlisted entry tail

end Kept

theorem Registry.retireLocked_of_closed (registry : Registry) (closed : Bool) (place : Nat) :
    { registry with closed }.retireLocked place = { registry.retireLocked place with closed } := by
  unfold Registry.retireLocked
  dsimp only
  split
  · rfl
  split
  · rfl
  split
  · rfl
  · rfl

theorem Registry.retireAll_of_closed (registry : Registry) (closed : Bool)
    (entries : List (Id × Nat)) :
    entries.foldl (fun registry entry => registry.retireLocked entry.2) { registry with closed } =
      { entries.foldl (fun registry entry => registry.retireLocked entry.2) registry with closed } := by
  induction entries generalizing registry with
  | nil => rfl
  | cons first rest ih =>
    rw [foldl_cons, foldl_cons, Registry.retireLocked_of_closed, ih]

namespace Kept

variable {registry : Registry} {holders : List Nat}

theorem shuts (kept : Kept registry holders) (ranging : Ranging) :
    Kept (registry.shut ranging) holders ∧ (registry.shut ranging).closed = true ∧
      (registry.shut ranging).names = registry.names := by
  unfold Registry.shut
  split
  · next closed => exact ⟨kept, closed, rfl⟩
  obtain ⟨later, retires, unlisted⟩ := kept.retireAll (ranging.visit registry.sessions)
  rw [Registry.retireAll_of_closed]
  refine ⟨?_, rfl, retires.names⟩
  refine ⟨later.readers, later.held, later.active, later.closes, later.pinned, later.bounded,
    later.listed, later.distinct, fun _ => eq_nil_iff_forall_not_mem.mpr ?_⟩
  intro entry listed
  refine unlisted entry ?_ listed
  exact (ranging.perm registry.sessions).mem_iff.mpr (retires.fewer listed)

variable {after : Registry} {binding : Binding} {session : Option Id} {op noun : String}
  {readings : Readings} {draws : List Id}

theorem acquireSession (kept : Kept registry holders) {place : Nat}
    (acquired : registry.acquireSession binding session op noun readings draws =
      (after, .ok place)) :
    Kept after (place :: holders) ∧ registry.closed = false ∧ (∀ id, session = some id →
        after.names = registry.names ∧ registry.names[place]? = some (id, binding)) ∧
      (session = none → place = registry.names.length ∧
        ∃ id, after.names = registry.names ++ [(id, binding)]) := by
  have expired := kept.expireLocked readings
  have retires := Retires.of_expireLocked registry readings
  unfold Registry.acquireSession at acquired
  generalize registry.expireLocked readings = left at acquired expired retires
  dsimp only at acquired
  split at acquired
  · cases acquired
  next unclosed =>
  have open' := eq_false_iff.mpr unclosed
  rw [← retires.names, ← retires.closed]
  split at acquired
  · obtain ⟨reads, _, names, named⟩ := expired.continueSession acquired
    refine ⟨reads, open', ?_, nofun⟩
    rintro _ ⟨⟩
    exact ⟨names, named⟩
  · obtain ⟨reads, _, last, names⟩ := expired.openSession open' acquired
    exact ⟨reads, open', nofun, fun _ => ⟨last, names⟩⟩

theorem acquireSession_error (kept : Kept registry holders) {fault : Fault}
    (refused : registry.acquireSession binding session op noun readings draws =
      (after, .error fault)) :
    Kept after holders ∧ Retires registry after ∧
      (session = none → (∃ id ∈ draws, ∀ entry ∈ registry.sessions, entry.1 ≠ id) →
        ∀ (place : Nat) (session : Session), after.opened[place]? = some session →
          session.closes = 0 → place ∈ holders) := by
  have expired := kept.expireLocked readings
  have retires := Retires.of_expireLocked registry readings
  unfold Registry.acquireSession at refused
  generalize registry.expireLocked readings = left at refused expired retires
  dsimp only at refused
  split at refused
  · next closed =>
    cases refused
    exact ⟨expired, retires, fun _ _ place session => expired.read_of_closed closed⟩
  split at refused
  · rw [continueSession_error refused]
    exact ⟨expired, retires, nofun⟩
  obtain ⟨kept, later, read⟩ := expired.openSession_error refused
  refine ⟨kept, retires.trans later, fun _ ⟨id, drawn, fresh⟩ => read ⟨id, drawn, ?_⟩⟩
  exact fun entry listed => fresh entry (retires.fewer listed)

end Kept

structure Paged (state : State) : Prop where
  kept : Kept state.registry state.holders
  shut : state.closers ≠ [] → state.registry.closed = true
  passed : ∀ closer ∈ state.closers, closer ≠ .waiting → state.holders = []
  opened : ∀ place id binding, .opened place id binding ∈ state.log ↔
    state.registry.names[place]? = some (id, binding)
  continued : ∀ place id binding, .continued place id binding ∈ state.log →
    state.registry.names[place]? = some (id, binding)

namespace Paged

variable {state after : State} {act : Act}

theorem initial (rankedTTL : Int) : Paged (.new rankedTTL) where
  kept := .initial rankedTTL
  shut := absurd rfl
  passed := nofun
  opened _ _ _ := by simp [State.new, Registry.names]
  continued := nofun

variable {registry : Registry}

theorem of_retires (paged : Paged state) {holders : List Nat} (kept : Kept registry holders)
    (retires : Retires state.registry registry) (emptied : state.holders = [] → holders = []) :
    Paged { state with registry, holders } where
  kept := kept
  shut closing := retires.closed.trans (paged.shut closing)
  passed closer listed late := emptied (paged.passed closer listed late)
  opened place id binding := by
    rw [paged.opened, ← retires.names]
  continued place id binding noted := by
    rw [← paged.continued place id binding noted, ← retires.names]

theorem of_closer (paged : Paged state) {index : Nat} {closer next : Closer}
    (found : state.closers[index]? = some closer)
    (emptied : next ≠ .waiting → state.holders = []) :
    Paged { state with closers := state.closers.set index next } where
  kept := paged.kept
  shut _ := paged.shut (ne_nil_of_mem (mem_of_getElem? found))
  passed other listed late := by
    rcases mem_or_eq_of_mem_set listed with old | rfl
    · exact paged.passed other old late
    · exact emptied late
  opened := paged.opened
  continued := paged.continued

theorem nobody_closes (paged : Paged state) (unclosed : state.registry.closed = false) :
    state.closers = [] := by
  by_contra closing
  have closed := paged.shut closing
  rw [unclosed] at closed
  cases closed

variable {binding : Binding} {place : Nat} {id : Id}

theorem of_continue (paged : Paged state) (kept : Kept registry (place :: state.holders))
    (unclosed : state.registry.closed = false) (names : registry.names = state.registry.names)
    (named : state.registry.names[place]? = some (id, binding)) :
    Paged { state with
      registry
      holders := place :: state.holders
      log := state.log ++ [.continued place id binding] } where
  kept := kept
  shut closing := absurd (paged.nobody_closes unclosed) closing
  passed closer listed := by
    replace listed : closer ∈ state.closers := listed
    rw [paged.nobody_closes unclosed] at listed
    cases listed
  opened other token name := by
    dsimp only
    rw [mem_append, paged.opened, names]
    exact or_iff_left (by simp)
  continued other token name noted := by
    dsimp only
    rw [names]
    rcases mem_append.mp noted with old | new
    · exact paged.continued other token name old
    · cases mem_singleton.mp new
      exact named

theorem of_open (paged : Paged state)
    (kept : Kept registry (state.registry.names.length :: state.holders))
    (unclosed : state.registry.closed = false)
    (names : registry.names = state.registry.names ++ [(id, binding)]) :
    Paged { state with
      registry
      holders := state.registry.names.length :: state.holders
      log := state.log ++ [.opened state.registry.names.length id binding] } where
  kept := kept
  shut closing := absurd (paged.nobody_closes unclosed) closing
  passed closer listed := by
    replace listed : closer ∈ state.closers := listed
    rw [paged.nobody_closes unclosed] at listed
    cases listed
  opened other token name := by
    dsimp only
    rw [mem_append, paged.opened, names, mem_singleton, getElem?_append]
    split
    · next old =>
      refine or_iff_left ?_
      rintro ⟨⟩
      exact old.false
    next new =>
    rw [getElem?_eq_none (not_lt.mp new), getElem?_singleton]
    constructor
    · rintro (⟨⟨⟩⟩ | ⟨⟨⟩⟩)
      rw [if_pos (Nat.sub_self _)]
    intro last
    split at last
    · next zero =>
      cases last
      have same : other = state.registry.names.length := by omega
      exact .inr (by rw [same])
    · cases last
  continued other token name noted := by
    dsimp only
    rw [names]
    rcases mem_append.mp noted with old | new
    · have before := paged.continued other token name old
      rw [getElem?_append_left (List.getElem?_eq_some_iff.mp before).1, before]
    · cases mem_singleton.mp new

theorem of_acquire (paged : Paged state) {session : Option Id} {op noun : String}
    {readings : Readings} {draws : List Id}
    (acquired : state.registry.acquireSession binding session op noun readings draws = (registry,
      .ok place)) :
    Paged { state with
      registry
      holders := place :: state.holders
      log := state.log ++ (Event.of registry place binding session).toList } := by
  obtain ⟨kept, unclosed, resumed, fresh⟩ := paged.kept.acquireSession acquired
  cases session with
  | some token =>
    obtain ⟨names, named⟩ := resumed token rfl
    exact paged.of_continue kept unclosed names named
  | none =>
    obtain ⟨rfl, id, names⟩ := fresh rfl
    have last : registry.names[state.registry.names.length]? = some (id, binding) := by
      rw [names, getElem?_concat_length]
    rw [Registry.names, getElem?_map] at last
    obtain ⟨session, isSession, same⟩ := map_eq_some_iff.mp last
    cases same
    have event : Event.of registry state.registry.names.length session.binding none =
        some (.opened state.registry.names.length session.id session.binding) := by
      rw [Event.of, isSession]
      rfl
    rw [event]
    exact paged.of_open kept unclosed names

theorem step (paged : Paged state) (stepped : machine.step state act = some after) :
    Paged after := by
  cases act with
  | acquire binding session op noun readings draws =>
    dsimp only [machine, Paging.step] at stepped
    split at stepped
    · next registry fault refused =>
      cases stepped
      obtain ⟨kept, retires, _⟩ := paged.kept.acquireSession_error refused
      exact paged.of_retires kept retires fun empty => empty
    next registry place acquired =>
    cases stepped
    exact paged.of_acquire acquired
  | release place finish now =>
    dsimp only [machine, Paging.step] at stepped
    split at stepped
    · next held =>
      cases stepped
      refine paged.of_retires (paged.kept.release held finish now)
        (Retires.of_release state.registry place finish now) fun empty => ?_
      rw [empty]
      rfl
    · cases stepped
  | tick readings =>
    dsimp only [machine, Paging.step] at stepped
    split at stepped
    · cases stepped
      exact paged.of_retires (paged.kept.expireLocked readings)
        (Retires.of_expireLocked state.registry readings) fun empty => empty
    · cases stepped
  | leave =>
    dsimp only [machine, Paging.step] at stepped
    split at stepped
    · cases stepped
      exact ⟨paged.kept, paged.shut, paged.passed, paged.opened, paged.continued⟩
    · cases stepped
  | close ranging =>
    dsimp only [machine, Paging.step] at stepped
    cases stepped
    obtain ⟨kept, closed, names⟩ := paged.kept.shuts ranging
    refine ⟨kept, fun _ => closed, ?_, ?_, ?_⟩
    · intro closer listed late
      rcases mem_append.mp listed with old | new
      · exact paged.passed closer old late
      · exact absurd (mem_singleton.mp new) late
    · intro place id binding
      rw [paged.opened, ← names]
    · intro place id binding noted
      rw [← paged.continued place id binding noted, ← names]
  | pass index =>
    dsimp only [machine, Paging.step] at stepped
    split at stepped
    · next found =>
      split at stepped
      · cases stepped
      next idle =>
      cases stepped
      refine paged.of_closer found fun _ => length_eq_zero_iff.mp ?_
      have active := paged.kept.active
      omega
    · cases stepped
  | done index =>
    dsimp only [machine, Paging.step] at stepped
    split at stepped
    · next found =>
      split at stepped
      · cases stepped
      cases stepped
      refine paged.of_closer found fun _ => ?_
      exact paged.passed _ (mem_of_getElem? found) nofun
    · cases stepped

theorem closed_of_returned (paged : Paged state) (returned : .returned ∈ state.closers)
    {session : Session} (listed : session ∈ state.registry.opened) : session.closes = 1 := by
  obtain ⟨place, found⟩ := getElem?_of_mem listed
  have empty := paged.passed _ returned nofun
  have shut := paged.kept.shut (paged.shut (ne_nil_of_mem returned))
  have idle : session.readers = 0 := by
    rw [paged.kept.readers place session found, empty]
    rfl
  have gone : session.retired = true := by
    by_contra remains
    have entry := (paged.kept.listed session.id place).mpr
      ⟨session, found, rfl, eq_false_iff.mpr remains⟩
    rw [shut] at entry
    cases entry
  rw [paged.kept.closes place session found, if_pos ⟨gone, idle⟩]

end Paged

theorem paged_run (rankedTTL : Int) (acts : List Act) : Paged (machine.run (.new rankedTTL) acts) :=
  Machine.run_invariant Paged.step (Paged.initial rankedTTL)

/-- In every state that requests, the ticker and closers bring about, the snapshots that are
open are those that `pinned` counts, and no more than there is room for. A snapshot was closed
once if its session is retired and no request holds it, and otherwise not at all. Who goes on
with a session names the tenant and the query it was opened for. A new session is refused only
where every open snapshot is being read, if `rand.Read` gives an id that is not taken. After
`close` every snapshot is closed. -/
theorem sessions_neither_leak_nor_cut_readers (rankedTTL : Int) (acts : List Act) :
    let state := machine.run (.new rankedTTL) acts
    ((state.registry.openSnapshots : Int) = state.registry.pinned ∧
      state.registry.pinned ≤ pagingCapacity) ∧
    (∀ (place : Nat) (session : Session), state.registry.opened[place]? = some session →
      session.closes = if session.retired ∧ place ∉ state.holders then 1 else 0) ∧
    (∀ place ∈ state.holders, ∃ session, state.registry.opened[place]? = some session ∧
      session.closes = 0) ∧
    (∀ place id binding, .continued place id binding ∈ state.log →
      .opened place id binding ∈ state.log ∧
        ∀ other name, .opened place other name ∈ state.log → other = id ∧ name = binding) ∧
    (∀ binding op noun readings draws after fault,
      (∃ id ∈ draws, ∀ entry ∈ state.registry.sessions, entry.1 ≠ id) →
      state.registry.acquireSession binding none op noun readings draws = (after, .error fault) →
      ∀ (place : Nat) (session : Session), after.opened[place]? = some session →
        session.closes = 0 → place ∈ state.holders) ∧
    (.returned ∈ state.closers → ∀ session ∈ state.registry.opened, session.closes = 1) := by
  intro state
  have paged : Paged state := paged_run rankedTTL acts
  refine ⟨⟨paged.kept.pinned.symm, paged.kept.bounded⟩, ?_, ?_, ?_, ?_, ?_⟩
  · intro place session found
    rw [paged.kept.closes place session found, paged.kept.readers place session found]
    simp only [Nat.cast_eq_zero, count_eq_zero]
  · intro place held
    have within := paged.kept.held place held
    refine ⟨_, getElem?_eq_getElem within, ?_⟩
    have readers := paged.kept.readers place _ (getElem?_eq_getElem within)
    have positive := count_pos_iff.mpr held
    rw [paged.kept.closes place _ (getElem?_eq_getElem within), if_neg (by omega)]
  · intro place id binding noted
    have named := paged.continued place id binding noted
    refine ⟨(paged.opened place id binding).mpr named, fun other name opened => ?_⟩
    have same := ((paged.opened place other name).mp opened).symm.trans named
    cases same
    exact ⟨rfl, rfl⟩
  · intro binding op noun readings draws after fault drawn refused
    exact (paged.kept.acquireSession_error refused).2.2 rfl drawn
  · exact fun returned session listed => paged.closed_of_returned returned listed

def sampleBinding : Binding := { tenant := [97] }

def sampleReadings : Readings := ⟨fun _ => 0, 0, .plain, .plain⟩

/-- A session is read by two requests when the registry is closed. -/
def sampleActs : List Act :=
  [.acquire sampleBinding none "memory.List" "listing" sampleReadings [Id.zero],
    .acquire sampleBinding (some Id.zero) "memory.List" "listing" sampleReadings [],
    .close .plain, .release 0 true 0, .leave, .release 0 false 0, .pass 0, .done 0]

theorem sessions_of_sampleActs :
    let state := machine.run (.new 60000000000) sampleActs
    (state.registry.openSnapshots : Int) = state.registry.pinned ∧
    Event.opened 0 Id.zero sampleBinding ∈ state.log ∧
    (∀ (place : Nat) (session : Session),
      (state.registry.acquireSession sampleBinding none "memory.List" "listing" sampleReadings
        [Id.zero]).1.opened[place]? = some session → session.closes = 0 →
        place ∈ state.holders) ∧
    state.registry.opened.length = 1 ∧ ∀ session ∈ state.registry.opened, session.closes = 1 := by
  obtain ⟨⟨pinned, _⟩, _, _, resumed, refused, shut⟩ :=
    sessions_neither_leak_nor_cut_readers 60000000000 sampleActs
  exact ⟨pinned, (resumed 0 Id.zero sampleBinding (by decide +kernel)).1,
    refused sampleBinding "memory.List" "listing" sampleReadings [Id.zero] _ _
      (by decide +kernel) rfl,
    by decide +kernel, shut (by decide +kernel)⟩

end Remem.Paging
