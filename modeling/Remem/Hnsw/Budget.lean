import Remem.Hnsw.Residency

/-!
# The budget counts what is resident

A measurement that is not yet charged is of a call that still pins its graph. As long as no
pinned graph is dropped from the map, what is charged adds up to what is resident once every
call has returned.
-/

namespace Remem.Residency

open Base Keys List Option Function Bool

def Cache.chargedFor (cache : Cache) (tenant : TenantId) : Int :=
  ((cache.held tenant).map Resident.bytes).getD 0

/-- What holds after so many acts, which have measured no graph more often than that. -/
structure Counted (taken : Nat) (state : State) : Prop where
  nodup : state.cache.order.Nodup
  listed : ∀ tenant, tenant ∈ state.cache.order ↔ state.cache.tenants tenant ≠ none
  named : ∀ tenant slot, state.cache.tenants tenant = some slot →
    ∃ resident, state.cache.residents[slot]? = some resident ∧ resident.tenant = tenant
  bytes : state.cache.bytes = (state.cache.order.map state.cache.chargedFor).sum
  pins : ∀ (slot : Nat) (resident : Resident), state.cache.residents[slot]? = some resident →
    resident.pin = state.calls.countP fun call => call.phase.holds = some slot
  kept : ∀ call ∈ state.calls, ∀ slot, call.phase.holds = some slot →
    ∃ resident, state.cache.residents[slot]? = some resident ∧
      state.cache.tenants resident.tenant = some slot
  /-- The last measurement is charged, or a call has it in hand. -/
  sizes : ∀ (slot : Nat) (resident : Resident), state.cache.residents[slot]? = some resident →
    resident.charged = resident.measured ∧ resident.bytes = resident.graph ∨
      resident.charged < resident.measured ∧ ∃ (index : Nat) (call : Call),
        state.calls[index]? = some call ∧ call.phase.pending = some (slot, resident.size)
  pending : ∀ call ∈ state.calls, ∀ slot size, call.phase.pending = some (slot, size) →
    ∃ resident, state.cache.residents[slot]? = some resident ∧ size.seq ≤ resident.measured ∧
      (size.seq = resident.measured → size.bytes = resident.graph)
  evicted : ∀ resident ∈ state.cache.evicted, resident.pin = 0
  measures : ∀ (slot : Nat) (resident : Resident), state.cache.residents[slot]? = some resident →
    resident.measured.toNat ≤ taken

theorem Cache.held_eq_some {cache : Cache} {tenant : TenantId} {resident : Resident}
    (held : cache.held tenant = some resident) :
    ∃ slot, cache.tenants tenant = some slot ∧ cache.residents[slot]? = some resident :=
  bind_eq_some_iff.mp held

section Sums

variable {Key : Type*} [BEq Key] [LawfulBEq Key] {keys : List Key} {key : Key}

theorem sum_map_erase (summand : Key → Int) (listed : key ∈ keys) :
    (keys.map summand).sum = summand key + ((keys.erase key).map summand).sum := by
  rw [((perm_cons_erase listed).map summand).sum_eq, map_cons, sum_cons]

theorem sum_map_of_eq_except {before after : Key → Int} (nodup : keys.Nodup)
    (listed : key ∈ keys) (same : ∀ other ∈ keys, other ≠ key → after other = before other) :
    (keys.map after).sum = (keys.map before).sum + (after key - before key) := by
  have rest : (keys.erase key).map after = (keys.erase key).map before := by
    refine map_congr_left fun other isOther => ?_
    obtain ⟨different, isKey⟩ := (List.Nodup.mem_erase_iff nodup).mp isOther
    exact same other isKey different
  rw [sum_map_erase after listed, sum_map_erase before listed, rest]
  omega

end Sums

namespace Counted

variable {taken : Nat} {state : State}

theorem initial (budget : Int) : Counted 0 ⟨{ budget }, []⟩ where
  nodup := nodup_nil
  listed _ := by simp
  named := nofun
  bytes := rfl
  pins := by simp
  kept := nofun
  sizes := by simp
  pending := nofun
  evicted := nofun
  measures := by simp

theorem of_call (counted : Counted taken state) (kind : CallKind) (tenant : TenantId) :
    Counted taken { state with calls := state.calls ++ [⟨kind, tenant, .called⟩] } where
  nodup := counted.nodup
  listed := counted.listed
  named := counted.named
  bytes := counted.bytes
  pins slot resident found := by
    rw [counted.pins slot resident found, countP_append]
    rfl
  kept call listed := by
    rcases mem_append.mp listed with old | new
    · exact counted.kept call old
    · rw [mem_singleton.mp new]
      exact nofun
  sizes slot resident found := by
    refine (counted.sizes slot resident found).imp_right fun ⟨behind, index, call, isCall, pending⟩ => ?_
    have within := (List.getElem?_eq_some_iff.mp isCall).1
    exact ⟨behind, index, call, by rw [getElem?_append_left within, isCall], pending⟩
  pending call listed := by
    rcases mem_append.mp listed with old | new
    · exact counted.pending call old
    · rw [mem_singleton.mp new]
      exact nofun
  evicted := counted.evicted
  measures := counted.measures

variable {index : Nat} {call : Call} {phase : Phase}

theorem of_stays (counted : Counted taken state) (found : state.calls[index]? = some call)
    (holds : phase.holds = call.phase.holds)
    (settled : ∀ slot size, call.phase.pending = some (slot, size) → ∀ resident,
      state.cache.residents[slot]? = some resident → size.seq ≤ resident.charged)
    (unmeasured : phase.pending = none) :
    Counted taken (state.goes index call phase state.cache) where
  nodup := counted.nodup
  listed := counted.listed
  named := counted.named
  bytes := counted.bytes
  pins slot resident isResident := by
    have total := countP_set_of_getElem? (fun call : Call => decide (call.phase.holds = some slot))
      found { call with phase }
    dsimp only at total
    rw [holds] at total
    rw [counted.pins slot resident isResident, State.goes]
    dsimp only
    omega
  kept other listed := by
    rcases mem_or_eq_of_mem_set listed with old | rfl
    · exact counted.kept other old
    · rw [holds]
      exact counted.kept call (mem_of_getElem? found)
  sizes slot resident isResident := by
    refine (counted.sizes slot resident isResident).imp_right fun ⟨behind, present⟩ => ⟨behind, ?_⟩
    refine exists_set_of_not found (fun isPending => ?_) _ present
    exact absurd (settled slot _ isPending resident isResident) (UInt64.not_le.mpr behind)
  pending other listed slot size isPending := by
    rcases mem_or_eq_of_mem_set listed with old | rfl
    · exact counted.pending other old slot size isPending
    · rw [unmeasured] at isPending
      cases isPending
  evicted := counted.evicted
  measures := counted.measures

variable {cache : Cache}

theorem bytes_of_same (counted : Counted taken state)
    (tenants : cache.tenants = state.cache.tenants)
    (order : cache.order = state.cache.order) (bytes : cache.bytes = state.cache.bytes)
    (same : ∀ (slot : Nat) (resident : Resident), state.cache.residents[slot]? = some resident →
      (cache.residents[slot]?).map Resident.bytes = some resident.bytes) :
    cache.bytes = (cache.order.map cache.chargedFor).sum := by
  rw [bytes, order, counted.bytes]
  refine congrArg List.sum (map_congr_left fun tenant _ => ?_)
  unfold Cache.chargedFor Cache.held
  rw [tenants]
  cases isSlot : state.cache.tenants tenant with
  | none => rfl
  | some slot =>
    obtain ⟨resident, isResident, _⟩ := counted.named tenant slot isSlot
    change ((state.cache.residents[slot]?).map _).getD 0 = ((cache.residents[slot]?).map _).getD 0
    rw [same slot resident isResident, isResident]
    rfl

variable {tenant : TenantId}

theorem forget (counted : Counted taken state)
    (unpinned : ∀ resident, state.cache.held tenant = some resident → resident.pin = 0) :
    Counted taken ⟨state.cache.forget tenant, state.calls⟩ := by
  have others : ∀ other, other ≠ tenant →
      (state.cache.forget tenant).held other = state.cache.held other := by
    intro other different
    unfold Cache.held Cache.forget
    dsimp only
    rw [update_of_ne different]
  constructor
  case nodup => exact counted.nodup.erase tenant
  case listed =>
    intro other
    change other ∈ state.cache.order.erase tenant ↔
      Function.update state.cache.tenants tenant none other ≠ none
    rw [List.Nodup.mem_erase_iff counted.nodup, counted.listed]
    by_cases same : other = tenant
    · subst same
      simp
    · rw [update_of_ne same]
      simp [same]
  case named =>
    intro other slot isSlot
    change Function.update state.cache.tenants tenant none other = some slot at isSlot
    by_cases same : other = tenant
    · subst same
      rw [update_self] at isSlot
      cases isSlot
    · rw [update_of_ne same] at isSlot
      exact counted.named other slot isSlot
  case bytes =>
    change state.cache.bytes - state.cache.chargedFor tenant =
      ((state.cache.order.erase tenant).map (state.cache.forget tenant).chargedFor).sum
    have rest : (state.cache.order.erase tenant).map (state.cache.forget tenant).chargedFor =
        (state.cache.order.erase tenant).map state.cache.chargedFor := by
      refine map_congr_left fun other isOther => ?_
      have different := ((List.Nodup.mem_erase_iff counted.nodup).mp isOther).1
      rw [Cache.chargedFor, Cache.chargedFor, others other different]
    rw [rest, counted.bytes]
    by_cases present : tenant ∈ state.cache.order
    · rw [sum_map_erase _ present]
      omega
    have absent : state.cache.tenants tenant = none := by
      by_contra isSome
      exact present ((counted.listed tenant).mpr isSome)
    rw [erase_of_not_mem present, Cache.chargedFor, Cache.held, absent]
    exact Int.sub_zero _
  case pins => exact counted.pins
  case kept =>
    intro call listed slot holds
    obtain ⟨resident, isResident, inMap⟩ := counted.kept call listed slot holds
    refine ⟨resident, isResident, ?_⟩
    change Function.update state.cache.tenants tenant none resident.tenant = some slot
    rw [update_of_ne]
    · exact inMap
    rintro rfl
    have held : state.cache.held resident.tenant = some resident := by
      rw [Cache.held, inMap]
      exact isResident
    have none := unpinned resident held
    rw [counted.pins slot resident isResident] at none
    exact countP_eq_zero.mp none call listed (decide_eq_true holds)
  case sizes => exact counted.sizes
  case pending => exact counted.pending
  case evicted => exact counted.evicted
  case measures => exact counted.measures

theorem evictRounds (rounds : Nat) {calls : List Call} (counted : Counted taken ⟨cache, calls⟩) :
    Counted taken ⟨cache.evictRounds rounds, calls⟩ := by
  induction rounds generalizing cache with
  | zero => exact counted
  | succ rounds ih =>
    unfold Cache.evictRounds
    split
    · exact counted
    split
    · exact counted
    next tenant found =>
    have chosen := find?_some found
    have unpinned : ∀ resident, cache.held tenant = some resident → resident.pin = 0 := by
      intro resident held
      rw [held, any_some, and_eq_true] at chosen
      exact of_decide_eq_true chosen.1
    have dropped := counted.forget unpinned
    refine ih ⟨dropped.nodup, dropped.listed, dropped.named,
      dropped.bytes, dropped.pins, dropped.kept, dropped.sizes, dropped.pending, ?_,
      dropped.measures⟩
    intro resident listed
    rcases mem_append.mp listed with new | old
    · exact unpinned resident (mem_toList.mp new)
    · exact dropped.evicted resident old

theorem touch (counted : Counted taken state) (present : state.cache.tenants tenant ≠ none) :
    Counted taken ⟨state.cache.touch tenant, state.calls⟩ := by
  have isListed := (counted.listed tenant).mpr present
  refine ⟨?_, fun other => ?_, counted.named, ?_, counted.pins, counted.kept, counted.sizes,
    counted.pending, counted.evicted, counted.measures⟩
  · refine nodup_append.mpr ⟨counted.nodup.erase tenant, nodup_singleton _, ?_⟩
    rintro first listed second isTenant rfl
    rw [mem_singleton.mp isTenant] at listed
    exact ((List.Nodup.mem_erase_iff counted.nodup).mp listed).1 rfl
  · change other ∈ state.cache.order.erase tenant ++ [tenant] ↔ state.cache.tenants other ≠ none
    rw [mem_append, List.Nodup.mem_erase_iff counted.nodup, mem_singleton, counted.listed]
    by_cases same : other = tenant
    · subst same
      simpa using present
    · simp [same]
  · change state.cache.bytes = ((state.cache.order.erase tenant ++ [tenant]).map
      state.cache.chargedFor).sum
    rw [map_append, sum_append, counted.bytes, sum_map_erase _ isListed,
      map_singleton, sum_singleton]
    omega

variable {slot : Nat} {resident : Resident}

theorem of_modify (counted : Counted taken state) {change : Resident → Resident}
    (found : state.calls[index]? = some call)
    (isResident : state.cache.residents[slot]? = some resident)
    (tenants : ∀ before, (change before).tenant = before.tenant)
    (charges : ∀ before, (change before).bytes = before.bytes)
    (away : ∀ other, other ≠ slot → (phase.holds = some other ↔ call.phase.holds = some other))
    (counts : (change resident).pin + (decide (call.phase.holds = some slot)).toNat =
      resident.pin + (decide (phase.holds = some slot)).toNat)
    (inMap : state.cache.tenants resident.tenant = some slot) (settled : call.phase.pending = none)
    (sizes : (change resident).charged = (change resident).measured ∧
        (change resident).bytes = (change resident).graph ∨
      (change resident).charged < (change resident).measured ∧ ∃ (place : Nat) (other : Call),
        (state.calls.set index { call with phase })[place]? = some other ∧
          other.phase.pending = some (slot, (change resident).size))
    (old : ∀ size : Size, size.seq ≤ resident.measured ∧
      (size.seq = resident.measured → size.bytes = resident.graph) →
      size.seq ≤ (change resident).measured ∧
        (size.seq = (change resident).measured → size.bytes = (change resident).graph))
    (new : ∀ place size, phase.pending = some (place, size) →
      place = slot ∧ size.seq ≤ (change resident).measured ∧
        (size.seq = (change resident).measured → size.bytes = (change resident).graph))
    (measures : (change resident).measured.toNat ≤ taken) :
    Counted taken (state.goes index call phase { state.cache with
      residents := state.cache.residents.modify slot change }) := by
  let changed : List Resident := state.cache.residents.modify slot change
  have get : ∀ {place : Nat} {other : Resident}, changed[place]? = some other →
      ∃ before, state.cache.residents[place]? = some before ∧
        other = if slot = place then change before else before :=
    fun isOther => getElem?_modify_eq_some.mp isOther
  have put : ∀ {place : Nat} {before : Resident}, state.cache.residents[place]? = some before →
      changed[place]? = some (if slot = place then change before else before) :=
    fun isBefore => getElem?_modify_eq_some.mpr ⟨_, isBefore, rfl⟩
  have sameTenant : ∀ place before,
      (if slot = place then change before else before).tenant = before.tenant := by
    intro place before
    split
    · exact tenants before
    · rfl
  constructor
  case nodup => exact counted.nodup
  case listed => exact counted.listed
  case named =>
    intro tenant place isPlace
    obtain ⟨before, isBefore, rfl⟩ := counted.named tenant place isPlace
    exact ⟨_, put isBefore, sameTenant place before⟩
  case bytes =>
    refine counted.bytes_of_same rfl rfl rfl fun place before isBefore => ?_
    change (changed[place]?).map _ = _
    rw [put isBefore]
    split
    · exact congrArg some (charges before)
    · rfl
  case pins =>
    intro place other isOther
    obtain ⟨before, isBefore, rfl⟩ := get isOther
    have pins := counted.pins place before isBefore
    have total := countP_set_of_getElem?
      (fun call : Call => decide (call.phase.holds = some place)) found { call with phase }
    change Resident.pin _ = (state.calls.set index { call with phase }).countP _
    dsimp only at total
    split
    · next same =>
      subst same
      cases isResident.symm.trans isBefore
      omega
    next apart =>
    rw [decide_eq_decide.mpr (away place (Ne.symm apart))] at total
    omega
  case kept =>
    intro other listed place holds
    have old : ∃ before, state.cache.residents[place]? = some before ∧
        state.cache.tenants before.tenant = some place := by
      rcases mem_or_eq_of_mem_set listed with old | rfl
      · exact counted.kept other old place holds
      by_cases same : place = slot
      · subst same
        exact ⟨resident, isResident, inMap⟩
      · exact counted.kept call (mem_of_getElem? found) place ((away place same).mp holds)
    obtain ⟨before, isBefore, isPlace⟩ := old
    exact ⟨_, put isBefore, (sameTenant place before).symm ▸ isPlace⟩
  case sizes =>
    intro place other isOther
    obtain ⟨before, isBefore, rfl⟩ := get isOther
    split
    · next same =>
      subst same
      cases isResident.symm.trans isBefore
      exact sizes
    · refine (counted.sizes place before isBefore).imp_right (And.imp_right ?_)
      exact exists_set_of_not found (by rw [settled]; nofun) _
  case pending =>
    intro other listed place size isPending
    rcases mem_or_eq_of_mem_set listed with isOld | rfl
    · obtain ⟨before, isBefore, measured⟩ := counted.pending other isOld place size isPending
      refine ⟨_, put isBefore, ?_⟩
      split
      · next same =>
        subst same
        cases isResident.symm.trans isBefore
        exact old size measured
      · exact measured
    · obtain ⟨rfl, measured⟩ := new place size isPending
      exact ⟨_, put isResident, by rwa [if_pos rfl]⟩
  case evicted => exact counted.evicted
  case measures =>
    intro place other isOther
    obtain ⟨before, isBefore, rfl⟩ := get isOther
    split
    · next same =>
      subst same
      cases isResident.symm.trans isBefore
      exact measures
    · exact counted.measures place before isBefore

theorem of_repin (counted : Counted taken state) (count : Nat → Nat)
    (found : state.calls[index]? = some call)
    (isResident : state.cache.residents[slot]? = some resident)
    (away : ∀ other, other ≠ slot → (phase.holds = some other ↔ call.phase.holds = some other))
    (counts : count resident.pin + (decide (call.phase.holds = some slot)).toNat = resident.pin +
      (decide (phase.holds = some slot)).toNat)
    (inMap : state.cache.tenants resident.tenant = some slot) (settled : call.phase.pending = none)
    (unmeasured : phase.pending = none) :
    Counted taken (state.goes index call phase { state.cache with
      residents := state.cache.residents.modify slot fun resident =>
        { resident with pin := count resident.pin } }) := by
  refine counted.of_modify found isResident (fun _ => rfl) (fun _ => rfl) away counts inMap settled
    ?_ (fun _ measured => measured) (fun place size isPending => ?_)
    (counted.measures slot resident isResident)
  · refine (counted.sizes slot resident isResident).imp_right (And.imp_right ?_)
    exact exists_set_of_not found (by rw [settled]; nofun) _
  · rw [unmeasured] at isPending
    cases isPending

theorem of_release (counted : Counted taken state) (found : state.calls[index]? = some call)
    (holds : call.phase.holds = some slot) (settled : call.phase.pending = none)
    (lets : phase.holds = none) (unmeasured : phase.pending = none) :
    Counted taken (state.goes index call phase (state.cache.release slot)) := by
  obtain ⟨resident, isResident, inMap⟩ := counted.kept call (mem_of_getElem? found) slot holds
  have released : state.cache.release slot = { state.cache with
      residents := state.cache.residents.modify slot fun resident =>
        { resident with pin := resident.pin - 1 } } := by
    unfold Cache.release
    congr 2
    funext resident
    split
    · rfl
    · rw [show resident.pin - 1 = resident.pin by omega]
  have held := counted.pins slot resident isResident
  have positive : 0 < resident.pin := by
    rw [held]
    exact countP_pos_iff.mpr ⟨call, mem_of_getElem? found, decide_eq_true holds⟩
  rw [released]
  refine counted.of_repin (· - 1) found isResident (fun other apart => ?_) ?_ inMap settled
    unmeasured
  · rw [lets, holds]
    constructor
    · nofun
    · rintro ⟨⟩
      exact absurd rfl apart
  · rw [lets, holds, decide_eq_true rfl]
    change resident.pin - 1 + 1 = resident.pin + 0
    omega

theorem of_new (counted : Counted taken state) (found : state.calls[index]? = some call)
    (absent : state.cache.tenants tenant = none) (free : call.phase.holds = none)
    (settled : call.phase.pending = none) (holds : phase.holds = some state.cache.residents.length)
    (unmeasured : phase.pending = none) :
    Counted taken (state.goes index call phase (Cache.touch { state.cache with
      residents := state.cache.residents ++ [{ tenant, pin := 1 }]
      tenants := Function.update state.cache.tenants tenant
        (some state.cache.residents.length) } tenant)) := by
  have unlisted : tenant ∉ state.cache.order := fun listed =>
    (counted.listed tenant).mp listed absent
  have order : state.cache.order.erase tenant = state.cache.order :=
    erase_of_not_mem unlisted
  let grown : List Resident := state.cache.residents ++ [{ tenant, pin := 1 }]
  let map : TenantId → Option Nat :=
    Function.update state.cache.tenants tenant (some state.cache.residents.length)
  have mapNew : map tenant = some state.cache.residents.length := update_self _ _ _
  have mapOld : ∀ {other}, other ≠ tenant → map other = state.cache.tenants other :=
    fun different => update_of_ne different _ _
  have get : ∀ {place : Nat} {other : Resident}, grown[place]? = some other →
      state.cache.residents[place]? = some other ∨
        place = state.cache.residents.length ∧ other = { tenant, pin := 1 } := by
    intro place other isOther
    rw [getElem?_append] at isOther
    split at isOther
    · exact Or.inl isOther
    next beyond =>
    have isNew := mem_singleton.mp (mem_of_getElem? isOther)
    have fits := (List.getElem?_eq_some_iff.mp isOther).1
    rw [length_singleton] at fits
    exact Or.inr ⟨by omega, isNew⟩
  have put : ∀ {place : Nat} {other : Resident}, state.cache.residents[place]? = some other →
      grown[place]? = some other := by
    intro place other isOther
    have within := (List.getElem?_eq_some_iff.mp isOther).1
    rw [getElem?_append_left within, isOther]
  have putNew : grown[state.cache.residents.length]? = some { tenant, pin := 1 } := by
    rw [getElem?_append_right le_rfl, Nat.sub_self]
    rfl
  constructor
  case nodup =>
    change (state.cache.order.erase tenant ++ [tenant]).Nodup
    rw [order]
    refine nodup_append.mpr ⟨counted.nodup, nodup_singleton _, ?_⟩
    rintro first listed second isTenant rfl
    rw [mem_singleton.mp isTenant] at listed
    exact unlisted listed
  case listed =>
    intro other
    change other ∈ state.cache.order.erase tenant ++ [tenant] ↔ map other ≠ none
    rw [order, mem_append, mem_singleton, counted.listed]
    by_cases same : other = tenant
    · subst same
      simp [mapNew]
    · simp [mapOld same, same]
  case named =>
    intro other slot isSlot
    change map other = some slot at isSlot
    by_cases same : other = tenant
    · subst same
      cases mapNew.symm.trans isSlot
      exact ⟨_, putNew, rfl⟩
    rw [mapOld same] at isSlot
    obtain ⟨resident, isResident, named⟩ := counted.named other slot isSlot
    exact ⟨resident, put isResident, named⟩
  case bytes =>
    change state.cache.bytes = ((state.cache.order.erase tenant ++ [tenant]).map fun other =>
      ((map other >>= fun slot => grown[slot]?).map Resident.bytes).getD 0).sum
    rw [order, map_append, sum_append, counted.bytes, map_singleton, sum_singleton]
    rw [mapNew]
    change _ = _ + ((grown[state.cache.residents.length]?).map Resident.bytes).getD 0
    rw [putNew]
    change _ = _ + (0 : Int)
    rw [Int.add_zero]
    refine congrArg List.sum (map_congr_left fun other isOther => ?_)
    have different : other ≠ tenant := fun same => unlisted (same ▸ isOther)
    rw [mapOld different, Cache.chargedFor, Cache.held]
    cases isPlace : state.cache.tenants other with
    | none => rfl
    | some place =>
      obtain ⟨before, isBefore, _⟩ := counted.named other place isPlace
      change ((state.cache.residents[place]?).map _).getD 0 = ((grown[place]?).map _).getD 0
      rw [isBefore, put isBefore]
  case pins =>
    intro place other isOther
    have total := countP_set_of_getElem?
      (fun call : Call => decide (call.phase.holds = some place)) found { call with phase }
    change Resident.pin _ = (state.calls.set index { call with phase }).countP _
    dsimp only at total
    rw [free, holds] at total
    rcases get isOther with old | ⟨rfl, rfl⟩
    · have pins := counted.pins place other old
      have within := (List.getElem?_eq_some_iff.mp old).1
      have apart : ¬ some state.cache.residents.length = some place := by
        rintro ⟨⟩
        omega
      simp only [reduceCtorEq, decide_false, apart, toNat_false] at total
      omega
    have nobody : state.calls.countP
        (fun call => decide (call.phase.holds = some state.cache.residents.length)) = 0 := by
      refine countP_eq_zero.mpr fun other listed isHolder => ?_
      obtain ⟨_, isResident, _⟩ := counted.kept other listed _ (of_decide_eq_true isHolder)
      exact absurd (List.getElem?_eq_some_iff.mp isResident).1 (lt_irrefl _)
    simp only [reduceCtorEq, decide_false, decide_true, toNat_false, toNat_true, nobody] at total
    change 1 = _
    omega
  case kept =>
    intro other listed place isHolder
    rcases mem_or_eq_of_mem_set listed with old | rfl
    · obtain ⟨resident, isResident, inMap⟩ := counted.kept other old place isHolder
      refine ⟨resident, put isResident, ?_⟩
      refine (mapOld ?_).trans inMap
      intro same
      rw [same, absent] at inMap
      cases inMap
    · cases holds.symm.trans isHolder
      exact ⟨_, putNew, mapNew⟩
  case sizes =>
    intro place other isOther
    rcases get isOther with old | ⟨rfl, rfl⟩
    · refine (counted.sizes place other old).imp_right (And.imp_right ?_)
      exact exists_set_of_not found (by rw [settled]; nofun) _
    · exact Or.inl ⟨rfl, rfl⟩
  case pending =>
    intro other listed place size isPending
    rcases mem_or_eq_of_mem_set listed with old | rfl
    · obtain ⟨resident, isResident, measured⟩ := counted.pending other old place size isPending
      exact ⟨resident, put isResident, measured⟩
    · rw [unmeasured] at isPending
      cases isPending
  case evicted => exact counted.evicted
  case measures =>
    intro place other isOther
    rcases get isOther with old | ⟨rfl, rfl⟩
    · exact counted.measures place other old
    · exact Nat.zero_le _

theorem of_pin (counted : Counted taken state) (found : state.calls[index]? = some call)
    (pinned : state.cache.pin tenant = (cache, slot)) (free : call.phase.holds = none)
    (settled : call.phase.pending = none) (holds : phase.holds = some slot)
    (unmeasured : phase.pending = none) : Counted taken (state.goes index call phase cache) := by
  unfold Cache.pin at pinned
  split at pinned
  · next place isPlace =>
    cases pinned
    obtain ⟨resident, isResident, rfl⟩ := counted.named tenant slot isPlace
    have repinned : Counted taken (state.goes index call phase { state.cache with
        residents := state.cache.residents.modify slot fun resident =>
          { resident with pin := resident.pin + 1 } }) := by
      refine counted.of_repin (· + 1) found isResident (fun other apart => ?_) ?_ isPlace settled
        unmeasured
      · rw [free, holds]
        constructor
        · rintro ⟨⟩
          exact absurd rfl apart
        · nofun
      · rw [free, holds, decide_eq_true rfl]
        rfl
    have present : state.cache.tenants resident.tenant ≠ none := by
      rw [isPlace]
      nofun
    exact repinned.touch present
  · next absent =>
    cases pinned
    exact counted.of_new found absent free settled holds unmeasured

theorem later (counted : Counted taken state) : Counted (taken + 1) state :=
  { counted with
    measures := fun slot resident isResident =>
      Nat.le_succ_of_le (counted.measures slot resident isResident) }

theorem of_measured (counted : Counted taken state) (room : taken + 1 < UInt64.size) {graph : Int}
    {next : Next} {after : State} (found : state.calls[index]? = some call)
    (holds : call.phase.holds = some slot) (settled : call.phase.pending = none)
    (measured : state.measured index call slot graph next = some after) :
    Counted (taken + 1) after := by
  obtain ⟨resident, isResident, rfl⟩ := map_eq_some_iff.mp measured
  obtain ⟨_, isHeld, inMap⟩ := counted.kept call (mem_of_getElem? found) slot holds
  cases isResident.symm.trans isHeld
  have bound := counted.measures slot resident isResident
  have counts : (resident.measured + 1).toNat = resident.measured.toNat + 1 :=
    toNat_succ (by omega)
  have grows : resident.measured < resident.measured + 1 := by
    rw [UInt64.lt_iff_toNat_lt, counts]
    exact Nat.lt_succ_self _
  refine counted.later.of_modify found isResident (fun _ => rfl) (fun _ => rfl)
    (fun other _ => ?_) ?_ inMap settled ?_ (fun size ⟨early, _⟩ => ?_) ?_ ?_
  · rw [holds]
    rfl
  · rw [holds]
    rfl
  · refine Or.inr ⟨?_, index, _, getElem?_set_self (List.getElem?_eq_some_iff.mp found).1, rfl⟩
    change resident.charged < resident.measured + 1
    rcases counted.sizes slot resident isResident with ⟨same, _⟩ | ⟨behind, _⟩
    · rwa [same]
    · exact UInt64.lt_trans behind grows
  · have behind := UInt64.lt_of_le_of_lt early grows
    exact ⟨UInt64.le_of_lt behind, fun late => absurd late (UInt64.ne_of_lt behind)⟩
  · rintro place size ⟨⟩
    exact ⟨rfl, UInt64.le_refl _, fun _ => rfl⟩
  · change (resident.measured + 1).toNat ≤ taken + 1
    omega

variable {size : Size}

theorem charge (counted : Counted taken state)
    (isResident : state.cache.residents[slot]? = some resident)
    (inMap : state.cache.tenants resident.tenant = some slot) (early : size.seq ≤ resident.measured)
    (last : size.seq = resident.measured → size.bytes = resident.graph) :
    Counted taken ⟨state.cache.charge slot size, state.calls⟩ := by
  unfold Cache.charge
  rw [isResident]
  dsimp only
  split
  · exact counted
  next newer =>
  let now : Resident := { resident with bytes := size.bytes, charged := size.seq }
  obtain ⟨within, _⟩ := List.getElem?_eq_some_iff.mp isResident
  have get : ∀ {place : Nat} {other : Resident},
      (state.cache.residents.set slot now)[place]? = some other →
      place = slot ∧ other = now ∨ place ≠ slot ∧ state.cache.residents[place]? = some other := by
    intro place other isOther
    rw [getElem?_set] at isOther
    split at isOther
    · next same => exact Or.inl ⟨same.symm, (Option.some.inj isOther).symm⟩
    · next apart => exact Or.inr ⟨Ne.symm apart, isOther⟩
  have put : ∀ {place : Nat} {other : Resident}, state.cache.residents[place]? = some other →
      place ≠ slot → (state.cache.residents.set slot now)[place]? = some other :=
    fun isOther apart => (getElem?_set_ne (Ne.symm apart)).trans isOther
  have putNow : (state.cache.residents.set slot now)[slot]? = some now :=
    getElem?_set_self within
  have keeps : ∀ {place : Nat} {other : Resident}, state.cache.residents[place]? = some other →
      ∃ after, (state.cache.residents.set slot now)[place]? = some after ∧
        after.tenant = other.tenant ∧ after.measured = other.measured ∧
        after.graph = other.graph := by
    intro place other isOther
    by_cases same : place = slot
    · subst same
      cases isResident.symm.trans isOther
      exact ⟨now, putNow, rfl, rfl, rfl⟩
    · exact ⟨other, put isOther same, rfl, rfl, rfl⟩
  constructor
  case nodup => exact counted.nodup
  case listed => exact counted.listed
  case named =>
    intro tenant place isPlace
    obtain ⟨before, isBefore, rfl⟩ := counted.named tenant place isPlace
    obtain ⟨after, isAfter, sameTenant, _⟩ := keeps isBefore
    exact ⟨after, isAfter, sameTenant⟩
  case bytes =>
    have isListed : resident.tenant ∈ state.cache.order :=
      (counted.listed _).mpr (by rw [inMap]; nofun)
    let charged : Cache :=
      { state.cache with
        bytes := state.cache.bytes + (size.bytes - resident.bytes)
        residents := state.cache.residents.set slot now }
    have before : state.cache.chargedFor resident.tenant = resident.bytes := by
      rw [Cache.chargedFor, Cache.held, inMap]
      change ((state.cache.residents[slot]?).map Resident.bytes).getD 0 = resident.bytes
      rw [isResident]
      rfl
    have after : charged.chargedFor resident.tenant = size.bytes := by
      change ((state.cache.tenants resident.tenant >>= fun slot =>
        (state.cache.residents.set _ now)[slot]?).map Resident.bytes).getD 0 = size.bytes
      rw [inMap]
      change (((state.cache.residents.set slot now)[slot]?).map Resident.bytes).getD 0 = _
      rw [putNow]
      rfl
    have others : ∀ tenant ∈ state.cache.order, tenant ≠ resident.tenant →
        charged.chargedFor tenant = state.cache.chargedFor tenant := by
      intro tenant _ different
      change ((state.cache.tenants tenant >>= fun slot =>
        (state.cache.residents.set _ now)[slot]?).map Resident.bytes).getD 0 = _
      rw [Cache.chargedFor, Cache.held]
      cases isPlace : state.cache.tenants tenant with
      | none => rfl
      | some place =>
        obtain ⟨other, isOther, named⟩ := counted.named tenant place isPlace
        have apart : place ≠ slot := by
          rintro rfl
          cases isResident.symm.trans isOther
          exact different named.symm
        change (((state.cache.residents.set slot now)[place]?).map Resident.bytes).getD 0 =
          ((state.cache.residents[place]?).map Resident.bytes).getD 0
        rw [put isOther apart, isOther]
    have total := sum_map_of_eq_except counted.nodup isListed others
    change charged.bytes = (state.cache.order.map charged.chargedFor).sum
    rw [total, before, after, ← counted.bytes]
  case pins =>
    intro place other isOther
    rcases get isOther with ⟨rfl, rfl⟩ | ⟨_, old⟩
    · exact counted.pins place resident isResident
    · exact counted.pins place other old
  case kept =>
    intro call listed place holds
    obtain ⟨before, isBefore, isPlace⟩ := counted.kept call listed place holds
    obtain ⟨after, isAfter, sameTenant, _⟩ := keeps isBefore
    exact ⟨after, isAfter, by rwa [sameTenant]⟩
  case sizes =>
    intro place other isOther
    rcases get isOther with ⟨rfl, rfl⟩ | ⟨_, old⟩
    · rcases UInt64.lt_or_eq_of_le early with behind | isLast
      · refine Or.inr ⟨behind, ?_⟩
        rcases counted.sizes place resident isResident with ⟨same, _⟩ | ⟨_, present⟩
        · exact absurd (same ▸ early) newer
        · exact present
      · exact Or.inl ⟨isLast, last isLast⟩
    · exact counted.sizes place other old
  case pending =>
    intro call listed place other isPending
    obtain ⟨before, isBefore, rest⟩ := counted.pending call listed place other isPending
    obtain ⟨after, isAfter, _, measured, graph⟩ := keeps isBefore
    exact ⟨after, isAfter, by rwa [measured, graph]⟩
  case evicted => exact counted.evicted
  case measures =>
    intro place other isOther
    rcases get isOther with ⟨rfl, rfl⟩ | ⟨_, old⟩
    · exact counted.measures place resident isResident
    · exact counted.measures place other old

theorem charged_charge {after : Resident} (isResident : cache.residents[slot]? = some resident)
    (isAfter : (cache.charge slot size).residents[slot]? = some after) :
    size.seq ≤ after.charged := by
  unfold Cache.charge at isAfter
  rw [isResident] at isAfter
  dsimp only at isAfter
  split at isAfter
  · next older =>
    cases isResident.symm.trans isAfter
    exact older
  have within := (List.getElem?_eq_some_iff.mp isResident).1
  rw [getElem?_set_self within] at isAfter
  cases isAfter
  exact UInt64.le_refl _

theorem of_charge (counted : Counted taken state) {next : Next}
    (found : state.calls[index]? = some call) (phase : call.phase = .charging slot size next) :
    Counted taken (state.goes index call (next.phase slot) (state.cache.charge slot size)) := by
  have listed := mem_of_getElem? found
  obtain ⟨resident, isResident, inMap⟩ := counted.kept call listed slot (by rw [phase]; rfl)
  obtain ⟨other, isOther, early, last⟩ := counted.pending call listed slot size (by rw [phase]; rfl)
  cases isResident.symm.trans isOther
  refine (counted.charge isResident inMap early last).of_stays found ?_ ?_ ?_
  · rw [phase]
    cases next <;> rfl
  · rw [phase]
    rintro _ _ ⟨⟩ after isAfter
    exact charged_charge isResident isAfter
  · cases next <;> rfl

end Counted

/-- The act forgets no tenant whose graph is pinned. -/
def unpinned (state : State) : Act → Bool
  | .step index .forget =>
    (state.calls[index]?.bind fun call => state.cache.held call.tenant).all
      fun resident => resident.pin = 0
  | _ => true

def ForgetsUnpinned (state : State) (act : Act) : Prop := unpinned state act = true

instance (state : State) (act : Act) : Decidable (ForgetsUnpinned state act) :=
  inferInstanceAs (Decidable (_ = true))

namespace Counted

variable {taken : Nat} {state after : State}

theorem callStep (counted : Counted taken state) (room : taken + 1 < UInt64.size) {index : Nat}
    {act : CallAct} (checked : ForgetsUnpinned state (.step index act))
    (stepped : state.callStep index act = some after) : Counted (taken + 1) after := by
  unfold State.callStep at stepped
  split at stepped
  · cases stepped
  next call found =>
  dsimp only at stepped
  have stays : ∀ {phase : Phase}, phase.holds = call.phase.holds →
      call.phase.pending = none → phase.pending = none →
      Counted (taken + 1) (state.goes index call phase state.cache) := by
    intro phase holds settled unmeasured
    refine counted.later.of_stays found holds ?_ unmeasured
    rw [settled]
    nofun
  split at stepped
  · next phase =>
    split at stepped
    · cases stepped
    · cases stepped
      exact counted.later.of_pin found rfl (by rw [phase]; rfl) (by rw [phase]; rfl) rfl rfl
  · next phase =>
    cases stepped
    exact stays (by rw [phase]; split <;> rfl) (by rw [phase]; rfl) (by split <;> rfl)
  · next phase =>
    split at stepped
    · cases stepped
      exact stays (by rw [phase]; rfl) (by rw [phase]; rfl) rfl
    split at stepped
    · cases stepped
      exact stays (by rw [phase]; rfl) (by rw [phase]; rfl) rfl
    · exact counted.of_measured room found (by rw [phase]; rfl) (by rw [phase]; rfl) stepped
  · next phase =>
    split at stepped
    · cases stepped
    · cases stepped
      exact stays (by rw [phase]; rfl) (by rw [phase]; rfl) rfl
  · next phase =>
    split at stepped
    · exact counted.of_measured room found (by rw [phase]; rfl) (by rw [phase]; rfl) stepped
    · exact counted.of_measured room found (by rw [phase]; rfl) (by rw [phase]; rfl) stepped
    · cases stepped
  · next phase =>
    cases stepped
    exact counted.later.of_charge found phase
  · next phase =>
    cases stepped
    have evicted : Counted (taken + 1) ⟨state.cache.evict, state.calls⟩ :=
      counted.later.evictRounds _
    refine evicted.of_stays found ?_ ?_ ?_
    · rw [phase]
      split <;> rfl
    · rw [phase]
      nofun
    · split <;> rfl
  · next phase =>
    cases stepped
    refine counted.later.of_release found (by rw [phase]; rfl) (by rw [phase]; rfl) ?_ ?_ <;>
      split <;> rfl
  · next phase =>
    cases stepped
    have dropped : Counted (taken + 1) ⟨state.cache.forget call.tenant, state.calls⟩ := by
      refine counted.later.forget fun resident held => ?_
      change (state.calls[index]?.bind _).all _ = true at checked
      rw [found, bind_some, held] at checked
      exact of_decide_eq_true checked
    refine dropped.of_stays found ?_ ?_ ?_
    · rw [phase]
      split <;> rfl
    · rw [phase]
      nofun
    · split <;> rfl
  · next phase =>
    split at stepped
    · cases stepped
      exact stays (by rw [phase]; split <;> rfl) (by rw [phase]; rfl) (by split <;> rfl)
    · cases stepped
  · next phase =>
    split at stepped
    · cases stepped
      exact stays (by rw [phase]; rfl) (by rw [phase]; rfl) rfl
    · cases stepped
  · next phase =>
    cases stepped
    exact stays (by rw [phase]; rfl) (by rw [phase]; rfl) rfl
  · next phase =>
    cases stepped
    exact counted.later.of_pin found rfl (by rw [phase]; rfl) (by rw [phase]; rfl) rfl rfl
  · next phase =>
    split at stepped
    · cases stepped
      exact stays (by rw [phase]; rfl) (by rw [phase]; rfl) rfl
    · exact counted.of_measured room found (by rw [phase]; rfl) (by rw [phase]; rfl) stepped
  · next phase =>
    exact counted.of_measured room found (by rw [phase]; rfl) (by rw [phase]; rfl) stepped
  · next phase =>
    cases stepped
    exact stays (by rw [phase]; rfl) (by rw [phase]; rfl) rfl
  · next phase =>
    cases stepped
    exact stays (by rw [phase]; rfl) (by rw [phase]; rfl) rfl
  · cases stepped

theorem step {act : Act} (room : taken + 1 < UInt64.size) (counted : Counted taken state)
    (checked : ForgetsUnpinned state act)
    (stepped : machine.step state act = some after) : Counted (taken + 1) after := by
  cases act with
  | call kind tenant =>
    cases stepped
    exact counted.later.of_call kind tenant
  | step index act => exact counted.callStep room checked stepped

end Counted

def State.Quiet (state : State) : Prop := ∀ call ∈ state.calls, call.phase = .returned

instance (state : State) : Decidable state.Quiet :=
  inferInstanceAs (Decidable (∀ call ∈ state.calls, call.phase = .returned))

def Cache.residentBytes (cache : Cache) (tenant : TenantId) : Int :=
  ((cache.held tenant).map Resident.graph).getD 0

/-- In every run that forgets a tenant only while nobody has pinned its graph: the order holds
the tenants of the map once each, nothing pinned was evicted, and when no call is under way
nothing is pinned and the budget is charged what is resident. Measurements are numbered by a
`uint64`, and the run is shorter than that counts. -/
theorem budget_counts_resident {budget : Int} {acts : List Act} {state : State}
    (few : acts.length < UInt64.size)
    (unpinned : machine.Meets ForgetsUnpinned ⟨{ budget }, []⟩ acts)
    (reached : machine.run ⟨{ budget }, []⟩ acts = state) :
    (∀ resident ∈ state.cache.evicted, resident.pin = 0) ∧
    (state.Quiet → state.cache.order.Nodup ∧
      (∀ tenant, tenant ∈ state.cache.order ↔ state.cache.tenants tenant ≠ none) ∧
      (∀ tenant resident, state.cache.held tenant = some resident → resident.pin = 0) ∧
      state.cache.bytes = (state.cache.order.map state.cache.residentBytes).sum) := by
  subst reached
  have counted := Machine.run_counts Counted.later Counted.step (.initial budget)
    (by rwa [Nat.zero_add]) unpinned
  refine ⟨counted.evicted, fun quiet => ⟨counted.nodup, counted.listed, ?_, ?_⟩⟩
  · intro tenant resident held
    obtain ⟨slot, _, isResident⟩ := Cache.held_eq_some held
    rw [counted.pins slot resident isResident]
    refine countP_eq_zero.mpr fun call listed holds => ?_
    rw [quiet call listed] at holds
    cases of_decide_eq_true holds
  · rw [counted.bytes]
    refine congrArg List.sum (map_congr_left fun tenant _ => ?_)
    unfold Cache.chargedFor Cache.residentBytes
    cases held : (machine.run ⟨{ budget }, []⟩ acts).cache.held tenant with
    | none => rfl
    | some resident =>
      obtain ⟨slot, _, isResident⟩ := Cache.held_eq_some held
      rcases counted.sizes slot resident isResident with ⟨_, same⟩ | ⟨_, _, call, isCall, pending⟩
      · exact same
      · rw [quiet call (mem_of_getElem? isCall)] at pending
        cases pending

def callActs (index : Nat) (kind : CallKind) (tenant : TenantId) (acts : List CallAct) : List Act :=
  .call kind tenant :: acts.map (.step index)

/-- A search, a write that evicts its graph, and a rebuild that replaces what was written. -/
def evictedAndRebuilt : List Act :=
  callActs 0 .search [97] [.acquire, .look, .load (some 80), .charge, .evict, .leave, .release] ++
  callActs 1 .indexed [98] [.acquire, .look, .load (some 80), .charge, .evict, .write 90 true,
    .charge, .evict, .release] ++
  callActs 2 .rebuild [98] [.replace true, .forget, .rejoin, .materialise (some 0), .charge,
    .batch 70 true, .charge, .finish, .evict, .release]

theorem budget_counts_resident_rebuilt :
    (machine.run ⟨{ budget := 100 }, []⟩ evictedAndRebuilt).cache.evicted.length = 1 ∧
    (machine.run ⟨{ budget := 100 }, []⟩ evictedAndRebuilt).cache.bytes =
      ((machine.run ⟨{ budget := 100 }, []⟩ evictedAndRebuilt).cache.order.map
        (machine.run ⟨{ budget := 100 }, []⟩ evictedAndRebuilt).cache.residentBytes).sum := by
  refine ⟨by decide +kernel, ?_⟩
  have quiet : (machine.run ⟨{ budget := 100 }, []⟩ evictedAndRebuilt).Quiet := by decide +kernel
  have unpinned : machine.Meets ForgetsUnpinned ⟨{ budget := 100 }, []⟩ evictedAndRebuilt := by
    decide +kernel
  obtain ⟨_, settled⟩ := budget_counts_resident (by decide) unpinned rfl
  exact (settled quiet).2.2.2

/-- A search has pinned a resident that it has not yet loaded when a rebuild forgets the
tenant. -/
def forgottenWhilePinned : List Act :=
  callActs 0 .search [97] [.acquire, .look] ++
  callActs 1 .rebuild [97] [.replace true, .forget, .rejoin, .materialise (some 0), .charge,
    .batch 70 true, .charge, .finish, .evict, .release] ++
  [.step 0 (.load (some 80)), .step 0 .charge, .step 0 .evict, .step 0 .leave, .step 0 .release]

/-- The budget stays charged with a graph that is not in the map. -/
theorem budget_counts_forgotten :
    (machine.run ⟨{ budget := 1000 }, []⟩ forgottenWhilePinned).Quiet ∧
    (machine.run ⟨{ budget := 1000 }, []⟩ forgottenWhilePinned).cache.bytes = 150 ∧
    ((machine.run ⟨{ budget := 1000 }, []⟩ forgottenWhilePinned).cache.order.map
      (machine.run ⟨{ budget := 1000 }, []⟩ forgottenWhilePinned).cache.residentBytes).sum =
        70 := by
  decide +kernel

end Remem.Residency
