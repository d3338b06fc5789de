import Remem.Storage.Engine
import Remem.Users.Staged

/-!
# Names stay unique and resolvable

A user's row and the row of its name are written together, each on the condition that it is
what the transaction took it to be, with one exception: a name row that is found to be the
user's own already is neither conditioned on nor written. Where every such row is still the
user's own when the transaction commits, users and name rows name each other.
-/

namespace Remem.Users

open Base Keys Storage List Batch

variable (service : Service) (tenant : TenantId)

/-- The user has a row, with a name of this fold. -/
def Bears (store : Store) (uid : Id) (folded : Bytes) : Prop :=
  ∃ raw user, store.get (userKey tenant uid) = some raw ∧
    service.codecs.decodeUser uid raw "" = .ok user ∧
    service.rules.foldName user.name = .ok folded

def HeldBy (store : Store) (folded : Bytes) (uid : Id) : Prop :=
  store.get (nameKey tenant folded) = some (service.codecs.encodeName uid)

/-- Users and name rows name each other. -/
structure Resolvable (store : Store) : Prop where
  bears : ∀ uid raw, store.get (userKey tenant uid) = some raw →
    ∃ folded, Bears service tenant store uid folded
  held : ∀ folded raw, store.get (nameKey tenant folded) = some raw →
    ∃ uid, HeldBy service tenant store folded uid
  agree : ∀ uid folded, Bears service tenant store uid folded ↔
    HeldBy service tenant store folded uid

/-- What a commit may do to the users and the names of a tenant: nothing, or write a user
and the row of its name, and give up the name that it had. -/
inductive NameStep (before after : Store) : Prop
  | apart (users : ∀ uid, after.get (userKey tenant uid) = before.get (userKey tenant uid))
      (names : ∀ folded, after.get (nameKey tenant folded) = before.get (nameKey tenant folded))
  | wrote (user : User) (folded : Bytes) (released : Option Bytes)
      (valid : user.state.valid = true) (folds : service.rules.foldName user.name = .ok folded)
      (bore : ∀ old, Bears service tenant before user.id old ↔ released = some old)
      (free : before.get (nameKey tenant folded) = none ∨
        HeldBy service tenant before folded user.id)
      (users : ∀ uid, after.get (userKey tenant uid) =
        if uid = user.id then some (service.codecs.encodeUser user)
        else before.get (userKey tenant uid))
      (names : ∀ name, after.get (nameKey tenant name) =
        if name = folded then some (service.codecs.encodeName user.id)
        else if released = some name then none else before.get (nameKey tenant name))

section Steps

variable {service tenant} {before after store : Store} {uid other : Id} {folded name : Bytes}

theorem Bears.unique (first : Bears service tenant store uid folded)
    (second : Bears service tenant store uid name) : folded = name := by
  obtain ⟨raw, user, found, decoded, folds⟩ := first
  obtain ⟨_, _, again, decodedAgain, foldsAgain⟩ := second
  cases found.symm.trans again
  cases decoded.symm.trans decodedAgain
  exact Except.ok.inj (folds.symm.trans foldsAgain)

theorem HeldBy.unique (first : HeldBy service tenant store folded uid)
    (second : HeldBy service tenant store folded other) : uid = other :=
  Codecs.encodeName_inj (Option.some.inj (first.symm.trans second))

theorem bears_congr (same : after.get (userKey tenant uid) = before.get (userKey tenant uid)) :
    Bears service tenant after uid folded ↔ Bears service tenant before uid folded := by
  rw [Bears, Bears, same]

theorem bears_written {user : User} (valid : user.state.valid = true)
    (folds : service.rules.foldName user.name = .ok folded)
    (written : after.get (userKey tenant user.id) = some (service.codecs.encodeUser user)) :
    Bears service tenant after user.id name ↔ name = folded := by
  have decoded : service.codecs.decodeUser user.id (service.codecs.encodeUser user) "" = .ok _ :=
    Codecs.decodeUser_encodeUser (NameRules.validUtf8_of_foldName folds) valid ""
  constructor
  · rintro ⟨raw, found, isRow, isUser, isName⟩
    cases written.symm.trans isRow
    cases decoded.symm.trans isUser
    exact Except.ok.inj (isName.symm.trans folds)
  · rintro rfl
    exact ⟨_, _, written, decoded, folds⟩

theorem resolvable_step (resolvable : Resolvable service tenant before)
    (step : NameStep service tenant before after) : Resolvable service tenant after := by
  cases step with
  | apart users names =>
    constructor
    · intro uid raw found
      obtain ⟨folded, bears⟩ := resolvable.bears uid raw ((users uid).symm.trans found)
      exact ⟨folded, (bears_congr (users uid)).mpr bears⟩
    · intro folded raw found
      obtain ⟨uid, held⟩ := resolvable.held folded raw ((names folded).symm.trans found)
      exact ⟨uid, (names folded).trans held⟩
    · intro uid folded
      rw [bears_congr (users uid), resolvable.agree, HeldBy, HeldBy, names]
  | wrote user folded released valid folds bore free users names =>
    have written : after.get (userKey tenant user.id) = some (service.codecs.encodeUser user) := by
      rw [users, if_pos rfl]
    have elsewhere : ∀ {uid : Id}, uid ≠ user.id →
        after.get (userKey tenant uid) = before.get (userKey tenant uid) := by
      intro uid differ
      rw [users, if_neg differ]
    constructor
    · intro uid raw found
      by_cases same : uid = user.id
      · subst same
        exact ⟨folded, (bears_written valid folds written).mpr rfl⟩
      · obtain ⟨name, bears⟩ := resolvable.bears uid raw ((elsewhere same).symm.trans found)
        exact ⟨name, (bears_congr (elsewhere same)).mpr bears⟩
    · intro name raw found
      rw [names] at found
      split at found
      · next same =>
        refine ⟨user.id, ?_⟩
        rw [HeldBy, names, if_pos same]
      next apart =>
      split at found
      · cases found
      next kept =>
      obtain ⟨uid, held⟩ := resolvable.held name raw found
      refine ⟨uid, ?_⟩
      rw [HeldBy, names, if_neg apart, if_neg kept]
      exact held
    · intro uid name
      by_cases same : uid = user.id
      · -- the user itself bears the new name and no row but that one holds it
        subst same
        rw [bears_written valid folds written]
        constructor
        · rintro rfl
          rw [HeldBy, names, if_pos rfl]
        · intro held
          by_contra apart
          rw [HeldBy, names, if_neg apart] at held
          split at held
          · cases held
          · next kept => exact kept ((bore name).mp ((resolvable.agree _ _).mpr held))
      · -- another user's name is neither the new one nor the one given up
        rw [bears_congr (elsewhere same), resolvable.agree, HeldBy, HeldBy, names]
        split
        · next isNew =>
          subst isNew
          constructor
          · intro held
            rcases free with absent | own
            · rw [absent] at held
              cases held
            · exact absurd (HeldBy.unique held own) same
          · intro held
            exact absurd (Codecs.encodeName_inj (Option.some.inj held)).symm same
        · split
          · next isOld =>
            have own := (resolvable.agree _ _).mp ((bore name).mpr isOld)
            constructor
            · intro held
              exact absurd (HeldBy.unique held own) same
            · intro held
              cases held
          · rfl

end Steps

def Undisturbed (payload : Labelled Deed) (store : Store) : Prop :=
  payload.batch.ops = [] ∨ payload.batch.Current store

instance (payload : Labelled Deed) (store : Store) : Decidable (Undisturbed payload store) :=
  inferInstanceAs (Decidable (_ ∨ _))

def Names (payload : Labelled Deed) : Prop :=
  ∀ store tenant, Resolvable service tenant store → payload.batch.Accepts store →
    Undisturbed payload store → NameStep service tenant store (payload.batch.effect store)

section Stages

variable {service tenant} {holds : Store → Prop} {batch : Batch} {folded old : Bytes} {uid : Id}
  {read : Option Bytes}

theorem claimed_means (means : batch.Means [] (fun _ => True) OrderedMap.get)
    (folded : Bytes) (uid : Id) (read : Option Bytes) :
    (claimed service tenant batch folded uid read).Means [nameKey tenant folded]
      (fun store => read = none → store.get (nameKey tenant folded) = none)
      fun store key => if key = nameKey tenant folded ∧ read = none then
        some (service.codecs.encodeName uid) else store.get key := by
  cases read with
  | none =>
    have fresh : nameKey tenant folded ∉ [] := not_mem_nil
    have staged := ((means.reading (nameKey tenant folded) none).expect fresh [] false).set
      (mem_singleton.mpr rfl) (service.codecs.encodeName uid)
    refine ⟨staged.ops, staged.conditions, fun store accepts _ => ?_, fun store key => ?_⟩
    · exact (staged.accepts store accepts).1
    · rw [claimed, staged.get]
      simp
  | some raw =>
    have kept := (means.reading (nameKey tenant folded) (some raw)).widen
      (nil_subset [nameKey tenant folded])
    refine ⟨kept.ops, kept.conditions, fun _ _ => nofun, fun store key => ?_⟩
    rw [claimed, kept.get]
    simp

variable {store : Store}

theorem heldBy_of_claimable (resolvable : Resolvable service tenant store)
    (claimable : Claimable service uid read) (current : store.get (nameKey tenant folded) = read)
    (present : read ≠ none) : HeldBy service tenant store folded uid := by
  obtain ⟨raw, rfl⟩ := Option.ne_none_iff_exists'.mp present
  obtain ⟨holder, held⟩ := resolvable.held folded raw current
  have decoded := claimable raw rfl
  cases current.symm.trans held
  rw [Codecs.decodeName_encodeName] at decoded
  rw [← Except.ok.inj decoded]
  exact held

/-- What a transaction has staged once the row of the user's new name is settled, where the
user had the old one. -/
def Prepared (service : Service) (tenant : TenantId) (batch : Batch) (uid : Id)
    (folded : Bytes) (old : Option Bytes) : Prop :=
  ∃ (names : List Bytes) (asks : Store → Prop) (leaves : Store → Bytes → Option Bytes),
    batch.Means (names.map (nameKey tenant)) asks leaves ∧
    ∀ store, Resolvable service tenant store → asks store → batch.Current store →
      (∀ name, Bears service tenant store uid name ↔ old = some name) →
      (store.get (nameKey tenant folded) = none ∨ HeldBy service tenant store folded uid) ∧
      ∀ key, leaves store key =
        if key = nameKey tenant folded then some (service.codecs.encodeName uid)
        else if old.any fun name => key = nameKey tenant name then none
        else store.get key

theorem userKey_not_mem_names (uid : Id) (names : List Bytes) :
    userKey tenant uid ∉ names.map (nameKey tenant) := by
  intro listed
  obtain ⟨name, _, same⟩ := mem_map.mp listed
  exact userKey_ne_nameKey _ _ _ _ same.symm

theorem claimed_reads (batch : Batch) (folded : Bytes) (uid : Id) (read : Option Bytes) :
    (nameKey tenant folded, read) ∈ (claimed service tenant batch folded uid read).reads := by
  cases read <;> simp [claimed, Batch.set, Batch.reading]

theorem claimed_settles (resolvable : Resolvable service tenant store)
    (claimable : Claimable service uid read)
    (asks : read = none → store.get (nameKey tenant folded) = none)
    (current : store.get (nameKey tenant folded) = read) :
    (store.get (nameKey tenant folded) = none ∨ HeldBy service tenant store folded uid) ∧
      ∀ key, (if key = nameKey tenant folded ∧ read = none then
          some (service.codecs.encodeName uid) else store.get key) =
        if key = nameKey tenant folded then some (service.codecs.encodeName uid)
        else store.get key := by
  by_cases absent : read = none
  · exact ⟨.inl (asks absent), fun key => by simp [absent]⟩
  have held := heldBy_of_claimable resolvable claimable current absent
  refine ⟨.inr held, fun key => ?_⟩
  rw [if_neg fun both => absent both.2]
  split
  · next same =>
    rw [same]
    exact held
  · rfl

theorem prepared_claimed (means : batch.Means [] (fun _ => True) OrderedMap.get)
    (claimable : Claimable service uid read) :
    Prepared service tenant (claimed service tenant batch folded uid read) uid folded none := by
  refine ⟨[folded], _, _, claimed_means means folded uid read, ?_⟩
  intro store resolvable asks current _
  obtain ⟨free, leaves⟩ := claimed_settles resolvable claimable asks
    (current _ (claimed_reads batch folded uid read))
  refine ⟨free, fun key => ?_⟩
  rw [leaves]
  simp

theorem prepared_same (means : batch.Means [] (fun _ => True) OrderedMap.get) :
    Prepared service tenant batch uid folded (some folded) := by
  refine ⟨[], _, _, means, ?_⟩
  intro store resolvable _ _ bears
  have held := (resolvable.agree _ _).mp ((bears folded).mpr rfl)
  refine ⟨.inr held, fun key => ?_⟩
  split
  · next same =>
    rw [same]
    exact held
  · next apart => simp [apart]

theorem prepared_released (means : batch.Means [] (fun _ => True) OrderedMap.get)
    (claimable : Claimable service uid read) (differ : old ≠ folded) :
    Prepared service tenant
      (released service tenant (claimed service tenant batch folded uid read) old uid) uid folded
      (some old) := by
  have apart : nameKey tenant old ∉ [nameKey tenant folded] := by
    rw [mem_singleton]
    exact fun same => differ (nameKey_inj same).2
  have claims : (claimed service tenant batch folded uid read).Means _ _ _ :=
    claimed_means means folded uid read
  have staged := (claims.expect apart (service.codecs.encodeName uid) true).delete mem_cons_self
  refine ⟨[old, folded], _, _, staged, ?_⟩
  rintro store resolvable ⟨_, asks⟩ current _
  obtain ⟨free, leaves⟩ := claimed_settles resolvable claimable asks (current _ (by
      rw [released, Batch.delete, expect_reads]
      exact claimed_reads batch folded uid read))
  refine ⟨free, fun key => ?_⟩
  rw [leaves]
  by_cases isNew : key = nameKey tenant folded
  · subst isNew
    have notOld : nameKey tenant folded ≠ nameKey tenant old :=
      fun same => differ (nameKey_inj same).2.symm
    simp [notOld]
  · simp [isNew]

theorem nameStep_of_other {place : TenantId}
    (ops : ∀ op ∈ batch.ops, (∃ uid, op.key = userKey tenant uid) ∨
      ∃ name, op.key = nameKey tenant name)
    (apart : place ≠ tenant) (store : Store) :
    NameStep service place store (batch.effect store) := by
  refine .apart (fun uid => ?_) fun folded => ?_
  · refine get_effect_of_not_staged (fun op listed same => ?_) store
    rcases ops op listed with ⟨other, isUser⟩ | ⟨name, isName⟩
    · exact apart (userKey_inj (same.symm.trans isUser)).1
    · exact userKey_ne_nameKey _ _ _ _ (same.symm.trans isName)
  · refine get_effect_of_not_staged (fun op listed same => ?_) store
    rcases ops op listed with ⟨other, isUser⟩ | ⟨name, isName⟩
    · exact userKey_ne_nameKey _ _ _ _ (isUser.symm.trans same)
    · exact apart (nameKey_inj (same.symm.trans isName)).1

variable {deed : Deed}

theorem names_of_prepared {old : Option Bytes} (user : User) (row : Option Bytes)
    (valid : user.state.valid = true) (folds : service.rules.foldName user.name = .ok folded)
    (prepared : Prepared service tenant batch user.id folded old)
    (bore : ∀ store, Resolvable service tenant store → store.get (userKey tenant user.id) = row → ∀
      name, Bears service tenant store user.id name ↔ old = some name) :
    Names service ⟨written service tenant batch user row, deed⟩ := by
  obtain ⟨names, asks, leaves, means, settles⟩ := prepared
  have writes := (means.expect (userKey_not_mem_names user.id names) (row.getD [])
    row.isSome).set mem_cons_self (service.codecs.encodeUser user)
  intro store place resolvable accepts undisturbed
  by_cases same : place = tenant
  · subst same
    obtain ⟨isRow, asked⟩ := writes.accepts store accepts
    have rowRead : store.get (userKey place user.id) = row := by
      rw [isRow]
      cases row <;> rfl
    have current : batch.Current store := by
      rcases undisturbed with nothing | current
      · exact absurd nothing (by simp [written, Batch.set])
      intro read listed
      refine current read ?_
      rw [written, Batch.set, expect_reads]
      exact listed
    obtain ⟨free, isLeft⟩ := settles store resolvable asked current (bore store resolvable rowRead)
    have get : ∀ key, ((written service place batch user row).effect store).get key = _ :=
      fun key => (writes.get store key).trans (by rw [isLeft])
    refine .wrote user folded old valid folds (bore store resolvable rowRead) free ?_ ?_
    · intro uid
      rw [get]
      by_cases isUser : uid = user.id
      · rw [isUser]
        simp
      have differ : userKey place uid ≠ userKey place user.id :=
        fun same => isUser (userKey_inj same).2
      simp [differ, isUser, userKey_ne_nameKey]
    · intro name
      rw [get, if_neg (userKey_ne_nameKey _ _ _ _).symm]
      have sameKey : ∀ other, nameKey place name = nameKey place other ↔ name = other :=
        fun other => ⟨fun same => (nameKey_inj same).2, fun same => by rw [same]⟩
      cases old <;> simp [sameKey, eq_comm]
  · refine nameStep_of_other (fun op listed => ?_) same store
    rcases mem_cons.mp (writes.ops op listed) with isUser | isName
    · exact .inl ⟨_, isUser⟩
    · obtain ⟨name, _, sameName⟩ := mem_map.mp isName
      exact .inr ⟨name, sameName.symm⟩

variable {payload : Labelled Deed}

theorem names_of_apart (users : ∀ tenant uid, ∀ op ∈ payload.batch.ops, op.key ≠ userKey tenant uid)
    (names : ∀ tenant folded, ∀ op ∈ payload.batch.ops, op.key ≠ nameKey tenant folded) :
    Names service payload := by
  intro store tenant _ _ _
  exact .apart (fun uid => get_effect_of_not_staged (users tenant uid) store)
    fun folded => get_effect_of_not_staged (names tenant folded) store

theorem not_bears_of_absent (absent : store.get (userKey tenant uid) = none) (name : Bytes) :
    Bears service tenant store uid name ↔ none = some name := by
  constructor
  · rintro ⟨raw, _, found, _⟩
    rw [absent] at found
    cases found
  · nofun

variable {raw : Bytes} {stored : User} {op : String}

theorem bears_iff_of_row (decoded : service.codecs.decodeUser uid raw op = .ok stored)
    (folds : service.rules.foldName stored.name = .ok old)
    (found : store.get (userKey tenant uid) = some raw) (name : Bytes) :
    Bears service tenant store uid name ↔ some old = some name := by
  have bears : Bears service tenant store uid old :=
    ⟨raw, stored, found, decodeUser_op decoded "", folds⟩
  constructor
  · intro other
    rw [bears.unique other]
  · rintro ⟨⟩
    exact bears

theorem means_of_blank (blank : Blank batch) : batch.Means [] (fun _ => True) OrderedMap.get := by
  obtain ⟨ops, conditions, reads⟩ := batch
  obtain ⟨rfl, rfl⟩ := blank
  exact ⟨means_nil.ops, means_nil.conditions, fun _ _ => trivial, fun _ _ => rfl⟩

theorem names_of_unfolded {user : User} {fault : Fault}
    (decoded : service.codecs.decodeUser user.id raw op = .ok stored)
    (unfolded : service.rules.foldName stored.name = .error fault) (blank : Blank batch) :
    Names service ⟨written service tenant batch user (some raw), deed⟩ := by
  have fresh : userKey tenant user.id ∉ [] := not_mem_nil
  have writes := ((means_of_blank blank).expect fresh raw true).set mem_cons_self
    (service.codecs.encodeUser user)
  intro store place resolvable accepts _
  by_cases same : place = tenant
  · subst same
    have found := (writes.accepts store accepts).1
    obtain ⟨folded, row, other, isRow, isOther, folds⟩ := resolvable.bears user.id raw found
    cases found.symm.trans isRow
    cases (decodeUser_op decoded "").symm.trans isOther
    rw [unfolded] at folds
    cases folds
  · refine nameStep_of_other (fun op listed => .inl ⟨user.id, ?_⟩) same store
    exact mem_singleton.mp (writes.ops op listed)

theorem names_of_tokens
    (tokens : ∀ op ∈ payload.batch.ops, (∃ tenant tid, op.key = tokenKey tenant tid) ∨ ∃ tid,
      op.key = tokenIndex tid) : Names service payload := by
  refine names_of_apart ?_ ?_
  · intro tenant uid op listed same
    rcases tokens op listed with ⟨other, tid, isToken⟩ | ⟨tid, isIndex⟩
    · exact userKey_ne_tokenKey _ _ _ _ (same.symm.trans isToken)
    · exact tokenIndex_ne_userSpace _ _ _ (isIndex.symm.trans same)
  · intro tenant folded op listed same
    rcases tokens op listed with ⟨other, tid, isToken⟩ | ⟨tid, isIndex⟩
    · exact nameKey_ne_tokenKey _ _ _ _ (same.symm.trans isToken)
    · exact tokenIndex_ne_userSpace _ _ _ (isIndex.symm.trans same)

theorem names_of_staged (staged : Staged service payload) : Names service payload := by
  cases staged with
  | kept nothing => exact names_of_apart (by simp [nothing]) (by simp [nothing])
  | inserted valid folds blank claimable =>
    exact names_of_prepared _ none valid folds (prepared_claimed (means_of_blank blank) claimable)
      fun store _ absent => not_bears_of_absent absent
  | rewritten valid folds decoded foldedOld blank =>
    exact names_of_prepared _ (some _) valid folds (prepared_same (means_of_blank blank))
      fun store _ found => bears_iff_of_row decoded foldedOld found
  | renamed valid folds decoded foldedOld blank differ claimable =>
    exact names_of_prepared _ (some _) valid folds
      (prepared_released (means_of_blank blank) claimable differ)
      fun store _ found => bears_iff_of_row decoded foldedOld found
  | @restated tenant user stored raw op base valid decoded sameName blank =>
    -- the name is the stored one, and no row of a store whose names resolve has one that
    -- does not fold
    cases folds : service.rules.foldName stored.name with
    | error fault => exact names_of_unfolded decoded folds blank
    | ok folded =>
      exact names_of_prepared _ (some _) valid (sameName ▸ folds)
        (prepared_same (means_of_blank blank))
        fun store _ found => bears_iff_of_row decoded folds found
  | issued identifier =>
    refine names_of_tokens fun op listed => ?_
    simp only [issuing, Batch.set, expect_ops, reading_ops, nil_append,
      singleton_append, mem_cons, not_mem_nil, or_false] at listed
    rcases listed with rfl | rfl
    · exact .inl ⟨_, _, rfl⟩
    · exact .inr ⟨_, rfl⟩
  | revoked decoded =>
    refine names_of_tokens fun op listed => ?_
    simp only [revoking, Batch.set, expect_ops, reading_ops, nil_append, mem_singleton] at listed
    rw [listed]
    exact .inl ⟨_, _, rfl⟩

end Stages

section Runs

variable {service}

theorem resolvable_of_empty {tenant : TenantId} {store : Store}
    (noUsers : ∀ uid, store.get (userKey tenant uid) = none)
    (noNames : ∀ folded, store.get (nameKey tenant folded) = none) :
    Resolvable service tenant store := by
  constructor
  · intro uid raw found
    rw [noUsers] at found
    cases found
  · intro folded raw found
    rw [noNames] at found
    cases found
  intro uid folded
  constructor
  · rintro ⟨_, _, found, _⟩
    rw [noUsers] at found
    cases found
  · intro held
    rw [HeldBy, noNames] at held
    cases held

/-- In every run in which the name rows that transactions found to be their users' own are so
still when they commit, in a tenant that was empty at first: every user has one name row,
that of its name, every name row is that of one user's name, and no two names have one
fold. -/
theorem names_unique (engine : Engine) {initial : Store} {schedule : List (Action UserCall)}
    {tenant : TenantId} (noUsers : ∀ uid, initial.get (userKey tenant uid) = none)
    (noNames : ∀ folded, initial.get (nameKey tenant folded) = none)
    (undisturbed : (engine.system (UserCall.program service)).Meets (Checks Undisturbed)
      (System.start initial) schedule) :
    let store := ((engine.system (UserCall.program service)).run initial schedule).state
    (∀ uid raw, store.get (userKey tenant uid) = some raw →
      ∃ folded, Bears service tenant store uid folded ∧
        ∀ other, HeldBy service tenant store other uid ↔ other = folded) ∧
    (∀ folded raw, store.get (nameKey tenant folded) = some raw →
      ∃ uid, HeldBy service tenant store folded uid ∧ Bears service tenant store uid folded ∧
        ∀ other, Bears service tenant store other folded → other = uid) ∧
    ∀ first second folded, Bears service tenant store first folded →
      Bears service tenant store second folded → first = second := by
  intro store
  have performs : ∀ call : UserCall, (call.program service).Performs (Resolvable service tenant)
      (fun _ => True) (fun _ payload => Fits service call payload) (fun _ _ => True) [] :=
    fun call => (keeping_program call []).mono fun _ _ => trivial
  have resolvable : Resolvable service tenant store :=
    engine.invariant_of_performs (Resolvable service tenant) performs
      (fun _ _ before fits resolvable accepts undisturbed => resolvable_step resolvable
        (names_of_staged fits.1 before tenant resolvable accepts undisturbed))
      (resolvable_of_empty noUsers noNames) undisturbed
  have agree := resolvable.agree
  have shared : ∀ first second folded, Bears service tenant store first folded →
      Bears service tenant store second folded → first = second := fun first second folded one two =>
    HeldBy.unique ((agree _ _).mp one) ((agree _ _).mp two)
  refine ⟨fun uid raw found => ?_, fun folded raw found => ?_, shared⟩
  · obtain ⟨folded, bears⟩ := resolvable.bears uid raw found
    refine ⟨folded, bears, fun other => ⟨fun held => ?_, ?_⟩⟩
    · exact ((agree _ _).mpr held).unique bears
    · rintro rfl
      exact (agree _ _).mp bears
  · obtain ⟨uid, held⟩ := resolvable.held folded raw found
    have bears := (agree _ _).mpr held
    exact ⟨uid, held, bears, fun other alike => shared _ _ _ alike bears⟩

end Runs

def planner (name : String) (updated : Time) : User :=
  ⟨Id.filled 1, ascii name, .active, 0, updated⟩

def plannerTenant : TenantId := ascii "t"

theorem names_unique_renamed :
    let schedule : List (Action UserCall) :=
      [.spawn (.create (some plannerTenant) (ascii "a") (Id.filled 1) 0 fun _ => false),
        .act 0, .act 0,
        .spawn (.rename (some plannerTenant) (Id.filled 1) (ascii "b") 0 fun _ => false),
        .act 1, .act 1, .act 1]
    let store := ((Engine.memkv.system (UserCall.program .plain)).run .empty schedule).state
    (store.get (nameKey plannerTenant (ascii "b"))).isSome = true ∧
      ∀ first second folded, Bears .plain plannerTenant store first folded →
        Bears .plain plannerTenant store second folded → first = second := by
  refine ⟨by decide +kernel, ?_⟩
  exact (names_unique .memkv (fun _ => rfl) (fun _ => rfl) (by decide +kernel)).2.2

/-- A rename reads the user under its old name and then finds the new name's row to be the
user's own, since another rename to it committed in between. The user is restored as it was
at first, and the name row is gone. The first rename commits: its user has a name without a
row. -/
theorem name_lost_by_restore :
    let schedule : List (Action UserCall) :=
      [.spawn (.create (some plannerTenant) (ascii "a") (Id.filled 1) 0 fun _ => false),
        .act 0, .act 0,
        .spawn (.rename (some plannerTenant) (Id.filled 1) (ascii "b") 2000000 fun _ => false),
        .act 1,
        .spawn (.rename (some plannerTenant) (Id.filled 1) (ascii "b") 3000000 fun _ => false),
        .act 2, .act 2, .act 2,
        .act 1,
        .spawn (.restore (some plannerTenant) (planner "a" 0) .overwrite fun _ => false),
        .act 3, .act 3, .act 3,
        .act 1]
    let store := ((Engine.memkv.system (UserCall.program .plain)).run .empty schedule).state
    store.get (userKey plannerTenant (Id.filled 1)) =
        some (Codecs.plain.encodeUser (planner "b" 2000000)) ∧
      store.get (nameKey plannerTenant (ascii "b")) = none := by
  decide +kernel

end Remem.Users
