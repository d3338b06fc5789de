import Remem.Storage.Engine
import Remem.Users.Staged

/-!
# A token authenticates its owner only

`Verify` reads three rows, each in a store of its own. What the rows say is kept in terms of
what was committed: the latest write of every user, and every token that was issued, with
whether it was revoked. A text that is parsed is the one spelling of what it is parsed to.
-/

namespace Remem.Users

open Base Keys Storage List Batch Option Triple

theorem decodeCanonical_encode {part : Bytes} {width : Nat}
    {bytes : { bytes : Bytes // bytes.length = width }}
    (decoded : Service.decodeCanonical part width = some bytes) : base32Encode bytes.1 = part := by
  unfold Service.decodeCanonical at decoded
  split at decoded
  · cases decoded
  split at decoded
  · split at decoded
    · cases decoded
    next same =>
    cases decoded
    exact not_not.mp same
  · cases decoded

theorem cut_eq {mark : UInt8} {text : Bytes} (there : mark ∈ text) :
    text = text.takeWhile (· ≠ mark) ++ mark :: (text.dropWhile (· ≠ mark)).drop 1 := by
  induction text with
  | nil => cases there
  | cons byte rest ih =>
    by_cases same : byte = mark
    · subst same
      simp
    have later := (mem_cons.mp there).resolve_left (Ne.symm same)
    simp only [ne_eq, same, not_false_eq_true, decide_true, takeWhile_cons_of_pos,
      dropWhile_cons_of_pos, cons_append, List.cons.injEq, true_and]
    exact ih later

theorem formatToken_of_parseToken {text : Bytes} {tid : Id} {secret : Secret}
    (parsed : Service.parseToken text = some (tid, secret)) :
    text = Service.formatToken tid secret := by
  unfold Service.parseToken at parsed
  split at parsed
  · cases parsed
  next begins =>
  dsimp only at parsed
  split at parsed
  · cases parsed
  next separated =>
  split at parsed
  · cases parsed
  next idBytes idWidth idDecoded =>
  split at parsed
  · cases parsed
  next secretBytes secretWidth secretDecoded =>
  cases parsed
  have idPart := decodeCanonical_encode idDecoded
  have secretPart := decodeCanonical_encode secretDecoded
  have isPrefixed : Service.tokenPrefix <+: text := by simpa using begins
  obtain ⟨rest, rfl⟩ := isPrefixed
  rw [drop_left] at idPart secretPart separated
  rw [Service.formatToken, idPart, secretPart]
  congr 1
  exact cut_eq (not_not.mp separated)

variable (service : Service)

/-- What a commit with a label makes of the users, the tokens and the index. -/
inductive TokenStep (before after : Store) : Deed → Prop
  | wrote {tenant : TenantId} {user : User} (valid : user.state.valid = true)
      (text : validUtf8 user.name = true)
      (users : ∀ place uid, after.get (userKey place uid) =
        if place = tenant ∧ uid = user.id then some (service.codecs.encodeUser user)
        else before.get (userKey place uid))
      (tokens : ∀ place tid, after.get (tokenKey place tid) = before.get (tokenKey place tid))
      (index : ∀ tid, after.get (tokenIndex tid) = before.get (tokenIndex tid)) :
      TokenStep before after (.wrote tenant user)
  | kept (same : after = before) : TokenStep before after .kept
  | issued {tenant : TenantId} {token : Token} {secret : Secret}
      (identifier : validIdentifier tenant = true)
      (free : before.get (tokenIndex token.id) = none)
      (users : ∀ place uid, after.get (userKey place uid) = before.get (userKey place uid))
      (tokens : ∀ place tid, after.get (tokenKey place tid) =
        if place = tenant ∧ tid = token.id then
          some (service.codecs.encodeToken token (service.digest secret).bytes)
        else before.get (tokenKey place tid))
      (index : ∀ tid, after.get (tokenIndex tid) =
        if tid = token.id then some (service.codecs.tokenIndex.marshal tenant)
        else before.get (tokenIndex tid)) :
      TokenStep before after (.issued tenant token secret)
  | revoked {tenant : TenantId} {token : Token} {digest raw : Bytes} {now : Time} {op : String}
      (decoded : service.codecs.decodeToken token.id raw op = .ok (token, digest))
      (was : before.get (tokenKey tenant token.id) = some raw)
      (users : ∀ place uid, after.get (userKey place uid) = before.get (userKey place uid))
      (tokens : ∀ place tid, after.get (tokenKey place tid) =
        if place = tenant ∧ tid = token.id then
          some (service.codecs.encodeToken { token with revokedAt := some now } digest)
        else before.get (tokenKey place tid))
      (index : ∀ tid, after.get (tokenIndex tid) = before.get (tokenIndex tid)) :
      TokenStep before after (.revoked tenant { token with revokedAt := some now })

section Steps

variable {service} {tenant : TenantId} {batch : Batch} {store : Store} {raw : Bytes} {user : User}

theorem text_of_decodeUser {codecs : Codecs} {uid : Id} {op : String}
    (decoded : codecs.decodeUser uid raw op = .ok user) : validUtf8 user.name = true := by
  unfold Codecs.decodeUser at decoded
  split at decoded
  · cases decoded
  next row read =>
  dsimp only at decoded
  split at decoded
  · cases decoded
  · cases decoded
    exact codecs.user.text_unmarshal raw row read

theorem wrote_of_staged (staged : Staged service ⟨batch, .wrote tenant user⟩) :
    ∃ (base : Batch) (row : Option Bytes), batch = written service tenant base user row ∧
      user.state.valid = true ∧ validUtf8 user.name = true ∧
      ∀ op ∈ base.ops, ∃ folded, op.key = nameKey tenant folded := by
  have named : ∀ {base : Batch} {folded : Bytes} {uid : Id} {read : Option Bytes}, Blank base →
      ∀ op ∈ (claimed service tenant base folded uid read).ops,
        ∃ folded, op.key = nameKey tenant folded := by
    intro base folded uid read blank op listed
    cases read with
    | none =>
      simp only [claimed, Batch.set, expect_ops, reading_ops, blank.1,
        nil_append, mem_singleton] at listed
      exact ⟨folded, by rw [listed]; rfl⟩
    | some raw =>
      rw [claimed, reading_ops, blank.1] at listed
      cases listed
  cases staged with
  | inserted valid folds blank claimable =>
    exact ⟨_, _, rfl, valid, NameRules.validUtf8_of_foldName folds, named blank⟩
  | rewritten valid folds decoded foldedOld blank =>
    exact ⟨_, _, rfl, valid, NameRules.validUtf8_of_foldName folds, by simp [blank.1]⟩
  | renamed valid folds decoded foldedOld blank differ claimable =>
    refine ⟨_, _, rfl, valid, NameRules.validUtf8_of_foldName folds, fun op listed => ?_⟩
    rw [released, Batch.delete, expect_ops] at listed
    rcases mem_append.mp listed with claims | gives
    · exact named blank op claims
    · rw [mem_singleton.mp gives]
      exact ⟨_, rfl⟩
  | restated valid decoded sameName blank =>
    exact ⟨_, _, rfl, valid, sameName ▸ text_of_decodeUser decoded, by simp [blank.1]⟩

theorem get_written {base : Batch} {row : Option Bytes} {key : Bytes}
    (names : ∀ op ∈ base.ops, ∃ folded, op.key = nameKey tenant folded)
    (apart : ∀ folded, key ≠ nameKey tenant folded) :
    ((written service tenant base user row).effect store).get key =
      if key = userKey tenant user.id then some (service.codecs.encodeUser user)
      else store.get key := by
  rw [written, effect_set, effect_expect, OrderedMap.get_set]
  split
  · rfl
  refine get_effect_of_not_staged (fun op listed same => ?_) store
  obtain ⟨folded, isName⟩ := names op listed
  exact apart folded (same.symm.trans isName)

theorem tokenStep_issuing {token : Token} {secret : Secret}
    (identifier : validIdentifier tenant = true)
    (accepts : (issuing service tenant token secret raw).Accepts store) :
    TokenStep service store ((issuing service tenant token secret raw).effect store)
      (.issued tenant token secret) := by
  have indexApart : ∀ place rest, tokenIndex token.id ≠ beginKey place defaultNamespace .user ++ rest :=
    fun place rest => tokenIndex_ne_userSpace token.id place rest
  have tokenFresh : tokenKey tenant token.id ∉ [userKey tenant token.user] := by
    rw [mem_singleton]
    exact (userKey_ne_tokenKey _ _ _ _).symm
  have indexFresh :
      tokenIndex token.id ∉ [tokenKey tenant token.id, userKey tenant token.user] := by
    rw [mem_pair]
    rintro (isToken | isUser)
    · exact indexApart _ _ isToken
    · exact indexApart _ _ isUser
  have userFresh : userKey tenant token.user ∉ [] := not_mem_nil
  have means := (((((means_nil.reading (userKey tenant token.user) (some raw)).expect
    userFresh raw true).expect tokenFresh [] false).expect indexFresh [] false).set
      (mem_cons_of_mem _ mem_cons_self)
      (service.codecs.encodeToken token (service.digest secret).bytes)).set
      mem_cons_self (service.codecs.tokenIndex.marshal tenant)
  have get : ∀ key, ((issuing service tenant token secret raw).effect store).get key = _ :=
    means.get store
  refine .issued identifier (means.accepts store accepts).1 ?_ ?_ ?_
  · intro place uid
    have notIndex : userKey place uid ≠ tokenIndex token.id := (indexApart _ _).symm
    rw [get, if_neg notIndex, if_neg (userKey_ne_tokenKey _ _ _ _)]
  · intro place tid
    have notIndex : tokenKey place tid ≠ tokenIndex token.id := (indexApart _ _).symm
    rw [get, if_neg notIndex]
    exact if_congr ⟨tokenKey_inj, by rintro ⟨rfl, rfl⟩; rfl⟩ rfl rfl
  · intro tid
    have notToken : tokenIndex tid ≠ tokenKey tenant token.id := tokenIndex_ne_userSpace _ _ _
    rw [get, if_neg notToken]
    exact if_congr ⟨tokenIndex_inj, congrArg _⟩ rfl rfl

theorem tokenStep_revoking (token : Token) (now : Time) {digest : Bytes} {op : String}
    (decoded : service.codecs.decodeToken token.id raw op = .ok (token, digest))
    (accepts : (revoking service tenant { token with revokedAt := some now } digest raw).Accepts
      store) :
    TokenStep service store
      ((revoking service tenant { token with revokedAt := some now } digest raw).effect store)
      (.revoked tenant { token with revokedAt := some now }) := by
  have fresh : tokenKey tenant token.id ∉ [] := not_mem_nil
  have means := ((means_nil.reading (tokenKey tenant token.id) (some raw)).expect
    fresh raw true).set mem_cons_self
      (service.codecs.encodeToken { token with revokedAt := some now } digest)
  have get : ∀ key, ((revoking service tenant { token with revokedAt := some now } digest
    raw).effect store).get key = _ := means.get store
  refine .revoked decoded (means.accepts store accepts).1 ?_ ?_ ?_
  · intro place uid
    rw [get, if_neg (userKey_ne_tokenKey _ _ _ _)]
  · intro place tid
    rw [get]
    exact if_congr ⟨tokenKey_inj, by rintro ⟨rfl, rfl⟩; rfl⟩ rfl rfl
  · intro tid
    have notToken : tokenIndex tid ≠ tokenKey tenant token.id := tokenIndex_ne_userSpace _ _ _
    rw [get, if_neg notToken]

theorem tokenStep_of_staged {payload : Labelled Deed} (staged : Staged service payload)
    (accepts : payload.batch.Accepts store) :
    TokenStep service store (payload.batch.effect store) payload.label := by
  obtain ⟨batch, label⟩ := payload
  cases label with
  | wrote tenant user =>
    obtain ⟨base, row, rfl, valid, text, names⟩ := wrote_of_staged staged
    refine .wrote valid text ?_ ?_ ?_
    · intro place uid
      rw [get_written names fun folded => userKey_ne_nameKey _ _ _ _]
      exact if_congr ⟨userKey_inj, by rintro ⟨rfl, rfl⟩; rfl⟩ rfl rfl
    · intro place tid
      rw [get_written names fun folded => (nameKey_ne_tokenKey _ _ _ _).symm,
        if_neg (userKey_ne_tokenKey _ _ _ _).symm]
    · intro tid
      have apart : tokenIndex tid ≠ userKey tenant user.id := tokenIndex_ne_userSpace _ _ _
      rw [get_written names fun folded => tokenIndex_ne_userSpace _ _ _, if_neg apart]
  | kept =>
    cases staged with
    | kept nothing =>
      refine .kept ?_
      rw [Batch.effect, nothing]
      rfl
  | issued tenant token secret =>
    cases staged with
    | @issued _ _ _ raw identifier => exact tokenStep_issuing identifier accepts
  | revoked tenant token =>
    cases staged with
    | revoked decoded => exact tokenStep_revoking _ _ decoded accepts

end Steps

def userAt (tenant : TenantId) (uid : Id) : List Deed → Option User
  | [] => none
  | .wrote place user :: earlier =>
    if place = tenant ∧ user.id = uid then some user else userAt tenant uid earlier
  | _ :: earlier => userAt tenant uid earlier

def Revoked (deeds : List Deed) (tid : Id) : Prop :=
  ∃ tenant token, .revoked tenant token ∈ deeds ∧ token.id = tid

def IssuedIn (deeds : List Deed) (tenant : TenantId) (tid : Id) : Prop :=
  ∃ token secret, .issued tenant token secret ∈ deeds ∧ token.id = tid

/-- What the row of a token that was issued holds. -/
structure Holds (store : Store) (deeds : List Deed) (tenant : TenantId) (token : Token)
    (secret : Secret) (stored : Token) : Prop where
  index : store.get (tokenIndex token.id) = some (service.codecs.tokenIndex.marshal tenant)
  row : store.get (tokenKey tenant token.id) =
    some (service.codecs.encodeToken stored (service.digest secret).bytes)
  id : stored.id = token.id
  user : stored.user = token.user
  expiry : stored.expiresAt.map stamped = token.expiresAt.map stamped
  revoked : Revoked deeds token.id → stored.revokedAt ≠ none

/-- Users are as they were last written, and tokens as they were issued but for their
revocation. -/
structure Kept (store : Store) (deeds : List Deed) : Prop where
  users : ∀ tenant uid, store.get (userKey tenant uid) =
    (userAt tenant uid deeds).map service.codecs.encodeUser
  written : ∀ tenant uid user, userAt tenant uid deeds = some user →
    user.id = uid ∧ user.state.valid = true ∧ validUtf8 user.name = true
  index : ∀ tid raw, store.get (tokenIndex tid) = some raw → ∃ tenant, IssuedIn deeds tenant tid
  owned : ∀ tenant tid raw, store.get (tokenKey tenant tid) = some raw → IssuedIn deeds tenant tid
  revocations : ∀ tid, Revoked deeds tid → ∃ tenant, IssuedIn deeds tenant tid
  tokens : ∀ tenant token secret, .issued tenant token secret ∈ deeds →
    validIdentifier tenant = true ∧ ∃ stored, Holds service store deeds tenant token secret stored

section Kept

variable {service} {before after : Store} {deeds : List Deed}

theorem IssuedIn.cons {tenant : TenantId} {tid : Id} (issued : IssuedIn deeds tenant tid)
    (deed : Deed) : IssuedIn (deed :: deeds) tenant tid := by
  obtain ⟨token, secret, listed, sameId⟩ := issued
  exact ⟨token, secret, mem_cons_of_mem _ listed, sameId⟩

variable {deed : Deed}

theorem revoked_cons {tid : Id} (revoked : Revoked (deed :: deeds) tid) :
    (∃ tenant token, deed = .revoked tenant token ∧ token.id = tid) ∨ Revoked deeds tid := by
  obtain ⟨tenant, token, listed, sameId⟩ := revoked
  rcases mem_cons.mp listed with rfl | earlier
  · exact .inl ⟨tenant, token, rfl, sameId⟩
  · exact .inr ⟨tenant, token, earlier, sameId⟩

variable {tenant : TenantId}

theorem validUtf8_of_identifier (identifier : validIdentifier tenant = true) :
    validUtf8 tenant = true := by
  have small : ∀ byte : UInt8, identifierByte byte = true → byte < 0x80 := by decide +kernel
  have legal : tenant.all identifierByte = true := (Bool.and_eq_true_iff.mp identifier).2
  exact validUtf8_of_ascii fun byte listed => small byte (all_eq_true.mp legal byte listed)

theorem Kept.tenant_unique (kept : Kept service before deeds) {place : TenantId}
    {token other : Token} {secret otherSecret : Secret}
    (first : .issued tenant token secret ∈ deeds) (second : .issued place other otherSecret ∈ deeds)
    (sameId : token.id = other.id) : tenant = place := by
  obtain ⟨identifier, _, holds⟩ := kept.tokens _ _ _ first
  obtain ⟨otherIdentifier, _, otherHolds⟩ := kept.tokens _ _ _ second
  have rows := holds.index.symm.trans (sameId ▸ otherHolds.index)
  have read := service.codecs.tokenIndex.unmarshal_marshal tenant
    (validUtf8_of_identifier identifier)
  rw [Option.some.inj rows, service.codecs.tokenIndex.unmarshal_marshal place
    (validUtf8_of_identifier otherIdentifier)] at read
  exact (Option.some.inj read).symm

theorem Holds.carried {token stored : Token} {secret : Secret}
    (holds : Holds service before deeds tenant token secret stored)
    (row : after.get (tokenKey tenant token.id) = before.get (tokenKey tenant token.id))
    (index : after.get (tokenIndex token.id) = before.get (tokenIndex token.id))
    (unrevoked : ∀ place other, deed = .revoked place other → other.id ≠ token.id) :
    Holds service after (deed :: deeds) tenant token secret stored := by
  refine ⟨index.trans holds.index, row.trans holds.row, holds.id, holds.user, holds.expiry, ?_⟩
  intro revoked
  rcases revoked_cons revoked with ⟨place, other, isDeed, sameId⟩ | earlier
  · exact absurd sameId (unrevoked place other isDeed)
  · exact holds.revoked earlier

theorem Kept.apart (kept : Kept service before deeds)
    (issuesNone : ∀ tenant token secret, .issued tenant token secret ≠ deed)
    (revokesNone : ∀ tenant token, deed ≠ .revoked tenant token)
    (users : ∀ tenant uid, after.get (userKey tenant uid) = (userAt tenant uid (deed :: deeds)).map
      service.codecs.encodeUser)
    (written : ∀ tenant uid user, userAt tenant uid (deed :: deeds) = some user → user.id = uid ∧
      user.state.valid = true ∧ validUtf8 user.name = true)
    (tokens : ∀ place tid, after.get (tokenKey place tid) = before.get (tokenKey place tid))
    (index : ∀ tid, after.get (tokenIndex tid) = before.get (tokenIndex tid)) :
    Kept service after (deed :: deeds) where
  users := users
  written := written
  index tid raw found := by
    obtain ⟨place, issued⟩ := kept.index tid raw ((index tid).symm.trans found)
    exact ⟨place, issued.cons _⟩
  owned place tid raw found :=
    (kept.owned place tid raw ((tokens place tid).symm.trans found)).cons _
  revocations tid revoked := by
    rcases revoked_cons revoked with ⟨_, _, same, _⟩ | earlier
    · exact absurd same (revokesNone _ _)
    · obtain ⟨place, issued⟩ := kept.revocations tid earlier
      exact ⟨place, issued.cons _⟩
  tokens place token secret issued := by
    have earlier := (mem_cons.mp issued).resolve_left (issuesNone _ _ _)
    obtain ⟨identifier, stored, holds⟩ := kept.tokens place token secret earlier
    exact ⟨identifier, stored, holds.carried (tokens _ _) (index _) fun place other same =>
      absurd same (revokesNone place other)⟩

theorem Kept.wrote (kept : Kept service before deeds) {user : User}
    (step : TokenStep service before after (.wrote tenant user)) :
    Kept service after (.wrote tenant user :: deeds) := by
  obtain ⟨valid, text, users, tokens, index⟩ | _ := step
  refine kept.apart (by simp) (by simp) ?_ ?_ tokens index
  · intro place uid
    rw [users, userAt]
    by_cases same : place = tenant ∧ uid = user.id
    · rw [if_pos same, if_pos ⟨same.1.symm, same.2.symm⟩]
      rfl
    · rw [if_neg same, if_neg fun both => same ⟨both.1.symm, both.2.symm⟩]
      exact kept.users place uid
  · intro place uid latest isLatest
    rw [userAt] at isLatest
    split at isLatest
    · next same =>
      cases isLatest
      exact ⟨same.2, valid, text⟩
    · exact kept.written place uid latest isLatest

theorem Kept.issued (kept : Kept service before deeds) {tenant : TenantId} {token : Token}
    {secret : Secret} (step : TokenStep service before after (.issued tenant token secret)) :
    Kept service after (.issued tenant token secret :: deeds) := by
  obtain _ | _ | ⟨identifier, free, users, tokens, index⟩ := step
  have fresh : ∀ {place other otherSecret}, .issued place other otherSecret ∈ deeds →
      other.id ≠ token.id := by
    intro place other otherSecret issued sameId
    obtain ⟨_, _, holds⟩ := kept.tokens _ _ _ issued
    have found := holds.index
    rw [sameId, free] at found
    cases found
  constructor
  · exact fun place uid => (users place uid).trans (kept.users place uid)
  · exact kept.written
  · intro tid raw found
    rw [index] at found
    split at found
    · next same => exact ⟨tenant, token, secret, mem_cons_self, same.symm⟩
    · obtain ⟨place, issued⟩ := kept.index tid raw found
      exact ⟨place, issued.cons _⟩
  · intro place tid raw found
    rw [tokens] at found
    split at found
    · next same =>
      rw [same.1]
      exact ⟨token, secret, mem_cons_self, same.2.symm⟩
    · exact (kept.owned place tid raw found).cons _
  · intro tid revoked
    rcases revoked_cons revoked with ⟨_, _, same, _⟩ | earlier
    · cases same
    · obtain ⟨place, issued⟩ := kept.revocations tid earlier
      exact ⟨place, issued.cons _⟩
  · intro place other otherSecret issued
    rcases mem_cons.mp issued with same | earlier
    · cases same
      refine ⟨identifier, token, ?_, ?_, rfl, rfl, rfl, ?_⟩
      · rw [index, if_pos rfl]
      · rw [tokens, if_pos ⟨rfl, rfl⟩]
      · intro revoked
        rcases revoked_cons revoked with ⟨_, _, same, _⟩ | before
        · cases same
        · obtain ⟨_, other, _, issuedBefore, sameId⟩ := kept.revocations _ before
          exact absurd sameId (fresh issuedBefore)
    · obtain ⟨otherIdentifier, stored, holds⟩ := kept.tokens place other otherSecret earlier
      refine ⟨otherIdentifier, stored, holds.carried ?_ ?_ (by simp)⟩
      · rw [tokens, if_neg fun both => fresh earlier both.2]
      · rw [index, if_neg (fresh earlier)]

theorem Kept.revoked (kept : Kept service before deeds) (token : Token) (now : Time)
    {digest raw : Bytes} {op : String}
    (decoded : service.codecs.decodeToken token.id raw op = .ok (token, digest))
    (was : before.get (tokenKey tenant token.id) = some raw)
    (users : ∀ place uid, after.get (userKey place uid) = before.get (userKey place uid))
    (tokens : ∀ place tid, after.get (tokenKey place tid) = if place = tenant ∧ tid = token.id then
      some (service.codecs.encodeToken { token with revokedAt := some now } digest) else before.get
      (tokenKey place tid))
    (index : ∀ tid, after.get (tokenIndex tid) = before.get (tokenIndex tid)) :
    Kept service after (.revoked tenant { token with revokedAt := some now } :: deeds) := by
  have owned := kept.owned _ _ _ was
  constructor
  · exact fun place uid => (users place uid).trans (kept.users place uid)
  · exact kept.written
  · intro tid raw found
    obtain ⟨place, issued⟩ := kept.index tid raw ((index tid).symm.trans found)
    exact ⟨place, issued.cons _⟩
  · intro place tid raw found
    rw [tokens] at found
    split at found
    · next same =>
      rw [same.1, same.2]
      exact owned.cons _
    · exact (kept.owned place tid raw found).cons _
  · intro tid revoked
    rcases revoked_cons revoked with ⟨_, _, same, sameId⟩ | earlier
    · cases same
      subst sameId
      exact ⟨tenant, owned.cons _⟩
    · obtain ⟨place, issued⟩ := kept.revocations tid earlier
      exact ⟨place, issued.cons _⟩
  · intro place other secret issued
    have earlier := (mem_cons.mp issued).resolve_left (by simp)
    obtain ⟨identifier, stored, holds⟩ := kept.tokens place other secret earlier
    refine ⟨identifier, ?_⟩
    by_cases sameId : other.id = token.id
    · -- the row that was read is the one that was issued to the same tenant
      obtain ⟨origin, _, originIssued, originId⟩ := owned
      obtain rfl := kept.tenant_unique originIssued earlier (originId.trans sameId.symm)
      have row := holds.row
      rw [sameId, was] at row
      cases row
      have again : service.codecs.decodeToken stored.id (service.codecs.encodeToken stored
          (service.digest secret).bytes) op = .ok _ :=
        Codecs.decodeToken_encodeToken stored (service.digest secret).width op
      rw [holds.id, sameId, decoded] at again
      obtain ⟨isToken, rfl⟩ := Prod.mk.inj (Except.ok.inj again)
      refine ⟨{ token with revokedAt := some now }, (index _).trans holds.index, ?_, sameId.symm,
        ?_, ?_, fun _ => nofun⟩
      · rw [tokens, if_pos ⟨rfl, sameId⟩]
      · exact (congrArg Token.user isToken).trans holds.user
      · have expiry := congrArg Token.expiresAt isToken
        dsimp only at expiry ⊢
        rw [expiry, ← holds.expiry, Option.map_map]
        congr 1
        funext time
        exact stamped_stamped time
    · refine ⟨stored, holds.carried ?_ (index _) ?_⟩
      · rw [tokens, if_neg fun both => sameId both.2]
      · rintro _ _ ⟨⟩ same
        exact sameId same.symm

theorem kept_step (kept : Kept service before deeds) (step : TokenStep service before after deed) :
    Kept service after (deed :: deeds) := by
  cases step with
  | wrote valid text users tokens index => exact kept.wrote (.wrote valid text users tokens index)
  | kept same =>
    subst same
    exact kept.apart (by simp) (by simp) kept.users kept.written (fun _ _ => rfl) fun _ => rfl
  | issued identifier free users tokens index =>
    exact kept.issued (.issued identifier free users tokens index)
  | revoked decoded was users tokens index => exact kept.revoked _ _ decoded was users tokens index

theorem kept_initially {store : Store} (noUsers : ∀ tenant uid, store.get (userKey tenant uid) =
      none)
    (noTokens : ∀ tenant tid, store.get (tokenKey tenant tid) = none)
    (noIndex : ∀ tid, store.get (tokenIndex tid) = none) : Kept service store [] := by
  refine ⟨noUsers, fun _ _ _ => nofun, ?_, ?_, ?_, by simp⟩
  · intro tid raw found
    rw [noIndex] at found
    cases found
  · intro tenant tid raw found
    rw [noTokens] at found
    cases found
  · rintro tid ⟨_, _, listed, _⟩
    cases listed

end Kept

/-- What `Verify` promises, of what was committed before it began and when it ended. -/
def Verified (presented : Bytes) (now : Time) (born past : List Deed) :
    Result Service.Identity → Prop
  | .ok identity => ∃ token secret user,
      .issued identity.tenant token secret ∈ past ∧ token.user = identity.user ∧
      presented = Service.formatToken token.id secret ∧ ¬ Revoked born token.id ∧
      (∀ expiry ∈ token.expiresAt, now < stamped expiry) ∧ born <:+ past ∧
      userAt identity.tenant identity.user past = some user ∧ user.state = .active
  | .error fault => fault = Service.refused ∨ ∃ tenant token secret,
      .issued tenant token secret ∈ past ∧ presented = Service.formatToken token.id secret

section Verification

variable {service} {check : Labelled Deed → Store → Prop} {others mine : Labelled Deed → Prop}
  {presented : Bytes} {now : Time} {born past : List Deed} {seen : Store}

variable {tenant : TenantId}

theorem parseTenant_of_identifier (identifier : validIdentifier tenant = true) :
    parseTenant tenant = .ok tenant := by
  simp only [validIdentifier, Bool.and_eq_true, decide_eq_true_eq] at identifier
  obtain ⟨⟨filled, short⟩, legal⟩ := identifier
  have none : tenant.find? (fun byte => !identifierByte byte) = none := by
    rw [find?_eq_none]
    intro byte listed
    simp [all_eq_true.mp legal byte listed]
  unfold parseTenant validateIdentifier
  rw [if_neg filled, if_neg (by omega), none]
  rfl

variable {token : Token}

theorem active_of_stateAt (active : token.stateAt now = .active) :
    token.revokedAt = none ∧ ∀ expiry ∈ token.expiresAt, now < expiry := by
  unfold Token.stateAt at active
  split at active
  · cases active
  next unrevoked =>
  split at active
  · cases active
  next unexpired =>
  refine ⟨by simpa using unrevoked, fun expiry isExpiry => ?_⟩
  rw [mem_def.mp isExpiry] at unexpired
  simpa using unexpired

theorem works_verifyUser {stored : Token} {secret : Secret}
    (issued : .issued tenant token secret ∈ past) (grown : born <:+ past)
    (spelled : presented = Service.formatToken token.id secret) (owner : stored.user = token.user)
    (unrevoked : ¬ Revoked born token.id)
    (unexpired : ∀ expiry ∈ token.expiresAt, now < stamped expiry) :
    Works check (Kept service) others mine
      (fun result _ past => Verified presented now born past result)
      (service.verifyUser tenant stored) seen past := by
  refine works_observe_bind fun store done kept moved => ?_
  have later := suffix_of_moves moved
  have still : .issued tenant token secret ∈ done := later.subset issued
  cases latest : userAt tenant stored.user done with
  | none =>
    rw [kept.users, latest]
    exact .inr ⟨tenant, token, secret, still, spelled⟩
  | some user =>
    obtain ⟨isUser, valid, text⟩ := kept.written _ _ _ latest
    have decoded : service.codecs.decodeUser user.id (service.codecs.encodeUser user)
        "users.Verify" = .ok _ := Codecs.decodeUser_encodeUser text valid _
    rw [isUser] at decoded
    rw [kept.users, latest, map_some]
    dsimp only
    rw [decoded]
    dsimp only
    split
    · exact .inl rfl
    next active =>
    exact ⟨token, secret, user, still, owner.symm, spelled, unrevoked, unexpired,
      grown.trans later, latest, not_not.mp active⟩

theorem works_verifyToken (injective : Function.Injective service.digest) {secret given : Secret}
    (issued : .issued tenant token secret ∈ past) (grown : born <:+ past)
    (spelled : presented = Service.formatToken token.id given) :
    Works check (Kept service) others mine
      (fun result _ past => Verified presented now born past result)
      (service.verifyToken tenant token.id given now) seen past := by
  refine works_observe_bind fun store done kept moved => ?_
  have later := suffix_of_moves moved
  have still : .issued tenant token secret ∈ done := later.subset issued
  obtain ⟨_, stored, holds⟩ := kept.tokens _ _ _ still
  have decoded : service.codecs.decodeToken stored.id (service.codecs.encodeToken stored
      (service.digest secret).bytes) "users.Verify" = .ok _ :=
    Codecs.decodeToken_encodeToken stored (service.digest secret).width _
  rw [holds.id] at decoded
  rw [holds.row]
  dsimp only
  rw [decoded]
  dsimp only
  split
  · exact .inl rfl
  next same =>
  obtain rfl : given = secret := injective (Digest.ext (not_not.mp same))
  split
  · exact .inl rfl
  next active =>
  obtain ⟨unrevoked, unexpired⟩ := active_of_stateAt (not_not.mp active)
  refine works_verifyUser still (grown.trans later) spelled holds.user ?_ ?_
  · rintro ⟨place, other, listed, sameId⟩
    refine holds.revoked ⟨place, other, (grown.trans later).subset listed, sameId⟩ ?_
    simpa using unrevoked
  · intro expiry isExpiry
    refine unexpired _ ?_
    dsimp only
    rw [holds.expiry, mem_def.mp isExpiry]
    rfl

theorem works_verify (injective : Function.Injective service.digest) :
    Works check (Kept service) others mine
      (fun result _ past => Verified presented now born past result)
      (service.verify presented now) seen born := by
  unfold Service.verify
  split
  · exact .inl rfl
  next tid secret parsed =>
  refine works_observe_bind fun store done kept moved => ?_
  cases found : store.get (tokenIndex tid) with
  | none => exact .inl rfl
  | some raw =>
    obtain ⟨tenant, token, issuedSecret, issued, rfl⟩ := kept.index tid raw found
    obtain ⟨identifier, stored, holds⟩ := kept.tokens _ _ _ issued
    cases found.symm.trans holds.index
    dsimp only
    rw [service.codecs.tokenIndex.unmarshal_marshal tenant (validUtf8_of_identifier identifier)]
    dsimp only
    rw [parseTenant_of_identifier identifier]
    exact works_verifyToken injective issued (suffix_of_moves moved)
      (formatToken_of_parseToken parsed)

def Promise : UserCall → List Deed → UserAnswer → Store → List Deed → Prop
  | .verify presented now, born, .identity result, _, past =>
    Verified presented now born past result
  | _, _, _, _, _ => True

theorem works_program (injective : Function.Injective service.digest) (call : UserCall) :
    Works (fun _ _ => True) (Kept service) others (Fits service call) (Promise call past)
      (call.program service) seen past := by
  have writes : Works (fun _ _ => True) (Kept service) others (Fits service call)
      (fun _ _ _ => True) (call.program service) seen past :=
    (keeping_program call).works (fun payload store done fits kept accepts _ =>
      kept_step kept (tokenStep_of_staged fits.1 accepts)) seen past
  cases call with
  | verify presented now => exact (works_verify injective).bind fun _ _ _ verified => verified
  | create => exact writes.imp fun _ _ _ _ => trivial
  | rename => exact writes.imp fun _ _ _ _ => trivial
  | setState => exact writes.imp fun _ _ _ _ => trivial
  | restore => exact writes.imp fun _ _ _ _ => trivial
  | issueToken => exact writes.imp fun _ _ _ _ => trivial
  | revokeToken => exact writes.imp fun _ _ _ _ => trivial

end Verification

/-- An `IssueToken` for the user in the tenant answered this token and this text. -/
def Returned (world : World UserCall Store (Labelled Deed) Fault UserAnswer) (tenant : TenantId)
    (token : Token) (text : Bytes) : Prop :=
  ∃ (index : Nat) (thread : Thread UserCall Store (Labelled Deed) Fault UserAnswer)
    (context : Option TenantId) (expiresAt : Option Time) (secret : Secret) (now : Time)
    (cancelled : Nat → Bool), world.threads[index]? = some thread ∧
    thread.call = .issueToken context token.user expiresAt token.id secret now cancelled ∧
    requireTenant context = .ok tenant ∧ thread.program = .ret (.issued (.ok ⟨token, text⟩))

/-- Every write that disables the user, of those before a call began, was followed by one
that enabled it. -/
def Enabled (tenant : TenantId) (uid : Id) (born all : List Deed) : Prop :=
  ∀ newer older user, all = newer ++ .wrote tenant user :: older →
    (.wrote tenant user :: older) <:+ born → user.id = uid → user.state = .disabled →
    ∃ other, .wrote tenant other ∈ newer ∧ other.id = uid ∧ other.state = .active

/-- The clock that `IssueToken` read is not before the first instant that a row can hold. -/
def UserCall.Clocked : UserCall → Prop
  | issueToken _ _ _ _ _ now _ => -2 ^ 63 ≤ now.unixMilli
  | _ => True

section Runs

variable {service} {tenant : TenantId}

theorem userAt_append {uid : Id} {newer older : List Deed} {user latest : User}
    (isUser : user.id = uid)
    (isLatest : userAt tenant uid (newer ++ .wrote tenant user :: older) = some latest) :
    latest = user ∨ .wrote tenant latest ∈ newer ∧ latest.id = uid := by
  induction newer with
  | nil =>
    rw [nil_append, userAt, if_pos ⟨rfl, isUser⟩] at isLatest
    exact .inl (Option.some.inj isLatest).symm
  | cons deed newer ih =>
    have further : userAt tenant uid (newer ++ .wrote tenant user :: older) = some latest →
        latest = user ∨ .wrote tenant latest ∈ deed :: newer ∧ latest.id = uid := by
      intro isLatest
      rcases ih isLatest with same | ⟨listed, isUid⟩
      · exact .inl same
      · exact .inr ⟨mem_cons_of_mem _ listed, isUid⟩
    cases deed with
    | wrote place written =>
      rw [cons_append, userAt] at isLatest
      split at isLatest
      · next same =>
        cases isLatest
        rw [same.1]
        exact .inr ⟨mem_cons_self, same.2⟩
      · exact further isLatest
    | kept => exact further isLatest
    | issued _ _ _ => exact further isLatest
    | revoked _ _ => exact further isLatest

theorem enabled_of_userAt {uid : Id} {born past all : List Deed} {user : User}
    (grown : born <:+ past) (further : past <:+ all) (isLatest : userAt tenant uid past = some user)
    (active : user.state = .active) : Enabled tenant uid born all := by
  intro newer older disabled isAll isBorn isUid isDisabled
  obtain ⟨middle, rfl⟩ := isBorn.trans grown
  obtain ⟨newest, rfl⟩ := further
  rw [← append_assoc] at isAll
  obtain rfl := append_cancel_right isAll
  rcases userAt_append isUid isLatest with rfl | ⟨listed, sameId⟩
  · rw [active] at isDisabled
    cases isDisabled
  · exact ⟨user, mem_append_right _ listed, sameId, active⟩

theorem stamped_le_of_issueExpiry {now expiry : Time} {expiresAt : Option Time}
    (clocked : -2 ^ 63 ≤ now.unixMilli)
    (accepted : Service.issueExpiry (truncated now) expiresAt = .ok (some expiry)) :
    stamped expiry ≤ expiry := by
  cases expiresAt with
  | none => cases accepted
  | some expiresAt =>
    rw [Service.issueExpiry] at accepted
    split at accepted
    · cases accepted
    next future =>
    cases accepted
    have less : truncated now < truncated expiresAt := by simpa using future
    have millis : now.unixMilli * 1000000 < expiresAt.unixMilli * 1000000 := less
    exact stamped_le (by omega)

theorem closes_issueToken (context : Option TenantId) (uid : Id) (expiresAt : Option Time)
    (tid : Id) (secret : Secret) (now : Time) (cancelled : Nat → Bool) :
    (UserCall.program service (.issueToken context uid expiresAt tid secret now cancelled)).Closes
      fun payload answer => ∀ tenant token given, payload.label = .issued tenant token given →
        answer = .issued (.ok ⟨token, Service.formatToken token.id given⟩) := by
  have transacts : ∀ tenant token, (Service.transact cancelled
      (service.issueBody tenant token secret)).Closes fun payload result =>
        ∀ place other given, payload.label = .issued place other given →
          result = .ok ⟨other, Service.formatToken other.id given⟩ := by
    intro tenant token
    have stages : Triple (fun _ => True) (· = {}) (service.issueBody tenant token secret)
        fun result _ => ∀ value, result = .ok value →
          value = (⟨token, Service.formatToken token.id secret⟩, .issued tenant token secret) := by
      refine readUser_bind (fun _ _ => nofun) fun user raw decoded => ?_
      refine update_bind (update_bind (update_bind (update_bind (update_bind (Triple.pure ?_)))))
      rintro _ rfl _ ⟨⟩
      rfl
    refine (closes_perform cancelled stages).bind ?_ ?_
    · rintro payload _ ⟨value, rfl, isLabel, rfl⟩
      refine ⟨_, rfl, fun place other given isIssued => ?_⟩
      cases isLabel.symm.trans isIssued
      rfl
    · intro result
      cases result <;> trivial
  have issues : (service.issueToken context uid expiresAt tid secret now cancelled).Closes
      fun payload result => ∀ tenant token given, payload.label = .issued tenant token given →
        result = .ok ⟨token, Service.formatToken token.id given⟩ := by
    unfold Service.issueToken
    split
    · trivial
    split
    · trivial
    · exact transacts _ _
  refine issues.bind ?_ fun _ => trivial
  intro payload result answers
  exact ⟨_, rfl, fun tenant token given isIssued => by rw [answers _ _ _ isIssued]⟩

theorem returned_of_issued (engine : Engine) {initial : Store} {schedule : List (Action UserCall)}
    {token : Token} {secret : Secret}
    (commits : ∀ entry ∈ ((engine.system (UserCall.program service)).run initial schedule).history,
      Fits service entry.call entry.batch)
    (clocked : ∀ call ∈ schedule.filterMap Action.spawned, call.Clocked)
    (issued : .issued tenant token secret ∈ labels ((engine.system (UserCall.program service)).run
      initial schedule).history) :
    Returned ((engine.system (UserCall.program service)).run initial schedule) tenant token
      (Service.formatToken token.id secret) ∧
    ∀ expiry ∈ token.expiresAt, stamped expiry ≤ expiry := by
  obtain ⟨⟨index, call, payload⟩, listed, isIssued⟩ := mem_map.mp issued
  replace isIssued : payload.label = .issued tenant token secret := isIssued
  have did := (commits _ listed).2
  dsimp only at did
  rw [isIssued] at did
  cases call with
  | issueToken context uid expiresAt tid given now cancelled =>
    obtain ⟨required, rfl, rfl, rfl, expires⟩ := did
    obtain ⟨thread, answer, found, isCall, isEnd, answers⟩ :=
      (System.closed_run (closes_issueToken context token.user expiresAt token.id secret now
        cancelled) initial schedule).ended _ listed rfl
    refine ⟨⟨index, thread, context, expiresAt, secret, now, cancelled, found, isCall, required,
      ?_⟩, ?_⟩
    · rw [isEnd, answers _ _ _ isIssued]
    · intro expiry isExpiry
      have isClocked := clocked thread.call (by
        rw [← System.calls_run]
        exact mem_map_of_mem (mem_of_getElem? found))
      rw [isCall] at isClocked
      rw [mem_def.mp isExpiry] at expires
      exact stamped_le_of_issueExpiry isClocked expires
  | create => exact False.elim did
  | rename => exact False.elim did
  | setState => exact False.elim did
  | restore => exact False.elim did
  | revokeToken => exact False.elim did
  | verify => exact False.elim did

/-- In every run that starts without users and tokens, where digests are injective: a
`Verify` that answers an identity was given the text of a token that `IssueToken` returned for
that user in that tenant; the token was not revoked and the user not disabled, without being
enabled again, before the `Verify` began; and the token had not expired at the clock that it
read. Whatever else it is given, it refuses. -/
theorem verifies_only_valid_tokens (engine : Engine)
    (injective : Function.Injective service.digest) {initial : Store}
    (noUsers : ∀ tenant uid, initial.get (userKey tenant uid) = none)
    (noTokens : ∀ tenant tid, initial.get (tokenKey tenant tid) = none)
    (noIndex : ∀ tid, initial.get (tokenIndex tid) = none) (schedule : List (Action UserCall))
    (clocked : ∀ call ∈ schedule.filterMap Action.spawned, call.Clocked)
    (index : Nat) (thread : Thread UserCall Store (Labelled Deed) Fault UserAnswer)
    (presented : Bytes) (now : Time) (result : Result Service.Identity)
    (found : ((engine.system (UserCall.program service)).run initial schedule).threads[index]? =
      some thread)
    (isVerify : thread.call = .verify presented now)
    (ended : thread.program = .ret (.identity result)) :
    let world := (engine.system (UserCall.program service)).run initial schedule
    (∀ tenant uid, result = .ok ⟨tenant, uid⟩ → ∃ token,
      Returned world tenant token presented ∧ token.user = uid ∧
      ¬ Revoked (labels thread.born) token.id ∧
      Enabled tenant uid (labels thread.born) (labels world.history) ∧
      ∀ expiry ∈ token.expiresAt, now < expiry) ∧
    ((∀ tenant token, ¬ Returned world tenant token presented) →
      result = .error Service.refused) := by
  intro world
  obtain ⟨holds, ends⟩ := run_of_works_since (engine.commitsBatches _) (Fits service) Promise
    (fun call seen done _ _ => works_program injective call)
    (kept_initially noUsers noTokens noIndex) (engine.distinct _ _)
    (System.meets_unchecked (engine.system (UserCall.program service)) (System.start initial)
      schedule)
  obtain ⟨_, seen, past, moved, verified⟩ := ends index thread _ found ended
  rw [isVerify] at verified
  replace verified : Verified presented now (labels thread.born) past result := verified
  have further := suffix_of_moves moved
  refine ⟨?_, fun unissued => ?_⟩
  · rintro tenant uid rfl
    obtain ⟨token, secret, user, issued, isUser, rfl, unrevoked, unexpired, grown, latest,
      active⟩ := verified
    obtain ⟨returned, below⟩ := returned_of_issued engine holds.2 clocked (further.subset issued)
    exact ⟨token, returned, isUser, unrevoked, enabled_of_userAt grown further latest active,
      fun expiry isExpiry => lt_of_lt_of_le (unexpired expiry isExpiry) (below expiry isExpiry)⟩
  · cases result with
    | ok identity =>
      obtain ⟨token, secret, _, issued, _, rfl, _⟩ := verified
      exact absurd (returned_of_issued engine holds.2 clocked (further.subset issued)).1
        (unissued _ _)
    | error fault =>
      rcases verified with rfl | ⟨tenant, token, secret, issued, rfl⟩
      · rfl
      · exact absurd (returned_of_issued engine holds.2 clocked (further.subset issued)).1
          (unissued _ _)

end Runs

def givenSecret : Secret := ⟨List.replicate secretLen 7, rfl⟩

def givenText : Bytes := Service.formatToken (Id.filled 2) givenSecret

/-- A user is created, a token is issued to it, and its text is verified. -/
def givenSchedule : List (Action UserCall) :=
  [.spawn (.create (some (ascii "t")) (ascii "a") (Id.filled 1) 0 fun _ => false), .act 0, .act 0,
    .spawn (.issueToken (some (ascii "t")) (Id.filled 1) (some 5000000) (Id.filled 2) givenSecret 0
      fun _ => false),
    .act 1, .act 1,
    .spawn (.verify givenText 3000000), .act 2, .act 2, .act 2]

theorem verifies_only_valid_tokens_issued :
    let world := (Engine.memkv.system (UserCall.program .plain)).run .empty givenSchedule
    ∃ thread, world.threads[2]? = some thread ∧
      thread.program = .ret (.identity (.ok ⟨ascii "t", Id.filled 1⟩)) ∧
      ∃ token, Returned world (ascii "t") token givenText ∧ token.user = Id.filled 1 ∧
        ∀ expiry ∈ token.expiresAt, (3000000 : Time) < expiry := by
  intro world
  have answered : (world.threads[2]?.bind fun thread => thread.program.answer?) =
      some (.identity (.ok ⟨ascii "t", Id.filled 1⟩)) := by
    decide +kernel
  obtain ⟨thread, found, answer⟩ := bind_eq_some_iff.mp answered
  have ended := Program.answer?_eq_some_iff.mp answer
  have isVerify : thread.call = .verify givenText 3000000 := by
    have calls : world.threads.map Thread.call = givenSchedule.filterMap Action.spawned :=
      System.calls_run _ _
    have third : (world.threads.map Thread.call)[2]? = some (.verify givenText 3000000) := by
      rw [calls]
      rfl
    rw [getElem?_map, found] at third
    exact Option.some.inj third
  have injective : Function.Injective Service.plain.digest := by
    rintro ⟨first, _⟩ ⟨second, _⟩ same
    cases same
    rfl
  have clocked : ∀ call ∈ givenSchedule.filterMap Action.spawned, call.Clocked := by
    intro call listed
    rcases mem_cons.mp listed with rfl | listed
    · trivial
    rcases mem_pair.mp listed with rfl | rfl
    · exact (by decide : -2 ^ 63 ≤ Time.unixMilli 0)
    · trivial
  obtain ⟨token, returned, isUser, _, _, unexpired⟩ :=
    (verifies_only_valid_tokens .memkv injective (fun _ _ => rfl) (fun _ _ => rfl) (fun _ => rfl)
      givenSchedule clocked 2 thread givenText 3000000 _ found isVerify ended).1 _ _ rfl
  exact ⟨thread, found, ended, token, returned, isUser, unexpired⟩

end Remem.Users
