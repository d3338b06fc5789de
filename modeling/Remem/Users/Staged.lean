import Remem.Storage.Exact
import Remem.Storage.Keeping
import Remem.Users.Service

/-!
# What the transactions of the user service stage

Every batch that a call attempts is one of a few, each known up to what the transaction read.
-/

namespace Remem.Users

open Base Keys Storage Triple

variable (service : Service) (tenant : TenantId)

/-- The batch once the name was claimed, from what the name row was read as. -/
def claimed (batch : Batch) (folded : Bytes) (uid : Id) : Option Bytes → Batch
  | none =>
    ((batch.reading (nameKey tenant folded) none).expect (nameKey tenant folded) [] false).set
      (nameKey tenant folded) (service.codecs.encodeName uid)
  | some raw => batch.reading (nameKey tenant folded) (some raw)

def released (batch : Batch) (old : Bytes) (uid : Id) : Batch :=
  (batch.expect (nameKey tenant old) (service.codecs.encodeName uid) true).delete
    (nameKey tenant old)

def Claimable (service : Service) (uid : Id) (read : Option Bytes) : Prop :=
  ∀ raw, read = some raw → service.codecs.decodeName raw "users.claimName" = .ok uid

def Blank (batch : Batch) : Prop := batch.ops = [] ∧ batch.conditions = []

/-- The batch once the user was written, on the condition that its row is what was read. -/
def written (batch : Batch) (user : User) (row : Option Bytes) : Batch :=
  (batch.expect (userKey tenant user.id) (row.getD []) row.isSome).set (userKey tenant user.id)
    (service.codecs.encodeUser user)

def issuing (token : Token) (secret : Secret) (raw : Bytes) : Batch :=
  (((((({} : Batch).reading (userKey tenant token.user) (some raw)).expect
    (userKey tenant token.user) raw true).expect (tokenKey tenant token.id) [] false).expect
    (tokenIndex token.id) [] false).set (tokenKey tenant token.id)
      (service.codecs.encodeToken token (service.digest secret).bytes)).set
    (tokenIndex token.id) (service.codecs.tokenIndex.marshal tenant)

def revoking (token : Token) (digest raw : Bytes) : Batch :=
  ((({} : Batch).reading (tokenKey tenant token.id) (some raw)).expect
    (tokenKey tenant token.id) raw true).set (tokenKey tenant token.id)
    (service.codecs.encodeToken token digest)

inductive Staged : Labelled Deed → Prop
  | inserted {tenant : TenantId} {user : User} {folded : Bytes} {read : Option Bytes}
      {base : Batch} (valid : user.state.valid = true)
      (folds : service.rules.foldName user.name = .ok folded) (blank : Blank base)
      (claimable : Claimable service user.id read) :
      Staged ⟨written service tenant (claimed service tenant base folded user.id read) user none,
        .wrote tenant user⟩
  | kept {batch : Batch} (nothing : batch.ops = []) : Staged ⟨batch, .kept⟩
  | rewritten {tenant : TenantId} {user stored : User} {folded raw : Bytes} {op : String}
      {base : Batch} (valid : user.state.valid = true)
      (folds : service.rules.foldName user.name = .ok folded)
      (decoded : service.codecs.decodeUser user.id raw op = .ok stored)
      (foldedOld : service.rules.foldName stored.name = .ok folded) (blank : Blank base) :
      Staged ⟨written service tenant base user (some raw), .wrote tenant user⟩
  | renamed {tenant : TenantId} {user stored : User} {folded old raw : Bytes}
      {read : Option Bytes} {op : String} {base : Batch} (valid : user.state.valid = true)
      (folds : service.rules.foldName user.name = .ok folded)
      (decoded : service.codecs.decodeUser user.id raw op = .ok stored)
      (foldedOld : service.rules.foldName stored.name = .ok old) (blank : Blank base)
      (differ : old ≠ folded) (claimable : Claimable service user.id read) :
      Staged ⟨written service tenant (released service tenant
        (claimed service tenant base folded user.id read) old user.id) user (some raw),
        .wrote tenant user⟩
  | restated {tenant : TenantId} {user stored : User} {raw : Bytes} {op : String} {base : Batch}
      (valid : user.state.valid = true)
      (decoded : service.codecs.decodeUser user.id raw op = .ok stored)
      (sameName : user.name = stored.name) (blank : Blank base) :
      Staged ⟨written service tenant base user (some raw), .wrote tenant user⟩
  | issued {tenant : TenantId} {token : Token} {secret : Secret} {raw : Bytes}
      (identifier : validIdentifier tenant = true) :
      Staged ⟨issuing service tenant token secret raw, .issued tenant token secret⟩
  | revoked {tenant : TenantId} {token : Token} {digest raw : Bytes} {now : Time} {op : String}
      (decoded : service.codecs.decodeToken token.id raw op = .ok (token, digest)) :
      Staged ⟨revoking service tenant { token with revokedAt := some now } digest raw,
        .revoked tenant { token with revokedAt := some now }⟩

section Stages

variable {service tenant} {holds : Store → Prop} {batch : Batch} {folded old : Bytes} {uid : Id}
  {read : Option Bytes}

variable {codecs : Codecs} {raw : Bytes} {op : String} {user : User}

theorem decodeUser_op (decoded : codecs.decodeUser uid raw op = .ok user) (another : String) :
    codecs.decodeUser uid raw another = .ok user := by
  unfold Codecs.decodeUser at decoded ⊢
  split at decoded
  · cases decoded
  dsimp only at decoded ⊢
  split at decoded
  · cases decoded
  next valid =>
  rw [if_neg valid]
  exact decoded

theorem id_of_decodeUser (decoded : codecs.decodeUser uid raw op = .ok user) : user.id = uid := by
  unfold Codecs.decodeUser at decoded
  split at decoded
  · cases decoded
  dsimp only at decoded
  split at decoded
  · cases decoded
  · cases decoded
    rfl

theorem valid_of_decodeUser (decoded : codecs.decodeUser uid raw op = .ok user) :
    user.state.valid = true := by
  unfold Codecs.decodeUser at decoded
  split at decoded
  · cases decoded
  dsimp only at decoded
  split at decoded
  · cases decoded
  next valid =>
  cases decoded
  simpa using valid

theorem triple_claimName (unstaged : batch.staged (nameKey tenant folded) = none) :
    Triple holds (· = batch) (service.claimName tenant folded uid) fun result after =>
      result = .ok none → ∃ read, Claimable service uid read ∧
        after = claimed service tenant batch folded uid read := by
  refine read_bind unstaged fun store _ => ?_
  cases store.get (nameKey tenant folded) with
  | none =>
    refine update_bind (update_bind (Triple.pure ?_))
    rintro _ rfl _
    exact ⟨none, nofun, rfl⟩
  | some raw =>
    refine Triple.lift_bind ?_ (fun _ _ _ => nofun)
    intro holder decoded
    refine Triple.pure ?_
    rintro _ rfl isOwn
    refine ⟨some raw, ?_, rfl⟩
    rintro _ ⟨⟩
    have own : holder = uid := by
      by_contra differ
      rw [if_pos differ] at isOwn
      cases isOwn
    rw [← own]
    exact decoded

theorem triple_moveName (unstaged : batch.staged (nameKey tenant folded) = none) :
    Triple holds (· = batch) (service.moveName tenant uid old folded) fun result after =>
      result = .ok none → (old = folded ∧ after = batch) ∨
        (old ≠ folded ∧ ∃ read, Claimable service uid read ∧
          after = released service tenant (claimed service tenant batch folded uid read) old uid) := by
  unfold Service.moveName
  split
  · next differ =>
    refine (triple_claimName unstaged).bind ?_ (fun _ _ _ => nofun)
    intro holder
    cases holder with
    | some holder => exact Triple.pure fun _ _ => nofun
    | none =>
      refine of_known fun after claims => ?_
      obtain ⟨read, claimable, rfl⟩ := claims rfl
      dsimp only
      refine update_bind (update_bind (Triple.pure ?_))
      rintro _ rfl _
      exact .inr ⟨differ, read, claimable, rfl⟩
  · next same =>
    refine Triple.pure ?_
    rintro _ rfl _
    exact .inl ⟨not_not.mp same, rfl⟩

variable {key : Bytes}

theorem unstaged_of_ops (nothing : batch.ops = []) : batch.staged key = none := by
  rw [Batch.staged_eq_none_iff, nothing]
  simp

variable {Value : Type}

variable {post : Result Value → Batch → Prop}

theorem write_bind {expected value : Bytes} {present : Bool} {continuation : Unit → UserTx Value}
    (continues : Triple holds (· = (batch.expect key expected present).set key value) (continuation
      ()) post) :
    Triple holds (· = batch)
      ((do Tx.expect key expected present; Tx.set key value) >>= continuation) post := by
  have writes : Triple holds (· = batch)
      (do Tx.expect key expected present; Tx.set key value : UserTx Unit) fun result after =>
        result = .ok () ∧ after = (batch.expect key expected present).set key value := by
    refine update_bind (Triple.update ?_)
    rintro _ rfl
    exact ⟨rfl, rfl⟩
  refine writes.bind ?_ ?_
  · rintro ⟨⟩
    exact Triple.strengthen continues fun _ => And.right
  · rintro fault _ ⟨⟨⟩, _⟩

theorem foldName_of_storedFold (folds : service.storedFold op user = .ok old) :
    service.rules.foldName user.name = .ok old := by
  unfold Service.storedFold at folds
  split at folds
  · cases folds
  next folded isFolded =>
  cases folds
  exact isFolded

theorem readUser_bind {continuation : User × Bytes → UserTx Value}
    (fails : ∀ fault batch, post (.error fault) batch)
    (continues : ∀ user raw, service.codecs.decodeUser uid raw op = .ok user → Triple holds (· =
      ({} : Batch).reading (userKey tenant uid) (some raw)) (continuation (user, raw)) post) :
    Triple holds (· = {}) (service.readUser tenant uid op >>= continuation) post := by
  have reads : Triple holds (· = {}) (service.readUser tenant uid op) fun result after =>
      ∀ user raw, result = .ok (user, raw) → service.codecs.decodeUser uid raw op = .ok user ∧
        after = ({} : Batch).reading (userKey tenant uid) (some raw) := by
    refine read_bind (unstaged_of_ops rfl) fun store _ => ?_
    cases store.get (userKey tenant uid) with
    | none => exact Triple.throw fun _ _ => nofun
    | some raw =>
      refine Triple.lift_bind (fun user decoded => Triple.pure ?_) fun _ _ _ => nofun
      rintro _ rfl _ _ ⟨⟩
      exact ⟨decoded, rfl⟩
  refine reads.bind ?_ fun fault batch _ => fails fault batch
  rintro ⟨user, raw⟩
  refine of_known fun after known => ?_
  obtain ⟨decoded, rfl⟩ := known user raw rfl
  exact continues user raw decoded

def StagesKnown {Value : Type} (service : Service) (did : Deed → Prop)
    (body : UserTx (Value × Deed)) : Prop :=
  Triple (fun _ => True) (· = {}) body fun result batch =>
    ∀ value, result = .ok value → Staged service ⟨batch, value.2⟩ ∧ did value.2

def Deed.plain : Deed → Prop
  | issued _ _ _ => False
  | _ => True

variable {value : Value}

theorem stages_insert (valid : user.state.valid = true)
    (folds : service.rules.foldName user.name = .ok folded) (blank : Blank batch)
    (claimable : Claimable service user.id read) :
    Triple holds (· = claimed service tenant batch folded user.id read)
      (do service.insert tenant user; return (value, Deed.wrote tenant user)) fun result batch =>
        ∀ value, result = .ok value → Staged service ⟨batch, value.2⟩ ∧ value.2.plain := by
  refine write_bind (Triple.pure ?_)
  rintro _ rfl _ ⟨⟩
  exact ⟨.inserted valid folds blank claimable, trivial⟩

theorem stages_create (valid : user.state.valid = true)
    (folds : service.rules.foldName user.name = .ok folded) :
    StagesKnown service Deed.plain (service.createBody tenant folded user) := by
  refine (triple_claimName (unstaged_of_ops rfl)).bind ?_ (fun _ _ _ => nofun)
  intro holder
  cases holder with
  | some holder => exact Triple.throw fun _ _ => nofun
  | none =>
    refine of_known fun after claims => ?_
    obtain ⟨read, claimable, rfl⟩ := claims rfl
    exact stages_insert valid folds ⟨rfl, rfl⟩ claimable

theorem stages_move {stored : User} {taken : Id → Fault} (user : User)
    (valid : user.state.valid = true) (folds : service.rules.foldName user.name = .ok folded)
    (decoded : service.codecs.decodeUser user.id raw op = .ok stored)
    (foldedOld : service.rules.foldName stored.name = .ok old) (blank : Blank batch) :
    Triple holds (· = batch) (do match ← service.moveName tenant user.id old folded with
          | some holder => throw (taken holder)
          | none =>
            service.rewrite tenant raw user
            return (value, Deed.wrote tenant user)) fun result batch =>
        ∀ value, result = .ok value → Staged service ⟨batch, value.2⟩ ∧ value.2.plain := by
  refine (triple_moveName (unstaged_of_ops blank.1)).bind ?_ (fun _ _ _ => nofun)
  intro holder
  cases holder with
  | some holder => exact Triple.throw fun _ _ => nofun
  | none =>
    refine of_known fun after moved => ?_
    refine write_bind (Triple.pure ?_)
    rintro _ rfl _ ⟨⟩
    rcases moved rfl with ⟨rfl, rfl⟩ | ⟨differ, read, claimable, rfl⟩
    · exact ⟨.rewritten valid folds decoded foldedOld blank, trivial⟩
    · exact ⟨.renamed valid folds decoded foldedOld blank differ claimable, trivial⟩

variable {now : Time}

theorem stages_rename {name : Bytes} (folds : service.rules.foldName name = .ok folded) :
    StagesKnown service Deed.plain (service.renameBody tenant uid name folded now) := by
  refine readUser_bind (fun _ _ => nofun) fun user raw decoded => ?_
  obtain rfl := id_of_decodeUser decoded
  refine Triple.lift_bind (fun old isOld => ?_) fun _ _ _ => nofun
  have valid : user.state.valid = true := valid_of_decodeUser decoded
  exact stages_move { user with name, updatedAt := now } valid folds decoded
    (foldName_of_storedFold isOld) ⟨rfl, rfl⟩

theorem stages_setState {state : UserState} (valid : state.valid = true) :
    StagesKnown service Deed.plain (service.setStateBody tenant uid state now) := by
  refine readUser_bind (fun _ _ => nofun) fun user raw decoded => ?_
  obtain rfl := id_of_decodeUser decoded
  dsimp only
  split
  · refine Triple.pure ?_
    rintro _ rfl _ ⟨⟩
    exact ⟨.kept rfl, trivial⟩
  refine write_bind (Triple.pure ?_)
  rintro _ rfl _ ⟨⟩
  have blank : Blank (({} : Batch).reading (userKey tenant user.id) (some raw)) := ⟨rfl, rfl⟩
  have restated : Staged service ⟨written service tenant _ { user with state, updatedAt := now }
    (some raw), _⟩ := .restated valid decoded rfl blank
  exact ⟨restated, trivial⟩

theorem stages_restore {mode : RestoreMode} (valid : user.state.valid = true)
    (folds : service.rules.foldName user.name = .ok folded) :
    StagesKnown service Deed.plain (service.restoreBody tenant folded user mode) := by
  refine read_bind (unstaged_of_ops rfl) fun store _ => ?_
  cases store.get (userKey tenant user.id) with
  | none =>
    refine (triple_claimName (unstaged_of_ops rfl)).bind ?_ (fun _ _ _ => nofun)
    intro holder
    cases holder with
    | some holder => exact Triple.throw fun _ _ => nofun
    | none =>
      refine of_known fun after claims => ?_
      obtain ⟨read, claimable, rfl⟩ := claims rfl
      exact stages_insert valid folds ⟨rfl, rfl⟩ claimable
  | some raw =>
    refine Triple.lift_bind (fun stored decoded => ?_) fun _ _ _ => nofun
    split
    · refine Triple.pure ?_
      rintro _ rfl _ ⟨⟩
      exact ⟨.kept rfl, trivial⟩
    split
    · exact Triple.throw fun _ _ => nofun
    · refine Triple.lift_bind (fun old isOld => ?_) fun _ _ _ => nofun
      exact stages_move user valid folds decoded (foldName_of_storedFold isOld) ⟨rfl, rfl⟩

theorem stages_issue {token : Token} {secret : Secret} (identifier : validIdentifier tenant = true)
      :
    StagesKnown service (· = .issued tenant token secret)
      (service.issueBody tenant token secret) := by
  refine readUser_bind (fun _ _ => nofun) fun user raw decoded => ?_
  refine update_bind (update_bind (update_bind (update_bind (update_bind (Triple.pure ?_)))))
  rintro _ rfl _ ⟨⟩
  exact ⟨.issued identifier, rfl⟩

variable {tid : Id}

theorem id_of_decodeToken {found : Token × Bytes}
    (decoded : codecs.decodeToken tid raw op = .ok found) : found.1.id = tid := by
  unfold Codecs.decodeToken at decoded
  split at decoded
  · cases decoded
  split at decoded
  · cases decoded
  split at decoded
  · cases decoded
  · cases decoded
    rfl

theorem stages_revoke : StagesKnown service Deed.plain (service.revokeBody tenant uid tid now) := by
  refine read_bind (unstaged_of_ops rfl) fun store _ => ?_
  cases store.get (tokenKey tenant tid) with
  | none => exact Triple.throw fun _ _ => nofun
  | some raw =>
    refine Triple.lift_bind (fun found decoded => ?_) fun _ _ _ => nofun
    obtain ⟨token, digest⟩ := found
    obtain rfl := id_of_decodeToken decoded
    dsimp only
    split
    · exact Triple.throw fun _ _ => nofun
    split
    · refine update_bind (update_bind (Triple.pure ?_))
      rintro _ rfl _ ⟨⟩
      have revoked : Staged service ⟨revoking service tenant
        { token with revokedAt := some now } digest raw, _⟩ := .revoked decoded
      exact ⟨revoked, trivial⟩
    refine Triple.pure ?_
    rintro _ rfl _ ⟨⟩
    exact ⟨.kept rfl, trivial⟩

end Stages

def UserCall.Did : UserCall → Deed → Prop
  | issueToken context uid expiresAt tid secret now _, .issued tenant token given =>
    requireTenant context = .ok tenant ∧ token.id = tid ∧ token.user = uid ∧ given = secret ∧
      Service.issueExpiry (truncated now) expiresAt = .ok token.expiresAt
  | _, deed => deed.plain

section Programs

variable {service}

def Fits (service : Service) (call : UserCall) (payload : Labelled Deed) : Prop :=
  Staged service payload ∧ call.Did payload.label

variable {fits : Labelled Deed → Prop}

theorem keeping_transact {Value : Type} {did : Deed → Prop} {body : UserTx (Value × Deed)}
    {cancelled : Nat → Bool} (stages : StagesKnown service did body)
    (allows : ∀ payload, Staged service payload → did payload.label → fits payload) :
    Keeping fits (Service.transact cancelled body) := by
  refine .bind (.perform cancelled (stages.imp ?_)) fun result => ?_
  · exact fun result batch staged value ok => allows _ (staged value ok).1 (staged value ok).2
  · cases result <;> exact .pure _

theorem keeping_verify (presented : Bytes) (now : Time) :
    Keeping fits (service.verify presented now) := by
  unfold Service.verify
  split
  · exact .pure _
  refine .bind (.observe _) fun row => ?_
  split
  · exact .pure _
  split
  · exact .pure _
  split
  · exact .pure _
  refine .bind (.observe _) fun row => ?_
  split
  · exact .pure _
  split
  · exact .pure _
  split
  · exact .pure _
  split
  · exact .pure _
  refine .bind (.observe _) fun row => ?_
  split
  · exact .pure _
  split
  · exact .pure _
  · split <;> exact .pure _

theorem identifier_of_requireTenant {context : Option TenantId} {tenant : TenantId}
    (required : requireTenant context = .ok tenant) : validIdentifier tenant = true := by
  unfold requireTenant at required
  split at required
  · cases required
  · cases required
  split at required
  · cases required
  next identifier =>
  cases required
  simpa using identifier

theorem keeping_program (call : UserCall) : Keeping (Fits service call) (call.program service) := by
  cases call with
  | create context name drawn now cancelled =>
    refine .bind ?_ fun _ => .pure _
    unfold Service.create
    split
    · exact .pure _
    split
    · exact .pure _
    next folds =>
    refine .bind (keeping_transact (stages_create rfl folds) fun _ => .intro) fun result => ?_
    cases result <;> exact .pure _
  | rename context uid name now cancelled =>
    refine .bind ?_ fun _ => .pure _
    unfold Service.rename
    split
    · exact .pure _
    split
    · exact .pure _
    next folds =>
    refine .bind (keeping_transact (stages_rename folds) fun _ => .intro) fun result => ?_
    cases result <;> exact .pure _
  | setState context uid state now cancelled =>
    refine .bind ?_ fun _ => .pure _
    unfold Service.setState
    split
    · exact .pure _
    split
    · exact .pure _
    · next valid =>
      exact keeping_transact (stages_setState (by simpa using valid)) fun _ => .intro
  | restore context user mode cancelled =>
    refine .bind ?_ fun _ => .pure _
    unfold Service.restore
    split
    · exact .pure _
    split
    · exact .pure _
    split
    · exact .pure _
    next valid =>
    split
    · exact .pure _
    next folds =>
    exact .bind (keeping_transact (stages_restore (by simpa using valid) folds)
      fun _ => .intro) fun _ => .pure _
  | issueToken context uid expiresAt tid secret now cancelled =>
    refine .bind ?_ fun _ => .pure _
    unfold Service.issueToken
    split
    · exact .pure _
    next required =>
    split
    · exact .pure _
    next expires =>
    refine keeping_transact (stages_issue (identifier_of_requireTenant required)) ?_
    rintro ⟨batch, label⟩ staged rfl
    exact ⟨staged, required, rfl, rfl, rfl, expires⟩
  | revokeToken context uid tid now cancelled =>
    refine .bind ?_ fun _ => .pure _
    unfold Service.revokeToken
    split
    · exact .pure _
    · exact keeping_transact stages_revoke fun _ => .intro
  | verify presented now => exact .bind (keeping_verify presented now) fun _ => .pure _

end Programs

end Remem.Users
