import Remem.Base.Base32
import Remem.Tenants
import Remem.Users.Rows

/-!
# The user service

Each call as a program over the store: what it reads and what it attempts to commit.
Readings of the clock, drawn ids and secrets are arguments.
-/

namespace Remem.Users

open Base Keys Storage

inductive Deed where
  | wrote (tenant : TenantId) (user : User)
  | kept
  | issued (tenant : TenantId) (token : Token) (secret : Secret)
  | revoked (tenant : TenantId) (token : Token)
  deriving DecidableEq

abbrev UserTx := TxM Deed

/-- `Service`: what its rows and names are read with, and the digest of a secret. -/
structure Service where
  codecs : Codecs
  rules : NameRules
  digest : Secret → Digest

/-- A service for evaluating the model: names are their own folds and secrets their own
digests. -/
def Service.plain : Service where
  codecs := .plain
  rules := ⟨(· = 32), (· < 32), fun _ => false, id⟩
  digest secret := ⟨secret.bytes, secret.width⟩

/-- `now`: a reading of the clock, at the millisecond. -/
def truncated (now : Time) : Time := .ofUnixMilli now.unixMilli

/-- `nameTaken`: it has no kind, so it is not retried. -/
def nameTaken (holder : Id) : Fault :=
  ⟨.unclassified, "", "name taken by %s", [.bytes holder.bytes]⟩

def takenError (op : String) (name : Bytes) (fault : Fault) : Fault :=
  if fault.format = "name taken by %s" then
    ⟨.conflict, op,
      "the name %q is held by user %s in this tenant; names are unique, active or disabled",
      .bytes name :: fault.operands⟩
  else fault

/-- What a restore does with a user that exists and differs. -/
inductive RestoreMode where
  | fail
  | skip
  | overwrite
  deriving DecidableEq

inductive RestoreOutcome where
  | restored
  | unchanged
  | skipped
  deriving DecidableEq

/-- `restoreConflict`; the holder is the zero id where a field differs. -/
def restoreConflict (field : String) (holder : Id) : Fault :=
  ⟨.unclassified, "", "restore conflict", [.word field, .bytes holder.bytes]⟩

def firstDifference (stored user : User) : Option String :=
  if stored.name ≠ user.name then some "name"
  else if stored.state ≠ user.state then some "state"
  else if stored.createdAt.unixMilli ≠ user.createdAt.unixMilli then some "created_at"
  else if stored.updatedAt.unixMilli ≠ user.updatedAt.unixMilli then some "updated_at"
  else none

namespace Service

variable (service : Service)

/-- `claimName`: stages the name row, or answers who else holds the name. -/
def claimName (tenant : TenantId) (folded : Bytes) (uid : Id) : UserTx (Option Id) := do
  let key := nameKey tenant folded
  match ← Tx.get key with
  | some raw =>
    let holder ← Result.lift (service.codecs.decodeName raw "users.claimName")
    return if holder ≠ uid then some holder else none
  | none =>
    Tx.expect key [] false
    Tx.set key (service.codecs.encodeName uid)
    return none

def notFound (op : String) (uid : Id) : Fault :=
  ⟨.notFound, op, "no user %s in this tenant", [.bytes uid.bytes]⟩

def readUser (tenant : TenantId) (uid : Id) (op : String) : UserTx (User × Bytes) := do
  match ← Tx.get (userKey tenant uid) with
  | none => throw (notFound op uid)
  | some raw =>
    let user ← Result.lift (service.codecs.decodeUser uid raw op)
    return (user, raw)

def storedFold (op : String) (user : User) : Result Bytes :=
  match service.rules.foldName user.name with
  | .error _ => .error ⟨.corruption, op, "user %s holds a name that does not validate: %w",
      [.bytes user.id.bytes]⟩
  | .ok folded => .ok folded

/-- The new name's row is claimed and the old one's given up, where they differ. The answer
is who else holds the name. -/
def moveName (tenant : TenantId) (uid : Id) (old folded : Bytes) : UserTx (Option Id) := do
  if old ≠ folded then
    match ← service.claimName tenant folded uid with
    | some holder => return some holder
    | none =>
      let oldKey := nameKey tenant old
      Tx.expect oldKey (service.codecs.encodeName uid) true
      Tx.delete oldKey
      return none
  else return none

def rewrite (tenant : TenantId) (raw : Bytes) (user : User) : UserTx Unit := do
  let key := userKey tenant user.id
  Tx.expect key raw true
  Tx.set key (service.codecs.encodeUser user)

def insert (tenant : TenantId) (user : User) : UserTx Unit := do
  let key := userKey tenant user.id
  Tx.expect key [] false
  Tx.set key (service.codecs.encodeUser user)

/-- The body of `Create`. -/
def createBody (tenant : TenantId) (folded : Bytes) (user : User) : UserTx (User × Deed) := do
  match ← service.claimName tenant folded user.id with
  | some holder => throw (nameTaken holder)
  | none =>
    service.insert tenant user
    return (user, .wrote tenant user)

/-- The body of `Rename`. -/
def renameBody (tenant : TenantId) (uid : Id) (name folded : Bytes) (now : Time) :
    UserTx (User × Deed) := do
  let op := "users.Rename"
  let (user, raw) ← service.readUser tenant uid op
  let old ← Result.lift (service.storedFold op user)
  match ← service.moveName tenant uid old folded with
  | some holder => throw (nameTaken holder)
  | none =>
    let user := { user with name, updatedAt := now }
    service.rewrite tenant raw user
    return (user, .wrote tenant user)

/-- The body of `SetState`. -/
def setStateBody (tenant : TenantId) (uid : Id) (state : UserState) (now : Time) :
    UserTx (User × Deed) := do
  let (user, raw) ← service.readUser tenant uid "users.SetState"
  if user.state = state then return (user, .kept)
  else
    let user := { user with state, updatedAt := now }
    service.rewrite tenant raw user
    return (user, .wrote tenant user)

/-- The body of `Restore`. -/
def restoreBody (tenant : TenantId) (folded : Bytes) (user : User) (mode : RestoreMode) :
    UserTx (RestoreOutcome × Deed) := do
  let op := "users.Restore"
  match ← Tx.get (userKey tenant user.id) with
  | none =>
    match ← service.claimName tenant folded user.id with
    | some holder => throw (restoreConflict "" holder)
    | none =>
      service.insert tenant user
      return (.restored, .wrote tenant user)
  | some raw =>
    let stored ← Result.lift (service.codecs.decodeUser user.id raw op)
    match firstDifference stored user with
    | none => return (.unchanged, .kept)
    | some field =>
      if mode ≠ .overwrite then throw (restoreConflict field .zero)
      else
        let old ← Result.lift (service.storedFold op stored)
        match ← service.moveName tenant user.id old folded with
        | some holder => throw (restoreConflict "" holder)
        | none =>
          service.rewrite tenant raw user
          return (.restored, .wrote tenant user)

/-- `Do` of a body that says what it did. -/
def transact {Value : Type} (cancelled : Nat → Bool) (body : UserTx (Value × Deed)) :
    StoreProgram Deed (Result Value) := do
  match ← perform Prod.snd cancelled body with
  | .error fault => return .error fault
  | .ok (value, _) => return .ok value

def create (context : Option TenantId) (name : Bytes) (drawn : Id) (now : Time)
    (cancelled : Nat → Bool) : StoreProgram Deed (Result User) :=
  match requireTenant context with
  | .error fault => return .error fault
  | .ok tenant =>
    match service.rules.foldName name with
    | .error fault => return .error fault
    | .ok folded => do
        let user : User := ⟨drawn, name, .active, truncated now, truncated now⟩
        match ← transact cancelled (service.createBody tenant folded user) with
        | .error fault => return .error (takenError "users.Create" name fault)
        | .ok user => return .ok user

def rename (context : Option TenantId) (uid : Id) (name : Bytes) (now : Time)
    (cancelled : Nat → Bool) : StoreProgram Deed (Result User) :=
  match requireTenant context with
  | .error fault => return .error fault
  | .ok tenant =>
    match service.rules.foldName name with
    | .error fault => return .error fault
    | .ok folded => do
        match ← transact cancelled (service.renameBody tenant uid name folded (truncated now)) with
        | .error fault => return .error (takenError "users.Rename" name fault)
        | .ok user => return .ok user

def setState (context : Option TenantId) (uid : Id) (state : UserState) (now : Time)
    (cancelled : Nat → Bool) : StoreProgram Deed (Result User) :=
  match requireTenant context with
  | .error fault => return .error fault
  | .ok tenant =>
    if !state.valid then
      return .error ⟨.invalid, "users.SetState", "%d is not a user state",
        [.number state.code.toNat]⟩
    else transact cancelled (service.setStateBody tenant uid state (truncated now))

/-- How `Restore` ends. -/
def restoreAnswer (tenant : TenantId) (user : User) (mode : RestoreMode) :
    Result RestoreOutcome → Result RestoreOutcome
  | .ok outcome => .ok outcome
  | .error fault =>
    if fault.format ≠ "restore conflict" then .error fault
    else if mode = .skip then .ok .skipped
    else match fault.operands with
      | [.word field, .bytes holder] =>
        if holder ≠ Id.zero.bytes then
          .error ⟨.conflict, "users.Restore",
            "user %s cannot be restored as %q in tenant %s: user %s holds that name, and a " ++
              "name is never taken from the user holding it",
            [.bytes user.id.bytes, .bytes user.name, .bytes tenant, .bytes holder]⟩
        else
          .error ⟨.conflict, "users.Restore",
            "user %s already exists in tenant %s and its %s differs from the snapshot's",
            [.bytes user.id.bytes, .bytes tenant, .word field]⟩
      | _ => .error fault

def restore (context : Option TenantId) (user : User) (mode : RestoreMode)
    (cancelled : Nat → Bool) : StoreProgram Deed (Result RestoreOutcome) :=
  let op := "users.Restore"
  match requireTenant context with
  | .error fault => return .error fault
  | .ok tenant =>
    if user.id = .zero then return .error ⟨.invalid, op, "the user has no id", []⟩
    else if !user.state.valid then
      return .error ⟨.invalid, op, "user %s has no valid state", [.bytes user.id.bytes]⟩
    else match service.rules.foldName user.name with
      | .error fault => return .error fault
      | .ok folded => do
          let result ← transact cancelled (service.restoreBody tenant folded user mode)
          return restoreAnswer tenant user mode result

def tokenPrefix : Bytes := ascii "rmm_"

def separator : UInt8 := 0x5F

def formatToken (tid : Id) (secret : Secret) : Bytes :=
  tokenPrefix ++ (base32Encode tid.bytes ++ separator :: base32Encode secret.bytes)

def decodeCanonical (part : Bytes) (width : Nat) :
    Option { bytes : Bytes // bytes.length = width } :=
  match base32Decode part with
  | none => none
  | some bytes =>
    if exactly : bytes.length = width then
      if base32Encode bytes ≠ part then none else some ⟨bytes, exactly⟩
    else none

/-- `parseToken`; every refusal is the one `errMalformed`. -/
def parseToken (text : Bytes) : Option (Id × Secret) :=
  if !tokenPrefix.isPrefixOf text then none
  else
    let rest := text.drop tokenPrefix.length
    if separator ∉ rest then none
    else
      let idPart := rest.takeWhile (· ≠ separator)
      let secretPart := (rest.dropWhile (· ≠ separator)).drop 1
      match decodeCanonical idPart idLen with
      | none => none
      | some ⟨tid, idWidth⟩ =>
        match decodeCanonical secretPart secretLen with
        | none => none
        | some ⟨secret, secretWidth⟩ => some (⟨tid, idWidth⟩, ⟨secret, secretWidth⟩)

structure Issued where
  token : Token
  secret : Bytes
  deriving DecidableEq

/-- What `IssueToken` makes of the expiry it is given. -/
def issueExpiry (now : Time) : Option Time → Result (Option Time)
  | none => .ok none
  | some expiresAt =>
    let expiry := truncated expiresAt
    if !(now < expiry) then
      .error ⟨.invalid, "users.IssueToken", "the expiry %s is not in the future", [.number expiry]⟩
    else .ok (some expiry)

/-- The body of `IssueToken`. -/
def issueBody (tenant : TenantId) (token : Token) (secret : Secret) : UserTx (Issued × Deed) := do
  let (_, raw) ← service.readUser tenant token.user "users.IssueToken"
  Tx.expect (userKey tenant token.user) raw true
  Tx.expect (tokenKey tenant token.id) [] false
  Tx.expect (tokenIndex token.id) [] false
  Tx.set (tokenKey tenant token.id) (service.codecs.encodeToken token (service.digest secret).bytes)
  Tx.set (tokenIndex token.id) (service.codecs.tokenIndex.marshal tenant)
  return (⟨token, formatToken token.id secret⟩, .issued tenant token secret)

def issueToken (context : Option TenantId) (uid : Id) (expiresAt : Option Time) (tid : Id)
    (secret : Secret) (now : Time) (cancelled : Nat → Bool) : StoreProgram Deed (Result Issued) :=
  match requireTenant context with
  | .error fault => return .error fault
  | .ok tenant =>
    match issueExpiry (truncated now) expiresAt with
    | .error fault => return .error fault
    | .ok expiry =>
      transact cancelled (service.issueBody tenant
        { id := tid, user := uid, createdAt := truncated now, expiresAt := expiry } secret)

/-- What `RevokeToken` answers for a token that is missing or another user's. -/
def noToken (uid tid : Id) : Fault :=
  ⟨.notFound, "users.RevokeToken", "user %s holds no token %s",
    [.bytes uid.bytes, .bytes tid.bytes]⟩

/-- The body of `RevokeToken`. -/
def revokeBody (tenant : TenantId) (uid tid : Id) (now : Time) : UserTx (Token × Deed) := do
  match ← Tx.get (tokenKey tenant tid) with
  | none => throw (noToken uid tid)
  | some raw =>
    let (token, digest) ← Result.lift (service.codecs.decodeToken tid raw "users.RevokeToken")
    if token.user ≠ uid then throw (noToken uid tid)
    else if token.revokedAt = none then
      let token := { token with revokedAt := some now }
      Tx.expect (tokenKey tenant tid) raw true
      Tx.set (tokenKey tenant tid) (service.codecs.encodeToken token digest)
      return (token, .revoked tenant token)
    else return (token, .kept)

def revokeToken (context : Option TenantId) (uid tid : Id) (now : Time)
    (cancelled : Nat → Bool) : StoreProgram Deed (Result Token) :=
  match requireTenant context with
  | .error fault => return .error fault
  | .ok tenant => transact cancelled (service.revokeBody tenant uid tid (truncated now))

structure Identity where
  tenant : TenantId
  user : Id
  deriving DecidableEq

def refused : Fault :=
  ⟨.unauthorized, "users.Verify", "the presented token is not one this server accepts", []⟩

/-- The last read of `Verify`: whether the user of a token that is good may come in. -/
def verifyUser (tenant : TenantId) (token : Token) : StoreProgram Deed (Result Identity) := do
  let op := "users.Verify"
  match ← Program.observe fun store => store.get (userKey tenant token.user) with
  | none =>
    return .error ⟨.corruption, op, "token %s belongs to user %s, which tenant %s does not hold",
      [.bytes token.id.bytes, .bytes token.user.bytes, .bytes tenant]⟩
  | some raw =>
    match service.codecs.decodeUser token.user raw op with
    | .error fault => return .error fault
    | .ok user =>
      if user.state ≠ .active then return .error refused
      else return .ok ⟨tenant, user.id⟩

/-- The second read of `Verify`: whether the token is good. -/
def verifyToken (tenant : TenantId) (tid : Id) (secret : Secret) (now : Time) :
    StoreProgram Deed (Result Identity) := do
  let op := "users.Verify"
  match ← Program.observe fun store => store.get (tokenKey tenant tid) with
  | none =>
    return .error ⟨.corruption, op, "token %s is indexed to tenant %s, which holds no such token",
      [.bytes tid.bytes, .bytes tenant]⟩
  | some raw =>
    match service.codecs.decodeToken tid raw op with
    | .error fault => return .error fault
    | .ok (token, digest) =>
      if (service.digest secret).bytes ≠ digest then return .error refused
      else if token.stateAt now ≠ .active then return .error refused
      else service.verifyUser tenant token

def verify (presented : Bytes) (now : Time) : StoreProgram Deed (Result Identity) :=
  match parseToken presented with
  | none => return .error refused
  | some (tid, secret) => do
      match ← Program.observe fun store => store.get (tokenIndex tid) with
      | none => return .error refused
      | some raw =>
        match service.codecs.tokenIndex.unmarshal raw with
        | none => return .error (corrupt "users.Verify" "token index" tid)
        | some named =>
          match parseTenant named with
          | .error _ => return .error (corrupt "users.Verify" "token index" tid)
          | .ok tenant => service.verifyToken tenant tid secret now

end Service

inductive UserCall where
  | create (context : Option TenantId) (name : Bytes) (drawn : Id) (now : Time)
      (cancelled : Nat → Bool)
  | rename (context : Option TenantId) (uid : Id) (name : Bytes) (now : Time)
      (cancelled : Nat → Bool)
  | setState (context : Option TenantId) (uid : Id) (state : UserState) (now : Time)
      (cancelled : Nat → Bool)
  | restore (context : Option TenantId) (user : User) (mode : RestoreMode)
      (cancelled : Nat → Bool)
  | issueToken (context : Option TenantId) (uid : Id) (expiresAt : Option Time) (tid : Id)
      (secret : Secret) (now : Time) (cancelled : Nat → Bool)
  | revokeToken (context : Option TenantId) (uid tid : Id) (now : Time) (cancelled : Nat → Bool)
  | verify (presented : Bytes) (now : Time)

inductive UserAnswer where
  | user (result : Result User)
  | restored (result : Result RestoreOutcome)
  | issued (result : Result Service.Issued)
  | token (result : Result Token)
  | identity (result : Result Service.Identity)
  deriving DecidableEq

def UserCall.program (service : Service) : UserCall → StoreProgram Deed UserAnswer
  | create context name drawn now cancelled =>
    return .user (← service.create context name drawn now cancelled)
  | rename context uid name now cancelled =>
    return .user (← service.rename context uid name now cancelled)
  | setState context uid state now cancelled =>
    return .user (← service.setState context uid state now cancelled)
  | restore context user mode cancelled =>
    return .restored (← service.restore context user mode cancelled)
  | issueToken context uid expiresAt tid secret now cancelled =>
    return .issued (← service.issueToken context uid expiresAt tid secret now cancelled)
  | revokeToken context uid tid now cancelled =>
    return .token (← service.revokeToken context uid tid now cancelled)
  | verify presented now =>
    return .identity (← service.verify presented now)

end Remem.Users
