import Remem.Base.Blocks
import Remem.Base.Utf8
import Remem.Keys.Identity
import Remem.Storage.Do
import Remem.Time

/-!
# Users, their names and their tokens

The rows of the user space of a tenant and the untenanted index of tokens. Their protobuf
encodings are parameters, and so are the Unicode tables that a name is checked and folded
with.
-/

namespace Remem.Users

open Base Keys Storage

/-- `State`. -/
structure UserState where
  code : UInt8
  deriving DecidableEq

def UserState.active : UserState := ⟨1⟩
def UserState.disabled : UserState := ⟨2⟩

def UserState.valid (state : UserState) : Bool := state = .active || state = .disabled

structure User where
  id : Id
  name : Bytes
  state : UserState
  createdAt : Time
  updatedAt : Time
  deriving DecidableEq

/-- `pb.User`; its state is an `int32`. -/
structure UserRow where
  name : Bytes
  state : UInt32
  createdAtUnixMs : UInt64
  updatedAtUnixMs : UInt64
  deriving DecidableEq

structure Token where
  id : Id
  user : Id
  createdAt : Time
  expiresAt : Option Time := none
  revokedAt : Option Time := none
  deriving DecidableEq

inductive TokenState where
  | revoked
  | expired
  | active
  deriving DecidableEq

def Token.stateAt (token : Token) (now : Time) : TokenState :=
  if token.revokedAt.isSome then .revoked
  else if token.expiresAt.any fun expiry => !(now < expiry) then .expired
  else .active

def secretLen : Nat := 32

structure Secret where
  bytes : Bytes
  width : bytes.length = secretLen
  deriving DecidableEq

/-- `sha256.Size`. -/
def digestLen : Nat := 32

@[ext]
structure Digest where
  bytes : Bytes
  width : bytes.length = digestLen
  deriving DecidableEq

/-- `pb.Token`. -/
structure TokenRow where
  userId : Bytes
  digest : Bytes
  createdAtUnixMs : UInt64
  expiresAtUnixMs : Option UInt64 := none
  revokedAtUnixMs : Option UInt64 := none
  deriving DecidableEq

/-- The protobuf encoding of one kind of row. Text that is not UTF-8 is not read, and
`mustMarshal` panics on it; nothing here writes any. -/
structure RowCodec (Row : Type) (text : Row → Bytes) where
  marshal : Row → Bytes
  unmarshal : Bytes → Option Row
  unmarshal_marshal : ∀ row, validUtf8 (text row) = true → unmarshal (marshal row) = some row
  text_unmarshal : ∀ raw row, unmarshal raw = some row → validUtf8 (text row) = true

/-- The encodings of `pb.User`, `pb.Name`, `pb.Token` and `pb.TokenIndex`. -/
structure Codecs where
  user : RowCodec UserRow UserRow.name
  name : RowCodec Bytes fun _ => []
  token : RowCodec TokenRow fun _ => []
  tokenIndex : RowCodec TenantId id

def optionBlock (number : Option UInt64) : Bytes := (number.map numberBlock).getD []

def ofOptionBlock (block : Bytes) : Option UInt64 :=
  if block = [] then none else some (ofNumberBlock block)

@[simp]
theorem ofOptionBlock_optionBlock (number : Option UInt64) :
    ofOptionBlock (optionBlock number) = number := by
  cases number with
  | none => rfl
  | some number =>
    have filled : numberBlock number ≠ [] :=
      List.ne_nil_of_length_pos (by rw [numberBlock, length_bigEndian]; decide)
    simp [optionBlock, ofOptionBlock, filled]

def RowCodec.ofBlocks {Row : Type} {text : Row → Bytes} (blocks : Row → List Bytes)
    (ofBlocks : List Bytes → Option Row) (ofBlocks_blocks : ∀ row, ofBlocks (blocks row) = some
      row) :
    RowCodec Row text where
  marshal row := packBlocks (blocks row)
  unmarshal raw := do
    let row ← ofBlocks (← unpackBlocks raw)
    if validUtf8 (text row) then some row else none
  unmarshal_marshal row valid := by simp [ofBlocks_blocks, valid]
  text_unmarshal raw row read := by
    obtain ⟨parts, _, found⟩ := Option.bind_eq_some_iff.mp read
    obtain ⟨row, _, checked⟩ := Option.bind_eq_some_iff.mp found
    split at checked
    · next valid =>
      cases checked
      exact valid
    · cases checked

def Codecs.plain : Codecs where
  user := .ofBlocks
    (fun row => [row.name, numberBlock row.state.toUInt64, numberBlock row.createdAtUnixMs,
      numberBlock row.updatedAtUnixMs])
    (fun
      | [name, state, created, updated] =>
        some ⟨name, (ofNumberBlock state).toUInt32, ofNumberBlock created, ofNumberBlock updated⟩
      | _ => none)
    fun row => by simp
  name := .ofBlocks (fun uid => [uid]) List.head? fun _ => rfl
  token := .ofBlocks (fun row => [row.userId, row.digest, numberBlock row.createdAtUnixMs,
      optionBlock row.expiresAtUnixMs, optionBlock row.revokedAtUnixMs])
    (fun
      | [userId, digest, created, expires, revoked] =>
        some ⟨userId, digest, ofNumberBlock created, ofOptionBlock expires, ofOptionBlock revoked⟩
      | _ => none)
    fun row => by simp
  tokenIndex := .ofBlocks (fun tenant => [tenant]) List.head? fun _ => rfl

/-- `int64(t.UnixMilli())` as the rows hold it. -/
def toMillis (time : Time) : UInt64 := UInt64.ofInt time.unixMilli

def fromMillis (milliseconds : UInt64) : Time := .ofUnixMilli milliseconds.toInt64.toInt

def stamped (time : Time) : Time := fromMillis (toMillis time)

theorem unixMilli_ofUnixMilli (milliseconds : Int) :
    (Time.ofUnixMilli milliseconds).unixMilli = milliseconds := by
  rw [Time.unixMilli, Time.ofUnixMilli, Int.mul_ediv_cancel _ (by decide)]

theorem toBitVec_ofInt (number : Int) :
    (UInt64.ofInt number).toBitVec = BitVec.ofInt 64 number := by
  apply BitVec.eq_of_toNat_eq
  rw [BitVec.toNat_ofInt, UInt64.ofInt]
  change (UInt64.ofNat _).toNat = _
  have small : (number % 2 ^ 64).toNat < 2 ^ 64 := by omega
  rw [UInt64.toNat_ofNat_of_lt' small]
  rfl

@[simp]
theorem toMillis_fromMillis (milliseconds : UInt64) :
    toMillis (fromMillis milliseconds) = milliseconds := by
  rw [toMillis, fromMillis, unixMilli_ofUnixMilli]
  apply UInt64.toBitVec_inj.mp
  rw [toBitVec_ofInt]
  exact BitVec.ofInt_toInt

@[simp]
theorem stamped_stamped (time : Time) : stamped (stamped time) = stamped time := by
  rw [stamped, stamped, toMillis_fromMillis]

theorem stamped_le {milliseconds : Int} (low : -2 ^ 63 ≤ milliseconds) :
    stamped (.ofUnixMilli milliseconds) ≤ .ofUnixMilli milliseconds := by
  have held : (UInt64.ofInt milliseconds).toInt64.toInt = milliseconds.bmod (2 ^ 64) := by
    change (UInt64.ofInt milliseconds).toBitVec.toInt = _
    rw [toBitVec_ofInt, BitVec.toInt_ofInt]
  have below : milliseconds.bmod (2 ^ 64) ≤ milliseconds := by
    rcases lt_or_ge milliseconds (2 ^ 63) with small | large
    · rw [Int.bmod_eq_of_le (by omega) (by omega)]
    · have := Int.bmod_lt (x := milliseconds) (m := 2 ^ 64) (by decide)
      omega
  rw [stamped, toMillis, fromMillis, unixMilli_ofUnixMilli, held]
  exact Int.mul_le_mul_of_nonneg_right below (by decide)

def corrupt (op what : String) (which : Id) : Fault :=
  ⟨.corruption, op, "%s %s will not decode: %w", [.word what, .bytes which.bytes]⟩

namespace Codecs

variable (codecs : Codecs)

def encodeUser (user : User) : Bytes :=
  codecs.user.marshal
    { name := user.name
      state := user.state.code.toUInt32
      createdAtUnixMs := toMillis user.createdAt
      updatedAtUnixMs := toMillis user.updatedAt }

def decodeUser (uid : Id) (raw : Bytes) (op : String) : Result User :=
  match codecs.user.unmarshal raw with
  | none => .error (corrupt op "user" uid)
  | some row =>
    let state : UserState := ⟨row.state.toUInt8⟩
    if !state.valid then .error (corrupt op "user" uid)
    else .ok
      { id := uid
        name := row.name
        state
        createdAt := fromMillis row.createdAtUnixMs
        updatedAt := fromMillis row.updatedAtUnixMs }

def encodeName (uid : Id) : Bytes := codecs.name.marshal uid.bytes

def decodeName (raw : Bytes) (op : String) : Result Id :=
  match codecs.name.unmarshal raw with
  | none => .error ⟨.corruption, op, "a name-index row will not decode: %w", []⟩
  | some bytes =>
    match Id.fromBytes bytes with
    | .error _ => .error ⟨.corruption, op, "a name-index row names no user: %w", []⟩
    | .ok uid => .ok uid

def encodeToken (token : Token) (digest : Bytes) : Bytes :=
  codecs.token.marshal
    { userId := token.user.bytes
      digest
      createdAtUnixMs := toMillis token.createdAt
      expiresAtUnixMs := token.expiresAt.map toMillis
      revokedAtUnixMs := token.revokedAt.map toMillis }

def decodeToken (tid : Id) (raw : Bytes) (op : String) : Result (Token × Bytes) :=
  match codecs.token.unmarshal raw with
  | none => .error (corrupt op "token" tid)
  | some row =>
    match Id.fromBytes row.userId with
    | .error _ => .error (corrupt op "token" tid)
    | .ok uid =>
      if row.digest.length ≠ digestLen then .error (corrupt op "token" tid)
      else .ok
        ({ id := tid
           user := uid
           createdAt := fromMillis row.createdAtUnixMs
           expiresAt := row.expiresAtUnixMs.map fromMillis
           revokedAt := row.revokedAtUnixMs.map fromMillis }, row.digest)

variable {codecs}

theorem decodeUser_encodeUser {user : User} (text : validUtf8 user.name = true)
    (valid : user.state.valid = true) (op : String) :
    codecs.decodeUser user.id (codecs.encodeUser user) op = .ok { user with
      createdAt := stamped user.createdAt
      updatedAt := stamped user.updatedAt } := by
  have narrow : (⟨user.state.code.toUInt32.toUInt8⟩ : UserState) = user.state := by
    rw [UInt8.toUInt8_toUInt32]
  unfold decodeUser encodeUser
  rw [codecs.user.unmarshal_marshal _ text]
  dsimp only
  rw [narrow, valid]
  rfl

@[simp]
theorem decodeName_encodeName (uid : Id) (op : String) :
    codecs.decodeName (codecs.encodeName uid) op = .ok uid := by
  unfold decodeName encodeName
  rw [codecs.name.unmarshal_marshal _ rfl]
  simp [Id.fromBytes, uid.width]

theorem encodeName_inj {first second : Id}
    (same : codecs.encodeName first = codecs.encodeName second) : first = second := by
  have decoded := codecs.decodeName_encodeName first ""
  rw [same, decodeName_encodeName] at decoded
  exact (Except.ok.inj decoded).symm

theorem decodeToken_encodeToken (token : Token) {digest : Bytes}
    (width : digest.length = digestLen) (op : String) :
    codecs.decodeToken token.id (codecs.encodeToken token digest) op = .ok ({ token with
      createdAt := stamped token.createdAt
      expiresAt := token.expiresAt.map stamped
      revokedAt := token.revokedAt.map stamped }, digest) := by
  have owner : Id.fromBytes token.user.bytes = .ok token.user := by
    simp [Id.fromBytes, token.user.width]
  unfold decodeToken encodeToken
  rw [codecs.token.unmarshal_marshal _ rfl]
  dsimp only
  rw [owner]
  dsimp only
  rw [if_neg (not_not.mpr width), Option.map_map, Option.map_map]
  rfl

end Codecs

/-- The Unicode tables: `unicode.IsSpace`, `unicode.IsControl`, the category `Cf`, and the
folded form of a name, NFKC around full case folding. -/
structure NameRules where
  isSpace : Nat → Bool
  isControl : Nat → Bool
  isFormat : Nat → Bool
  fold : Bytes → Bytes

def maxNameLen : Nat := 64

def NameRules.refusal (rules : NameRules) (rune : Nat) : Option String :=
  if rules.isControl rune then some "the user name %q contains the control character %U"
  else if rules.isFormat rune then
    some "the user name %q contains the invisible formatting character %U"
  else none

def NameRules.foldName (rules : NameRules) (name : Bytes) : Result Bytes :=
  let op := "users.name"
  if !validUtf8 name then .error ⟨.invalid, op, "the user name is not valid UTF-8", []⟩
  else
    let runes := utf8Runes name
    if runes.length = 0 then .error ⟨.invalid, op, "the user name is empty", []⟩
    else if maxNameLen < runes.length then
      .error ⟨.invalid, op, "the user name %q is %d characters; the limit is %d",
        [.bytes name, .number runes.length, .number maxNameLen]⟩
    else if runes.head?.any rules.isSpace || runes.getLast?.any rules.isSpace then
      .error ⟨.invalid, op, "the user name %q begins or ends with a space, which would make " ++
        "two names look alike", [.bytes name]⟩
    else
      match runes.findSome? fun rune => (rules.refusal rune).map fun format => (format, rune) with
      | some (format, rune) => .error ⟨.invalid, op, format, [.bytes name, .number rune]⟩
      | none => .ok (rules.fold name)

theorem NameRules.validUtf8_of_foldName {rules : NameRules} {name folded : Bytes}
    (isFolded : rules.foldName name = .ok folded) : validUtf8 name = true := by
  unfold foldName at isFolded
  dsimp only at isFolded
  split at isFolded
  · cases isFolded
  · next valid => simpa using valid

/-- `ns`. -/
def userKey (tenant : TenantId) (uid : Id) : Bytes := user tenant defaultNamespace uid

def nameKey (tenant : TenantId) (folded : Bytes) : Bytes := userName tenant defaultNamespace folded

def tokenKey (tenant : TenantId) (tid : Id) : Bytes := userToken tenant defaultNamespace tid

variable {tenant other : TenantId}

theorem userSpace_inj {kind otherKind : UInt8} {rest otherRest : Bytes}
    (same : beginKey tenant defaultNamespace .user ++ kind :: rest =
      beginKey other defaultNamespace .user ++ otherKind :: otherRest) :
    tenant = other ∧ kind = otherKind ∧ rest = otherRest := by
  obtain ⟨tenants, _, _, remainders⟩ := beginKey_append_inj same
  exact ⟨tenants, List.cons.inj remainders⟩

theorem userKey_inj {uid otherId : Id}
    (same : userKey tenant uid = userKey other otherId) : tenant = other ∧ uid = otherId := by
  obtain ⟨tenants, _, ids⟩ := userSpace_inj same
  exact ⟨tenants, Keys.Id.ext ids⟩

theorem nameKey_inj {folded otherFolded : Bytes}
    (same : nameKey tenant folded = nameKey other otherFolded) :
    tenant = other ∧ folded = otherFolded := by
  obtain ⟨tenants, _, names⟩ := userSpace_inj same
  exact ⟨tenants, names⟩

theorem tokenKey_inj {tid otherId : Id}
    (same : tokenKey tenant tid = tokenKey other otherId) : tenant = other ∧ tid = otherId := by
  obtain ⟨tenants, _, ids⟩ := userSpace_inj same
  exact ⟨tenants, Keys.Id.ext ids⟩

theorem userKey_ne_nameKey (tenant other : TenantId) (uid : Id) (folded : Bytes) :
    userKey tenant uid ≠ nameKey other folded :=
  fun same => absurd (userSpace_inj same).2.1 (by decide)

theorem userKey_ne_tokenKey (tenant other : TenantId) (uid tid : Id) :
    userKey tenant uid ≠ tokenKey other tid :=
  fun same => absurd (userSpace_inj same).2.1 (by decide)

theorem nameKey_ne_tokenKey (tenant other : TenantId) (folded : Bytes) (tid : Id) :
    nameKey tenant folded ≠ tokenKey other tid :=
  fun same => absurd (userSpace_inj same).2.1 (by decide)

theorem tokenIndex_ne_userSpace (tid : Id) (tenant : TenantId) (rest : Bytes) :
    tokenIndex tid ≠ beginKey tenant defaultNamespace .user ++ rest := by
  intro same
  obtain ⟨_, _, spaces, _⟩ := beginKey_append_inj same
  exact absurd spaces (by decide)

def ofHexDigit (digit : UInt8) : UInt8 := if digit < 97 then digit - 48 else digit - 87

theorem ofHexDigit_hexDigit : ∀ byte : UInt8,
    ofHexDigit (hexDigit (byte / 16)) * 16 + ofHexDigit (hexDigit (byte % 16)) = byte := by
  decide +kernel

theorem hexDigits_inj (first second : UInt8) (high : hexDigit (first / 16) = hexDigit (second / 16))
    (low : hexDigit (first % 16) = hexDigit (second % 16)) : first = second := by
  calc first = ofHexDigit (hexDigit (first / 16)) * 16 + ofHexDigit (hexDigit (first % 16)) :=
        (ofHexDigit_hexDigit first).symm
    _ = ofHexDigit (hexDigit (second / 16)) * 16 + ofHexDigit (hexDigit (second % 16)) := by
        rw [high, low]
    _ = second := ofHexDigit_hexDigit second

theorem hexEncode_inj {first second : Bytes} (same : hexEncode first = hexEncode second) :
    first = second := by
  induction first generalizing second with
  | nil =>
    cases second with
    | nil => rfl
    | cons byte rest => cases same
  | cons byte rest ih =>
    cases second with
    | nil => cases same
    | cons other others =>
      obtain ⟨high, low, rests⟩ : hexDigit (byte / 16) = hexDigit (other / 16) ∧
          hexDigit (byte % 16) = hexDigit (other % 16) ∧ hexEncode rest = hexEncode others := by
        simpa [hexEncode] using same
      rw [hexDigits_inj byte other high low, ih rests]

theorem tokenIndex_inj {first second : Id} (same : tokenIndex first = tokenIndex second) :
    first = second := by
  obtain ⟨_, _, _, rest⟩ := beginKey_append_inj same
  exact Keys.Id.ext (hexEncode_inj (List.append_cancel_left rest))

end Remem.Users
