import Remem.Base.Base64
import Remem.Keys.Parse
import Remem.Graph.Edge

/-!
# Page tokens

A page token holds a version, the kind of walk it resumes, the tenant it was issued for and a
position. Four walks over memories issue one: a listing, a search, the memories related to one,
and the connections of one.
-/

namespace Remem.Tokens

open Base Keys Remem.Graph List

def tokenVersion : UInt8 := 3

/-- `TokenKind`: any byte can be passed, the named ones are in use. -/
structure TokenKind where
  byte : UInt8
  deriving DecidableEq

namespace TokenKind

def listing : TokenKind := ⟨1⟩
def search : TokenKind := ⟨2⟩
def history : TokenKind := ⟨3⟩
def edges : TokenKind := ⟨4⟩
def related : TokenKind := ⟨5⟩

/-- `String`. -/
def name (kind : TokenKind) : String :=
  if kind = listing then "listing"
  else if kind = search then "search"
  else if kind = history then "history"
  else if kind = edges then "connections"
  else if kind = related then "related"
  else s!"kind({kind.byte})"

end TokenKind

def encodeToken (kind : TokenKind) (tenant : TenantId) (payload : Bytes) : Bytes :=
  base64Encode (tokenVersion :: kind.byte :: (component tenant ++ payload))

def badToken {Value : Type} (op format : String) (operands : List Operand := []) : Result Value :=
  .error ⟨.invalid, op, format, operands⟩

def readLengthPrefixed (bytes : Bytes) : Option (Bytes × Bytes) :=
  match uvarint bytes with
  | none => none
  | some (number, width) =>
    let rest := bytes.drop width
    if rest.length < number then none else some (rest.take number, rest.drop number)

def splitToken (token : Bytes) (op : String) : Result (TokenKind × TenantId × Bytes) :=
  if token = [] then badToken op "this page token is empty"
  else
    match base64Decode token with
    | none => badToken op "this page token is not a token this server issued"
    | some (version :: kind :: raw) =>
      if version ≠ tokenVersion then
        badToken op ("this page token is version %d and this server issues version %d; " ++
          "start the listing again rather than resuming it")
          [.number version.toNat, .number tokenVersion.toNat]
      else
        match readLengthPrefixed raw with
        | none => badToken op "this page token ends inside its tenant"
        | some (tenant, payload) => .ok (⟨kind⟩, tenant, payload)
    | some _ => badToken op "this page token ends before its header"

def decodeToken (token : Bytes) (want : TokenKind) (tenant : TenantId) : Result Bytes :=
  let op := "codec.DecodeToken"
  match splitToken token op with
  | .error fault => .error fault
  | .ok (kind, owner, payload) =>
    if kind ≠ want then
      badToken op ("this page token resumes a %s and this request is a %s; start the %s again")
        [.word kind.name, .word want.name, .word want.name]
    else if owner ≠ tenant then badToken op "this page token was issued for a different tenant"
    else .ok payload

abbrev SessionId := Keys.Id

/-- Where a listing is: the fields of `query.Cursor` beside the tenant. -/
structure ListingPosition where
  slot : UInt16
  desc : Bool
  value : Bytes
  rid : Id
  session : SessionId

def maxInt : Nat := 2 ^ 63 - 1

/-- Where a page over a ranking ends: past its first position. -/
structure RankedPosition where
  session : SessionId
  offset : Nat
  started : offset ≠ 0
  fits : offset ≤ maxInt

/-- `connectionsCursor`, for an edge of a type that edges have when they are stored. -/
structure ConnectionsPosition where
  inward : Bool
  rel : RelationshipType
  rid : Id
  named : RelationshipType.valid rel = true

inductive Walk where
  | listing
  | search
  | related
  | connections
  deriving DecidableEq

def Walk.Position : Walk → Type
  | .listing => ListingPosition
  | .search | .related => RankedPosition
  | .connections => ConnectionsPosition

/-- `Cursor.Encode`. -/
def encodeListing (tenant : TenantId) (position : ListingPosition) : Bytes :=
  encodeToken .listing tenant (uint16 position.slot ++ ((if position.desc then 1 else 0) ::
    (component position.value ++ (position.rid.bytes ++ position.session.bytes))))

/-- `DecodeCursor`, past the token. -/
def listingOf (rest : Bytes) : Result ListingPosition :=
  let op := "query.DecodeCursor"
  if rest.length < 3 then badToken op "this page token ends before its ordering"
  else
    match readLengthPrefixed (rest.drop 3) with
    | none => badToken op "this page token ends inside its ordering value"
    | some (value, last) =>
      if last.length ≠ 16 + 16 then badToken op "this page token ends before its position"
      else
        match Id.fromBytes (last.take 16), Id.fromBytes (last.drop 16) with
        | .ok rid, .ok session =>
          .ok ⟨(ofBigEndian (rest.take 2)).toUInt16, (rest.drop 2).headD 0 = 1, value, rid, session⟩
        | _, _ => badToken op "this page token holds a malformed record id"

def encodeSearchCursor (tenant : TenantId) (position : RankedPosition) : Bytes :=
  encodeToken .search tenant (position.session.bytes ++ appendUvarint position.offset)

/-- `decodeSearchCursor`, past the token. -/
def rankedOf (op : String) (payload : Bytes) : Result RankedPosition :=
  if payload.length < 17 then badToken op "this page token ends before its position"
  else
    match Id.fromBytes (payload.take 16), uvarint (payload.drop 16) with
    | .ok session, some (offset, width) =>
      if good : 16 + width = payload.length ∧ offset ≠ 0 ∧ offset ≤ maxInt then
        .ok ⟨session, offset, good.2.1, good.2.2⟩
      else badToken op "this page token holds a malformed position"
    | _, _ => badToken op "this page token holds a malformed position"

/-- `connectionsCursor.encode`. -/
def encodeConnections (tenant : TenantId) (position : ConnectionsPosition) : Bytes :=
  encodeToken .edges tenant
    ((if position.inward then 1 else 0) :: (uint16 position.rel.code ++ position.rid.bytes))

/-- `decodeConnectionsCursor`, past the token. -/
def connectionsOf (payload : Bytes) : Result ConnectionsPosition :=
  let op := "memory.Connections"
  match payload with
  | [] => badToken op "this page token does not contain a connections position"
  | range :: body =>
    if body.length ≠ 18 ∨ 1 < range then
      badToken op "this page token does not contain a connections position"
    else
      let rel : RelationshipType := ⟨(ofBigEndian (body.take 2)).toUInt16⟩
      if named : RelationshipType.valid rel = true then
        match Id.fromBytes (body.drop 2) with
        | .ok rid => .ok ⟨range = 1, rel, rid, named⟩
        | .error fault => .error fault
      else badToken op "this page token contains an unknown relationship type"

namespace Walk

def kind : Walk → TokenKind
  | listing => .listing
  | search => .search
  | related => .search
  | connections => .edges

/-- `NextCursor`, as the walk issues it. -/
def encode : (walk : Walk) → TenantId → walk.Position → Bytes
  | listing, tenant, position => encodeListing tenant position
  | search, tenant, position => encodeSearchCursor tenant position
  | related, tenant, position => encodeSearchCursor tenant position
  | connections, tenant, position => encodeConnections tenant position

def ofPayload : (walk : Walk) → Bytes → Result walk.Position
  | listing => listingOf
  | search => rankedOf "memory.Search"
  | related => rankedOf "memory.Related"
  | connections => connectionsOf

/-- What the walk makes of a cursor that it is given; the empty one starts it. -/
def decode (walk : Walk) (token : Bytes) (tenant : TenantId) : Result (Option walk.Position) :=
  if token = [] then .ok none
  else
    match decodeToken token walk.kind tenant with
    | .error fault => .error fault
    | .ok payload =>
      match walk.ofPayload payload with
      | .error fault => .error fault
      | .ok position => .ok (some position)

/-- A request of the walk: the cursor is decoded first, and what comes after, the lookup of the
session before all, has the position. -/
def serve {Answer : Type} (walk : Walk) (token : Bytes) (tenant : TenantId)
    (resume : Option walk.Position → Result Answer) : Result Answer :=
  match walk.decode token tenant with
  | .error fault => .error fault
  | .ok position => resume position

def overRanking : Walk → Bool
  | search | related => true
  | _ => false

end Walk

section Codec

variable {tenant other : TenantId} {kind want : TokenKind} {payload : Bytes}

theorem readLengthPrefixed_component {bytes : Bytes} (fits : bytes.length < 2 ^ 64) (rest : Bytes) :
    readLengthPrefixed (component bytes ++ rest) = some (bytes, rest) := by
  unfold readLengthPrefixed component
  rw [append_assoc, uvarint_append fits]
  simp

theorem encodeToken_ne_nil : encodeToken kind tenant payload ≠ [] := by
  intro empty
  have decoded := base64Decode_base64Encode
    (tokenVersion :: kind.byte :: (component tenant ++ payload))
  rw [show base64Encode _ = _ from empty] at decoded
  cases decoded

theorem splitToken_encodeToken (fits : tenant.length < 2 ^ 64) (op : String) :
    splitToken (encodeToken kind tenant payload) op = .ok (kind, tenant, payload) := by
  unfold splitToken
  rw [if_neg encodeToken_ne_nil, encodeToken, base64Decode_base64Encode]
  simp [readLengthPrefixed_component fits]

theorem decodeToken_encodeToken (fits : tenant.length < 2 ^ 64) :
    decodeToken (encodeToken kind tenant payload) want other =
      if kind ≠ want then
        badToken "codec.DecodeToken"
          "this page token resumes a %s and this request is a %s; start the %s again"
          [.word kind.name, .word want.name, .word want.name]
      else if tenant ≠ other then
        badToken "codec.DecodeToken" "this page token was issued for a different tenant"
      else .ok payload := by
  unfold decodeToken
  dsimp only
  rw [splitToken_encodeToken fits]

theorem decodeToken_refused (fits : tenant.length < 2 ^ 64) (differs : kind ≠ want ∨ tenant ≠
      other) :
    ∃ fault, decodeToken (encodeToken kind tenant payload) want other = .error fault ∧
      fault.kind = .invalid ∧ fault.op = "codec.DecodeToken" := by
  rw [decodeToken_encodeToken fits]
  split
  · exact ⟨_, rfl, rfl, rfl⟩
  next sameKind =>
  have otherTenant : tenant ≠ other := differs.resolve_left sameKind
  rw [if_pos otherTenant]
  exact ⟨_, rfl, rfl, rfl⟩

end Codec

theorem toUInt16_ofBigEndian_uint16 (number : UInt16) :
    (ofBigEndian (uint16 number)).toUInt16 = number := by
  have fits : number.toNat < 256 ^ 2 := number.toNat_lt
  rw [uint16, ofBigEndian_bigEndian, Nat.mod_eq_of_lt fits]
  exact UInt16.ofNat_toNat

theorem listingOf_payload (position : ListingPosition) (fits : position.value.length < 2 ^ 64) :
    listingOf (uint16 position.slot ++ ((if position.desc then 1 else 0) ::
      (component position.value ++ (position.rid.bytes ++ position.session.bytes)))) =
      .ok position := by
  obtain ⟨slot, desc, value, rid, session⟩ := position
  have width : (uint16 slot).length = 2 := length_bigEndian 2 _
  have number := toUInt16_ofBigEndian_uint16 slot
  obtain ⟨high, low, bytes⟩ := length_eq_two.mp width
  have ridWidth : rid.bytes.length = 16 := rid.width
  have sessionWidth : session.bytes.length = 16 := session.width
  rw [bytes] at number ⊢
  simp only [listingOf, cons_append, nil_append, length_cons, drop_succ_cons, drop_zero,
    readLengthPrefixed_component fits, take_succ_cons, take_zero, number, length_append, ridWidth,
    sessionWidth, take_left' ridWidth, drop_left' ridWidth, fromBytes_bytes]
  cases desc <;> simp

theorem rankedOf_payload (op : String) (position : RankedPosition) :
    rankedOf op (position.session.bytes ++ appendUvarint position.offset) = .ok position := by
  obtain ⟨session, offset, started, fits⟩ := position
  have width : session.bytes.length = 16 := session.width
  have nonempty : 0 < (appendUvarint offset).length :=
    length_pos_iff.mpr (appendUvarint_ne_nil offset)
  have bounded : offset < 2 ^ 64 := by
    unfold maxInt at fits
    omega
  have read : uvarint (appendUvarint offset) = .some (offset, (appendUvarint offset).length) := by
    simpa using uvarint_append bounded []
  unfold rankedOf
  have long : ¬ (session.bytes ++ appendUvarint offset).length < 17 := by
    rw [length_append, width]
    omega
  rw [if_neg long, take_left' width, drop_left' width, fromBytes_bytes, read]
  simp [width, started, fits]

theorem connectionsOf_payload (position : ConnectionsPosition) :
    connectionsOf ((if position.inward then 1 else 0) ::
      (uint16 position.rel.code ++ position.rid.bytes)) = .ok position := by
  obtain ⟨inward, ⟨code⟩, rid, named⟩ := position
  have width : (uint16 code).length = 2 := length_bigEndian 2 _
  have ridWidth : rid.bytes.length = 16 := rid.width
  have whole : (uint16 code ++ rid.bytes).length = 18 := by rw [length_append, width, ridWidth]
  have range : ¬ (1 : UInt8) < (if inward then 1 else 0) := by cases inward <;> decide
  unfold connectionsOf
  simp only [whole, ne_eq, not_true_eq_false, false_or, if_neg range, take_left' width,
    toUInt16_ofBigEndian_uint16, drop_left' width, fromBytes_bytes, named, dif_pos]
  cases inward <;> simp

/-- The value a listing is at can be given a length prefix. -/
def Walk.Fits : (walk : Walk) → walk.Position → Prop
  | .listing, position => List.length (ListingPosition.value position) < 2 ^ 64
  | _, _ => True

theorem Walk.encode_eq (walk : Walk) (tenant : TenantId) (position : walk.Position) :
    ∃ payload, walk.encode tenant position = encodeToken walk.kind tenant payload ∧
      (walk.Fits position → walk.ofPayload payload = .ok position) := by
  cases walk with
  | listing => exact ⟨_, rfl, listingOf_payload position⟩
  | search | related => exact ⟨_, rfl, fun _ => rankedOf_payload _ position⟩
  | connections => exact ⟨_, rfl, fun _ => connectionsOf_payload position⟩

theorem Walk.kind_ne {walk other : Walk} (differs : walk ≠ other)
    (apart : ¬ (walk.overRanking = true ∧ other.overRanking = true)) : walk.kind ≠ other.kind := by
  revert differs apart
  cases walk <;> cases other <;> decide

theorem Walk.decode_rankedToken {tenant : TenantId} (fits : tenant.length < 2 ^ 64)
    (position : RankedPosition) :
    related.decode (search.encode tenant position) tenant = .ok (some position) ∧
      search.decode (related.encode tenant position) tenant = .ok (some position) := by
  have decoded := @decodeToken_encodeToken tenant tenant .search .search
    (position.session.bytes ++ appendUvarint position.offset) fits
  constructor
  · have reads := rankedOf_payload "memory.Related" position
    simp [decode, encode, encodeSearchCursor, encodeToken_ne_nil, kind, decoded, ofPayload, reads]
  · have reads := rankedOf_payload "memory.Search" position
    simp [decode, encode, encodeSearchCursor, encodeToken_ne_nil, kind, decoded, ofPayload, reads]

/-- A token is read back by the walk and the tenant it was issued for, and is refused by the
decoder, whatever would come after, in any other tenant and by any other walk that does not page
over a ranking as the one that issued it does. The two that do read each other's tokens. -/
theorem token_resumes_its_own_walk (tenant : TenantId) (fits : tenant.length < 2 ^ 64) :
    (∀ (kind want : TokenKind) (other : TenantId) (payload read : Bytes),
      decodeToken (encodeToken kind tenant payload) want other = .ok read ↔
        kind = want ∧ tenant = other ∧ payload = read) ∧
      (∀ position : RankedPosition,
        Walk.related.decode (Walk.search.encode tenant position) tenant = .ok (some position) ∧
          Walk.search.decode (Walk.related.encode tenant position) tenant = .ok (some position)) ∧
      ∀ (walk : Walk) (position : walk.Position), (walk.Fits position →
          walk.decode (walk.encode tenant position) tenant = .ok (some position)) ∧
        ∀ (asked : Walk) (other : TenantId), tenant ≠ other ∨
            walk ≠ asked ∧ ¬ (walk.overRanking = true ∧ asked.overRanking = true) →
          ∃ fault, decodeToken (walk.encode tenant position) asked.kind other = .error fault ∧
            fault.kind = .invalid ∧ fault.op = "codec.DecodeToken" ∧
            ∀ (Answer : Type) (resume : Option asked.Position → Result Answer),
              asked.serve (walk.encode tenant position) other resume = .error fault := by
  refine ⟨?_, Walk.decode_rankedToken fits, ?_⟩
  · intro kind want other payload read
    rw [decodeToken_encodeToken fits]
    by_cases sameKind : kind = want
    · by_cases sameTenant : tenant = other
      · simp [sameKind, sameTenant]
      · simp [sameKind, sameTenant, badToken]
    · simp [sameKind, badToken]
  · intro walk position
    obtain ⟨payload, issued, reads⟩ := walk.encode_eq tenant position
    rw [issued]
    constructor
    · intro sized
      simp [Walk.decode, encodeToken_ne_nil, decodeToken_encodeToken fits, reads sized]
    intro asked other elsewhere
    have differs : walk.kind ≠ asked.kind ∨ tenant ≠ other := by
      rcases elsewhere with otherTenant | ⟨otherWalk, apart⟩
      · exact .inr otherTenant
      · exact .inl (Walk.kind_ne otherWalk apart)
    obtain ⟨fault, refused, isInvalid, op⟩ := @decodeToken_refused _ _ _ _ payload fits differs
    refine ⟨fault, refused, isInvalid, op, ?_⟩
    intro Answer resume
    simp [Walk.serve, Walk.decode, encodeToken_ne_nil, refused]

def firstPageEnd : RankedPosition := ⟨Id.filled 7, 10, by decide, by decide⟩

/-- A token that a search issued is read by the walk over related memories, with its session. -/
theorem related_reads_search_token : Walk.search ≠ Walk.related ∧
      Walk.related.decode (Walk.search.encode (ascii "acme") firstPageEnd) (ascii "acme") =
        .ok (some firstPageEnd) :=
  ⟨by decide, (Walk.decode_rankedToken (by decide) firstPageEnd).1⟩

theorem token_resumes_its_own_walk_search :
    Walk.search.decode (Walk.search.encode (ascii "acme") firstPageEnd) (ascii "acme") =
      .ok (some firstPageEnd) ∧
    ∃ fault, decodeToken (Walk.search.encode (ascii "acme") firstPageEnd) Walk.listing.kind
      (ascii "acme") = .error fault := by
  obtain ⟨_, _, walks⟩ := token_resumes_its_own_walk (ascii "acme") (by decide)
  obtain ⟨reads, refuses⟩ := walks .search firstPageEnd
  obtain ⟨fault, refused, _⟩ := refuses .listing (ascii "acme") (.inr ⟨by decide, by decide⟩)
  exact ⟨reads trivial, fault, refused⟩

end Remem.Tokens
