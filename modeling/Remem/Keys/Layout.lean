import Remem.Errs
import Remem.Base.Binary

/-!
# Key layout

The builders and ranges of package `keys`:

    key := <tlen:uvarint><tenant> <nslen:uvarint><namespace> <space:1> <remainder>

Sizes a builder passes on to allocate its slice have no part in the bytes and
are left out.
-/

namespace Remem.Keys

open Base

/-- `tenant.ID`; the empty one is the system scope. -/
abbrev TenantId := Bytes

abbrev Namespace := Bytes

def defaultNamespace : Namespace := ascii "default"

def maxIdLen : Nat := 128

def idLen : Nat := 16

@[ext]
structure Id where
  bytes : Bytes
  width : bytes.length = idLen
  deriving DecidableEq, Repr

instance : LinearOrder Id := LinearOrder.lift' Id.bytes fun _ _ => Id.ext

def Id.zero : Id := ⟨List.replicate idLen 0, rfl⟩

def Id.filled (byte : UInt8) : Id := ⟨List.replicate idLen byte, rfl⟩

def Id.fromBytes (bytes : Bytes) : Result Id :=
  if width : bytes.length = idLen then .ok ⟨bytes, width⟩
  else .error ⟨.invalid, "id.FromBytes", "an id is 16 bytes, got %d", [.number bytes.length]⟩

/-- `keys.Space`: any byte can be passed, the named ones are in use. -/
structure Space where
  byte : UInt8
  deriving DecidableEq, Repr

namespace Space

def system : Space := ⟨0x01⟩
def record : Space := ⟨0x02⟩
def vector : Space := ⟨0x03⟩
def edgeOut : Space := ⟨0x04⟩
def edgeIn : Space := ⟨0x05⟩
def attrRow : Space := ⟨0x06⟩
def attrIndex : Space := ⟨0x07⟩
def text : Space := ⟨0x08⟩
def vectorIndex : Space := ⟨0x09⟩
def job : Space := ⟨0x0A⟩
def event : Space := ⟨0x0B⟩
def session : Space := ⟨0x0C⟩
def jobPause : Space := ⟨0x0D⟩
def jobRun : Space := ⟨0x0E⟩
def passage : Space := ⟨0x0F⟩
def user : Space := ⟨0x30⟩

end Space

structure RecordType where
  byte : UInt8
  deriving DecidableEq, Repr

def RecordType.memory : RecordType := ⟨0x01⟩

/-- `keys.RelType`, the relationship between the two ends of an edge. -/
structure RelType where
  code : UInt16
  deriving DecidableEq, Repr

/-- `keys.JobState`, the partition byte of a job key. -/
structure JobState where
  byte : UInt8
  deriving DecidableEq, Repr

namespace JobState

def pending : JobState := ⟨0x01⟩
def running : JobState := ⟨0x02⟩
def done : JobState := ⟨0x03⟩

/-- Whether `jobStateNames` names the partition. -/
def known (state : JobState) : Bool := state = pending || state = running || state = done

end JobState

structure UserKind where
  byte : UInt8
  deriving DecidableEq, Repr

namespace UserKind

def row : UserKind := ⟨0x01⟩
def tok : UserKind := ⟨0x02⟩
def names : UserKind := ⟨0x03⟩

end UserKind

def component (bytes : Bytes) : Bytes := appendUvarint bytes.length ++ bytes

variable (tenant : TenantId) (ns : Namespace)

def scopePrefix : Bytes := component tenant ++ component ns

/-- `begin`: the scope and the space byte. -/
def beginKey (space : Space) : Bytes := scopePrefix tenant ns ++ [space.byte]

def uint16 (number : UInt16) : Bytes := bigEndian 2 number.toNat
def uint32 (number : UInt32) : Bytes := bigEndian 4 number.toNat
def uint64 (number : UInt64) : Bytes := bigEndian 8 number.toNat

def record (recordType : RecordType) (rid : Id) : Bytes :=
  beginKey tenant ns .record ++ recordType.byte :: rid.bytes

def vector (rid : Id) : Bytes := beginKey tenant ns .vector ++ rid.bytes

def passage (rid : Id) (number : UInt32) : Bytes :=
  beginKey tenant ns .passage ++ (rid.bytes ++ uint32 number)

def edgeOut (fromId : Id) (rel : RelType) (toId : Id) : Bytes :=
  beginKey tenant ns .edgeOut ++ (fromId.bytes ++ (uint16 rel.code ++ toId.bytes))

def edgeIn (toId : Id) (rel : RelType) (fromId : Id) : Bytes :=
  beginKey tenant ns .edgeIn ++ (toId.bytes ++ (uint16 rel.code ++ fromId.bytes))

def attrRow (rid : Id) : Bytes := beginKey tenant ns .attrRow ++ rid.bytes

def attrIndex (slot : UInt16) (value : Bytes) (rid : Id) : Bytes :=
  beginKey tenant ns .attrIndex ++ (uint16 slot ++ (value ++ rid.bytes))

def text (term : Bytes) (rid : Id) : Bytes :=
  beginKey tenant ns .text ++ (component term ++ rid.bytes)

def vectorIndex (node : UInt64) : Bytes := beginKey tenant ns .vectorIndex ++ uint64 node

def job (state : JobState) (dueUnixMs : UInt64) (jid : Id) : Bytes :=
  beginKey tenant ns .job ++ state.byte :: (uint64 dueUnixMs ++ jid.bytes)

def jobPause (typ : Bytes) : Bytes := beginKey tenant ns .jobPause ++ typ

def jobRun (finishedUnixMs : UInt64) (runId : Id) : Bytes :=
  beginKey tenant ns .jobRun ++ (uint64 finishedUnixMs ++ runId.bytes)

def event (subject : Id) (tsUnixMs : UInt64) (seq : UInt32) : Bytes :=
  beginKey tenant ns .event ++ (subject.bytes ++ (uint64 tsUnixMs ++ uint32 seq))

def session (sid : Id) : Bytes := beginKey tenant ns .session ++ sid.bytes

/-- `System`: an untenanted row, whose scope is the two empty identifiers. -/
def system (path : Bytes) : Bytes := beginKey [] [] .system ++ path

def user (uid : Id) : Bytes := beginKey tenant ns .user ++ UserKind.row.byte :: uid.bytes

def userToken (tokenId : Id) : Bytes :=
  beginKey tenant ns .user ++ UserKind.tok.byte :: tokenId.bytes

def userName (folded : Bytes) : Bytes := beginKey tenant ns .user ++ UserKind.names.byte :: folded

def tokenIndexPrefix : Bytes := ascii "/tokens/"

/-- One lowercase digit of `hex.AppendEncode`. -/
def hexDigit (nibble : UInt8) : UInt8 := if nibble < 10 then 48 + nibble else 87 + nibble

def hexEncode (bytes : Bytes) : Bytes :=
  bytes.flatMap fun byte => [hexDigit (byte / 16), hexDigit (byte % 16)]

def tokenIndex (tokenId : Id) : Bytes :=
  beginKey [] [] .system ++ (tokenIndexPrefix ++ hexEncode tokenId.bytes)

/-- A byte that `tenant.validate` lets into an identifier. -/
def identifierByte (byte : UInt8) : Bool :=
  (97 ≤ byte && byte ≤ 122) || (48 ≤ byte && byte ≤ 57) || byte = 95 || byte = 45

/-- `ID.Valid` and `Namespace.Valid`. -/
def validIdentifier (bytes : Bytes) : Bool :=
  bytes.length ≠ 0 && bytes.length ≤ maxIdLen && bytes.all identifierByte

/-- `tenant.Require` on the tenant a context carries. -/
def requireTenant : Option TenantId → Result TenantId
  | none | some [] =>
    .error ⟨.invalid, "tenant.Require",
      "this context carries no tenant: there is no unscoped read path (Invariant 1)", []⟩
  | some tenant =>
    if !validIdentifier tenant then
      .error ⟨.invalid, "tenant.Require", "context carries %q, which is not a tenant id",
        [.bytes tenant]⟩
    else .ok tenant

def checkScope : Result Unit :=
  if tenant = [] then
    .error ⟨.invalid, "keys.checkScope",
      "a user-space key requires a tenant: there is no unscoped read path (Invariant 1)", []⟩
  else if !validIdentifier tenant then
    .error ⟨.invalid, "keys.checkScope", "tenant id %q is malformed", [.bytes tenant]⟩
  else if ns = [] then
    .error ⟨.invalid, "keys.checkScope",
      "a user-space key requires a namespace; use tenant.DefaultNamespace", []⟩
  else if !validIdentifier ns then
    .error ⟨.invalid, "keys.checkScope", "namespace %q is malformed", [.bytes ns]⟩
  else .ok ()

def recordChecked (recordType : RecordType) (rid : Id) : Result Bytes := do
  checkScope tenant ns
  return record tenant ns recordType rid

/-- A half-open range of keys; no upper bound runs to the end of the key space. -/
structure KeyRange where
  lower : Bytes
  upper : Option Bytes
  deriving DecidableEq, Repr

def KeyRange.Contains (range : KeyRange) (key : Bytes) : Prop :=
  range.lower ≤ key ∧ ∀ bound ∈ range.upper, key < bound

instance (range : KeyRange) (key : Bytes) : Decidable (range.Contains key) :=
  inferInstanceAs (Decidable (_ ∧ _))

/-- The loop of `PrefixRange`, from the last byte of the prefix to the first. -/
def incrementLast : (reversed : Bytes) → Option Bytes
  | [] => none
  | byte :: rest =>
    if byte = 0xFF then incrementLast rest
    else some ((byte + 1) :: rest).reverse

def prefixRange (bytes : Bytes) : KeyRange := ⟨bytes, incrementLast bytes.reverse⟩

def tenantRange : KeyRange := prefixRange (component tenant)

def namespaceRange : KeyRange := prefixRange (scopePrefix tenant ns)

def spaceRange (space : Space) : KeyRange := prefixRange (scopePrefix tenant ns ++ [space.byte])

def textTermRange (term : Bytes) : KeyRange :=
  prefixRange (beginKey tenant ns .text ++ component term)

def attrSlotRange (slot : UInt16) : KeyRange :=
  prefixRange (beginKey tenant ns .attrIndex ++ uint16 slot)

def jobStateRange (state : JobState) : KeyRange :=
  prefixRange (beginKey tenant ns .job ++ [state.byte])

/-- `JobDueRange`: up to and with the bound, so it ends at the next millisecond. -/
def jobDueRange (state : JobState) (dueUnixMs : UInt64) : KeyRange :=
  if dueUnixMs = 0xFFFFFFFFFFFFFFFF then jobStateRange tenant ns state
  else ⟨(jobStateRange tenant ns state).lower, some (job tenant ns state (dueUnixMs + 1) Id.zero)⟩

def edgesFromRange (fromId : Id) : KeyRange :=
  prefixRange (beginKey tenant ns .edgeOut ++ fromId.bytes)

def edgesToRange (toId : Id) : KeyRange := prefixRange (beginKey tenant ns .edgeIn ++ toId.bytes)

def eventsForRange (subject : Id) : KeyRange :=
  prefixRange (beginKey tenant ns .event ++ subject.bytes)

end Remem.Keys
