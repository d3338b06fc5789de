import Remem.Keys.Layout

/-!
# Tenant isolation of the key space

A prefix range holds exactly the keys with that prefix, and the scope at the
head of a key delimits itself. So every key a builder makes lies in the ranges
of its own tenant, namespace and space and in no others.
-/

namespace Remem.Keys

open Base List

theorem incrementLast_cases (reversed : Bytes) : (incrementLast reversed = none ∧
      reversed.reverse = List.replicate reversed.length 0xFF) ∨
    ∃ common byte count, byte ≠ 0xFF ∧
      reversed.reverse = common ++ byte :: List.replicate count 0xFF ∧
      incrementLast reversed = some (common ++ [byte + 1]) := by
  induction reversed with
  | nil => exact Or.inl ⟨rfl, rfl⟩
  | cons byte rest ih =>
    by_cases full : byte = 0xFF
    · subst full
      simp only [incrementLast, if_true, reverse_cons, length_cons]
      rcases ih with ⟨unbounded, onlyFull⟩ | ⟨common, byte, count, notFull, shape, bound⟩
      · refine Or.inl ⟨unbounded, ?_⟩
        rw [onlyFull, replicate_succ']
      · refine Or.inr ⟨common, byte, count + 1, notFull, ?_, bound⟩
        rw [shape, append_assoc, cons_append, replicate_succ']
    refine Or.inr ⟨rest.reverse, byte, 0, full, ?_, ?_⟩
    · simp
    · simp [incrementLast, full]

theorem le_allBits (byte : UInt8) : byte ≤ 0xFF := by
  rw [UInt8.le_iff_toNat_le]
  exact Nat.le_of_lt_succ byte.toNat_lt

theorem toNat_succ {byte : UInt8} (notFull : byte ≠ 0xFF) : (byte + 1).toNat = byte.toNat + 1 := by
  have bound := byte.toNat_lt
  have notLast : byte.toNat ≠ 255 := fun last =>
    notFull (UInt8.toNat_inj.mp last)
  rw [UInt8.toNat_add]
  have one : (1 : UInt8).toNat = 1 := rfl
  omega

theorem contains_prefixRange (bytes key : Bytes) :
    (prefixRange bytes).Contains key ↔ bytes <+: key := by
  have ends := incrementLast_cases bytes.reverse
  simp only [reverse_reverse, length_reverse] at ends
  simp only [KeyRange.Contains, prefixRange]
  rcases ends with ⟨unbounded, onlyFull⟩ | ⟨common, byte, count, notFull, shape, bound⟩
  · rw [unbounded, onlyFull]
    simpa using replicate_le_iff_isPrefix le_allBits bytes.length key
  rw [bound, shape]
  have grows : byte < byte + 1 := by
    rw [UInt8.lt_iff_toNat_lt, toNat_succ notFull]
    omega
  have gap : ∀ other, other < byte + 1 → other ≤ byte := by
    intro other below
    rw [UInt8.lt_iff_toNat_lt, toNat_succ notFull] at below
    rw [UInt8.le_iff_toNat_le]
    omega
  simpa using between_iff_isPrefix le_allBits grows gap common count key

theorem component_selfDelimiting : SelfDelimiting component :=
  appendUvarint_selfDelimiting.lengthPrefixed

theorem scopePrefix_selfDelimiting :
    SelfDelimiting fun scope : TenantId × Namespace => scopePrefix scope.1 scope.2 :=
  component_selfDelimiting.append component_selfDelimiting

theorem space_selfDelimiting : SelfDelimiting fun space : Space => [space.byte] := by
  rintro ⟨first⟩ ⟨second⟩ firstTail secondTail equal
  simpa using equal

theorem beginKey_selfDelimiting : SelfDelimiting fun scope : (TenantId × Namespace) × Space =>
      beginKey scope.1.1 scope.1.2 scope.2 :=
  scopePrefix_selfDelimiting.append space_selfDelimiting

section Ranges

variable (tenant otherTenant : TenantId) (ns otherNamespace : Namespace)
  (space otherSpace : Space) (remainder : Bytes)

theorem contains_tenantRange :
    (tenantRange otherTenant).Contains (beginKey tenant ns space ++ remainder) ↔
      otherTenant = tenant := by
  rw [tenantRange, contains_prefixRange, beginKey, scopePrefix, append_assoc, append_assoc]
  exact component_selfDelimiting.isPrefix_iff otherTenant tenant _

theorem contains_namespaceRange : (namespaceRange otherTenant otherNamespace).Contains
        (beginKey tenant ns space ++ remainder) ↔
      otherTenant = tenant ∧ otherNamespace = ns := by
  rw [namespaceRange, contains_prefixRange, beginKey, append_assoc]
  have delimits := scopePrefix_selfDelimiting.isPrefix_iff (otherTenant, otherNamespace)
    (tenant, ns) ([space.byte] ++ remainder)
  rw [delimits, Prod.mk.injEq]

theorem contains_spaceRange : (spaceRange otherTenant otherNamespace otherSpace).Contains
        (beginKey tenant ns space ++ remainder) ↔
      otherTenant = tenant ∧ otherNamespace = ns ∧ otherSpace = space := by
  rw [spaceRange, contains_prefixRange]
  have delimits := beginKey_selfDelimiting.isPrefix_iff
    ((otherTenant, otherNamespace), otherSpace) ((tenant, ns), space) remainder
  rw [beginKey] at delimits
  rw [delimits, Prod.mk.injEq, Prod.mk.injEq, and_assoc]

end Ranges

inductive BuilderCall where
  | record (tenant : TenantId) (ns : Namespace) (recordType : RecordType) (rid : Id)
  | recordChecked (tenant : TenantId) (ns : Namespace) (recordType : RecordType) (rid : Id)
  | vector (tenant : TenantId) (ns : Namespace) (rid : Id)
  | passage (tenant : TenantId) (ns : Namespace) (rid : Id) (number : UInt32)
  | edgeOut (tenant : TenantId) (ns : Namespace) (fromId : Id) (rel : RelType) (toId : Id)
  | edgeIn (tenant : TenantId) (ns : Namespace) (toId : Id) (rel : RelType) (fromId : Id)
  | attrRow (tenant : TenantId) (ns : Namespace) (rid : Id)
  | attrIndex (tenant : TenantId) (ns : Namespace) (slot : UInt16) (value : Bytes) (rid : Id)
  | text (tenant : TenantId) (ns : Namespace) (term : Bytes) (rid : Id)
  | vectorIndex (tenant : TenantId) (ns : Namespace) (node : UInt64)
  | job (tenant : TenantId) (ns : Namespace) (state : JobState) (dueUnixMs : UInt64) (jid : Id)
  | jobPause (tenant : TenantId) (ns : Namespace) (typ : Bytes)
  | jobRun (tenant : TenantId) (ns : Namespace) (finishedUnixMs : UInt64) (runId : Id)
  | event (tenant : TenantId) (ns : Namespace) (subject : Id) (tsUnixMs : UInt64) (seq : UInt32)
  | session (tenant : TenantId) (ns : Namespace) (sid : Id)
  | system (path : Bytes)
  | user (tenant : TenantId) (ns : Namespace) (uid : Id)
  | userToken (tenant : TenantId) (ns : Namespace) (tokenId : Id)
  | userName (tenant : TenantId) (ns : Namespace) (folded : Bytes)
  | tokenIndex (tokenId : Id)

namespace BuilderCall

/-- The key the call returns; only `RecordChecked` can refuse. -/
def build : BuilderCall → Result Bytes
  | record tenant ns recordType rid => .ok (Keys.record tenant ns recordType rid)
  | recordChecked tenant ns recordType rid => Keys.recordChecked tenant ns recordType rid
  | vector tenant ns rid => .ok (Keys.vector tenant ns rid)
  | passage tenant ns rid number => .ok (Keys.passage tenant ns rid number)
  | edgeOut tenant ns fromId rel toId => .ok (Keys.edgeOut tenant ns fromId rel toId)
  | edgeIn tenant ns toId rel fromId => .ok (Keys.edgeIn tenant ns toId rel fromId)
  | attrRow tenant ns rid => .ok (Keys.attrRow tenant ns rid)
  | attrIndex tenant ns slot value rid => .ok (Keys.attrIndex tenant ns slot value rid)
  | text tenant ns term rid => .ok (Keys.text tenant ns term rid)
  | vectorIndex tenant ns node => .ok (Keys.vectorIndex tenant ns node)
  | job tenant ns state due jid => .ok (Keys.job tenant ns state due jid)
  | jobPause tenant ns typ => .ok (Keys.jobPause tenant ns typ)
  | jobRun tenant ns finished runId => .ok (Keys.jobRun tenant ns finished runId)
  | event tenant ns subject ts seq => .ok (Keys.event tenant ns subject ts seq)
  | session tenant ns sid => .ok (Keys.session tenant ns sid)
  | system path => .ok (Keys.system path)
  | user tenant ns uid => .ok (Keys.user tenant ns uid)
  | userToken tenant ns tokenId => .ok (Keys.userToken tenant ns tokenId)
  | userName tenant ns folded => .ok (Keys.userName tenant ns folded)
  | tokenIndex tokenId => .ok (Keys.tokenIndex tokenId)

/-- The scope the call names and the space its builder writes to. -/
def scope : BuilderCall → TenantId × Namespace × Space
  | record tenant ns _ _ => (tenant, ns, .record)
  | recordChecked tenant ns _ _ => (tenant, ns, .record)
  | vector tenant ns _ => (tenant, ns, .vector)
  | passage tenant ns _ _ => (tenant, ns, .passage)
  | edgeOut tenant ns _ _ _ => (tenant, ns, .edgeOut)
  | edgeIn tenant ns _ _ _ => (tenant, ns, .edgeIn)
  | attrRow tenant ns _ => (tenant, ns, .attrRow)
  | attrIndex tenant ns _ _ _ => (tenant, ns, .attrIndex)
  | text tenant ns _ _ => (tenant, ns, .text)
  | vectorIndex tenant ns _ => (tenant, ns, .vectorIndex)
  | job tenant ns _ _ _ => (tenant, ns, .job)
  | jobPause tenant ns _ => (tenant, ns, .jobPause)
  | jobRun tenant ns _ _ => (tenant, ns, .jobRun)
  | event tenant ns _ _ _ => (tenant, ns, .event)
  | session tenant ns _ => (tenant, ns, .session)
  | system _ => ([], [], .system)
  | user tenant ns _ => (tenant, ns, .user)
  | userToken tenant ns _ => (tenant, ns, .user)
  | userName tenant ns _ => (tenant, ns, .user)
  | tokenIndex _ => ([], [], .system)

def tenant (call : BuilderCall) : TenantId := call.scope.1
def namespaceName (call : BuilderCall) : Namespace := call.scope.2.1
def space (call : BuilderCall) : Space := call.scope.2.2

theorem build_eq_beginKey {call : BuilderCall} {key : Bytes} (built : call.build = .ok key) :
    ∃ remainder, key = beginKey call.tenant call.namespaceName call.space ++ remainder := by
  cases call with
  | recordChecked tenant ns recordType rid =>
    -- a refused scope gives no key; an accepted one gives that of `Record`
    simp only [build, Keys.recordChecked] at built
    cases checked : checkScope tenant ns with
    | error fault =>
      rw [checked] at built
      cases built
    | ok _ =>
      rw [checked] at built
      cases built
      exact ⟨_, rfl⟩
  | _ =>
    cases built
    exact ⟨_, rfl⟩

/-- The key of a builder lies in the range of a tenant, a namespace or a space
exactly when that is its own, and a prefix range is the keys with the prefix. -/
theorem built_key_isolated (call : BuilderCall) (key : Bytes) (built : call.build = .ok key) :
    (∀ tenant, (tenantRange tenant).Contains key ↔ tenant = call.tenant) ∧
    (∀ tenant ns, (namespaceRange tenant ns).Contains key ↔
      tenant = call.tenant ∧ ns = call.namespaceName) ∧
    (∀ tenant ns space, (spaceRange tenant ns space).Contains key ↔
      tenant = call.tenant ∧ ns = call.namespaceName ∧ space = call.space) ∧
    ∀ bytes other : Bytes, (prefixRange bytes).Contains other ↔ bytes <+: other := by
  rcases build_eq_beginKey built with ⟨remainder, rfl⟩
  refine ⟨?_, ?_, ?_, contains_prefixRange⟩
  · intro tenant
    exact contains_tenantRange _ tenant _ _ remainder
  · intro tenant ns
    exact contains_namespaceRange _ tenant _ ns _ remainder
  · intro tenant ns space
    exact contains_spaceRange _ tenant _ ns _ space remainder

theorem built_key_isolated_checked_record : (tenantRange (ascii "acme")).Contains
        (Keys.record (ascii "acme") defaultNamespace .memory Id.zero) ∧
      ¬ (tenantRange (ascii "acmecorp")).Contains
        (Keys.record (ascii "acme") defaultNamespace .memory Id.zero) := by
  have isolated := built_key_isolated
    (.recordChecked (ascii "acme") defaultNamespace .memory Id.zero) _ rfl
  refine ⟨(isolated.1 _).mpr rfl, ?_⟩
  rw [isolated.1]
  decide

end BuilderCall

end Remem.Keys
