import Remem.Base.Utf8
import Remem.Lifecycle.Apply

/-!
# The policy table of a tenant

The shipped policies with what a tenant overrides, and the checks that every override has
to pass before a table is made of it.
-/

namespace Remem.Lifecycle

open Base Keys OrderedMap

def longTerm : Text := ⟨ascii "long_term", by decide⟩

def pinned : Text := ⟨ascii "pinned", by decide⟩

/-- The bits of `ImportanceDecayPerDay`, 0.995. -/
def importanceDecayPerDay : UInt64 := 0x3FEFD70A3D70A3D7

/-- The bits of `HealthDecayShortTerm`, 8. -/
def healthDecayShortTerm : UInt64 := 0x4020000000000000

/-- The bits of `HealthDecayLongTerm`, 2. -/
def healthDecayLongTerm : UInt64 := 0x4000000000000000

def promoteAtRecalls : UInt32 := 3

def cleanupAfter : Int := 30 * day

def archiveAtHealth : UInt32 := 0

/-- The bits of `MaxHealth`, 100. -/
def maxHealth : UInt32 := 0x42C80000

/-- The bits of `float64(MaxHealth)`. -/
def maxHealthDouble : UInt64 := 0x4059000000000000

def builtins : OrderedMap Bytes Policy :=
  ((OrderedMap.empty.set shortTerm.bytes
    { name := shortTerm.bytes
      promoteAtRecalls := some promoteAtRecalls
      promoteTo := longTerm
      importanceDecay := Binary64.one
      healthDecay := healthDecayShortTerm
      archiveAtHealth := some archiveAtHealth
      cleanupAfter := some cleanupAfter }).set longTerm.bytes
    { name := longTerm.bytes
      importanceDecay := importanceDecayPerDay
      healthDecay := healthDecayLongTerm
      archiveAtHealth := some archiveAtHealth
      cleanupAfter := some cleanupAfter }).set pinned.bytes
    { name := pinned.bytes
      importanceDecay := Binary64.one }

def maxPolicyNameLen : Nat := 64

/-- `[a-z0-9_]`. -/
def isNameByte (byte : UInt8) : Bool :=
  (0x61 ≤ byte && byte ≤ 0x7A) || (0x30 ≤ byte && byte ≤ 0x39) || byte = 0x5F

def checkName (name : Bytes) (op : String) : Result Unit :=
  if name = [] then .error ⟨.invalid, op, "a retention policy must have a name", []⟩
  else if maxPolicyNameLen < name.length then
    .error ⟨.invalid, op, "policy name %q is %d bytes, the limit is %d",
      [.bytes name, .number name.length, .number maxPolicyNameLen]⟩
  else match name.find? fun byte => !isNameByte byte with
    | some byte =>
      .error ⟨.invalid, op, "policy name %q contains %q; only [a-z0-9_] is allowed",
        [.bytes name, .bytes (runeBytes byte)]⟩
    | none => .ok ()

/-- What `validate` reports. Numbers stand in its texts as their bits. -/
def Policy.bad (policy : Policy) (op format : String) (operands : List Operand) : Result Unit :=
  .error ⟨.invalid, op, format, .bytes policy.name :: operands⟩

def validateRates (policy : Policy) (op : String) : Result Unit :=
  if Binary64.atMost policy.importanceDecay 0 then
    policy.bad op ("policy %q decays importance by %v a day, which erases it in one pass; " ++
      "1.0 is no decay") [.number policy.importanceDecay.toNat]
  else if Binary64.less Binary64.one policy.importanceDecay then
    policy.bad op ("policy %q decays importance by %v a day, which grows it without bound; " ++
      "a decay multiplier is at most 1.0") [.number policy.importanceDecay.toNat]
  else if Binary64.less policy.healthDecay 0 then
    policy.bad op ("policy %q decays health by %v a day, which heals a memory nobody touches; " ++
      "0 is no decay") [.number policy.healthDecay.toNat]
  else if Binary64.less maxHealthDouble policy.healthDecay then
    policy.bad op ("policy %q decays health by %v a day, more than the whole %v scale; " ++
      "every memory of this policy would be archived on its first sweep")
      [.number policy.healthDecay.toNat, .number maxHealth.toNat]
  else .ok ()

def validateTtl (policy : Policy) (op : String) : Result Unit :=
  match policy.ttl with
  | none => .ok ()
  | some ttl =>
    if ttl ≤ 0 then
      policy.bad op "policy %q has a ttl of %v; a memory cannot expire before it exists"
        [.number ttl]
    else .ok ()

def validateArchive (policy : Policy) (op : String) : Result Unit :=
  match policy.archiveAtHealth with
  | none => .ok ()
  | some health =>
    if Binary32.less health 0 || Binary32.less maxHealth health then
      policy.bad op ("policy %q archives at health %v, which is off the 0..%v scale, so it " ++
        "would archive everything or nothing") [.number health.toNat, .number maxHealth.toNat]
    else .ok ()

def validateCleanup (policy : Policy) (op : String) : Result Unit :=
  match policy.cleanupAfter with
  | none => .ok ()
  | some retention =>
    if retention ≤ 0 then
      policy.bad op ("policy %q cleans up after %v, which would delete a memory the moment " ++
        "it is archived; nil means never") [.number retention]
    else .ok ()

def validatePromotion (policy : Policy) (table : OrderedMap Bytes Policy) (op : String) :
    Result Unit :=
  match policy.promoteAtRecalls with
  | some recalls =>
    if policy.promoteTo.bytes = [] then
      policy.bad op "policy %q promotes at %d recalls with nowhere to promote to"
        [.number recalls.toNat]
    else if (table.get policy.promoteTo.bytes).isNone then
      policy.bad op "policy %q promotes into %q, which is not a policy this tenant has"
        [.bytes policy.promoteTo.bytes]
    else .ok ()
  | none =>
    if policy.promoteTo.bytes ≠ [] then
      policy.bad op "policy %q promotes into %q but has no recall threshold to promote at"
        [.bytes policy.promoteTo.bytes]
    else .ok ()

def validate (policy : Policy) (table : OrderedMap Bytes Policy) (op : String) : Result Unit := do
  validateRates policy op
  validateTtl policy op
  validateArchive policy op
  validateCleanup policy op
  validatePromotion policy table op

/-- The first pass of `NewPolicies`: every override in the table. The source goes over the
names in any order. -/
def override (overrides : OrderedMap Bytes Policy) (op : String) :
    Result (OrderedMap Bytes Policy) :=
  overrides.entries.foldlM (fun table (name, policy) => do
    checkName name op
    return table.set name { policy with name }) builtins

def newPolicies (overrides : OrderedMap Bytes Policy) : Result Policies := do
  let op := "lifecycle.NewPolicies"
  let table ← override overrides op
  overrides.entries.forM fun (name, _) =>
    match table.get name with
    | some policy => validate policy table op
    | none => .ok ()
  return ⟨table⟩

theorem retention_pos_of_validate {policy : Policy} {table : OrderedMap Bytes Policy}
    {op : String} (passed : validate policy table op = .ok ()) {retention : Int}
    (cleans : policy.cleanupAfter = some retention) : 0 < retention := by
  obtain ⟨_, _, passed⟩ := Result.ok_of_bind passed
  obtain ⟨_, _, passed⟩ := Result.ok_of_bind passed
  obtain ⟨_, _, passed⟩ := Result.ok_of_bind passed
  obtain ⟨_, checked, _⟩ := Result.ok_of_bind passed
  by_contra negative
  simp only [validateCleanup, cleans, not_lt.mp negative, if_true] at checked
  cases checked

theorem validate_builtin {name : Bytes} {policy : Policy} {table : OrderedMap Bytes Policy}
    (shipped : builtins.get name = some policy) (whole : (table.get longTerm.bytes).isSome)
    (op : String) : validate policy table op = .ok () := by
  rw [get_eq_some_iff] at shipped
  have listed : (name, policy) ∈ builtins.entries := shipped
  simp only [builtins, OrderedMap.mem_set, Prod.mk.injEq] at listed
  have noneFalse : (table.get longTerm.bytes).isNone = false := by
    rwa [← Option.not_isSome, Bool.not_eq_false']
  rcases listed with ⟨_, rfl⟩ | ⟨⟨_, rfl⟩ | ⟨⟨_, rfl⟩ | ⟨impossible, _⟩, _⟩, _⟩
  · rfl
  · rfl
  · have promotes : validatePromotion
        { name := shortTerm.bytes
          promoteAtRecalls := some promoteAtRecalls
          promoteTo := longTerm
          importanceDecay := Binary64.one
          healthDecay := healthDecayShortTerm
          archiveAtHealth := some archiveAtHealth
          cleanupAfter := some cleanupAfter } table op = .ok () := by
      simp only [validatePromotion, noneFalse]
      rfl
    exact promotes
  · cases impossible

theorem get_of_override {overrides : List (Bytes × Policy)} {op : String}
    {before after : OrderedMap Bytes Policy}
    (made : overrides.foldlM (fun table (name, policy) => do
      checkName name op
      return table.set name { policy with name }) before = .ok after) (name : Bytes) :
    (after.get name = before.get name ∧ name ∉ overrides.map Prod.fst) ∨
      (name ∈ overrides.map Prod.fst ∧ (after.get name).isSome) := by
  induction overrides generalizing before with
  | nil =>
    cases made
    exact .inl ⟨rfl, by simp⟩
  | cons entry rest ih =>
    rw [List.foldlM_cons] at made
    obtain ⟨middle, first, made⟩ := Result.ok_of_bind made
    obtain ⟨_, _, first⟩ := Result.ok_of_bind first
    cases first
    rcases ih made with ⟨same, notLater⟩ | ⟨later, found⟩
    · by_cases isEntry : name = entry.1
      · refine .inr ⟨by simp [isEntry], ?_⟩
        rw [same, isEntry, get_set_self]
        rfl
      · rw [get_set_of_ne _ _ isEntry] at same
        exact .inl ⟨same, by simp [isEntry, notLater]⟩
    · exact .inr ⟨List.mem_cons_of_mem _ later, found⟩

theorem validate_of_newPolicies {overrides : OrderedMap Bytes Policy} {policies : Policies}
    (accepted : newPolicies overrides = .ok policies) {name : Bytes} {policy : Policy}
    (found : policies.table.get name = some policy) :
    validate policy policies.table "lifecycle.NewPolicies" = .ok () := by
  obtain ⟨table, made, accepted⟩ := Result.ok_of_bind accepted
  obtain ⟨_, checked, accepted⟩ := Result.ok_of_bind accepted
  cases accepted
  rcases get_of_override made name with ⟨same, _⟩ | ⟨overridden, _⟩
  · refine validate_builtin (same.symm.trans found) ?_ _
    rcases get_of_override made longTerm.bytes with ⟨kept, _⟩ | ⟨_, present⟩
    · rw [show table.get longTerm.bytes = _ from kept]
      decide
    · exact present
  obtain ⟨entry, listed, rfl⟩ := List.mem_map.mp overridden
  have each := Result.ok_of_forM checked listed
  dsimp only at each found
  rwa [found] at each

end Remem.Lifecycle
