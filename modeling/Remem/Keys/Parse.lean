import Remem.Keys.Order

/-!
# Reading keys back

The parsers of package `keys`. A key that does not decode is corruption, and a
parser reads back exactly what its builder wrote.
-/

namespace Remem.Keys

open Base List

def corrupt {Value : Type} (op text : String) (operands : List Operand := []) : Result Value :=
  .error ⟨.corruption, op, text, operands⟩

/-- `parseComponent`: a padded length is refused, the encoder never writes one. -/
def parseComponent (key : Bytes) (op what : String) : Result (Bytes × Bytes) :=
  match uvarint key with
  | none => corrupt op ("key ends before its " ++ what ++ " length")
  | some (number, width) =>
    if width ≠ (appendUvarint number).length then
      corrupt op ("key has a non-minimal " ++ what ++ " length prefix")
    else
      let rest := key.drop width
      if rest.length < number then corrupt op ("key ends inside its " ++ what)
      else .ok (rest.take number, rest.drop number)

/-- `TenantOf`: the first component, if it decodes. -/
def tenantOf (key : Bytes) : Option TenantId :=
  match parseComponent key "" "tenant" with
  | .error _ => none
  | .ok (tenant, _) => some tenant

def parseScope (key : Bytes) (op : String) : Result (TenantId × Namespace × Bytes) := do
  let (tenant, rest) ← parseComponent key op "tenant"
  let (ns, rest) ← parseComponent rest op "namespace"
  return (tenant, ns, rest)

structure JobKey where
  tenant : TenantId
  namespaceName : Namespace
  state : JobState
  dueUnixMs : UInt64
  jid : Id

/-- `ParseJob`, past the scope. -/
def parseJobBody (tenant : TenantId) (ns : Namespace) (rest : Bytes) : Result JobKey :=
  let op := "keys.ParseJob"
  match rest with
  | [] => corrupt op "key is not in the job space"
  | space :: body =>
    if space ≠ Space.job.byte then corrupt op "key is not in the job space"
    else if body.length ≠ 1 + 8 + idLen then
      corrupt op "job key body is %d bytes, want %d"
        [.number body.length, .number (1 + 8 + idLen : Nat)]
    else
      let state : JobState := ⟨body.headD 0⟩
      if !state.known then corrupt op "unknown job state %#x" [.number state.byte.toNat]
      else match Id.fromBytes (body.drop 9) with
        | .error _ => corrupt op "job key holds a malformed id"
        | .ok jid =>
          .ok ⟨tenant, ns, state, (ofBigEndian ((body.drop 1).take 8)).toUInt64, jid⟩

def parseJob (key : Bytes) : Result JobKey :=
  match parseScope key "keys.ParseJob" with
  | .error fault => .error fault
  | .ok (tenant, ns, rest) => parseJobBody tenant ns rest

/-! A key that does not parse is corrupt. -/

variable {op : String} {fault : Fault}

theorem kind_of_corrupt {Value : Type} {text : String} {operands : List Operand}
    (refused : (corrupt op text operands : Result Value) = .error fault) :
    fault.kind = .corruption := by
  cases refused
  rfl

variable {key : Bytes}

theorem parseComponent_corrupt {what : String}
    (refused : parseComponent key op what = .error fault) : fault.kind = .corruption := by
  unfold parseComponent at refused
  dsimp only at refused
  split at refused
  · exact kind_of_corrupt refused
  split at refused
  · exact kind_of_corrupt refused
  split at refused
  · exact kind_of_corrupt refused
  · cases refused

theorem parseScope_corrupt (refused : parseScope key op = .error fault) :
    fault.kind = .corruption := by
  unfold parseScope at refused
  cases tenant : parseComponent key op "tenant" with
  | error fault =>
    rw [tenant] at refused
    cases refused
    exact parseComponent_corrupt tenant
  | ok parsed =>
    rw [tenant] at refused
    have second : (parseComponent parsed.2 op "namespace" >>= fun rest =>
      return (parsed.1, rest.1, rest.2)) = .error fault := refused
    cases name : parseComponent parsed.2 op "namespace" with
    | error fault =>
      rw [name] at second
      cases second
      exact parseComponent_corrupt name
    | ok rest =>
      rw [name] at second
      cases second

theorem parseJob_corrupt (refused : parseJob key = .error fault) : fault.kind = .corruption := by
  unfold parseJob at refused
  split at refused
  · next isFault =>
    cases refused
    exact parseScope_corrupt isFault
  unfold parseJobBody at refused
  dsimp only at refused
  split at refused
  · exact kind_of_corrupt refused
  split at refused
  · exact kind_of_corrupt refused
  split at refused
  · exact kind_of_corrupt refused
  split at refused
  · exact kind_of_corrupt refused
  split at refused
  · exact kind_of_corrupt refused
  · cases refused

structure EventKey where
  tenant : TenantId
  namespaceName : Namespace
  subject : Id
  tsUnixMs : UInt64
  seq : UInt32
  deriving DecidableEq, Repr

/-- `ParseEvent`, past the scope. -/
def parseEventBody (tenant : TenantId) (ns : Namespace) (rest : Bytes) :
    Result EventKey :=
  let op := "keys.ParseEvent"
  match rest with
  | [] => corrupt op "key is not in the event space"
  | space :: body =>
    if space ≠ Space.event.byte then corrupt op "key is not in the event space"
    else if body.length ≠ idLen + 8 + 4 then
      corrupt op "event key body is %d bytes, want %d"
        [.number body.length, .number (idLen + 8 + 4 : Nat)]
    else match Id.fromBytes (body.take idLen) with
      | .error _ => corrupt op "event key holds a malformed subject id"
      | .ok subject =>
        .ok ⟨tenant, ns, subject, (ofBigEndian ((body.drop idLen).take 8)).toUInt64,
          (ofBigEndian (body.drop (idLen + 8))).toUInt32⟩

def parseEvent (key : Bytes) : Result EventKey :=
  match parseScope key "keys.ParseEvent" with
  | .error fault => .error fault
  | .ok (tenant, ns, rest) => parseEventBody tenant ns rest

structure RecordKey where
  tenant : TenantId
  namespaceName : Namespace
  recordType : RecordType
  rid : Id
  deriving DecidableEq, Repr

/-- `ParseRecord`, past the scope. -/
def parseRecordBody (tenant : TenantId) (ns : Namespace) (rest : Bytes) :
    Result RecordKey :=
  let op := "keys.ParseRecord"
  match rest with
  | [] => corrupt op "key is not in the record space"
  | space :: body =>
    if space ≠ Space.record.byte then corrupt op "key is not in the record space"
    else if body.length ≠ 1 + idLen then
      corrupt op "record key body is %d bytes, want %d"
        [.number body.length, .number (1 + idLen : Nat)]
    else match Id.fromBytes (body.drop 1) with
      | .error _ => corrupt op "record key holds a malformed id"
      | .ok rid => .ok ⟨tenant, ns, ⟨body.headD 0⟩, rid⟩

def parseRecord (key : Bytes) : Result RecordKey :=
  match parseScope key "keys.ParseRecord" with
  | .error fault => .error fault
  | .ok (tenant, ns, rest) => parseRecordBody tenant ns rest

theorem parseComponent_component {bytes : Bytes} (fits : bytes.length < 2 ^ 64) (rest : Bytes)
    (op what : String) : parseComponent (component bytes ++ rest) op what = .ok (bytes, rest) := by
  unfold parseComponent component
  rw [append_assoc, uvarint_append fits]
  simp

theorem length_of_validIdentifier {bytes : Bytes} (valid : validIdentifier bytes = true) :
    bytes.length < 2 ^ 64 := by
  simp only [validIdentifier, Bool.and_eq_true, decide_eq_true_eq] at valid
  exact lt_of_le_of_lt valid.1.2 (by decide)

variable {tenant : TenantId}

variable {ns : Namespace}

theorem parseScope_scopePrefix (tenantFits : tenant.length < 2 ^ 64)
    (namespaceFits : ns.length < 2 ^ 64) (rest : Bytes) (op : String) :
    parseScope (scopePrefix tenant ns ++ rest) op = .ok (tenant, ns, rest) := by
  unfold parseScope scopePrefix
  rw [append_assoc, parseComponent_component tenantFits]
  simp only [bind, Except.bind, parseComponent_component namespaceFits]
  rfl

theorem fromBytes_bytes (rid : Id) : Id.fromBytes rid.bytes = .ok rid := by
  unfold Id.fromBytes
  rw [dif_pos rid.width]

variable {state : JobState}

theorem parseJob_job (tenantFits : tenant.length < 2 ^ 64)
    (namespaceFits : ns.length < 2 ^ 64) (known : state.known = true) (due : UInt64)
    (jid : Id) :
    parseJob (job tenant ns state due jid) = .ok ⟨tenant, ns, state, due, jid⟩ := by
  have width : (uint64 due).length = 8 := length_bigEndian 8 _
  have number : (ofBigEndian (uint64 due)).toUInt64 = due := by
    have fits : due.toNat < 256 ^ 8 := due.toNat_lt
    rw [uint64, ofBigEndian_bigEndian, Nat.mod_eq_of_lt fits]
    exact UInt64.ofNat_toNat
  have length : 8 + idLen + 1 = 9 + idLen := by omega
  unfold parseJob job beginKey
  rw [append_assoc, parseScope_scopePrefix tenantFits namespaceFits]
  simp [parseJobBody, width, jid.width, known, fromBytes_bytes, number, length]

variable {due : UInt64}

theorem job_inj {otherTenant : TenantId} {otherNamespace : Namespace} {otherState : JobState}
    {otherDue : UInt64} {jid otherJid : Id}
    (equal : job tenant ns state due jid = job otherTenant otherNamespace otherState
      otherDue otherJid) :
    tenant = otherTenant ∧ ns = otherNamespace ∧ state = otherState ∧
      due = otherDue ∧ jid = otherJid := by
  obtain ⟨tenants, namespaces, _, rest⟩ := beginKey_append_inj equal
  obtain ⟨states, rest⟩ := List.cons.inj rest
  obtain ⟨dues, ids⟩ := uint64_selfDelimiting rest
  obtain ⟨⟨_⟩, ⟨_⟩⟩ := state, otherState
  exact ⟨tenants, namespaces, congrArg JobState.mk states, dues, Id.ext ids⟩

theorem not_lt_replicate_zero (bytes : Bytes) : ¬ bytes < List.replicate bytes.length 0 := by
  induction bytes with
  | nil => exact not_lt_nil _
  | cons byte rest ih =>
    rw [length_cons, replicate_succ, cons_lt_cons_iff]
    rintro (less | ⟨_, tails⟩)
    · exact absurd less (not_lt.mpr (UInt8.le_iff_toNat_le.mpr (Nat.zero_le _)))
    · exact ih tails

theorem contains_upTo (range : KeyRange) (head : Bytes) (bound : UInt64)
    (last : bound = 0xFFFFFFFFFFFFFFFF → range = prefixRange head)
    (cut : bound ≠ 0xFFFFFFFFFFFFFFFF →
      range = ⟨head, some (head ++ (uint64 (bound + 1) ++ Id.zero.bytes))⟩) :
    (∀ key, range.Contains key → head <+: key) ∧ ∀ (time : UInt64) (rid : Id),
        range.Contains (head ++ (uint64 time ++ rid.bytes)) ↔ time ≤ bound := by
  by_cases isLast : bound = 0xFFFFFFFFFFFFFFFF
  · rw [last isLast, isLast]
    refine ⟨fun key => (contains_prefixRange _ _).mp, fun time rid => ?_⟩
    rw [contains_prefixRange]
    refine iff_of_true (prefix_append _ _) (UInt64.le_iff_toNat_le.mpr ?_)
    exact Nat.le_of_lt_succ time.toNat_lt
  rw [cut isLast]
  have next : (bound + 1).toNat = bound.toNat + 1 := by
    have bounded := bound.toNat_lt
    have notFull : bound.toNat ≠ 2 ^ 64 - 1 := fun full => isLast (UInt64.toNat_inj.mp full)
    rw [UInt64.toNat_add]
    change (bound.toNat + 1) % 2 ^ 64 = bound.toNat + 1
    omega
  constructor
  · rintro key ⟨above, under⟩
    have above : head ++ [] ≤ key := by rwa [append_nil]
    exact isPrefix_of_le_of_lt above (under _ rfl)
  intro time rid
  rw [UInt64.le_iff_toNat_le]
  constructor
  · rintro ⟨_, under⟩
    have under := (append_lt_append_left_iff head _ _).mp (under _ rfl)
    by_contra late
    rcases Nat.lt_or_eq_of_le (show (bound + 1).toNat ≤ time.toNat by omega) with
      later | next
    · exact (bigEndian_lt_bigEndian later time.toNat_lt _ _).asymm under
    · obtain rfl := UInt64.toNat_inj.mp next
      rw [append_lt_append_left_iff] at under
      have lowest := not_lt_replicate_zero rid.bytes
      rw [rid.width] at lowest
      exact lowest under
  · intro early
    refine ⟨(contains_prefixRange head _).mpr (prefix_append _ _) |>.1, ?_⟩
    rintro _ ⟨⟩
    exact append_left_lt (bigEndian_lt_bigEndian (by omega) (bound + 1).toNat_lt _ _)

theorem contains_jobDueRange_iff (tenant : TenantId) (ns : Namespace) (bound : UInt64)
    (state : JobState) :
    (∀ key, (jobDueRange tenant ns state bound).Contains key →
      beginKey tenant ns .job ++ [state.byte] <+: key) ∧
    ∀ otherTenant otherNamespace otherState time rid, (jobDueRange tenant ns state bound).Contains
          (job otherTenant otherNamespace otherState time rid) ↔
        (otherTenant = tenant ∧ otherNamespace = ns ∧ otherState = state) ∧ time ≤ bound := by
  have shape : ∀ time rid, job tenant ns state time rid =
      beginKey tenant ns .job ++ [state.byte] ++ (uint64 time ++ rid.bytes) := by
    intro time rid
    rw [job, append_assoc, singleton_append]
  obtain ⟨inside, upTo⟩ := contains_upTo (jobDueRange tenant ns state bound)
    (beginKey tenant ns .job ++ [state.byte]) bound (fun last => if_pos last)
    (fun cut => (if_neg cut).trans (by rw [shape]; rfl))
  refine ⟨inside, fun otherTenant otherNamespace otherState time rid => ?_⟩
  constructor
  · intro contained
    obtain ⟨rest, begins⟩ := inside _ contained
    rw [append_assoc, job] at begins
    obtain ⟨rfl, rfl, _, states⟩ := beginKey_append_inj begins
    obtain ⟨states, _⟩ := List.cons.inj states
    obtain ⟨⟨_⟩, ⟨_⟩⟩ := state, otherState
    cases states
    exact ⟨⟨rfl, rfl, rfl⟩, (upTo time rid).mp (by rwa [← shape])⟩
  · rintro ⟨⟨rfl, rfl, rfl⟩, early⟩
    rw [shape]
    exact (upTo time rid).mpr early

theorem isPrefix_of_contains_jobDueRange (inside : (jobDueRange tenant ns state due).Contains key) :
    beginKey tenant ns .job ++ [state.byte] <+: key :=
  (contains_jobDueRange_iff tenant ns due state).1 key inside

theorem contains_jobDueRange {bound : UInt64} {jid : Id} (early : due ≤ bound) :
    (jobDueRange tenant ns state bound).Contains (job tenant ns state due jid) :=
  ((contains_jobDueRange_iff tenant ns bound state).2 ..).mpr ⟨⟨rfl, rfl, rfl⟩, early⟩

section Records

variable {tenant otherTenant : TenantId} {ns otherNamespace : Namespace}
  {recordType otherType : RecordType} {rid otherRid : Id}

theorem parseRecord_record (tenantFits : tenant.length < 2 ^ 64)
    (namespaceFits : ns.length < 2 ^ 64) :
    parseRecord (record tenant ns recordType rid) = .ok ⟨tenant, ns, recordType, rid⟩ := by
  have length : idLen + 1 = 1 + idLen := by omega
  unfold parseRecord record beginKey
  rw [append_assoc, parseScope_scopePrefix tenantFits namespaceFits]
  simp [parseRecordBody, rid.width, fromBytes_bytes, length]

end Records

section Events

variable {tenant otherTenant : TenantId} {ns otherNamespace : Namespace}
  {subject otherSubject : Id} {ms otherMs : UInt64} {seq otherSeq : UInt32}

theorem uint64_toUInt64_ofBigEndian {bytes : Bytes} (width : bytes.length = 8) :
    uint64 (ofBigEndian bytes).toUInt64 = bytes := by
  have fits : ofBigEndian bytes < 2 ^ 64 := by
    have below := ofBigEndian_lt bytes
    rw [width] at below
    exact below
  rw [uint64, Nat.toUInt64, UInt64.toNat_ofNat_of_lt' fits]
  have whole := bigEndian_ofBigEndian bytes
  rwa [width] at whole

theorem uint32_toUInt32_ofBigEndian {bytes : Bytes} (width : bytes.length = 4) :
    uint32 (ofBigEndian bytes).toUInt32 = bytes := by
  have fits : ofBigEndian bytes < 2 ^ 32 := by
    have below := ofBigEndian_lt bytes
    rw [width] at below
    exact below
  rw [uint32, Nat.toUInt32, UInt32.toNat_ofNat_of_lt' fits]
  have whole := bigEndian_ofBigEndian bytes
  rwa [width] at whole

theorem event_inj (equal : event tenant ns subject ms seq =
      event otherTenant otherNamespace otherSubject otherMs otherSeq) :
    tenant = otherTenant ∧ ns = otherNamespace ∧ subject = otherSubject ∧
      ms = otherMs ∧ seq = otherSeq := by
  obtain ⟨tenants, namespaces, _, rest⟩ := beginKey_append_inj equal
  obtain ⟨subjects, rest⟩ := id_selfDelimiting rest
  obtain ⟨instants, seqs⟩ := uint64_selfDelimiting rest
  exact ⟨tenants, namespaces, subjects, instants, uint32_selfDelimiting.injective seqs⟩

theorem event_lt_event_iff : event tenant ns subject ms seq <
        event tenant ns subject otherMs otherSeq ↔
      ms < otherMs ∨ ms = otherMs ∧ seq < otherSeq := by
  have smaller : ∀ {ms otherMs : UInt64} {seq otherSeq : UInt32},
      (ms < otherMs ∨ ms = otherMs ∧ seq < otherSeq) →
      event tenant ns subject ms seq < event tenant ns subject otherMs otherSeq := by
    rintro ms otherMs seq otherSeq (earlier | ⟨rfl, before⟩)
    · unfold event
      rw [append_lt_append_left_iff, append_lt_append_left_iff]
      exact putUint64_order earlier _ _
    · unfold event
      rw [append_lt_append_left_iff, append_lt_append_left_iff, append_lt_append_left_iff]
      have ordered := putUint32_order before [] []
      rwa [append_nil, append_nil] at ordered
  refine ⟨fun less => ?_, smaller⟩
  by_contra later
  have compared : otherMs < ms ∨ otherMs = ms ∧ otherSeq < seq ∨ (otherMs, otherSeq) = (ms, seq) := by
    rcases lt_trichotomy ms.toNat otherMs.toNat with before | same | after
    · exact absurd (.inl (UInt64.lt_iff_toNat_lt.mpr before)) later
    · have instants := UInt64.toNat_inj.mp same
      rcases lt_trichotomy seq.toNat otherSeq.toNat with before | equal | after
      · exact absurd (.inr ⟨instants, UInt32.lt_iff_toNat_lt.mpr before⟩) later
      · exact .inr (.inr (by rw [instants, UInt32.toNat_inj.mp equal]))
      · exact .inr (.inl ⟨instants.symm, UInt32.lt_iff_toNat_lt.mpr after⟩)
    · exact .inl (UInt64.lt_iff_toNat_lt.mpr after)
  rcases compared with earlier | before | equal
  · exact less.asymm (smaller (.inl earlier))
  · exact less.asymm (smaller (.inr before))
  · cases equal
    exact less.false

theorem parseEvent_event (tenantFits : tenant.length < 2 ^ 64)
    (namespaceFits : ns.length < 2 ^ 64) :
    parseEvent (event tenant ns subject ms seq) = .ok ⟨tenant, ns, subject, ms, seq⟩ := by
  have wide : (uint64 ms).length = 8 := length_bigEndian 8 _
  have narrow : (uint32 seq).length = 4 := length_bigEndian 4 _
  unfold parseEvent event beginKey
  rw [append_assoc, parseScope_scopePrefix tenantFits namespaceFits]
  have seqs : (subject.bytes ++ (uint64 ms ++ uint32 seq)).drop (idLen + 8) = uint32 seq := by
    rw [← append_assoc, drop_left' (by rw [length_append, subject.width, wide])]
  simp [parseEventBody, subject.width, wide, narrow, take_left' subject.width,
    seqs, fromBytes_bytes, toUInt64_ofBigEndian_uint64, toUInt32_ofBigEndian_uint32]

variable {key : Bytes}

theorem eq_event_of_parseEvent (tenantFits : tenant.length < 2 ^ 64)
    (namespaceFits : ns.length < 2 ^ 64) {parsed : EventKey}
    (begins : beginKey tenant ns .event ++ subject.bytes <+: key)
    (isParsed : parseEvent key = .ok parsed) :
    parsed.tenant = tenant ∧ parsed.namespaceName = ns ∧ parsed.subject = subject ∧
      key = event tenant ns subject parsed.tsUnixMs parsed.seq := by
  obtain ⟨tail, rfl⟩ := begins
  rw [append_assoc, beginKey] at isParsed
  unfold parseEvent at isParsed
  rw [append_assoc, parseScope_scopePrefix tenantFits namespaceFits] at isParsed
  simp only [parseEventBody, singleton_append, ne_eq, not_true_eq_false, if_false,
    length_append, subject.width, take_left' subject.width, fromBytes_bytes] at isParsed
  split at isParsed
  · cases isParsed
  next width =>
  have tailWidth : tail.length = 12 := by
    rw [not_not] at width
    omega
  cases isParsed
  refine ⟨rfl, rfl, rfl, ?_⟩
  have split : tail = tail.take 8 ++ tail.drop 8 := (take_append_drop 8 tail).symm
  have seqPart : (subject.bytes ++ tail).drop (idLen + 8) = tail.drop 8 := by
    rw [drop_append, drop_eq_nil_of_le (by rw [subject.width]; omega), subject.width]
    simp
  rw [event, append_assoc, drop_left' subject.width, seqPart,
    uint64_toUInt64_ofBigEndian (by simp [tailWidth]),
    uint32_toUInt32_ofBigEndian (by simp [tailWidth]), ← split]

theorem contains_eventsForRange : (eventsForRange tenant ns subject).Contains key ↔
      beginKey tenant ns .event ++ subject.bytes <+: key :=
  contains_prefixRange _ _

theorem contains_before_event
    (inside : KeyRange.Contains ⟨(eventsForRange tenant ns subject).lower, some (event
      tenant ns subject ms seq)⟩ key) :
    beginKey tenant ns .event ++ subject.bytes <+: key ∧ key < event tenant ns subject ms seq := by
  obtain ⟨above, below⟩ := inside
  have upper := below _ rfl
  refine ⟨?_, upper⟩
  rw [event, ← append_assoc] at upper
  apply isPrefix_of_le_of_lt
  · rw [append_nil]
    exact above
  · exact upper

end Events

end Remem.Keys
