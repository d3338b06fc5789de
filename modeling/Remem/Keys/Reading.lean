import Remem.Keys.Parse
import Remem.Attr.Value

/-!
# Keys and what they are read as

The other parsers of package `keys`, and for all of them: a parser returns what the key was built
from and accepts nothing else, and one key is the key of one call.
-/

namespace Remem.Keys

open Base List

def parseIn {Parsed : Type} (op what : String) (space : Space)
    (body : TenantId → Namespace → Bytes → Result Parsed) (key : Bytes) : Result Parsed :=
  match parseScope key op with
  | .error fault => .error fault
  | .ok (_, _, []) => corrupt op ("key is not in the " ++ what ++ " space")
  | .ok (tenant, ns, byte :: rest) =>
    if byte ≠ space.byte then corrupt op ("key is not in the " ++ what ++ " space")
    else body tenant ns rest

structure TextKey where
  tenant : TenantId
  namespaceName : Namespace
  term : Bytes
  rid : Id
  deriving DecidableEq

def parseText : Bytes → Result TextKey :=
  parseIn "keys.ParseText" "text" .text fun tenant ns rest =>
    match parseComponent rest "keys.ParseText" "term" with
    | .error fault => .error fault
    | .ok (term, rest) =>
      if rest.length ≠ idLen then
        corrupt "keys.ParseText" "text key ends with %d bytes, want a %d-byte record id"
          [.number rest.length, .number idLen]
      else match Id.fromBytes rest with
        | .error _ => corrupt "keys.ParseText" "text key holds a malformed record id"
        | .ok rid => .ok ⟨tenant, ns, term, rid⟩

structure JobPauseKey where
  tenant : TenantId
  namespaceName : Namespace
  typ : Bytes
  deriving DecidableEq

def parseJobPause : Bytes → Result JobPauseKey :=
  parseIn "keys.ParseJobPause" "job pause" .jobPause fun tenant ns rest =>
    if rest = [] then corrupt "keys.ParseJobPause" "job pause key names no type"
    else .ok ⟨tenant, ns, rest⟩

structure PassageKey where
  tenant : TenantId
  namespaceName : Namespace
  rid : Id
  number : UInt32
  deriving DecidableEq

def parsePassage : Bytes → Result PassageKey :=
  parseIn "keys.ParsePassage" "passage" .passage fun tenant ns rest =>
    if rest.length ≠ idLen + 4 then
      corrupt "keys.ParsePassage" "passage key body is %d bytes, want %d"
        [.number rest.length, .number (idLen + 4 : Nat)]
    else match Id.fromBytes (rest.take idLen) with
      | .error _ => corrupt "keys.ParsePassage" "passage key holds a malformed id"
      | .ok rid => .ok ⟨tenant, ns, rid, (ofBigEndian (rest.drop idLen)).toUInt32⟩

structure JobRunKey where
  tenant : TenantId
  namespaceName : Namespace
  finishedUnixMs : UInt64
  runId : Id
  deriving DecidableEq

def parseJobRun : Bytes → Result JobRunKey :=
  parseIn "keys.ParseJobRun" "job run" .jobRun fun tenant ns rest =>
    if rest.length ≠ 8 + idLen then
      corrupt "keys.ParseJobRun" "job run key body is %d bytes, want %d"
        [.number rest.length, .number (8 + idLen : Nat)]
    else match Id.fromBytes (rest.drop 8) with
      | .error _ => corrupt "keys.ParseJobRun" "job run key holds a malformed id"
      | .ok runId => .ok ⟨tenant, ns, (ofBigEndian (rest.take 8)).toUInt64, runId⟩

def textRecordId (key lower : Bytes) : Result Id :=
  if fits : key.length = lower.length + idLen ∧ key.take lower.length = lower then
    .ok ⟨key.drop lower.length, by rw [length_drop]; omega⟩
  else corrupt "keys.TextRecordID" "a posting inside one term's range belongs to another term"

theorem uvarintLoop_some {bytes : Bytes} {index total number width : Nat}
    (read : uvarintLoop bytes index total = some (number, width)) :
    ∃ value, number = total + value * 128 ^ index ∧ index < width ∧
      (width - index = (appendUvarint value).length →
        ∃ rest, bytes = appendUvarint value ++ rest) := by
  induction bytes generalizing index total with
  | nil => cases read
  | cons byte rest ih =>
    have bound := byte.toNat_lt
    unfold uvarintLoop at read
    split at read
    · cases read
    split at read
    · next low =>
      split at read
      · cases read
      cases read
      have small : byte.toNat < 128 := by simpa [UInt8.lt_iff_toNat_lt] using low
      refine ⟨byte.toNat, rfl, Nat.lt_succ_self _, fun _ => ⟨rest, ?_⟩⟩
      rw [appendUvarint_of_lt small]
      simp
    next high =>
    have large : 128 ≤ byte.toNat := by
      simpa [UInt8.lt_iff_toNat_lt] using high
    obtain ⟨value, isNumber, later, minimal⟩ := ih read
    refine ⟨byte.toNat - 128 + 128 * value, ?_, by omega, ?_⟩
    · rw [isNumber, pow_succ]
      ring
    intro widths
    have wide : 128 ≤ byte.toNat - 128 + 128 * value := by
      by_contra small
      rw [appendUvarint_of_lt (by omega)] at widths
      simp at widths
      omega
    have quotient : (byte.toNat - 128 + 128 * value) / 128 = value := by omega
    have remainder : (byte.toNat - 128 + 128 * value) % 128 + 128 = byte.toNat := by omega
    rw [appendUvarint_of_ge wide, quotient, remainder] at widths ⊢
    obtain ⟨tail, rfl⟩ := minimal (by rw [length_cons] at widths; omega)
    exact ⟨tail, by simp⟩

theorem eq_component_of_parseComponent {key bytes rest : Bytes} {op what : String}
    (parsed : parseComponent key op what = .ok (bytes, rest)) : key = component bytes ++ rest := by
  unfold parseComponent at parsed
  dsimp only at parsed
  split at parsed
  · cases parsed
  next number width read =>
  split at parsed
  · cases parsed
  next minimal =>
  split at parsed
  · cases parsed
  next long =>
  cases parsed
  obtain ⟨value, isNumber, _, same⟩ := uvarintLoop_some read
  rw [zero_add, pow_zero, mul_one] at isNumber
  subst isNumber
  rw [not_not] at minimal
  obtain ⟨tail, rfl⟩ := same minimal
  rw [minimal, drop_left] at long ⊢
  rw [component, length_take, min_eq_left (Nat.not_lt.mp long), append_assoc, take_append_drop]

theorem parseComponent_any {key bytes rest : Bytes} {op what : String} (other otherWhat : String)
    (parsed : parseComponent key op what = .ok (bytes, rest)) :
    parseComponent key other otherWhat = .ok (bytes, rest) := by
  unfold parseComponent at parsed ⊢
  dsimp only at parsed ⊢
  split at parsed
  · cases parsed
  split at parsed
  · cases parsed
  next minimal =>
  split at parsed
  · cases parsed
  next long =>
  rw [if_neg minimal, if_neg long]
  exact parsed

theorem parseScope_some {key rest : Bytes} {tenant : TenantId} {ns : Namespace}
    {op : String} (parsed : parseScope key op = .ok (tenant, ns, rest)) :
    key = scopePrefix tenant ns ++ rest ∧ tenantOf key = some tenant := by
  unfold parseScope at parsed
  cases first : parseComponent key op "tenant" with
  | error fault =>
    rw [first] at parsed
    cases parsed
  | ok read =>
    obtain ⟨owner, middle⟩ := read
    rw [first] at parsed
    cases second : parseComponent middle op "namespace" with
    | error fault =>
      have failed : (parseComponent middle op "namespace" >>= fun rest =>
        (pure (owner, rest.1, rest.2) : Result _)) = _ := parsed
      rw [second] at failed
      cases failed
    | ok last =>
      have succeeded : (parseComponent middle op "namespace" >>= fun rest =>
        (pure (owner, rest.1, rest.2) : Result _)) = _ := parsed
      rw [second] at succeeded
      cases succeeded
      constructor
      · rw [eq_component_of_parseComponent first, eq_component_of_parseComponent second,
          scopePrefix, append_assoc]
      · rw [tenantOf, parseComponent_any "" "tenant" first]

section ParseIn

variable {Parsed : Type} {op what : String} {space : Space}
  {body : TenantId → Namespace → Bytes → Result Parsed}

theorem parseIn_beginKey {tenant : TenantId} {ns : Namespace}
    (tenantFits : tenant.length < 2 ^ 64) (namespaceFits : ns.length < 2 ^ 64)
    (rest : Bytes) : parseIn op what space body (beginKey tenant ns space ++ rest) =
      body tenant ns rest := by
  unfold parseIn beginKey
  rw [append_assoc, parseScope_scopePrefix tenantFits namespaceFits]
  simp

theorem parseIn_ok {key : Bytes} {parsed : Parsed}
    (accepted : parseIn op what space body key = .ok parsed) :
    ∃ tenant ns rest, key = beginKey tenant ns space ++ rest ∧
      tenantOf key = some tenant ∧ body tenant ns rest = .ok parsed := by
  unfold parseIn at accepted
  split at accepted
  · cases accepted
  · cases accepted
  next tenant ns byte rest isScoped =>
  obtain ⟨isKey, owner⟩ := parseScope_some isScoped
  split at accepted
  · cases accepted
  next inSpace =>
  rw [not_not] at inSpace
  refine ⟨tenant, ns, rest, ?_, owner, accepted⟩
  rw [isKey, beginKey, append_assoc, inSpace, singleton_append]

end ParseIn

/-- A parser returns what its builder was given, accepts nothing else, and agrees with `TenantOf`
on whose key it is. -/
structure Inverse {Parsed : Type} (parse : Bytes → Result Parsed) (build : Parsed → Bytes)
    (tenant : Parsed → TenantId) (proper : Parsed → Prop) : Prop where
  back : ∀ parsed, proper parsed → parse (build parsed) = .ok parsed
  only : ∀ key parsed, parse key = .ok parsed →
    key = build parsed ∧ tenantOf key = some (tenant parsed)

def Sized (tenant : TenantId) (ns : Namespace) : Prop :=
  tenant.length < 2 ^ 64 ∧ ns.length < 2 ^ 64

theorem bytes_of_fromBytes {bytes : Bytes} {rid : Id} (read : Id.fromBytes bytes = .ok rid) :
    rid.bytes = bytes := by
  unfold Id.fromBytes at read
  split at read
  · cases read
    rfl
  · cases read

theorem parseRecord_eq (key : Bytes) : parseRecord key = parseIn "keys.ParseRecord" "record" .record
      (fun tenant ns rest =>
        parseRecordBody tenant ns (Space.record.byte :: rest)) key := by
  unfold parseRecord parseIn
  cases parseScope key "keys.ParseRecord" with
  | error fault => rfl
  | ok parsed =>
    obtain ⟨tenant, ns, rest⟩ := parsed
    cases rest with
    | nil => rfl
    | cons byte rest =>
      by_cases inSpace : byte = Space.record.byte
      · simp [inSpace]
      · simp [parseRecordBody, inSpace]

theorem parseJob_eq (key : Bytes) : parseJob key = parseIn "keys.ParseJob" "job" .job
      (fun tenant ns rest =>
        parseJobBody tenant ns (Space.job.byte :: rest)) key := by
  unfold parseJob parseIn
  cases parseScope key "keys.ParseJob" with
  | error fault => rfl
  | ok parsed =>
    obtain ⟨tenant, ns, rest⟩ := parsed
    cases rest with
    | nil => rfl
    | cons byte rest =>
      by_cases inSpace : byte = Space.job.byte
      · simp [inSpace]
      · simp [parseJobBody, inSpace]

theorem parseEvent_eq (key : Bytes) : parseEvent key = parseIn "keys.ParseEvent" "event" .event
      (fun tenant ns rest =>
        parseEventBody tenant ns (Space.event.byte :: rest)) key := by
  unfold parseEvent parseIn
  cases parseScope key "keys.ParseEvent" with
  | error fault => rfl
  | ok parsed =>
    obtain ⟨tenant, ns, rest⟩ := parsed
    cases rest with
    | nil => rfl
    | cons byte rest =>
      by_cases inSpace : byte = Space.event.byte
      · simp [inSpace]
      · simp [parseEventBody, inSpace]

def RecordKey.key (parsed : RecordKey) : Bytes :=
  record parsed.tenant parsed.namespaceName parsed.recordType parsed.rid

def TextKey.key (parsed : TextKey) : Bytes :=
  text parsed.tenant parsed.namespaceName parsed.term parsed.rid

def JobKey.key (parsed : JobKey) : Bytes :=
  job parsed.tenant parsed.namespaceName parsed.state parsed.dueUnixMs parsed.jid

def JobPauseKey.key (parsed : JobPauseKey) : Bytes :=
  jobPause parsed.tenant parsed.namespaceName parsed.typ

def PassageKey.key (parsed : PassageKey) : Bytes :=
  passage parsed.tenant parsed.namespaceName parsed.rid parsed.number

def JobRunKey.key (parsed : JobRunKey) : Bytes :=
  jobRun parsed.tenant parsed.namespaceName parsed.finishedUnixMs parsed.runId

def EventKey.key (parsed : EventKey) : Bytes :=
  event parsed.tenant parsed.namespaceName parsed.subject parsed.tsUnixMs parsed.seq

theorem record_inverse : Inverse parseRecord RecordKey.key RecordKey.tenant
    fun parsed => Sized parsed.tenant parsed.namespaceName where
  back parsed sized := parseRecord_record sized.1 sized.2
  only key parsed accepted := by
    rw [parseRecord_eq] at accepted
    obtain ⟨tenant, ns, rest, rfl, owner, accepted⟩ := parseIn_ok accepted
    simp only [parseRecordBody, ne_eq, not_true_eq_false, if_false] at accepted
    split at accepted
    · cases accepted
    next width =>
    split at accepted
    · cases accepted
    next rid isId =>
    cases accepted
    refine ⟨?_, owner⟩
    cases rest with
    | nil => exact absurd (by decide) width
    | cons byte rest => simp [RecordKey.key, record, bytes_of_fromBytes isId]

theorem job_inverse : Inverse parseJob JobKey.key JobKey.tenant
    fun parsed => Sized parsed.tenant parsed.namespaceName ∧ parsed.state.known = true where
  back parsed proper := parseJob_job proper.1.1 proper.1.2 proper.2 _ _
  only key parsed accepted := by
    rw [parseJob_eq] at accepted
    obtain ⟨tenant, ns, rest, rfl, owner, accepted⟩ := parseIn_ok accepted
    simp only [parseJobBody, ne_eq, not_true_eq_false, if_false] at accepted
    split at accepted
    · cases accepted
    next width =>
    split at accepted
    · cases accepted
    split at accepted
    · cases accepted
    next jid isId =>
    cases accepted
    refine ⟨?_, owner⟩
    cases rest with
    | nil => exact absurd (by decide) width
    | cons byte rest =>
      have long : (rest.take 8).length = 8 := by
        rw [not_not, length_cons] at width
        rw [length_take]
        omega
      have isId : jid.bytes = rest.drop 8 := bytes_of_fromBytes isId
      simp [JobKey.key, job, uint64_toUInt64_ofBigEndian long, isId]

theorem event_inverse : Inverse parseEvent EventKey.key EventKey.tenant
    fun parsed => Sized parsed.tenant parsed.namespaceName where
  back parsed sized := parseEvent_event sized.1 sized.2
  only key parsed accepted := by
    rw [parseEvent_eq] at accepted
    obtain ⟨tenant, ns, rest, rfl, owner, accepted⟩ := parseIn_ok accepted
    simp only [parseEventBody, ne_eq, not_true_eq_false, if_false] at accepted
    split at accepted
    · cases accepted
    next width =>
    rw [not_not] at width
    split at accepted
    · cases accepted
    next subject isId =>
    cases accepted
    refine ⟨?_, owner⟩
    have middle : ((rest.drop idLen).take 8).length = 8 := by
      rw [length_take, length_drop]
      omega
    have last : (rest.drop (idLen + 8)).length = 4 := by
      rw [length_drop]
      omega
    rw [EventKey.key, event, bytes_of_fromBytes isId, uint64_toUInt64_ofBigEndian middle,
      uint32_toUInt32_ofBigEndian last, ← drop_drop, take_append_drop, take_append_drop]

theorem text_inverse : Inverse parseText TextKey.key TextKey.tenant
    fun parsed => Sized parsed.tenant parsed.namespaceName ∧ parsed.term.length < 2 ^ 64 where
  back parsed proper := by
    rw [parseText, TextKey.key, text, parseIn_beginKey proper.1.1 proper.1.2,
      parseComponent_component proper.2]
    simp [parsed.rid.width, fromBytes_bytes]
  only key parsed accepted := by
    obtain ⟨tenant, ns, rest, rfl, owner, accepted⟩ := parseIn_ok accepted
    split at accepted
    · cases accepted
    next term tail isTerm =>
    split at accepted
    · cases accepted
    split at accepted
    · cases accepted
    next rid isId =>
    cases accepted
    refine ⟨?_, owner⟩
    rw [TextKey.key, text, bytes_of_fromBytes isId, eq_component_of_parseComponent isTerm]

theorem jobPause_inverse : Inverse parseJobPause JobPauseKey.key JobPauseKey.tenant
    fun parsed => Sized parsed.tenant parsed.namespaceName ∧ parsed.typ ≠ [] where
  back parsed proper := by
    rw [parseJobPause, JobPauseKey.key, jobPause, parseIn_beginKey proper.1.1 proper.1.2,
      if_neg proper.2]
  only key parsed accepted := by
    obtain ⟨tenant, ns, rest, rfl, owner, accepted⟩ := parseIn_ok accepted
    split at accepted
    · cases accepted
    · cases accepted
      exact ⟨rfl, owner⟩

theorem passage_inverse : Inverse parsePassage PassageKey.key PassageKey.tenant
    fun parsed => Sized parsed.tenant parsed.namespaceName where
  back parsed sized := by
    have narrow : (uint32 parsed.number).length = 4 := length_bigEndian 4 _
    rw [parsePassage, PassageKey.key, passage, parseIn_beginKey sized.1 sized.2]
    simp [parsed.rid.width, narrow, take_left' parsed.rid.width,
      drop_left' parsed.rid.width, fromBytes_bytes, toUInt32_ofBigEndian_uint32]
  only key parsed accepted := by
    obtain ⟨tenant, ns, rest, rfl, owner, accepted⟩ := parseIn_ok accepted
    split at accepted
    · cases accepted
    next width =>
    rw [not_not] at width
    split at accepted
    · cases accepted
    next rid isId =>
    cases accepted
    refine ⟨?_, owner⟩
    have last : (rest.drop idLen).length = 4 := by
      rw [length_drop]
      omega
    rw [PassageKey.key, passage, bytes_of_fromBytes isId, uint32_toUInt32_ofBigEndian last,
      take_append_drop]

theorem jobRun_inverse : Inverse parseJobRun JobRunKey.key JobRunKey.tenant
    fun parsed => Sized parsed.tenant parsed.namespaceName where
  back parsed sized := by
    have wide : (uint64 parsed.finishedUnixMs).length = 8 := length_bigEndian 8 _
    rw [parseJobRun, JobRunKey.key, jobRun, parseIn_beginKey sized.1 sized.2]
    simp [parsed.runId.width, wide, take_left' wide, drop_left' wide, fromBytes_bytes,
      toUInt64_ofBigEndian_uint64]
  only key parsed accepted := by
    obtain ⟨tenant, ns, rest, rfl, owner, accepted⟩ := parseIn_ok accepted
    split at accepted
    · cases accepted
    next width =>
    rw [not_not] at width
    split at accepted
    · cases accepted
    next runId isId =>
    cases accepted
    refine ⟨?_, owner⟩
    have first : (rest.take 8).length = 8 := by
      rw [length_take]
      omega
    rw [JobRunKey.key, jobRun, bytes_of_fromBytes isId, uint64_toUInt64_ofBigEndian first,
      take_append_drop]

theorem textRecordId_iff {key lower : Bytes} {rid : Id} :
    textRecordId key lower = .ok rid ↔ key = lower ++ rid.bytes := by
  constructor
  · intro read
    unfold textRecordId at read
    split at read
    · next fits =>
      cases read
      have whole := take_append_drop lower.length key
      rw [fits.2] at whole
      exact whole.symm
    · cases read
  · rintro rfl
    unfold textRecordId
    rw [dif_pos ⟨by rw [length_append, rid.width], take_left⟩]
    simp

theorem textRecordId_iff_parseText {tenant : TenantId} {ns : Namespace} {term key : Bytes}
    (sized : Sized tenant ns) (fits : term.length < 2 ^ 64) (rid : Id) :
    textRecordId key (textTermRange tenant ns term).lower = .ok rid ↔
      parseText key = .ok ⟨tenant, ns, term, rid⟩ := by
  rw [textRecordId_iff]
  change key = beginKey tenant ns .text ++ component term ++ rid.bytes ↔ _
  rw [append_assoc]
  constructor
  · rintro rfl
    exact text_inverse.back ⟨tenant, ns, term, rid⟩ ⟨sized, fits⟩
  · intro parsed
    exact (text_inverse.only key _ parsed).1

namespace BuilderCall

/-- The call with `RecordChecked` read as `Record`, whose key it returns. -/
def plain : BuilderCall → BuilderCall
  | recordChecked tenant ns recordType rid => record tenant ns recordType rid
  | call => call

/-- A call the rule is about: no system row, and an index value of its slot's type. -/
def Typed (types : UInt16 → Attr.SlotType) : BuilderCall → Prop
  | attrIndex _ _ slot bytes _ =>
    ∃ value : Attr.Value, value.type = types slot ∧ value.orderBytes = bytes
  | system _ => False
  | tokenIndex _ => False
  | _ => True

def remainder : BuilderCall → Bytes
  | record _ _ recordType rid | recordChecked _ _ recordType rid => recordType.byte :: rid.bytes
  | vector _ _ rid | attrRow _ _ rid | session _ _ rid => rid.bytes
  | passage _ _ rid number => rid.bytes ++ uint32 number
  | edgeOut _ _ anchor rel far | edgeIn _ _ anchor rel far =>
    anchor.bytes ++ (uint16 rel.code ++ far.bytes)
  | attrIndex _ _ slot value rid => uint16 slot ++ (value ++ rid.bytes)
  | text _ _ term rid => component term ++ rid.bytes
  | vectorIndex _ _ node => uint64 node
  | job _ _ state due jid => state.byte :: (uint64 due ++ jid.bytes)
  | jobPause _ _ typ => typ
  | jobRun _ _ finished runId => uint64 finished ++ runId.bytes
  | event _ _ subject ts seq => subject.bytes ++ (uint64 ts ++ uint32 seq)
  | system path => path
  | user _ _ uid => UserKind.row.byte :: uid.bytes
  | userToken _ _ tokenId => UserKind.tok.byte :: tokenId.bytes
  | userName _ _ folded => UserKind.names.byte :: folded
  | tokenIndex tokenId => tokenIndexPrefix ++ hexEncode tokenId.bytes

theorem build_eq {call : BuilderCall} {key : Bytes} (built : call.build = .ok key) :
    key = beginKey call.tenant call.namespaceName call.space ++ call.remainder := by
  cases call with
  | recordChecked tenant ns recordType rid =>
    simp only [build, Keys.recordChecked] at built
    cases checked : checkScope tenant ns with
    | error fault =>
      rw [checked] at built
      cases built
    | ok _ =>
      rw [checked] at built
      cases built
      rfl
  | _ =>
    cases built
    rfl

theorem recordType_eq {first second : RecordType} (same : first.byte = second.byte) :
    first = second := by
  obtain ⟨⟨_⟩, ⟨_⟩⟩ := first, second
  exact congrArg RecordType.mk same

theorem jobState_eq {first second : JobState} (same : first.byte = second.byte) :
    first = second := by
  obtain ⟨⟨_⟩, ⟨_⟩⟩ := first, second
  exact congrArg JobState.mk same

theorem plain_eq {types : UInt16 → Attr.SlotType} {first second : BuilderCall}
    (firstTyped : first.Typed types) (secondTyped : second.Typed types)
    (tenants : first.tenant = second.tenant) (names : first.namespaceName = second.namespaceName)
    (spaces : first.space = second.space) (rests : first.remainder = second.remainder) :
    first.plain = second.plain := by
  cases first <;> cases second <;>
    first
    | exact absurd spaces (by simp only [space, scope]; decide)
    | exact firstTyped.elim
    | (cases tenants; cases names; simp only [remainder] at rests)
  case record.record | record.recordChecked | recordChecked.record | recordChecked.recordChecked =>
    obtain ⟨recordTypes, ids⟩ := List.cons.inj rests
    simp only [plain, record.injEq, true_and]
    exact ⟨recordType_eq recordTypes, Id.ext ids⟩
  case vector.vector | attrRow.attrRow | session.session => rw [Id.ext rests]
  case passage.passage =>
    obtain ⟨ids, numbers⟩ := id_selfDelimiting rests
    rw [ids, uint32_selfDelimiting.injective numbers]
  case edgeOut.edgeOut | edgeIn.edgeIn =>
    obtain ⟨anchors, rels, fars⟩ := edge_tail_inj rests
    rw [anchors, rels, fars]
  case attrIndex.attrIndex =>
    obtain ⟨slots, tails⟩ := uint16_selfDelimiting rests
    cases slots
    obtain ⟨firstValue, firstType, rfl⟩ := firstTyped
    obtain ⟨secondValue, secondType, rfl⟩ := secondTyped
    obtain ⟨values, ids⟩ :=
      Attr.Value.orderBytes_append_inj (firstType.trans secondType.symm) tails
    rw [values, Id.ext ids]
  case text.text =>
    obtain ⟨terms, ids⟩ := component_selfDelimiting rests
    rw [terms, Id.ext ids]
  case vectorIndex.vectorIndex => rw [uint64_selfDelimiting.injective rests]
  case job.job =>
    obtain ⟨states, tails⟩ := List.cons.inj rests
    obtain ⟨dues, ids⟩ := uint64_selfDelimiting tails
    rw [jobState_eq states, dues, Id.ext ids]
  case jobPause.jobPause => rw [rests]
  case jobRun.jobRun =>
    obtain ⟨times, ids⟩ := uint64_selfDelimiting rests
    rw [times, Id.ext ids]
  case event.event =>
    obtain ⟨subjects, tails⟩ := id_selfDelimiting rests
    obtain ⟨times, seqs⟩ := uint64_selfDelimiting tails
    rw [subjects, times, uint32_selfDelimiting.injective seqs]
  case user.user | userToken.userToken => rw [Id.ext (List.cons.inj rests).2]
  case userName.userName => rw [(List.cons.inj rests).2]
  -- The rows of users, of tokens and of names begin with three bytes.
  all_goals exact absurd (List.cons.inj rests).1 (by decide)

end BuilderCall

/-- Every parser is the inverse of its builder, a key that is built twice is built by one call, and
the short readers return what the parsers return. -/
theorem keys_parse_back : (Inverse parseRecord RecordKey.key RecordKey.tenant
        (fun parsed => Sized parsed.tenant parsed.namespaceName) ∧
      Inverse parseText TextKey.key TextKey.tenant
        (fun parsed => Sized parsed.tenant parsed.namespaceName ∧ parsed.term.length < 2 ^ 64) ∧
      Inverse parseJob JobKey.key JobKey.tenant
        (fun parsed => Sized parsed.tenant parsed.namespaceName ∧ parsed.state.known = true) ∧
      Inverse parseJobPause JobPauseKey.key JobPauseKey.tenant
        (fun parsed => Sized parsed.tenant parsed.namespaceName ∧ parsed.typ ≠ []) ∧
      Inverse parsePassage PassageKey.key PassageKey.tenant
        (fun parsed => Sized parsed.tenant parsed.namespaceName) ∧
      Inverse parseJobRun JobRunKey.key JobRunKey.tenant
        (fun parsed => Sized parsed.tenant parsed.namespaceName) ∧
      Inverse parseEvent EventKey.key EventKey.tenant
        fun parsed => Sized parsed.tenant parsed.namespaceName) ∧
    (∀ (types : UInt16 → Attr.SlotType) (first second : BuilderCall) (key : Bytes),
      first.Typed types → second.Typed types → first.build = .ok key → second.build = .ok key →
        first.plain = second.plain) ∧
    ∀ (tenant : TenantId) (namespaceName : Namespace) (term key : Bytes) (rid : Id),
      Sized tenant namespaceName → term.length < 2 ^ 64 →
        (textRecordId key (textTermRange tenant namespaceName term).lower = .ok rid ↔
          parseText key = .ok ⟨tenant, namespaceName, term, rid⟩) := by
  refine ⟨⟨record_inverse, text_inverse, job_inverse, jobPause_inverse, passage_inverse,
    jobRun_inverse, event_inverse⟩, ?_, ?_⟩
  · intro types first second key firstTyped secondTyped firstBuilt secondBuilt
    have same := (BuilderCall.build_eq firstBuilt).symm.trans (BuilderCall.build_eq secondBuilt)
    obtain ⟨tenants, names, spaces, rests⟩ := beginKey_append_inj same
    exact BuilderCall.plain_eq firstTyped secondTyped tenants names spaces rests
  · intro tenant namespaceName term key rid sized fits
    exact textRecordId_iff_parseText sized fits rid

theorem keys_parse_back_posting :
    parseText (text (ascii "acme") defaultNamespace (ascii "tea") (Id.filled 7)) =
      .ok ⟨ascii "acme", defaultNamespace, ascii "tea", Id.filled 7⟩ ∧
    (BuilderCall.recordChecked (ascii "acme") defaultNamespace .memory (Id.filled 7)).plain =
      (BuilderCall.record (ascii "acme") defaultNamespace .memory (Id.filled 7)).plain := by
  obtain ⟨⟨_, texts, _⟩, once, _⟩ := keys_parse_back
  exact ⟨texts.back ⟨_, _, _, _⟩ ⟨⟨by decide, by decide⟩, by decide⟩,
    once (fun _ => .bool) _ _ _ trivial trivial rfl rfl⟩

/-- `RecordChecked` is a second builder of the keys of `Record`. -/
theorem record_built_twice :
    (BuilderCall.record (ascii "acme") defaultNamespace .memory Id.zero).build =
        .ok (record (ascii "acme") defaultNamespace .memory Id.zero) ∧
      (BuilderCall.recordChecked (ascii "acme") defaultNamespace .memory Id.zero).build =
        .ok (record (ascii "acme") defaultNamespace .memory Id.zero) ∧
      BuilderCall.record (ascii "acme") defaultNamespace .memory Id.zero ≠
        .recordChecked (ascii "acme") defaultNamespace .memory Id.zero :=
  ⟨rfl, rfl, fun same => by cases same⟩

end Remem.Keys
