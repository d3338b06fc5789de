import Remem.Record.Body
import Remem.Attr.Slots

/-!
# A record read back

What a record's times and its TTL are once the record was stored. The body keeps zero for an
instant that is not set, so an instant of the epoch's millisecond is lost.
-/

namespace Remem

open Remem.Base Remem.Keys Remem.Codec

namespace Time

def cut (time : Time) : Time := .ofUnixMilli time.unixMilli

/-- The instant is unset, or its millisecond is an `int64` that stands for no unset one: not that
of the epoch and not that of the zero time. -/
def Storable (time : Time) : Prop :=
  time = zero ∨ -2 ^ 63 ≤ time.unixMilli ∧ time.unixMilli < 2 ^ 63 ∧ time.unixMilli ≠ 0 ∧
    time.unixMilli ≠ zero.unixMilli

variable {time : Time}

theorem toInt_unixMsBits (time : Time) :
    time.unixMsBits.toInt64.toInt = time.unixMilli.bmod (2 ^ 64) := by
  change (BitVec.ofNat 64 (time.unixMilli % 2 ^ 64).toNat).toInt = _
  rw [BitVec.toInt_ofNat', Int.toNat_of_nonneg (Int.emod_nonneg _ (by decide))]
  exact Int.emod_bmod ..

theorem unixMsBits_eq_zero : time.unixMsBits = 0 ↔ time.unixMilli.bmod (2 ^ 64) = 0 := by
  rw [← toInt_unixMsBits]
  constructor
  · intro isZero
    rw [isZero]
    rfl
  · intro isZero
    exact UInt64.toBitVec_inj.mp (BitVec.toInt_inj.mp isZero)

theorem Storable.ofUnixMs_unixMsBits (storable : time.Storable) :
    ofUnixMs time.unixMsBits = time.cut := by
  obtain rfl | ⟨low, high, nonzero, _⟩ := storable
  · decide
  · have same := @Int.bmod_eq_of_le time.unixMilli (2 ^ 64) (by omega) (by omega)
    rw [ofUnixMs, if_neg (by rwa [unixMsBits_eq_zero, same]), toInt_unixMsBits, same, cut]

theorem Storable.ofUnixMs_storedMs (storable : time.Storable) :
    ofUnixMs time.storedMs = time.cut := by
  unfold storedMs
  split
  · next isZero =>
    rw [of_decide_eq_true isZero]
    decide
  · exact storable.ofUnixMs_unixMsBits

theorem Storable.isZero_cut (storable : time.Storable) : time.cut.isZero = time.isZero := by
  obtain rfl | ⟨_, _, _, apart⟩ := storable
  · rfl
  refine decide_eq_decide.mpr (?_ : @Eq Int time.cut zero ↔ @Eq Int time zero)
  unfold cut ofUnixMilli unixMilli zero at *
  omega

theorem storable_of_unixMsBits (read : ofUnixMs time.unixMsBits = time.cut)
    (kept : time.cut.isZero = time.isZero) : time.Storable := by
  by_cases unset : time = zero
  · exact .inl unset
  have set : time.cut ≠ zero := by
    simpa [isZero, unset] using kept
  have apart : time.unixMilli ≠ zero.unixMilli := fun same => set (by rw [cut, same]; decide)
  unfold ofUnixMs at read
  split at read
  · exact absurd read.symm set
  next nonzero =>
  -- a millisecond that is read back is the one that was stored, so it is an `int64`
  rw [toInt_unixMsBits] at read
  have same : time.unixMilli.bmod (2 ^ 64) = time.unixMilli :=
    Int.eq_of_mul_eq_mul_right (by decide) read
  have low := @Int.le_bmod time.unixMilli (2 ^ 64) (by decide)
  have high := @Int.bmod_lt time.unixMilli (2 ^ 64) (by decide)
  rw [unixMsBits_eq_zero, same] at nonzero
  exact .inr ⟨by omega, by omega, nonzero, apart⟩

theorem storable_of_storedMs (read : ofUnixMs time.storedMs = time.cut)
    (kept : time.cut.isZero = time.isZero) : time.Storable := by
  unfold storedMs at read
  split at read
  · next isZero => exact .inl (of_decide_eq_true isZero)
  · exact storable_of_unixMsBits read kept

theorem optionalMs_getD (time : Time) : time.optionalMs.getD 0 = time.storedMs := by
  unfold optionalMs storedMs
  split <;> rfl

theorem unixMs_eq (time : Time) : Attr.unixMs time = time.toUnixMs := by
  unfold Attr.unixMs
  split
  · next isZero =>
    rw [of_decide_eq_true isZero]
    decide
  · rfl

theorem unixMs_ofUnixMs_unixMsBits (time : Time) :
    Attr.unixMs (ofUnixMs time.unixMsBits) = Attr.unixMs time := by
  rw [unixMs_eq, unixMs_eq]
  unfold ofUnixMs
  split
  · next isZero =>
    rw [toUnixMs, toUnixMs, unixMsBits_eq_zero.mp isZero]
    decide
  have same : ∀ milliseconds, (ofUnixMilli milliseconds).unixMilli = milliseconds := by
    unfold ofUnixMilli unixMilli
    omega
  rw [toUnixMs, toUnixMs, same, toInt_unixMsBits, Int.bmod_bmod]

theorem unixMs_ofUnixMs_storedMs (time : Time) :
    Attr.unixMs (ofUnixMs time.storedMs) = Attr.unixMs time := by
  unfold storedMs
  split
  · next isZero =>
    rw [of_decide_eq_true isZero]
    decide
  · exact unixMs_ofUnixMs_unixMsBits time

end Time

def roundedUp (duration : Int) : Int := (duration + 999999999) / 1000000000 * 1000000000

theorem secondsDuration_wholeSeconds {duration : Int} (nonnegative : 0 ≤ duration)
    (fits : duration ≤ 9223372036000000000) :
    secondsDuration ((wholeSeconds duration).getD 0) = roundedUp duration := by
  have signed : ∀ number : Nat, number < 2 ^ 63 →
      number.toUInt64.toInt64.toInt = (number : Int) := by
    intro number small
    change (BitVec.ofNat 64 number).toInt = number
    rw [BitVec.toInt_ofNat', Int.bmod_eq_of_le] <;> omega
  unfold secondsDuration wholeSeconds roundedUp
  obtain rfl | positive := nonnegative.eq_or_lt
  · decide
  · rw [if_pos positive, Option.getD_some]
    split <;> rw [signed _ (by omega), Int.bmod_eq_of_le] <;> omega

theorem le_of_secondsDuration {duration : Int} {seconds : UInt64}
    (read : secondsDuration seconds = roundedUp duration) : duration ≤ 9223372036000000000 := by
  have high := @Int.bmod_lt (seconds.toInt64.toInt * 1000000000) (2 ^ 64) (by decide)
  unfold secondsDuration roundedUp at read
  omega

theorem Fields.withDefaults_eq (fields : Fields) : ∃ policy importance health,
    fields.withDefaults = { fields with policy, importance, health } ∧ policy.bytes ≠ [] := by
  unfold withDefaults
  split
  · next declared => exact ⟨_, _, _, rfl, declared⟩
  · exact ⟨_, _, _, rfl, by decide⟩

def Fields.stored (fields : Fields) : Fields :=
  { fields.withDefaults with
    archivedAt := fields.archivedAt.cut
    accessedAt := fields.accessedAt.cut
    lastRecalledAt := fields.lastRecalledAt.cut
    nextAttentionAt := fields.nextAttentionAt.cut
    ttl := roundedUp fields.ttl
    protectedUntil := fields.protectedUntil.cut
    lastDecayAt := fields.lastDecayAt.cut
    lastHealthCheckAt := fields.lastHealthCheckAt.cut }

def Record.times (record : Record) : List Time :=
  let fields := record.fields
  [record.createdAt, record.updatedAt, fields.archivedAt, fields.accessedAt, fields.lastRecalledAt,
    fields.nextAttentionAt, fields.protectedUntil, fields.lastDecayAt, fields.lastHealthCheckAt]

namespace RecordCodec

variable {codec : RecordCodec} {record : Record} {value : Bytes} (tenant : TenantId)
  (namespaceName : Namespace) (op : String)

theorem decodeBody_encodeBody (encoded : codec.encodeBody record = .ok value) :
    codec.decodeBody tenant namespaceName record.id value op =
      .ok (ofRow tenant namespaceName record.id value (row record)) := by
  unfold encodeBody marshalRecord at encoded
  split at encoded
  · cases encoded
  next body marshalled =>
  cases encoded
  have header : checkHeaderCodec (headerFor codecProtobuf ++ body) "codec.UnmarshalRecord"
      codecProtobuf = .ok () := rfl
  have rest : (headerFor codecProtobuf ++ body).drop headerLen = body := rfl
  have read : codec.unmarshalRecord (headerFor codecProtobuf ++ body) = .ok (row record) := by
    simp only [unmarshalRecord, header, rest, codec.unmarshal_marshal _ _ marshalled]
    rfl
  rw [decodeBody, read]
  exact if_neg (not_not.mpr rfl)

theorem fields_ofRow : (ofRow tenant namespaceName record.id value (row record)).fields =
      { record.fields.withDefaults with
        archivedAt := .ofUnixMs record.fields.archivedAt.storedMs
        accessedAt := .ofUnixMs record.fields.accessedAt.storedMs
        lastRecalledAt := .ofUnixMs record.fields.lastRecalledAt.storedMs
        nextAttentionAt := .ofUnixMs record.fields.nextAttentionAt.storedMs
        ttl := secondsDuration ((wholeSeconds record.fields.ttl).getD 0)
        protectedUntil := .ofUnixMs record.fields.protectedUntil.storedMs
        lastDecayAt := .ofUnixMs record.fields.lastDecayAt.storedMs
        lastHealthCheckAt := .ofUnixMs record.fields.lastHealthCheckAt.storedMs } := by
  obtain ⟨policy, importance, health, same, declared⟩ := record.fields.withDefaults_eq
  have source : (if record.fields.source ≠ [] then some record.fields.source else none).getD [] =
      record.fields.source := by
    split
    · rfl
    · next isNil => exact (not_not.mp isNil).symm
  simp only [ofRow, row, same, Time.optionalMs_getD, source]
  exact if_pos declared

/-- The record is read back with its instants cut to their milliseconds, set and unset ones alike,
and its TTL rounded up to whole seconds. -/
structure ReadBack (record decoded : Record) : Prop where
  id : decoded.id = record.id
  typ : decoded.typ = record.typ
  content : decoded.content = record.content
  createdAt : decoded.createdAt = record.createdAt.cut
  updatedAt : decoded.updatedAt = record.updatedAt.cut
  fields : decoded.fields = record.fields.stored
  kept : ∀ time ∈ record.times, time.cut.isZero = time.isZero
  unlimited : decoded.fields.ttl = 0 ↔ record.fields.ttl = 0
  longer : record.fields.ttl ≤ decoded.fields.ttl
  rounded : decoded.fields.ttl < record.fields.ttl + 1000000000
  whole : 1000000000 ∣ decoded.fields.ttl

theorem readBack_ofRow (nonnegative : 0 ≤ record.fields.ttl) :
    ReadBack record (ofRow tenant namespaceName record.id value (row record)) ↔
      (∀ time ∈ record.times, time.Storable) ∧ record.fields.ttl ≤ 9223372036000000000 := by
  have isStored := @fields_ofRow record value tenant namespaceName
  constructor
  · intro back
    have same := back.fields
    have kept := back.kept
    rw [isStored] at same
    simp only [Fields.stored, Fields.mk.injEq] at same
    simp only [Record.times, List.forall_mem_cons] at kept ⊢
    obtain ⟨created, updated, archived, accessed, recalled, attention, guard, decay, health, _⟩ :=
      kept
    refine ⟨⟨Time.storable_of_unixMsBits back.createdAt created,
      Time.storable_of_unixMsBits back.updatedAt updated,
      Time.storable_of_storedMs (by simp [same]) archived,
      Time.storable_of_storedMs (by simp [same]) accessed,
      Time.storable_of_storedMs (by simp [same]) recalled,
      Time.storable_of_storedMs (by simp [same]) attention,
      Time.storable_of_storedMs (by simp [same]) guard,
      Time.storable_of_storedMs (by simp [same]) decay,
      Time.storable_of_storedMs (by simp [same]) health, nofun⟩, ?_⟩
    exact @le_of_secondsDuration _ ((wholeSeconds record.fields.ttl).getD 0) (by simp [same])
  · rintro ⟨storable, fits⟩
    have each := storable
    simp only [Record.times, List.forall_mem_cons] at each
    obtain ⟨created, updated, archived, accessed, recalled, attention, guard, decay, health, _⟩ :=
      each
    rw [archived.ofUnixMs_storedMs, accessed.ofUnixMs_storedMs, recalled.ofUnixMs_storedMs,
      attention.ofUnixMs_storedMs, guard.ofUnixMs_storedMs, decay.ofUnixMs_storedMs,
      health.ofUnixMs_storedMs, secondsDuration_wholeSeconds nonnegative fits] at isStored
    refine ⟨rfl, by simp [ofRow, row], rfl, created.ofUnixMs_unixMsBits,
      updated.ofUnixMs_unixMsBits, isStored, fun time listed => (storable time listed).isZero_cut,
      ?_, ?_, ?_, ?_⟩ <;> simp only [isStored, roundedUp] <;> omega

/-- A record with no negative TTL is read back as it was written exactly where its instants are
storable and its TTL rounds up to a duration. Any record is read back with the attribute row it
had. -/
theorem record_read_back (encoded : codec.encodeBody record = .ok value)
    (nonnegative : 0 ≤ record.fields.ttl) :
    ∃ decoded, codec.decodeBody tenant namespaceName record.id value op = .ok decoded ∧
      (ReadBack record decoded ↔
        (∀ time ∈ record.times, time.Storable) ∧ record.fields.ttl ≤ 9223372036000000000) ∧
      Attr.project decoded = Attr.project record := by
  refine ⟨_, decodeBody_encodeBody tenant namespaceName op encoded,
    readBack_ofRow tenant namespaceName nonnegative, ?_⟩
  obtain ⟨policy, importance, health, same, declared⟩ := record.fields.withDefaults_eq
  have isStored := @fields_ofRow record value tenant namespaceName
  have again : ∀ fields : Fields, fields.policy = policy → fields.withDefaults = fields := by
    rintro fields rfl
    exact if_pos declared
  rw [same] at isStored
  rw [Attr.project, Attr.project, Attr.projected, Attr.projected, isStored, again _ rfl, same]
  simp only [Time.unixMs_ofUnixMs_storedMs, ofRow, row, Time.unixMs_ofUnixMs_unixMsBits]

def youngRecord (archivedAt : Time) (ttl : Int) : Record where
  fields :=
    { policy := defaultPolicy, importance := 0, health := 0, valence := 0, arousal := 0
      accessedAt := .zero, accessCount := 0, lastRecalledAt := .zero, nextAttentionAt := .zero
      archivedAt, ttl }
  createdAt := 1500000
  updatedAt := 1500000

/-- The theorem at an instant before the epoch and a TTL of a second and a half. -/
theorem record_read_back_young : ∃ value decoded,
    plain.encodeBody (youngRecord (-1) 1500000000) = .ok value ∧
      plain.decodeBody [] [] .zero value "" = .ok decoded ∧
      decoded.fields = (youngRecord (-1) 1500000000).fields.stored := by
  obtain ⟨value, encoded⟩ : ∃ value,
      plain.encodeBody (youngRecord (-1) 1500000000) = .ok value := ⟨_, rfl⟩
  obtain ⟨decoded, read, back, _⟩ := record_read_back [] [] "" encoded (by decide)
  have storable : ∀ time ∈ (youngRecord (-1) 1500000000).times, time.Storable := by
    unfold Time.Storable
    decide
  exact ⟨value, decoded, encoded, read, (back.mpr ⟨storable, by decide⟩).fields⟩

/-- A record archived at the epoch is read back as never archived, and the longest TTL as one that
is over. -/
theorem epoch_read_back_unset : ∃ value decoded,
    plain.encodeBody (youngRecord 0 9223372036854775807) = .ok value ∧
      plain.decodeBody [] [] .zero value "" = .ok decoded ∧
      decoded.fields.archivedAt = .zero ∧ decoded.fields.ttl = -9223372036709551616 := by
  obtain ⟨value, encoded⟩ : ∃ value,
      plain.encodeBody (youngRecord 0 9223372036854775807) = .ok value := ⟨_, rfl⟩
  refine ⟨value, _, encoded, decodeBody_encodeBody [] [] "" encoded, ?_⟩
  rw [fields_ofRow]
  decide

end RecordCodec

end Remem
