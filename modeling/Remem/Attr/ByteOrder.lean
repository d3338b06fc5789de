import Remem.Attr.Value
import Remem.Base.Binary64
import Remem.Keys.Parse

/-!
# Byte order is value order

The signed and double-precision encoders, and the law every encoder of the package
keeps: values compare as their bytes do whatever follows them, and read back from in
front of it. Attribute values and the scans up to a time rest on that law.
-/

namespace Remem.Keys

open Base List

def signBit64 : UInt64 := 0x8000000000000000

def putInt64 (value : Int64) : Bytes := uint64 (value.toUInt64 ^^^ signBit64)

def getInt64 (bytes : Bytes) : Result (Int64 × Bytes) :=
  if bytes.length < 8 then .error (short "keys.GetInt64" 8 bytes.length)
  else .ok (((ofBigEndian (bytes.take 8)).toUInt64 ^^^ signBit64).toInt64, bytes.drop 8)

def orderFloat64 (bits : UInt64) : UInt64 :=
  if bits &&& signBit64 ≠ 0 then ~~~bits else bits ||| signBit64

def unorderFloat64 (bits : UInt64) : UInt64 :=
  if bits &&& signBit64 ≠ 0 then bits &&& ~~~signBit64 else ~~~bits

/-- `PutFloat64` of the number with the given bits. -/
def putFloat64 (bits : UInt64) : Bytes := uint64 (orderFloat64 bits)

def getFloat64 (bytes : Bytes) : Result (UInt64 × Bytes) :=
  if bytes.length < 8 then .error (short "keys.GetFloat64" 8 bytes.length)
  else .ok (unorderFloat64 (ofBigEndian (bytes.take 8)).toUInt64, bytes.drop 8)

theorem and_signBit64_ne_zero_iff (bits : UInt64) :
    bits &&& signBit64 ≠ 0 ↔ 2 ^ 63 ≤ bits.toNat := by
  have bound := bits.toNat_lt
  rw [← UInt64.toNat_inj.ne, UInt64.toNat_and]
  change bits.toNat &&& 2 ^ 63 ≠ 0 ↔ _
  rw [Nat.and_two_pow, Nat.testBit_eq_decide_div_mod_eq]
  by_cases set : bits.toNat / 2 ^ 63 % 2 = 1 <;> simp <;> omega

theorem toNat_or_signBit64 {bits : UInt64} (positive : bits.toNat < 2 ^ 63) :
    (bits ||| signBit64).toNat = bits.toNat + 2 ^ 63 := by
  have split := Nat.two_pow_add_eq_or_of_lt positive 1
  rw [UInt64.toNat_or, Nat.or_comm]
  change 2 ^ 63 ||| bits.toNat = _
  rw [Nat.add_comm, ← Nat.mul_one (2 ^ 63), split]

theorem toNat_xor_signBit64 (bits : UInt64) :
    (bits ^^^ signBit64).toNat = (bits.toNat + 2 ^ 63) % 2 ^ 64 := by
  have bound := bits.toNat_lt
  rw [UInt64.toNat_xor]
  change bits.toNat ^^^ 2 ^ 63 = _
  -- the bit at the top changes, and the bits under it stay
  have top : (bits.toNat ^^^ 2 ^ 63) / 2 ^ 63 = _ := Nat.xor_div_two_pow
  have rest : (bits.toNat ^^^ 2 ^ 63) % 2 ^ 63 = _ := Nat.xor_mod_two_pow
  rw [Nat.mod_self, Nat.xor_zero] at rest
  have cases : bits.toNat / 2 ^ 63 = 0 ∨ bits.toNat / 2 ^ 63 = 1 := by omega
  rcases cases with positive | negative
  · rw [positive, Nat.div_self (by decide)] at top
    change _ = 1 at top
    omega
  rw [negative, Nat.div_self (by decide)] at top
  change _ = 0 at top
  omega

theorem toNat_signed (value : Int64) :
    ((value.toUInt64 ^^^ signBit64).toNat : Int) = value.toInt + 2 ^ 63 := by
  have bound := value.toUInt64.toNat_lt
  have signed : value.toInt = if 2 * value.toUInt64.toNat < 2 ^ 64 then
      (value.toUInt64.toNat : Int) else (value.toUInt64.toNat : Int) - (2 ^ 64 : Nat) :=
    BitVec.toInt_eq_toNat_cond value.toBitVec
  rw [toNat_xor_signBit64, signed]
  split <;> omega

theorem toNat_orderFloat64 (bits : UInt64) : (orderFloat64 bits).toNat =
      if 2 ^ 63 ≤ bits.toNat then 2 ^ 64 - 1 - bits.toNat else bits.toNat + 2 ^ 63 := by
  rw [orderFloat64]
  simp only [and_signBit64_ne_zero_iff]
  split
  · exact UInt64.toNat_not bits
  · next positive => exact toNat_or_signBit64 (not_le.mp positive)

theorem unorderFloat64_orderFloat64 (bits : UInt64) :
    unorderFloat64 (orderFloat64 bits) = bits := by
  have bound := bits.toNat_lt
  have ordered := toNat_orderFloat64 bits
  apply UInt64.toNat_inj.mp
  rw [unorderFloat64]
  simp only [and_signBit64_ne_zero_iff]
  by_cases negative : 2 ^ 63 ≤ bits.toNat
  · rw [if_pos negative] at ordered
    rw [if_neg (by omega), UInt64.toNat_not, ordered]
    change 2 ^ 64 - 1 - (2 ^ 64 - 1 - bits.toNat) = _
    omega
  rw [if_neg negative] at ordered
  rw [if_pos (by omega), UInt64.toNat_and, ordered]
  change (bits.toNat + 2 ^ 63) &&& (2 ^ 63 - 1) = _
  rw [Nat.and_two_pow_sub_one_eq_mod]
  omega

/-- What one pair of `Put` and `Get` keeps, for values compared by `less`. -/
structure OrderCode {Value : Type} (less : Value → Value → Prop) (put : Value → Bytes)
    (get : Bytes → Result (Value × Bytes)) : Prop where
  ordered : ∀ first second, less first second → ∀ firstTail secondTail,
    put first ++ firstTail < put second ++ secondTail
  read : ∀ value tail, get (put value ++ tail) = .ok (value, tail)
  answers : ∀ bytes, (∃ value rest, get bytes = .ok (value, rest) ∧ rest <:+ bytes) ∨
    ∃ fault, get bytes = .error fault ∧ fault.kind = .corruption

/-- Numbers other than NaN, with negative zero below positive zero. -/
def below32 (first second : UInt32) : Prop :=
  Binary32.isNaN first = false ∧ Binary32.isNaN second = false ∧
    (Binary32.rank first < Binary32.rank second ∨ first = 0x80000000 ∧ second = 0)

def below64 (first second : UInt64) : Prop :=
  Binary64.isNaN first = false ∧ Binary64.isNaN second = false ∧
    (Binary64.rank first < Binary64.rank second ∨ first = 0x8000000000000000 ∧ second = 0)

theorem answers_fixed {Value : Type} {get : Bytes → Result (Value × Bytes)} (width : Nat)
    (op : String) (decode : Bytes → Value)
    (defined : ∀ bytes, get bytes =
      if bytes.length < width then .error (short op width bytes.length)
      else .ok (decode bytes, bytes.drop width)) (bytes : Bytes) :
    (∃ value rest, get bytes = .ok (value, rest) ∧ rest <:+ bytes) ∨
      ∃ fault, get bytes = .error fault ∧ fault.kind = .corruption := by
  rw [defined]
  split
  · exact .inr ⟨_, rfl, rfl⟩
  · exact .inl ⟨_, _, rfl, drop_suffix _ _⟩

theorem uint8_code : OrderCode (· < ·) putUint8 getUint8 where
  ordered _ _ smaller := putUint8_order smaller
  read _ _ := rfl
  answers bytes := by
    cases bytes with
    | nil => exact .inr ⟨_, rfl, rfl⟩
    | cons byte rest => exact .inl ⟨_, _, rfl, suffix_cons _ _⟩

theorem uint32_code : OrderCode (· < ·) putUint32 getUint32 where
  ordered _ _ smaller := putUint32_order smaller
  read := Attr.getUint32_append
  answers := answers_fixed 4 _ _ fun _ => rfl

theorem uint64_code : OrderCode (· < ·) putUint64 getUint64 where
  ordered _ _ smaller := putUint64_order smaller
  read := Attr.getUint64_append
  answers := answers_fixed 8 _ _ fun _ => rfl

theorem read_word {Value : Type} (decode : UInt64 → Value) (get : Bytes → Result (Value × Bytes))
    (op : String) (defined : ∀ bytes, get bytes =
      if bytes.length < 8 then .error (short op 8 bytes.length)
      else .ok (decode (ofBigEndian (bytes.take 8)).toUInt64, bytes.drop 8))
    (word : UInt64) (tail : Bytes) : get (uint64 word ++ tail) = .ok (decode word, tail) := by
  have read := Attr.getUint64_append word tail
  rw [getUint64] at read
  rw [defined]
  split at read
  · cases read
  next long =>
  rw [if_neg long]
  obtain ⟨number, rest⟩ := Prod.mk.inj (Except.ok.inj read)
  rw [number, rest]

theorem int64_code : OrderCode (· < ·) putInt64 getInt64 where
  ordered first second smaller := by
    apply putUint64_order
    have signed : first.toInt < second.toInt := Int64.lt_iff_toInt_lt.mp smaller
    rw [UInt64.lt_iff_toNat_lt]
    have firstPlace := toNat_signed first
    have secondPlace := toNat_signed second
    omega
  read value tail := by
    rw [putInt64, read_word (fun word => (word ^^^ signBit64).toInt64) getInt64 _ fun _ => rfl,
      UInt64.xor_assoc, UInt64.xor_self, UInt64.xor_zero]
    rfl
  answers := answers_fixed 8 _ _ fun _ => rfl

theorem bool_code : OrderCode (· < ·) putBool getBool where
  ordered _ _ smaller := putBool_order smaller
  read value _ := by cases value <;> rfl
  answers bytes := by
    cases bytes with
    | nil => exact .inr ⟨_, rfl, rfl⟩
    | cons byte rest =>
      rw [getBool]
      split
      · exact .inl ⟨_, _, rfl, suffix_cons _ _⟩
      split
      · exact .inl ⟨_, _, rfl, suffix_cons _ _⟩
      · exact .inr ⟨_, rfl, rfl⟩

theorem float32_code : OrderCode below32 putFloat32 getFloat32 where
  ordered first second smaller firstTail secondTail := by
    obtain ⟨_, _, ranks | ⟨rfl, rfl⟩⟩ := smaller
    · exact putFloat32_order ranks _ _
    · exact putUint32_order (by decide) _ _
  read := Attr.getFloat32_append
  answers := answers_fixed 4 _ _ fun _ => rfl

theorem float64_code : OrderCode below64 putFloat64 getFloat64 where
  ordered first second smaller := by
    apply putUint64_order
    have firstBound := first.toNat_lt
    have secondBound := second.toNat_lt
    obtain ⟨_, _, ranks | ⟨rfl, rfl⟩⟩ := smaller
    · simp only [Binary64.rank, Binary64.magnitude] at ranks
      rw [UInt64.lt_iff_toNat_lt, toNat_orderFloat64, toNat_orderFloat64]
      split at ranks <;> split at ranks <;> split <;> omega
    · decide
  read bits tail := by
    rw [putFloat64, read_word unorderFloat64 getFloat64 _ fun _ => rfl, unorderFloat64_orderFloat64]
  answers := answers_fixed 8 _ _ fun _ => rfl

theorem getString_cons {byte : UInt8} (notZero : byte ≠ 0) (rest : Bytes) :
    getString (byte :: rest) = (do
      let (text, after) ← getString rest
      return (byte :: text, after)) := by
  rw [getString.eq_def]
  exact if_pos notZero

theorem getString_putString (text tail : Bytes) :
    getString (putString text ++ tail) = .ok (text, tail) := by
  induction text with
  | nil => rfl
  | cons byte rest ih =>
    by_cases zero : byte = 0
    · subst zero
      simp [putString, getString, ih, bind, Except.bind, pure, Except.pure]
    · rw [putString, if_neg zero, cons_append, getString_cons zero, ih]
      rfl

theorem getString_answers (bytes : Bytes) :
    (∃ text rest, getString bytes = .ok (text, rest) ∧ rest <:+ bytes) ∨
      ∃ fault, getString bytes = .error fault ∧ fault.kind = .corruption := by
  induction bytes using getString.induct with
  | case1 => exact .inr ⟨_, rfl, rfl⟩
  | case2 byte rest notZero ih =>
    rw [getString_cons notZero]
    obtain ⟨text, after, read, ends⟩ | ⟨fault, refused, kind⟩ := ih
    · rw [read]
      exact .inl ⟨_, _, rfl, ends.trans (suffix_cons _ _)⟩
    · rw [refused]
      exact .inr ⟨_, rfl, kind⟩
  | case3 byte zero =>
    rw [getString, if_neg zero]
    exact .inr ⟨_, rfl, rfl⟩
  | case4 byte zero after =>
    rw [getString, if_neg zero]
    exact .inl ⟨_, _, if_pos rfl, (suffix_cons _ _).trans (suffix_cons _ _)⟩
  | case5 byte zero after notZero ih =>
    rw [getString, if_neg zero]
    obtain ⟨text, rest, read, ends⟩ | ⟨fault, refused, kind⟩ := ih
    · refine .inl ⟨0x00 :: text, rest, ?_, ends.trans ?_⟩
      · simp [read, bind, Except.bind, pure, Except.pure]
      · exact (suffix_cons _ _).trans (suffix_cons _ _)
    · exact .inr ⟨fault, by simp [refused, bind, Except.bind], kind⟩
  | case6 byte zero next after notZero notEscape =>
    rw [getString, if_neg zero]
    simp only [if_neg notZero, if_neg notEscape]
    exact .inr ⟨_, rfl, rfl⟩

theorem string_code : OrderCode (· < ·) putString getString where
  ordered _ _ smaller := putString_order smaller
  read := getString_putString
  answers := getString_answers

def jobRunRange (tenant : TenantId) (ns : Namespace) : KeyRange :=
  spaceRange tenant ns .jobRun

/-- `JobRunBeforeRange`, bounded as `JobDueRange` is. -/
def jobRunBeforeRange (tenant : TenantId) (ns : Namespace) (finishedUnixMs : UInt64) : KeyRange :=
  if finishedUnixMs = 0xFFFFFFFFFFFFFFFF then jobRunRange tenant ns
  else ⟨(jobRunRange tenant ns).lower, some (jobRun tenant ns (finishedUnixMs + 1) Id.zero)⟩

section Scans

variable (tenant : TenantId) (ns : Namespace) (bound : UInt64)

theorem contains_jobRunBeforeRange_iff : (∀ key, (jobRunBeforeRange tenant ns bound).Contains key →
      beginKey tenant ns .jobRun <+: key) ∧
    ∀ otherTenant otherNamespace time rid, (jobRunBeforeRange tenant ns bound).Contains
          (jobRun otherTenant otherNamespace time rid) ↔
        (otherTenant = tenant ∧ otherNamespace = ns) ∧ time ≤ bound := by
  obtain ⟨inside, upTo⟩ := contains_upTo (jobRunBeforeRange tenant ns bound)
    (beginKey tenant ns .jobRun) bound (fun last => if_pos last)
    (fun cut => if_neg cut)
  refine ⟨inside, fun otherTenant otherNamespace time rid => ?_⟩
  constructor
  · intro contained
    obtain ⟨rest, begins⟩ := inside _ contained
    obtain ⟨rfl, rfl, _, _⟩ := beginKey_append_inj begins
    exact ⟨⟨rfl, rfl⟩, (upTo time rid).mp contained⟩
  · rintro ⟨⟨rfl, rfl⟩, early⟩
    exact (upTo time rid).mpr early

end Scans

end Remem.Keys

namespace Remem.Attr

open Base Keys

/-- The bytewise comparison that `bytes.Compare` makes. -/
def compareBytes (first second : Bytes) : Ordering :=
  if first < second then .lt else if second < first then .gt else .eq

theorem Value.compare_eq_compareBytes {first second : Value} (types : first.type = second.type) :
    first.compare second = compareBytes first.orderBytes second.orderBytes := by
  have compared := Value.compared types
  generalize first.compare second = ordering at compared
  rw [compareBytes]
  cases compared with
  | less bytes =>
    have less := bytes [] []
    rw [List.append_nil, List.append_nil] at less
    rw [if_pos less]
  | same equal => rw [equal, if_neg (lt_irrefl _), if_neg (lt_irrefl _)]
  | greater bytes =>
    have less := bytes [] []
    rw [List.append_nil, List.append_nil] at less
    rw [if_neg less.asymm, if_pos less]

/-- Every encoder of keys keeps order in front of any tail and reads back; so attribute
values of one type compare as their bytes, numbers made from any 32 bits included, and
the scans up to a time hold the keys of their scope up to and with that time. -/
theorem byte_order_is_value_order :
    (OrderCode (· < ·) putUint8 getUint8 ∧ OrderCode (· < ·) putUint32 getUint32 ∧
      OrderCode (· < ·) putUint64 getUint64 ∧ OrderCode (· < ·) putInt64 getInt64 ∧
      OrderCode (· < ·) putBool getBool ∧ OrderCode below32 putFloat32 getFloat32 ∧
      OrderCode below64 putFloat64 getFloat64 ∧ OrderCode (· < ·) putString getString) ∧
    (∀ first second : Value, first.type = second.type →
      first.compare second = compareBytes first.orderBytes second.orderBytes) ∧
    (∀ first second : UInt32, (Value.ofFloat32 first).compare (.ofFloat32 second) =
      compareBytes (Value.ofFloat32 first).orderBytes (Value.ofFloat32 second).orderBytes) ∧
    ∀ (tenant : TenantId) (namespaceName : Namespace) (bound : UInt64),
      (∀ state, (∀ key, (jobDueRange tenant namespaceName state bound).Contains key →
          beginKey tenant namespaceName .job ++ [state.byte] <+: key) ∧
        ∀ otherTenant otherNamespace otherState time rid,
          (jobDueRange tenant namespaceName state bound).Contains
              (job otherTenant otherNamespace otherState time rid) ↔
            (otherTenant = tenant ∧ otherNamespace = namespaceName ∧ otherState = state) ∧
              time ≤ bound) ∧
      (∀ key, (jobRunBeforeRange tenant namespaceName bound).Contains key →
        beginKey tenant namespaceName .jobRun <+: key) ∧
      ∀ otherTenant otherNamespace time rid, (jobRunBeforeRange tenant namespaceName bound).Contains
            (jobRun otherTenant otherNamespace time rid) ↔
          (otherTenant = tenant ∧ otherNamespace = namespaceName) ∧ time ≤ bound :=
  ⟨⟨uint8_code, uint32_code, uint64_code, int64_code, bool_code, float32_code, float64_code,
    string_code⟩, fun _ _ => Value.compare_eq_compareBytes,
    fun _ _ => Value.compare_eq_compareBytes rfl,
    fun tenant namespaceName bound => ⟨contains_jobDueRange_iff tenant namespaceName bound,
      contains_jobRunBeforeRange_iff tenant namespaceName bound⟩⟩

end Remem.Attr
