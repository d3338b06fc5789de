import Remem.Base.Slices
import Remem.Errs

/-!
# The rows of the text index

A posting, the terms of one record and the statistics of a corpus as varints. The term row's
decoder answers nothing where the source panics.
-/

namespace Remem.Text

open Base List

structure Posting where
  termFreq : UInt32
  docLen : UInt32

def encodePosting (posting : Posting) : Bytes :=
  appendUvarint posting.termFreq.toNat ++ appendUvarint posting.docLen.toNat

def decodePosting (bytes : Bytes) : Result Posting :=
  let bad (text : String) : Result Posting := .error ⟨.corruption, "text.decodePosting", text, []⟩
  match uvarint bytes with
  | none => bad "a posting carries no term frequency"
  | some (tf, n) =>
    match uvarint (bytes.drop n) with
    | none => bad "a posting carries no document length"
    | some (length, _) => .ok ⟨tf.toUInt32, length.toUInt32⟩

structure DocRow where
  docLen : UInt32
  terms : List Bytes

/-- `slices.Compact`. -/
def compact : List Bytes → List Bytes
  | first :: second :: rest =>
    if first = second then compact (second :: rest) else first :: compact (second :: rest)
  | terms => terms

def DocRow.stored (row : DocRow) : List Bytes := compact (row.terms.mergeSort (· ≤ ·))

def encodeTerms (terms : List Bytes) : Bytes :=
  terms.flatMap fun term => appendUvarint term.length ++ term

def encodeDocRow (row : DocRow) : Bytes :=
  appendUvarint row.docLen.toNat ++ appendUvarint row.stored.length ++ encodeTerms row.stored

/-- The most strings that a slice holds: 16 bytes each, in an address space of 2^48. Memory may
hold fewer. -/
def maxStrings : Nat := 2 ^ 44

def badRow (what : String) : Fault :=
  ⟨.corruption, "text.decodeDocRow", "a record's term row " ++ what, []⟩

/-- The loop of `decodeDocRow`. -/
def decodeTerms : (count : Nat) → Bytes → Result (List Bytes)
  | 0, _ => .ok []
  | count + 1, bytes =>
    match uvarint bytes with
    | none => .error (badRow "ends inside a term length")
    | some (size, n) =>
      let bytes := bytes.drop n
      if bytes.length < size then .error (badRow "ends inside a term")
      else (decodeTerms count (bytes.drop size)).map (bytes.take size :: ·)

/-- With memory for `most` strings. -/
def decodeDocRow (most : Nat) (bytes : Bytes) : Option (Result DocRow) :=
  match uvarint bytes with
  | none => some (.error (badRow "carries no document length"))
  | some (length, n) =>
    let bytes := bytes.drop n
    match uvarint bytes with
    | none => some (.error (badRow "carries no term count"))
    | some (count, n) =>
      -- `make([]string, 0, count)`
      if most < count then none
      else some ((decodeTerms count (bytes.drop n)).map fun terms => ⟨length.toUInt32, terms⟩)

structure Stats where
  documents : UInt64
  totalLength : UInt64
  rebuilding : Bool

def encodeStats (stats : Stats) : Bytes :=
  appendUvarint stats.documents.toNat ++ appendUvarint stats.totalLength.toNat ++
    [if stats.rebuilding then 1 else 0]

def decodeStats (bytes : Bytes) : Result Stats :=
  let bad (what : String) : Result Stats :=
    .error ⟨.corruption, "text.decodeStats", "the corpus statistics row " ++ what, []⟩
  match uvarint bytes with
  | none => bad "carries no document count"
  | some (docs, n) =>
    let bytes := bytes.drop n
    match uvarint bytes with
    | none => bad "carries no total length"
    | some (total, n) =>
      match bytes.drop n with
      | [] => bad "carries no rebuild marker"
      | marker :: _ => .ok ⟨docs.toUInt64, total.toUInt64, marker = 1⟩

def leading (bytes : Bytes) : Option (Nat × Nat × Bytes) := do
  let (first, n) ← uvarint bytes
  let (second, m) ← uvarint (bytes.drop n)
  return (first, second, (bytes.drop n).drop m)

/-- The terms stand at the head of the bytes, each after its length. -/
def Holds : List Bytes → Bytes → Prop
  | [], _ => True
  | term :: terms, bytes => ∃ n, uvarint bytes = some (term.length, n) ∧
      (bytes.drop n).take term.length = term ∧ Holds terms ((bytes.drop n).drop term.length)

/-- The decoder answers a corruption, or a value with what the bytes hold. -/
def Reads {Value : Type} (result : Result Value) (holds : Value → Prop) : Prop :=
  match result with
  | .error fault => fault.kind = .corruption
  | .ok value => holds value

theorem decodeTerms_reads (count : Nat) (bytes : Bytes) :
    Reads (decodeTerms count bytes) fun terms => terms.length = count ∧ Holds terms bytes := by
  induction count generalizing bytes with
  | zero => exact ⟨rfl, trivial⟩
  | succ count ih =>
    unfold decodeTerms
    split
    · rfl
    next size n read =>
    dsimp only
    split
    · rfl
    next long =>
    have rest := ih ((bytes.drop n).drop size)
    have exact : ((bytes.drop n).take size).length = size :=
      length_take_of_le (not_lt.mp long)
    cases decoded : decodeTerms count ((bytes.drop n).drop size) with
    | error fault =>
      rw [decoded] at rest
      exact rest
    | ok terms =>
      rw [decoded] at rest
      refine ⟨congrArg Nat.succ rest.1, n, ?_, ?_, ?_⟩
      all_goals rw [exact]
      exacts [read, rest.2]

theorem decodeTerms_encodeTerms (terms : List Bytes)
    (sized : ∀ term ∈ terms, term.length < 2 ^ 63) :
    decodeTerms terms.length (encodeTerms terms) = .ok terms := by
  induction terms with
  | nil => rfl
  | cons term terms ih =>
    have fits := sized term mem_cons_self
    have rest := ih (forall_mem_of_forall_mem_cons sized)
    simp only [length_cons, decodeTerms, encodeTerms, flatMap_cons, append_assoc]
    rw [uvarint_append (by omega)]
    rw [encodeTerms] at rest
    simp [rest, Except.map]

theorem mem_compact (terms : List Bytes) (term : Bytes) : term ∈ compact terms ↔ term ∈ terms := by
  fun_induction compact terms with grind

theorem length_compact_le (terms : List Bytes) : (compact terms).length ≤ terms.length := by
  fun_induction compact terms with grind

theorem sorted_compact {terms : List Bytes} (sorted : terms.Pairwise (· ≤ ·)) :
    (compact terms).Pairwise (· < ·) := by
  fun_induction compact terms with
  | case1 first rest ih => exact ih sorted.of_cons
  | case2 first second rest apart ih =>
    refine pairwise_cons.mpr ⟨fun term listed => ?_, ih sorted.of_cons⟩
    obtain ⟨below, later⟩ := pairwise_cons.mp sorted
    have least := lt_of_le_of_ne (below second mem_cons_self) apart
    rcases mem_cons.mp ((mem_compact _ _).mp listed) with rfl | listed
    · exact least
    · exact least.trans_le ((pairwise_cons.mp later).1 term listed)
  | case3 terms short => rcases terms with _ | ⟨first, _ | ⟨second, rest⟩⟩ <;> simp_all

theorem stored_spec (row : DocRow) :
    row.stored.Pairwise (· < ·) ∧ ∀ term, term ∈ row.stored ↔ term ∈ row.terms := by
  refine ⟨sorted_compact ?_, fun term => (mem_compact _ _).trans (mem_mergeSort)⟩
  have sorted := @List.pairwise_mergeSort Bytes (fun a b => decide (a ≤ b))
    (fun a b c => by simpa using le_trans) (fun a b => by simpa using le_total a b) row.terms
  simpa using sorted

/-- The numbers that the bytes begin with fit 32 bits. -/
def PostingFits (bytes : Bytes) : Prop :=
  ∀ first second rest, leading bytes = some (first, second, rest) →
    first < 2 ^ 32 ∧ second < 2 ^ 32

/-- As many terms as the bytes announce can be allocated, and where so many follow, the document
length fits 32 bits. -/
def RowFits (most : Nat) (bytes : Bytes) : Prop :=
  ∀ length count rest, leading bytes = some (length, count, rest) → count ≤ most ∧
    ∀ terms, terms.length = count → Holds terms rest → length < 2 ^ 32

section Readers

variable {bytes : Bytes} {most : Nat}

theorem decodePosting_reads : (Reads (decodePosting bytes) fun posting =>
      ∃ rest, leading bytes = some (posting.termFreq.toNat, posting.docLen.toNat, rest)) ↔
    PostingFits bytes := by
  unfold decodePosting PostingFits
  dsimp only
  split
  · next short => simp [Reads, leading, short]
  next tf n read =>
  split
  · next short => simp [Reads, leading, read, short]
  next length m readLength =>
  have lead : leading bytes = some (tf, length, (bytes.drop n).drop m) := by
    simp [leading, read, readLength]
  simp only [Reads, lead, Option.some.injEq, Prod.mk.injEq, Nat.toUInt32_eq, UInt32.toNat_ofNat']
  constructor
  · rintro ⟨_, first, second, _⟩ _ _ _ ⟨rfl, rfl, _⟩
    omega
  · intro fits
    have := fits tf length _ ⟨rfl, rfl, rfl⟩
    exact ⟨_, by omega, by omega, rfl⟩

theorem decodeTerms_of_holds {terms : List Bytes} (holds : Holds terms bytes) :
    ∃ read, decodeTerms terms.length bytes = .ok read := by
  induction terms generalizing bytes with
  | nil => exact ⟨[], rfl⟩
  | cons term terms ih =>
    obtain ⟨n, size, whole, later⟩ := holds
    obtain ⟨read, decoded⟩ := ih later
    have long : ¬ (bytes.drop n).length < term.length := by
      have := congrArg length whole
      rw [length_take] at this
      omega
    rw [length_cons, decodeTerms, size]
    dsimp only
    rw [if_neg long, decoded]
    exact ⟨_, rfl⟩

theorem decodeDocRow_reads :
    (∃ result, decodeDocRow most bytes = some result ∧ Reads result fun row => ∃ rest,
      leading bytes = some (row.docLen.toNat, row.terms.length, rest) ∧ Holds row.terms rest) ↔
    RowFits most bytes := by
  unfold decodeDocRow RowFits
  dsimp only
  split
  · next short => simp [Reads, badRow, leading, short]
  next length n read =>
  split
  · next short => simp [Reads, badRow, leading, read, short]
  next count m readCount =>
  have lead : leading bytes = some (length, count, (bytes.drop n).drop m) := by
    simp [leading, read, readCount]
  have holds := decodeTerms_reads count ((bytes.drop n).drop m)
  simp only [lead, Option.some.injEq, Prod.mk.injEq]
  constructor
  · rintro ⟨result, answer, reads⟩ _ _ _ ⟨rfl, rfl, rfl⟩
    split at answer
    · cases answer
    next few =>
    refine ⟨not_lt.mp few, fun terms many held => ?_⟩
    obtain ⟨terms, decoded⟩ := many ▸ decodeTerms_of_holds held
    rw [decoded] at answer
    cases answer
    obtain ⟨_, ⟨small, _⟩, _⟩ := reads
    simp only [Nat.toUInt32_eq, UInt32.toNat_ofNat'] at small
    omega
  · intro fits
    obtain ⟨few, small⟩ := fits _ _ _ ⟨rfl, rfl, rfl⟩
    rw [if_neg (not_lt.mpr few)]
    refine ⟨_, rfl, ?_⟩
    cases decoded : decodeTerms count ((bytes.drop n).drop m) with
    | error fault =>
      rw [decoded] at holds
      exact holds
    | ok terms =>
      rw [decoded] at holds
      have := small terms holds.1 holds.2
      exact ⟨_, ⟨by simp; omega, holds.1.symm, rfl⟩, holds.2⟩

theorem decodeStats_reads : Reads (decodeStats bytes) fun stats => ∃ marker rest,
    leading bytes = some (stats.documents.toNat, stats.totalLength.toNat, marker :: rest) ∧
      stats.rebuilding = decide (marker = 1) := by
  unfold decodeStats
  dsimp only
  split
  · rfl
  next docs n read =>
  split
  · rfl
  next total m readTotal =>
  split
  · rfl
  next marker rest left =>
  have lead : leading bytes = some (docs, total, (bytes.drop n).drop m) := by
    simp [leading, read, readTotal]
  have first := uvarint_lt read
  have second := uvarint_lt readTotal
  exact ⟨marker, rest, by simp [lead, left]; omega, rfl⟩

end Readers

/-- A posting and a term row decode to what they hold or are reported corrupt exactly where their
numbers fit what they are read into, a statistics row does always, and every row comes back from
its encoding. -/
theorem text_rows_decode (most : Nat) (limited : most ≤ maxStrings) (bytes : Bytes) :
    ((Reads (decodePosting bytes) fun posting =>
      ∃ rest, leading bytes = some (posting.termFreq.toNat, posting.docLen.toNat, rest)) ↔
        PostingFits bytes) ∧
    ((∃ result, decodeDocRow most bytes = some result ∧ Reads result fun row => ∃ rest,
      leading bytes = some (row.docLen.toNat, row.terms.length, rest) ∧ Holds row.terms rest) ↔
        RowFits most bytes) ∧
    (Reads (decodeStats bytes) fun stats => ∃ marker rest,
      leading bytes = some (stats.documents.toNat, stats.totalLength.toNat, marker :: rest) ∧
        stats.rebuilding = decide (marker = 1)) ∧
    (∀ posting, decodePosting (encodePosting posting) = .ok posting) ∧
    (∀ stats, decodeStats (encodeStats stats) = .ok stats) ∧
    ∀ row : DocRow, row.terms.length ≤ most → (∀ term ∈ row.terms, term.length < 2 ^ 63) →
      decodeDocRow most (encodeDocRow row) = some (.ok ⟨row.docLen, row.stored⟩) ∧
        row.stored.Pairwise (· < ·) ∧ ∀ term, term ∈ row.stored ↔ term ∈ row.terms := by
  refine ⟨decodePosting_reads, decodeDocRow_reads, decodeStats_reads, fun posting => ?_,
    fun stats => ?_, fun row few sized => ?_⟩
  · have first := posting.termFreq.toNat_lt
    have second := posting.docLen.toNat_lt
    have length := uvarint_append (by omega : posting.docLen.toNat < 2 ^ 64) []
    rw [append_nil] at length
    simp [decodePosting, encodePosting, uvarint_append (by omega : posting.termFreq.toNat < 2 ^ 64),
      length]
  · obtain ⟨documents, total, rebuilding⟩ := stats
    cases rebuilding <;> simp [decodeStats, encodeStats, uvarint_append documents.toNat_lt,
      uvarint_append total.toNat_lt]
  · have docLen := row.docLen.toNat_lt
    obtain ⟨sorted, same⟩ := stored_spec row
    have fewer : row.stored.length ≤ most :=
      (length_compact_le _).trans (row.terms.length_mergeSort.trans_le few)
    refine ⟨?_, sorted, same⟩
    simp only [decodeDocRow, encodeDocRow, append_assoc]
    rw [uvarint_append (by omega)]
    simp only [drop_left]
    rw [uvarint_append (by simp only [maxStrings] at limited; omega)]
    simp only [drop_left]
    rw [if_neg (by omega), decodeTerms_encodeTerms _ fun term listed =>
      sized term ((same term).mp listed)]
    simp [Except.map]

theorem text_rows_decode_small : Reads (decodePosting [3, 7]) fun posting =>
      ∃ rest, leading [3, 7] = some (posting.termFreq.toNat, posting.docLen.toNat, rest) := by
  refine (text_rows_decode maxStrings le_rfl [3, 7]).1.mpr ?_
  rintro first second rest ⟨⟩
  decide

/-- A term frequency of 2^32 is read as none at all, and a count of 2^44 + 1 terms panics. -/
theorem wide_numbers_misread :
    ((decodePosting [0x80, 0x80, 0x80, 0x80, 0x10, 7]).map Posting.termFreq = .ok 0 ∧
      leading [0x80, 0x80, 0x80, 0x80, 0x10, 7] = some (2 ^ 32, 7, [])) ∧
    decodeDocRow maxStrings [0, 0x81, 0x80, 0x80, 0x80, 0x80, 0x80, 0x04] = none := by
  have length : uvarint [0, 0x81, 0x80, 0x80, 0x80, 0x80, 0x80, 0x04] = some (0, 1) := rfl
  have count : uvarint [0x81, 0x80, 0x80, 0x80, 0x80, 0x80, 0x04] = some (2 ^ 44 + 1, 7) := by decide
  exact ⟨⟨rfl, rfl⟩, by simp [decodeDocRow, length, count, maxStrings]⟩

end Remem.Text
