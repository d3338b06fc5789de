import Remem.Base.Slices
import Remem.Storage.Batch

/-!
# The portable dump of a store

A header and the pairs of the store, each key and value after its length. Restoring reads the
pairs into one batch; it answers nothing where the source panics.
-/

namespace Remem.Storage

open Base List Option

def dumpMagic : Bytes := ascii "RMMD"

def dumpVersion : UInt8 := 1

def writeFrame (bytes : Bytes) : Bytes := appendUvarint bytes.length ++ bytes

def writePairs (pairs : List (Bytes × Bytes)) : Bytes :=
  pairs.flatMap fun pair => writeFrame pair.1 ++ writeFrame pair.2

def dump (store : Store) : Bytes := dumpMagic ++ dumpVersion :: writePairs store.entries

/-- `io.EOF`, or any other error of a reader. -/
inductive ReadError where
  | eof
  | other

/-- The error of a reader that came short: `io.EOF` only where it read no byte at all. -/
def shortRead (stream : Bytes) : ReadError := if stream = [] then .eof else .other

/-- `binary.ReadUvarint`: the number and the rest of the stream. -/
def readUvarint (stream : Bytes) : Except ReadError (Nat × Bytes) :=
  match uvarint stream with
  | some (number, width) => .ok (number, stream.drop width)
  | none => .error (shortRead stream)

/-- `io.ReadFull`. -/
def readFull (size : Nat) (stream : Bytes) : Except ReadError (Bytes × Bytes) :=
  if size ≤ stream.length then .ok (stream.take size, stream.drop size)
  else .error (shortRead stream)

/-- The most bytes that a slice holds, in an address space of 2^48. Memory may hold fewer. -/
def maxBytes : Nat := 2 ^ 48

section Restoring

variable (most : Nat)

/-- The `read` of `Restore`, which makes the slice before it reads, with memory for `most` bytes. -/
def read (stream : Bytes) : Option (Except ReadError (Bytes × Bytes)) :=
  match readUvarint stream with
  | .error problem => some (.error problem)
  | .ok (size, rest) => if most < size then none else some (readFull size rest)

def badPair (text : String) : Fault := ⟨.corruption, "storage.Restore", text, []⟩

/-- The loop of `Restore`. -/
def readPairs : (fuel : Nat) → Bytes → Option (Result (List (Bytes × Bytes)))
  | 0, _ => none
  | fuel + 1, stream =>
    match read most stream with
    | none => none
    | some (.error .eof) => some (.ok [])
    | some (.error .other) => some (.error (badPair "reading a key: %w"))
    | some (.ok (key, rest)) =>
      match read most rest with
      | none => none
      | some (.error _) => some (.error (badPair "reading the value of a key: %w"))
      | some (.ok (value, rest)) => (readPairs fuel rest).map (Except.map ((key, value) :: ·))

/-- The checks of the header, and what follows it. -/
def readHeader (stream : Bytes) : Result Bytes :=
  let bad (kind : Kind) (text : String) (operands : List Operand) : Result Bytes :=
    .error ⟨kind, "storage.Restore", text, operands⟩
  match readFull 5 stream with
  | .error _ => bad .corruption "the stream is shorter than its %d-byte header" [.number 5]
  | .ok (header, rest) =>
    let version := header.getD 4 0
    if header.take 4 ≠ dumpMagic then
      bad .corruption "the stream does not begin with %q; it is not a Remem key-value dump"
        [.bytes dumpMagic]
    else if version = dumpVersion then .ok rest
    else if dumpVersion < version then
      bad .incompatibleVersion ("the stream is version %d and this binary reads version %d; " ++
        "the pairs after the header may be framed differently, and a partial restore is a " ++
        "store that looks populated and is not") [.number version.toNat, .number 1]
    else
      bad .corruption "stream version %d is not one this binary knows" [.number version.toNat]

/-- The answer of `Restore` and the store after it. -/
def restore (store : Store) (stream : Bytes) : Option (Result Unit × Store) :=
  match readHeader stream with
  | .error fault => some (.error fault, store)
  | .ok rest =>
    (readPairs most (rest.length + 1) rest).map fun
      | .error fault => (.error fault, store)
      | .ok pairs =>
        match (pairs.foldl (fun batch pair => batch.set pair.1 pair.2) ({} : Batch)).commit store with
        | .error fault => (.error fault, store)
        | .ok after => (.ok (), after)

end Restoring

def Framed (data stream rest : Bytes) : Prop :=
  ∃ width, uvarint stream = some (data.length, width) ∧ stream.drop width = data ++ rest

/-- The stream starts with these pairs, complete. -/
def Leaves : List (Bytes × Bytes) → (stream rest : Bytes) → Prop
  | [], stream, rest => rest = stream
  | pair :: pairs, stream, rest => ∃ middle after,
    Framed pair.1 stream middle ∧ Framed pair.2 middle after ∧ Leaves pairs after rest

/-- Wherever complete pairs of a stream end, no length above what can be allocated comes next,
and no key's length that nothing follows. -/
def Uncut (most : Nat) (stream : Bytes) : Prop :=
  ∀ pairs rest, Leaves pairs stream rest → (∀ size width, uvarint rest = some (size, width) →
      size ≤ most ∧ (0 < size → rest.drop width ≠ [])) ∧
    ∀ key after size width, Framed key rest after → uvarint after = some (size, width) →
      size ≤ most

section Reading

variable {data other stream rest after : Bytes} {most : Nat}

theorem Framed.length_lt (framed : Framed data stream rest) : rest.length < stream.length := by
  obtain ⟨width, number, dropped⟩ := framed
  have sizes := congrArg List.length dropped
  have positive := uvarint_width_pos number
  have inside := uvarint_width number
  simp at sizes
  omega

theorem Framed.unique (framed : Framed data stream rest) (again : Framed other stream after) :
    data = other ∧ rest = after := by
  obtain ⟨width, number, dropped⟩ := framed
  obtain ⟨otherWidth, otherNumber, otherDropped⟩ := again
  rw [number, Option.some.injEq, Prod.mk.injEq] at otherNumber
  obtain ⟨length, rfl⟩ := otherNumber
  exact append_inj (dropped.symm.trans otherDropped) length

theorem read_spec (small : ∀ size width, uvarint stream = some (size, width) → size ≤ most) :
    (∃ data rest, read most stream = some (.ok (data, rest)) ∧ Framed data stream rest) ∨
      (∀ data rest, ¬ Framed data stream rest) ∧ ∃ cut,
        read most stream = some (.error (shortRead cut)) ∧
        (cut = stream ∨
          ∃ size width, uvarint stream = some (size, width) ∧ 0 < size ∧ stream.drop width = cut) := by
  unfold read readUvarint
  split
  · next problem failed =>
    split at failed <;> cases failed
    next missing =>
    exact .inr ⟨fun _ _ ⟨_, number, _⟩ => by simp [missing] at number, stream, rfl, .inl rfl⟩
  next size rest found =>
  split at found <;> cases found
  next width number =>
  rw [if_neg (Nat.not_lt.mpr (small _ _ number))]
  unfold readFull
  split
  · next enough =>
    refine .inl ⟨_, _, rfl, width, ?_, by simp⟩
    rw [length_take, Nat.min_eq_left enough, number]
  next short =>
  refine .inr ⟨fun _ _ ⟨_, again, dropped⟩ => ?_, _, rfl, .inr ⟨_, _, number, by omega, rfl⟩⟩
  simp only [number, Option.some.injEq, Prod.mk.injEq] at again
  obtain ⟨rfl, rfl⟩ := again
  simp [dropped] at short

theorem not_framed_nil : ¬ Framed data [] rest := by
  rintro ⟨_, number, _⟩
  cases number

theorem Uncut.after_pair {key value middle : Bytes} (uncut : Uncut most stream)
    (first : Framed key stream middle) (second : Framed value middle rest) : Uncut most rest :=
  fun pairs later leaves => uncut ((key, value) :: pairs) later ⟨_, _, first, second, leaves⟩

theorem readPairs_spec {fuel : Nat} (enough : stream.length < fuel) (uncut : Uncut most stream) :
    ∃ result, readPairs most fuel stream = some result ∧
      ∀ pairs, Leaves pairs stream [] ↔ result = .ok pairs := by
  induction fuel generalizing stream with
  | zero => cases enough
  | succ fuel ih =>
    obtain ⟨sizes, valueSizes⟩ := uncut [] stream rfl
    unfold readPairs
    obtain ⟨key, middle, gotKey, framedKey⟩ | ⟨noKey, cut, failed, short⟩ :=
      read_spec fun size width number => (sizes size width number).1
    · have notNil : stream ≠ [] := by
        rintro rfl
        exact not_framed_nil framedKey
      simp only [gotKey]
      obtain ⟨value, rest, gotValue, framedValue⟩ | ⟨noValue, cut, failed, _⟩ :=
        read_spec fun size width => valueSizes key middle size width framedKey
      · have shorter := framedKey.length_lt
        have shorterStill := framedValue.length_lt
        obtain ⟨result, read, iff⟩ := @ih rest (by omega) (uncut.after_pair framedKey framedValue)
        refine ⟨result.map ((key, value) :: ·), by simp only [gotValue, read, map_some],
          fun pairs => ?_⟩
        cases pairs with
        | nil => cases result <;> simp [Leaves, Except.map, notNil.symm]
        | cons pair pairs =>
          have unique : Leaves (pair :: pairs) stream [] ↔
              pair = (key, value) ∧ Leaves pairs rest [] := by
            constructor
            · rintro ⟨_, _, isKey, isValue, leaves⟩
              obtain ⟨sameKey, rfl⟩ := isKey.unique framedKey
              obtain ⟨sameValue, rfl⟩ := isValue.unique framedValue
              exact ⟨Prod.ext sameKey sameValue, leaves⟩
            · rintro ⟨rfl, leaves⟩
              exact ⟨_, _, framedKey, framedValue, leaves⟩
          rw [unique, iff]
          cases result <;> simp [Except.map, eq_comm]
      · refine ⟨.error (badPair "reading the value of a key: %w"), by simp only [failed],
          fun pairs => ⟨fun leaves => ?_, fun ok => by cases ok⟩⟩
        cases pairs with
        | nil => exact absurd leaves.symm notNil
        | cons pair pairs =>
          obtain ⟨_, _, isKey, isValue, _⟩ := leaves
          obtain ⟨_, rfl⟩ := isKey.unique framedKey
          exact absurd isValue (noValue _ _)
    · have noPair : ∀ pair pairs, ¬ Leaves (pair :: pairs) stream [] :=
        fun _ _ ⟨_, _, isKey, _⟩ => noKey _ _ isKey
      rw [failed]
      -- only an empty stream ends in `io.EOF`: a key's length has bytes after it
      obtain rfl | notNil := eq_or_ne cut []
      · have isNil : stream = [] := by
          obtain isStream | ⟨size, width, number, positive, dropped⟩ := short
          · exact isStream.symm
          · exact absurd dropped ((sizes size width number).2 positive)
        refine ⟨.ok [], rfl, fun pairs => ?_⟩
        cases pairs with
        | nil => simp [Leaves, isNil]
        | cons pair pairs => simp [noPair]
      refine ⟨.error (badPair "reading a key: %w"), by simp only [shortRead, if_neg notNil],
        fun pairs => ⟨fun leaves => ?_, fun ok => by cases ok⟩⟩
      cases pairs with
      | nil =>
        cases leaves
        obtain isStream | ⟨_, _, number, _⟩ := short
        · exact absurd isStream notNil
        · cases number
      | cons pair pairs => exact absurd leaves (noPair _ _)

theorem read_of_uvarint {size width : Nat} (number : uvarint stream = some (size, width)) :
    read most stream = if most < size then none else some (readFull size (stream.drop width)) := by
  simp only [read, readUvarint, number]

theorem size_of_read {size width : Nat} (number : uvarint stream = some (size, width))
    (answered : read most stream ≠ none) : size ≤ most := by
  rw [read_of_uvarint number] at answered
  by_contra large
  exact answered (if_pos (not_le.mp large))

theorem read_of_framed (framed : Framed data stream rest) (answered : read most stream ≠ none) :
    read most stream = some (.ok (data, rest)) := by
  obtain ⟨width, number, dropped⟩ := framed
  rw [read_of_uvarint number, if_neg (not_lt.mpr (size_of_read number answered)), dropped]
  simp [readFull]

/-- A stream that is read to an end, and to pairs only where it is complete pairs, is not cut. -/
theorem uncut_of_readPairs {fuel : Nat} {result : Result (List (Bytes × Bytes))}
    (answer : readPairs most fuel stream = some result)
    (whole : (∃ pairs, result = .ok pairs) → ∃ pairs, Leaves pairs stream []) :
    Uncut most stream := by
  intro pairs rest leaves
  induction pairs generalizing stream fuel result with
  | nil =>
    cases leaves
    obtain _ | fuel := fuel
    · cases answer
    have keyRead : read most rest ≠ none := by
      intro panics
      simp only [readPairs, panics] at answer
      cases answer
    refine ⟨fun size width number => ⟨size_of_read number keyRead, fun positive cut => ?_⟩,
      fun key after size width framed number => size_of_read number fun panics => ?_⟩
    · -- an empty read of the key's bytes ends the loop, though no pair is complete here
      have ends : read most rest = some (.error .eof) := by
        rw [read_of_uvarint number, if_neg (not_lt.mpr (size_of_read number keyRead)), cut]
        simp [readFull, shortRead, positive.ne']
      simp only [readPairs, ends, Option.some.injEq] at answer
      obtain ⟨_ | ⟨pair, pairs⟩, leaves⟩ := whole ⟨[], answer.symm⟩
      · cases leaves
        cases number
      · obtain ⟨_, _, ⟨_, again, dropped⟩, _⟩ := leaves
        obtain ⟨rfl, rfl⟩ := Prod.mk.inj (Option.some.inj (number.symm.trans again))
        rw [cut] at dropped
        simp [(append_eq_nil_iff.mp dropped.symm).1] at positive
    · simp only [readPairs, read_of_framed framed keyRead, panics] at answer
      cases answer
  | cons pair pairs ih =>
    obtain ⟨middle, after, isKey, isValue, later⟩ := leaves
    obtain _ | fuel := fuel
    · cases answer
    have keyRead := @read_of_framed _ _ _ most isKey fun panics => by
      simp only [readPairs, panics] at answer
      cases answer
    have valueRead := @read_of_framed _ _ _ most isValue fun panics => by
      simp only [readPairs, keyRead, panics] at answer
      cases answer
    simp only [readPairs, keyRead, valueRead, Option.map_eq_some_iff] at answer
    obtain ⟨result, answer, rfl⟩ := answer
    refine ih answer ?_ later
    rintro ⟨found, rfl⟩
    obtain ⟨_ | ⟨pair, found⟩, leaves⟩ := whole ⟨_, rfl⟩
    · cases leaves
      exact absurd isKey not_framed_nil
    · obtain ⟨_, _, sameKey, sameValue, leaves⟩ := leaves
      obtain ⟨_, rfl⟩ := sameKey.unique isKey
      obtain ⟨_, rfl⟩ := sameValue.unique isValue
      exact ⟨found, leaves⟩

end Reading

theorem readHeader_eq_ok {stream rest : Bytes} :
    readHeader stream = .ok rest ↔ stream = dumpMagic ++ dumpVersion :: rest := by
  constructor
  · intro read
    unfold readHeader readFull at read
    obtain long | short := le_or_gt 5 stream.length
    · rw [if_pos long] at read
      match stream, long with
      | a :: b :: c :: d :: version :: later, _ =>
        simp only [take_succ_cons, take_zero, drop_succ_cons, drop_zero,
          getD_cons_succ, getD_cons_zero] at read
        split at read
        · cases read
        next magic =>
        split at read
        · next isVersion =>
          cases read
          rw [← not_not.mp magic, isVersion]
          rfl
        · split at read <;> cases read
    · rw [if_neg (by omega)] at read
      cases read
  · rintro rfl
    simp [readHeader, readFull, dumpMagic, ascii]

section Writing

variable {most : Nat} (limited : most ≤ maxBytes)

include limited

theorem read_writeFrame {data : Bytes} (fits : data.length ≤ most) (tail : Bytes) :
    read most (writeFrame data ++ tail) = some (.ok (data, tail)) := by
  have number := uvarint_append ((fits.trans limited).trans_lt (by decide)) (data ++ tail)
  simp [read, readUvarint, readFull, number, Nat.not_lt.mpr fits, writeFrame]

theorem readPairs_writePairs {pairs : List (Bytes × Bytes)} {fuel : Nat}
    (fits : ∀ pair ∈ pairs, pair.1.length ≤ most ∧ pair.2.length ≤ most)
    (enough : pairs.length < fuel) : readPairs most fuel (writePairs pairs) = some (.ok pairs) := by
  induction pairs generalizing fuel with
  | nil =>
    cases enough <;> rfl
  | cons pair pairs ih =>
    obtain _ | fuel := fuel
    · cases enough
    obtain ⟨⟨keyFits, valueFits⟩, later⟩ := forall_mem_cons.mp fits
    have rest := ih later (Nat.lt_of_succ_lt_succ enough)
    have split : writePairs (pair :: pairs) =
        writeFrame pair.1 ++ (writeFrame pair.2 ++ writePairs pairs) := by simp [writePairs]
    rw [split, readPairs, read_writeFrame limited keyFits]
    simp only [read_writeFrame limited valueFits, rest]
    rfl

end Writing

theorem length_le_writePairs (pairs : List (Bytes × Bytes)) :
    pairs.length ≤ (writePairs pairs).length := by
  induction pairs with
  | nil => exact Nat.zero_le _
  | cons pair pairs ih =>
    have positive := length_pos_iff.mpr (appendUvarint_ne_nil pair.1.length)
    simp [writePairs, writeFrame] at ih ⊢
    omega

theorem commit_pairs (pairs : List (Bytes × Bytes)) (store : Store) (batch : Batch)
    (unconditional : batch.conditions = []) :
    (pairs.foldl (fun batch pair => batch.set pair.1 pair.2) batch).commit store =
      .ok (pairs.foldl (fun store pair => store.set pair.1 pair.2) (batch.effect store)) := by
  induction pairs generalizing batch with
  | nil => simp [Batch.commit, unconditional]
  | cons pair pairs ih =>
    rw [foldl_cons, ih (batch.set pair.1 pair.2) unconditional]
    simp [Batch.set, Batch.effect, Op.apply]

/-- The stream restores whole or not at all: where it is a header and complete pairs the store is
overwritten by them in order, and elsewhere it is left alone and an error is answered. -/
def RestoresWhole (most : Nat) (store : Store) (stream : Bytes) : Prop :=
  (∀ pairs rest, stream = dumpMagic ++ dumpVersion :: rest → Leaves pairs rest [] →
    restore most store stream =
      some (.ok (), pairs.foldl (fun store pair => store.set pair.1 pair.2) store)) ∧
  ((∀ pairs rest, stream = dumpMagic ++ dumpVersion :: rest → ¬ Leaves pairs rest []) →
    ∃ fault, restore most store stream = some (.error fault, store))

section Restores

variable {most : Nat} {stream rest : Bytes} {store : Store}

theorem restore_of_pairs {pairs : List (Bytes × Bytes)} (header : readHeader stream = .ok rest)
    (found : readPairs most (rest.length + 1) rest = some (.ok pairs)) :
    restore most store stream =
      some (.ok (), pairs.foldl (fun store pair => store.set pair.1 pair.2) store) := by
  simp only [restore, header, found, map_some, commit_pairs pairs store {} rfl]
  rfl

theorem restoresWhole_of_uncut
    (uncut : ∀ rest, stream = dumpMagic ++ dumpVersion :: rest → Uncut most rest) :
    RestoresWhole most store stream := by
  refine ⟨fun pairs rest isHeader leaves => ?_, fun incomplete => ?_⟩
  · obtain ⟨result, read, iff⟩ := readPairs_spec (Nat.lt_succ_self _) (uncut rest isHeader)
    rw [(iff pairs).mp leaves] at read
    exact restore_of_pairs (readHeader_eq_ok.mpr isHeader) read
  unfold restore
  cases header : readHeader stream with
  | error fault => exact ⟨fault, rfl⟩
  | ok rest =>
    have isHeader := readHeader_eq_ok.mp header
    obtain ⟨result, read, iff⟩ := readPairs_spec (Nat.lt_succ_self _) (uncut rest isHeader)
    cases result with
    | error fault => exact ⟨fault, by simp only [read, map_some]⟩
    | ok pairs => exact absurd ((iff pairs).mpr rfl) (incomplete pairs rest isHeader)

theorem uncut_of_restoresWhole (whole : RestoresWhole most store stream)
    (isHeader : stream = dumpMagic ++ dumpVersion :: rest) : Uncut most rest := by
  have header := readHeader_eq_ok.mpr isHeader
  by_cases complete : ∃ pairs, Leaves pairs rest []
  · obtain ⟨pairs, leaves⟩ := complete
    have restored := whole.1 pairs rest isHeader leaves
    simp only [restore, header, Option.map_eq_some_iff] at restored
    obtain ⟨result, read, _⟩ := restored
    exact uncut_of_readPairs read fun _ => ⟨pairs, leaves⟩
  · obtain ⟨fault, refused⟩ := whole.2 fun pairs other again leaves => by
      have same : other = rest := by simpa [isHeader, eq_comm] using again
      exact complete ⟨pairs, same ▸ leaves⟩
    simp only [restore, header, Option.map_eq_some_iff] at refused
    obtain ⟨result, read, failed⟩ := refused
    refine uncut_of_readPairs read ?_
    rintro ⟨pairs, rfl⟩
    simp [commit_pairs pairs store {} rfl] at failed

end Restores

/-- A dump restores whole, and a stream restores whole or not at all exactly where it is not cut
after a key's length and no length in it is more than can be allocated. -/
theorem restore_whole_or_not (most : Nat) (limited : most ≤ maxBytes) (store : Store) :
    (∀ source : Store, (∀ entry ∈ source.entries,
        entry.1.length ≤ most ∧ entry.2.length ≤ most) →
      restore most .empty (dump source) = some (.ok (), source)) ∧
    ∀ stream, RestoresWhole most store stream ↔
      ∀ rest, stream = dumpMagic ++ dumpVersion :: rest → Uncut most rest := by
  refine ⟨fun source fits => ?_, fun stream => ⟨fun whole rest => ?_, restoresWhole_of_uncut⟩⟩
  · have read := readPairs_writePairs limited fits (Nat.lt_succ_of_le (length_le_writePairs _))
    rw [dump, restore_of_pairs (readHeader_eq_ok.mpr rfl) read, OrderedMap.foldl_set]
  · exact uncut_of_restoresWhole whole

/-- One pair is dumped and restored; its dump cut after the length of the key is not restored
whole. -/
theorem restore_whole_or_not_pair :
    let source := OrderedMap.empty.set (ascii "abcde") (ascii "f")
    restore maxBytes .empty (dump source) = some (.ok (), source) ∧
      ¬ RestoresWhole maxBytes .empty (dumpMagic ++ [dumpVersion, 5]) := by
  refine ⟨(restore_whole_or_not maxBytes le_rfl .empty).1 _ (by decide), fun whole => ?_⟩
  have uncut := ((restore_whole_or_not maxBytes le_rfl .empty).2 _).mp whole [5] rfl
  exact ((uncut [] [5] rfl).1 5 1 rfl).2 (by decide) rfl

/-- The dump of one pair cut right after the length of its key restores as an empty store, though
no complete pairs are in it; a length above that of any slice panics. -/
theorem cut_dump_restores :
    (dumpMagic ++ [dumpVersion, 5] <+: dump (OrderedMap.empty.set (ascii "abcde") []) ∧
      restore maxBytes .empty (dumpMagic ++ [dumpVersion, 5]) = some (.ok (), .empty) ∧
      ∀ pairs, ¬ Leaves pairs [5] []) ∧
    restore maxBytes .empty (dumpMagic ++ dumpVersion :: appendUvarint (2 ^ 63)) = none := by
  refine ⟨⟨by decide, by decide, ?_⟩, ?_⟩
  · rintro (_ | ⟨pair, pairs⟩) leaves
    · cases leaves
    · obtain ⟨_, _, ⟨width, number, dropped⟩, _⟩ := leaves
      simp [uvarint, uvarintLoop] at number
      obtain ⟨length, rfl⟩ := number
      simp at dropped
      simp [dropped.1] at length
  · have number := @uvarint_append (2 ^ 63) (by decide) []
    simp only [append_nil] at number
    have panics : read maxBytes (appendUvarint (2 ^ 63)) = none := by
      rw [read, readUvarint, number]
      rfl
    simp only [restore, readHeader_eq_ok.mpr rfl, readPairs, panics, map_none]

end Remem.Storage
