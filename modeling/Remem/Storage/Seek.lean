import Remem.Storage.Iterator

/-!
# Point reads through one iterator

A reader of a range seeks with one iterator, whatever the order of the keys it is asked for.
-/

namespace Remem.Storage

open Base Keys List

structure SeekReader where
  snap : Store
  range : KeyRange
  it : Option Iterator

namespace SeekReader

/-- `Get`; no value stands for the source's `NotFound`. -/
def get (reader : SeekReader) (key : Bytes) : Option Bytes × SeekReader :=
  if reader.range.Contains key then
    let it := (reader.it.getD (.new reader.snap reader.range)).seekGE key
    ((it.current.filter fun row => row.1 = key).map Prod.snd, { reader with it := some it })
  else (reader.snap.get key, reader)

def gets : SeekReader → List Bytes → List (Option Bytes)
  | _, [] => []
  | reader, key :: keys => (reader.get key).1 :: (reader.get key).2.gets keys

end SeekReader

theorem rows_settle (it : Iterator) (index : Int) : (it.settle index).rows = it.rows := by
  unfold Iterator.settle
  split <;> rfl

theorem current_settle (it : Iterator) (index : Nat) :
    (it.settle index).current = it.rows[index]? := by
  unfold Iterator.settle
  split
  · simp [Iterator.current]
  next outside => simpa [Iterator.current] using outside

theorem find_of_sorted {rows : List (Bytes × Bytes)}
    (sorted : rows.Pairwise fun first second => first.1 < second.1) (key : Bytes) :
    ((rows.find? fun row => key ≤ row.1).filter fun row => row.1 = key) =
      rows.find? fun row => row.1 = key := by
  induction rows with
  | nil => rfl
  | cons row rest ih =>
    obtain ⟨above, sorted⟩ := pairwise_cons.mp sorted
    rcases lt_trichotomy row.1 key with below | same | beyond
    · rw [find?_cons_of_neg (by simpa using below), find?_cons_of_neg (by simpa using below.ne)]
      exact ih sorted
    · simp [same]
    · have none : rest.find? (fun row => row.1 = key) = none :=
        find?_eq_none.mpr fun other listed => by simpa using (beyond.trans (above other listed)).ne'
      simp [beyond.le, beyond.ne', none]

/-- Reads through one iterator, of keys in any order and in the range or not, are the snapshot's. -/
theorem seekReader_reads (snap : Store) (range : KeyRange) (keys : List Bytes) :
    (SeekReader.mk snap range none).gets keys = keys.map snap.get := by
  suffices later : ∀ it : Option Iterator,
      (∀ opened ∈ it, opened.rows = scanRange snap range) →
        (SeekReader.mk snap range it).gets keys = keys.map snap.get from later none nofun
  induction keys with
  | nil => exact fun _ _ => rfl
  | cons key keys ih =>
    intro it opened
    rw [SeekReader.gets, SeekReader.get]
    split
    · next inside =>
      have rows : (it.getD (.new snap range)).rows = scanRange snap range := by
        cases it with
        | none => rfl
        | some it => exact opened it rfl
      dsimp only
      rw [map_cons, ih]
      · rw [Iterator.seekGE, current_settle, rows, ← find?_eq_getElem?_findIdx,
          scanRange, find_of_sorted (OrderedMap.sorted_scan _ _), OrderedMap.scan, find?_filter,
          OrderedMap.get]
        congr 3
        funext row
        by_cases same : row.1 = key <;> simp [same, inside]
      · rintro _ ⟨⟩
        rw [Iterator.seekGE, rows_settle, rows]
    · rw [map_cons, ih it opened]

end Remem.Storage
