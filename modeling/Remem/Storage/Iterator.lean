import Remem.Storage.Batch

/-!
# Iterators

An iterator over a key range of the store, with a position on one of its rows or
on none. `remaining` is what a walk in one direction still has to visit; each
operation is described by what it does to that list.
-/

namespace Remem.Storage

open Base Keys List Bool

structure Iterator where
  rows : List (Bytes × Bytes)
  position : Option Nat
  inside : ∀ index, position = some index → index < rows.length

namespace Iterator

def settle (it : Iterator) (index : Int) : Iterator :=
  if valid : 0 ≤ index ∧ index < it.rows.length then
    ⟨it.rows, some index.toNat, by
      rintro _ ⟨⟩
      omega⟩
  else ⟨it.rows, none, by simp⟩

/-- `NewIterator`. -/
def new (store : Store) (range : KeyRange) : Iterator :=
  ⟨scanRange store range, none, by simp⟩

theorem sorted_new (store : Store) (range : KeyRange) :
    (new store range).rows.Pairwise fun first second => first.1 < second.1 :=
  OrderedMap.sorted_scan store fun key => decide (range.Contains key)

def valid (it : Iterator) : Bool := it.position.isSome

def first (it : Iterator) : Iterator := it.settle 0

def last (it : Iterator) : Iterator := it.settle (it.rows.length - 1)

def seekGE (it : Iterator) (key : Bytes) : Iterator :=
  it.settle (it.rows.findIdx fun row => key ≤ row.1)

def next (it : Iterator) : Iterator :=
  match it.position with
  | none => it
  | some index => it.settle (index + 1)

def prev (it : Iterator) : Iterator :=
  match it.position with
  | none => it
  | some index => it.settle (index - 1)

def current (it : Iterator) : Option (Bytes × Bytes) :=
  it.position.bind fun index => it.rows[index]?

def advance (it : Iterator) (desc : Bool) : Iterator := if desc then it.prev else it.next

def remaining (it : Iterator) (desc : Bool) : List (Bytes × Bytes) :=
  match it.position with
  | none => []
  | some index => if desc then (it.rows.take (index + 1)).reverse else it.rows.drop index

theorem remaining_settle (it : Iterator) (index : Nat) :
    (it.settle index).remaining false = it.rows.drop index := by
  unfold settle
  split
  · simp [remaining]
  next outside =>
  simp only [remaining]
  rw [drop_eq_nil_of_le]
  omega

theorem remaining_settle_desc (it : Iterator) {count : Nat} (bound : count ≤ it.rows.length) :
    (it.settle ((count : Int) - 1)).remaining true = (it.rows.take count).reverse := by
  unfold settle
  cases count with
  | zero => simp [remaining]
  | succ index =>
    rw [dif_pos (by omega)]
    simp [remaining]

theorem current_of_remaining {it : Iterator} {desc : Bool} {row : Bytes × Bytes}
    {rest : List (Bytes × Bytes)} (left : it.remaining desc = row :: rest) :
    it.current = some row ∧ (it.advance desc).remaining desc = rest := by
  cases position : it.position with
  | none => simp [remaining, position] at left
  | some index =>
    have inside := it.inside index position
    cases desc with
    | false =>
      simp only [remaining, position, false_eq_true, if_false] at left
      rw [drop_eq_getElem_cons inside, List.cons.injEq] at left
      refine ⟨by simp [current, position, getElem?_eq_getElem inside, left.1], ?_⟩
      simp only [advance, next, position, false_eq_true, if_false]
      rw [← left.2]
      exact remaining_settle it (index + 1)
    | true =>
      simp only [remaining, position, if_true] at left
      rw [take_succ_eq_append_getElem inside, reverse_append,
        reverse_singleton, singleton_append, List.cons.injEq] at left
      refine ⟨by simp [current, position, getElem?_eq_getElem inside, left.1], ?_⟩
      simp only [advance, prev, position, if_true]
      rw [← left.2]
      exact remaining_settle_desc it inside.le

theorem current_of_remaining_nil {it : Iterator} {desc : Bool}
    (left : it.remaining desc = []) : it.current = none := by
  cases position : it.position with
  | none => simp [current, position]
  | some index =>
    have inside := it.inside index position
    cases desc with
    | false =>
      simp only [remaining, position, false_eq_true, if_false, drop_eq_nil_iff] at left
      omega
    | true =>
      simp only [remaining, position, if_true, reverse_eq_nil_iff, take_eq_nil_iff] at left
      rcases left with impossible | empty
      · omega
      · simp [empty] at inside

theorem remaining_first (it : Iterator) : it.first.remaining false = it.rows :=
  remaining_settle it 0

theorem remaining_last (it : Iterator) : it.last.remaining true = it.rows.reverse := by
  have whole := remaining_settle_desc it le_rfl
  rwa [take_length] at whole

theorem remaining_before (it : Iterator) (key : Bytes) :
    (if (it.seekGE key).valid then (it.seekGE key).prev else (it.seekGE key).last).remaining
        true = (it.rows.take (it.rows.findIdx fun row => key ≤ row.1)).reverse := by
  have bound : (it.rows.findIdx fun row => key ≤ row.1) ≤ it.rows.length :=
    findIdx_le_length
  unfold seekGE
  generalize (it.rows.findIdx fun row => key ≤ row.1) = index at bound
  rcases bound.lt_or_eq with inside | atEnd
  · have settled : it.settle index = ⟨it.rows, some index, by
        rintro _ ⟨⟩
        exact inside⟩ := by
      rw [settle, dif_pos (by omega)]
      simp
    rw [settled, if_pos (by simp [valid])]
    exact remaining_settle_desc _ inside.le
  have settled : it.settle index = ⟨it.rows, none, by simp⟩ := by
    rw [settle, dif_neg (by omega)]
  rw [settled, if_neg (by simp [valid]), atEnd, take_length]
  exact remaining_last _

end Iterator

section Sorted

variable {rows : List (Bytes × Bytes)} (sorted : rows.Pairwise fun first second => first.1 < second.1)

include sorted in
theorem drop_findIdx_of_sorted (key : Bytes) :
    rows.drop (rows.findIdx fun row => key ≤ row.1) = rows.filter fun row => key ≤ row.1 := by
  induction rows with
  | nil => rfl
  | cons row rows ih =>
    obtain ⟨above, rest⟩ := pairwise_cons.mp sorted
    by_cases reached : key ≤ row.1
    · rw [findIdx_cons]
      simp only [reached, decide_true, cond_true, drop_zero]
      rw [filter_eq_self.mpr]
      intro other listed
      rcases mem_cons.mp listed with rfl | later
      · simpa using reached
      · simpa using reached.trans (above other later).le
    · rw [findIdx_cons, filter_cons]
      simpa [reached] using ih rest

include sorted in
theorem take_findIdx_of_sorted (key : Bytes) :
    rows.take (rows.findIdx fun row => key ≤ row.1) = rows.filter fun row => row.1 < key := by
  induction rows with
  | nil => rfl
  | cons row rows ih =>
    obtain ⟨above, rest⟩ := pairwise_cons.mp sorted
    by_cases reached : key ≤ row.1
    · rw [findIdx_cons]
      simp only [reached, decide_true, cond_true, take_zero]
      symm
      rw [filter_eq_nil_iff]
      intro other listed
      rcases mem_cons.mp listed with rfl | later
      · simpa using reached
      · simpa using reached.trans (above other later).le
    · rw [findIdx_cons, filter_cons]
      simpa [reached, not_le.mp reached] using ih rest

end Sorted

end Remem.Storage
