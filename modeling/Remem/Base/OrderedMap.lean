import Mathlib

/-!
# Ordered maps

A finite map kept as the list of its entries in key order, as an ordered store
keeps them.
-/

namespace Remem.Base

open List

universe u v

structure OrderedMap (Key : Type u) (Value : Type v) [LinearOrder Key] where
  entries : List (Key × Value)
  sorted : entries.Pairwise fun first second => first.1 < second.1

namespace OrderedMap

variable {Key : Type u} {Value : Type v} [LinearOrder Key]

instance [DecidableEq Value] : DecidableEq (OrderedMap Key Value) := fun first second =>
  decidable_of_iff (first.entries = second.entries) (by
    cases first
    cases second
    simp)

def empty : OrderedMap Key Value := ⟨[], List.Pairwise.nil⟩

def get (map : OrderedMap Key Value) (key : Key) : Option Value :=
  (map.entries.find? fun entry => entry.1 = key).map Prod.snd

def set (map : OrderedMap Key Value) (key : Key) (value : Value) : OrderedMap Key Value where
  entries := map.entries.filter (fun entry => entry.1 < key) ++
    (key, value) :: map.entries.filter (fun entry => key < entry.1)
  sorted := by
    simp only [pairwise_append, pairwise_cons, mem_filter, mem_cons, decide_eq_true_eq]
    refine ⟨map.sorted.filter _, ⟨?_, map.sorted.filter _⟩, ?_⟩
    · intro entry above
      exact above.2
    · rintro first ⟨_, below⟩ second (rfl | ⟨_, above⟩)
      · exact below
      · exact below.trans above

def erase (map : OrderedMap Key Value) (key : Key) : OrderedMap Key Value where
  entries := map.entries.filter fun entry => entry.1 ≠ key
  sorted := map.sorted.filter _

def scan (map : OrderedMap Key Value) (accepts : Key → Bool) : List (Key × Value) :=
  map.entries.filter fun entry => accepts entry.1

theorem nodup_keys (map : OrderedMap Key Value) : (map.entries.map Prod.fst).Nodup := by
  rw [List.Nodup, pairwise_map]
  exact map.sorted.imp fun less => less.ne

variable {map : OrderedMap Key Value} {key : Key}

theorem value_unique {first second : Value} (firstMember : (key, first) ∈ map.entries)
    (secondMember : (key, second) ∈ map.entries) : first = second := by
  have equal := inj_on_of_nodup_map map.nodup_keys firstMember secondMember rfl
  exact congrArg Prod.snd equal

variable {value : Value}

theorem get_eq_some_iff : map.get key = some value ↔ (key, value) ∈ map.entries := by
  rw [get, Option.map_eq_some_iff]
  constructor
  · rintro ⟨⟨found, other⟩, first, rfl⟩
    have equal : found = key := by simpa using find?_some first
    subst equal
    exact mem_of_find?_eq_some first
  intro membership
  have present : (map.entries.find? fun entry => entry.1 = key).isSome := by
    rw [find?_isSome]
    exact ⟨_, membership, by simp⟩
  rcases Option.isSome_iff_exists.mp present with ⟨⟨found, other⟩, first⟩
  have equal : found = key := by simpa using find?_some first
  subst equal
  exact ⟨_, first, value_unique (mem_of_find?_eq_some first) membership⟩

@[simp]
theorem get_empty (key : Key) : (empty : OrderedMap Key Value).get key = none := rfl

theorem mem_set {entry : Key × Value} : entry ∈ (map.set key value).entries ↔
      entry = (key, value) ∨ entry ∈ map.entries ∧ entry.1 ≠ key := by
  simp only [set, mem_append, mem_cons, mem_filter, decide_eq_true_eq, ne_iff_lt_or_gt]
  tauto

theorem mem_erase {entry : Key × Value} :
    entry ∈ (map.erase key).entries ↔ entry ∈ map.entries ∧ entry.1 ≠ key := by
  simp [erase]

theorem get_set (map : OrderedMap Key Value) (key other : Key) (value : Value)
    [Decidable (other = key)] :
    (map.set key value).get other = if other = key then some value else map.get other := by
  ext found
  rw [get_eq_some_iff, mem_set]
  by_cases same : other = key
  · simp [same, eq_comm]
  · simp [same, get_eq_some_iff]

theorem get_erase (map : OrderedMap Key Value) (key other : Key) [Decidable (other = key)] :
    (map.erase key).get other = if other = key then none else map.get other := by
  ext found
  rw [get_eq_some_iff, mem_erase]
  by_cases same : other = key
  · simp [same]
  · simp [same, get_eq_some_iff]

theorem ext_entries {first second : OrderedMap Key Value}
    (same : first.entries = second.entries) : first = second := by
  cases first
  cases second
  simpa using same

theorem foldl_set (map : OrderedMap Key Value) :
    map.entries.foldl (fun map entry => map.set entry.1 entry.2) empty = map := by
  suffices later : ∀ entries (start : OrderedMap Key Value),
      ((start.entries ++ entries).Pairwise fun first second => first.1 < second.1) →
      (entries.foldl (fun map entry => map.set entry.1 entry.2) start).entries =
        start.entries ++ entries by
    exact ext_entries (later map.entries empty map.sorted)
  intro entries
  induction entries with
  | nil => simp
  | cons entry rest ih =>
    intro start sorted
    have below : ∀ first ∈ start.entries, first.1 < entry.1 := fun first member =>
      (pairwise_append.mp sorted).2.2 first member entry (mem_cons_self ..)
    have last : (start.set entry.1 entry.2).entries = start.entries ++ [entry] := by
      simp only [set]
      rw [filter_eq_self.mpr (by simpa using below),
        filter_eq_nil_iff.mpr (by simpa using fun a b member => (below (a, b) member).le)]
    rw [foldl_cons, ih _ (by simpa [last] using sorted), last]
    simp

@[simp]
theorem get_set_self (map : OrderedMap Key Value) (key : Key) (value : Value) :
    (map.set key value).get key = some value := by
  simp [get_set]

theorem get_set_of_ne (map : OrderedMap Key Value) {other : Key} (value : Value)
    (different : other ≠ key) : (map.set key value).get other = map.get other := by
  simp [get_set, different]

@[simp]
theorem get_erase_self (map : OrderedMap Key Value) (key : Key) :
    (map.erase key).get key = none := by
  simp [get_erase]

theorem get_erase_of_ne (map : OrderedMap Key Value) {other : Key} (different : other ≠ key) :
    (map.erase key).get other = map.get other := by
  simp [get_erase, different]

variable {accepts : Key → Bool}

theorem mem_scan : (key, value) ∈ map.scan accepts ↔ map.get key = some value ∧ accepts key := by
  rw [scan, mem_filter, get_eq_some_iff]

theorem sorted_scan (map : OrderedMap Key Value) (accepts : Key → Bool) :
    (map.scan accepts).Pairwise fun first second => first.1 < second.1 :=
  map.sorted.filter _

theorem scan_eq_singleton (found : map.get key = some value) (accepted : accepts key = true)
    (only : ∀ other row, map.get other = some row → accepts other = true → other = key) :
    map.scan accepts = [(key, value)] := by
  have nodup : (map.scan accepts).Nodup :=
    (map.sorted_scan accepts).imp fun less same => less.ne (congrArg Prod.fst same)
  refine perm_singleton.mp ((perm_ext_iff_of_nodup nodup (nodup_singleton _)).mpr ?_)
  rintro ⟨other, row⟩
  rw [mem_scan, mem_singleton, Prod.mk.injEq]
  constructor
  · rintro ⟨isRow, passes⟩
    obtain rfl := only other row isRow passes
    exact ⟨rfl, Option.some.inj (isRow.symm.trans found)⟩
  · rintro ⟨rfl, rfl⟩
    exact ⟨found, accepted⟩

theorem scan_eq_nil (none : ∀ key value, map.get key = some value → accepts key = false) :
    map.scan accepts = [] := by
  apply eq_nil_iff_forall_not_mem.mpr
  rintro ⟨key, value⟩ listed
  obtain ⟨found, accepted⟩ := mem_scan.mp listed
  rw [none key value found] at accepted
  cases accepted

end OrderedMap

end Remem.Base
