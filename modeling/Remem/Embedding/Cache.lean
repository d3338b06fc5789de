import Mathlib.Data.Finset.Card
import Mathlib.Data.List.Lookmap

/-!
# The embedding cache

A text is kept under its digest. What the cache holds is the start of all texts put or hit, in the
order of their last use.
-/

namespace Remem.Embedding

open List

variable {Text Key Vec : Type} [DecidableEq Text] [DecidableEq Key]

/-- `cache`: the keys of its map, and its list, the most recently used in front. An element of the
list is known by the key of its entry, which never changes. -/
structure Cache (Key Vec : Type) where
  capacity : Nat
  entries : Key → Bool
  order : List (Key × Vec)

def newCache (capacity : Nat) : Cache Key Vec := ⟨capacity, fun _ => false, []⟩

namespace Cache

variable (cache : Cache Key Vec) (key : Key) (vec : Vec)

/-- The element of the key goes to the front, with the vector. -/
def moveToFront : Cache Key Vec :=
  { cache with order := (key, vec) :: cache.order.filter (·.1 ≠ key) }

def get : Cache Key Vec × Option Vec :=
  if cache.capacity = 0 then (cache, none)
  else if cache.entries key then
    match cache.order.lookup key with
    | some vec => (cache.moveToFront key vec, some vec)
    | none => (cache, none)
  else (cache, none)

def removeBack : Cache Key Vec :=
  match cache.order.getLast? with
  | none => cache
  | some oldest => { cache with
      entries := Function.update cache.entries oldest.1 false
      order := cache.order.dropLast }

/-- The loop removes an element for each one over the capacity. -/
def put : Cache Key Vec :=
  if cache.capacity = 0 then cache
  else if cache.entries key then cache.moveToFront key vec
  else removeBack^[cache.order.length + 1 - cache.capacity] { cache with
    entries := Function.update cache.entries key true
    order := (key, vec) :: cache.order }

end Cache

inductive Call (Text Vec : Type) where
  | get (text : Text)
  | put (text : Text) (vec : Vec)

def Call.text : Call Text Vec → Text
  | .get text => text
  | .put text _ => text

/-- The cache after some calls, and the texts put or hit by them; the last stand first. -/
def run (digest : Text → Key) (capacity : Nat) : List (Call Text Vec) → Cache Key Vec × List Text
  | [] => (newCache capacity, [])
  | .get text :: calls =>
    let (cache, touched) := run digest capacity calls
    let (after, found) := cache.get (digest text)
    (after, if found.isSome then text :: touched else touched)
  | .put text vec :: calls =>
    let (cache, touched) := run digest capacity calls
    (cache.put (digest text) vec, text :: touched)

def lastPut (text : Text) : List (Call Text Vec) → Option Vec
  | [] => none
  | .get _ :: calls => lastPut text calls
  | .put other vec :: calls => if other = text then some vec else lastPut text calls

/-- The texts touched, each where it was touched last. -/
def recent : List Text → List Text
  | [] => []
  | text :: touched => text :: (recent touched).filter (· ≠ text)

variable {text : Text} {texts touched : List Text} {count : Nat}

theorem nodup_recent (touched : List Text) : (recent touched).Nodup := by
  induction touched with
  | nil => exact nodup_nil
  | cons text touched ih =>
    exact nodup_cons.mpr ⟨fun listed => by simp at listed, ih.filter _⟩

theorem toFinset_takeWhile_recent (text : Text) (touched : List Text) :
    ((recent touched).takeWhile (· ≠ text)).toFinset = (touched.takeWhile (· ≠ text)).toFinset := by
  induction touched with
  | nil => rfl
  | cons other touched ih =>
    by_cases same : other = text
    · simp [recent, same]
    have kept : ((recent touched).filter (· ≠ other)).takeWhile (· ≠ text) =
        ((recent touched).takeWhile (· ≠ text)).filter (· ≠ other) := by
      induction recent touched with
      | nil => rfl
      | cons next rest ih => by_cases next = other <;> by_cases next = text <;> simp_all
    rw [recent, takeWhile_cons_of_pos (by simpa), takeWhile_cons_of_pos (by simpa), kept]
    ext listed
    by_cases listed = other <;> simp_all

theorem mem_take_iff : text ∈ texts.take count ↔
    text ∈ texts ∧ (texts.takeWhile (· ≠ text)).length < count := by
  induction texts generalizing count with
  | nil => simp
  | cons next rest ih =>
    cases count with
    | zero => simp
    | succ count =>
      by_cases same : next = text
      · simp [same]
      · simp [Ne.symm same, same, ih]

theorem take_filter_ne (distinct : texts.Nodup) : (texts.filter (· ≠ text)).take count =
      ((texts.take (count + 1)).filter (· ≠ text)).take count := by
  induction texts generalizing count with
  | nil => rfl
  | cons next rest ih =>
    obtain ⟨absent, distinct⟩ := nodup_cons.mp distinct
    by_cases same : next = text
    · subst same
      have kept : ∀ part ⊆ rest, part.filter (· ≠ next) = part := fun part within =>
        filter_eq_self.mpr fun other listed => decide_eq_true fun same => absent (same ▸ within listed)
      rw [take_succ_cons, filter_cons_of_neg (by simp), filter_cons_of_neg (by simp),
        kept _ (List.Subset.refl _), kept _ (take_subset _ _), take_take, min_self]
    cases count with
    | zero => rfl
    | succ count => simpa [same] using ih distinct

variable {digest : Text → Key} {capacity : Nat} {cache after : Cache Key Vec} {key : Key} {vec : Vec}
  {calls later : List (Call Text Vec)}

theorem lookup_of_contents (injective : digest.Injective) {order : List (Key × Vec)}
    {value : Text → Option Vec}
    (contents : order.map (Prod.map id some) = texts.map fun text => (digest text, value text)) :
    order.lookup (digest text) = if text ∈ texts then value text else none := by
  induction texts generalizing order with
  | nil => simp [map_eq_nil_iff.mp contents]
  | cons next rest ih =>
    obtain ⟨⟨key, vec⟩, order, rfl, head, tail⟩ := map_eq_cons_iff.mp contents
    obtain ⟨rfl, isVec⟩ := Prod.mk.inj head
    by_cases same : text = next
    · simp [same, ← isVec]
    · simp [lookup_cons, beq_eq_false_iff_ne.mpr (injective.ne same), same, ih tail]

/-- The map and the list hold the same keys, once each. -/
structure Linked (cache : Cache Key Vec) : Prop where
  keys : ∀ key, cache.entries key = true ↔ key ∈ cache.order.map Prod.fst
  distinct : (cache.order.map Prod.fst).Nodup

theorem Linked.removeBack (linked : Linked cache) :
    Linked cache.removeBack ∧ cache.removeBack.order = cache.order.dropLast ∧
      cache.removeBack.capacity = cache.capacity := by
  obtain ⟨capacity, entries, order⟩ := cache
  obtain rfl | ⟨order, oldest, rfl⟩ := eq_nil_or_concat order
  · exact ⟨linked, rfl, rfl⟩
  obtain ⟨keys, distinct⟩ := linked
  simp only [concat_eq_append, map_append, nodup_append, map_cons, map_nil] at keys distinct ⊢
  simp only [Cache.removeBack, getLast?_concat, dropLast_concat, and_self, and_true]
  refine ⟨fun key => ?_, distinct.1⟩
  by_cases same : key = oldest.1
  · have absent : oldest.1 ∉ order.map Prod.fst :=
      fun listed => distinct.2.2 _ listed _ mem_cons_self rfl
    simpa [same] using absent
  · simp [same, keys]

/-- The key comes to the front, and the list is cut to the capacity. -/
structure Touches (key : Key) (vec : Vec) (cache after : Cache Key Vec) : Prop
    extends Linked after where
  size : after.capacity = cache.capacity
  order : after.order = ((key, vec) :: cache.order.filter (·.1 ≠ key)).take cache.capacity

section Linked

variable (linked : Linked cache) (positive : cache.capacity ≠ 0)

include linked

theorem Linked.moveToFront (fits : cache.order.length ≤ cache.capacity)
    (held : cache.entries key = true) : Touches key vec cache (cache.moveToFront key vec) := by
  obtain ⟨entry, listed, same⟩ := mem_map.mp ((linked.keys key).mp held)
  have shorter : (cache.order.filter (·.1 ≠ key)).length < cache.order.length :=
    length_filter_lt_length_iff_exists.mpr ⟨entry, listed, by simp [same]⟩
  refine ⟨⟨fun other => ?_, nodup_cons.mpr ⟨by simp, ?_⟩⟩, rfl,
    (take_of_length_le (shorter.trans_le fits)).symm⟩
  · by_cases same : other = key
    · simpa [same, Cache.moveToFront] using held
    · simp [same, Cache.moveToFront, linked.keys]
  · exact linked.distinct.sublist (filter_sublist.map Prod.fst)

include positive

theorem Linked.put (fits : cache.order.length ≤ cache.capacity) :
    Touches key vec cache (cache.put key vec) := by
  unfold Cache.put
  rw [if_neg positive]
  split
  · next held => exact linked.moveToFront fits held
  next absent =>
  have new : key ∉ cache.order.map Prod.fst := (linked.keys key).not.mp absent
  have all : cache.order.filter (·.1 ≠ key) = cache.order :=
    filter_eq_self.mpr fun entry listed =>
      decide_eq_true fun same => new (same ▸ mem_map_of_mem listed)
  have pushed : Linked (⟨cache.capacity, Function.update cache.entries key true,
      (key, vec) :: cache.order⟩ : Cache Key Vec) := by
    refine ⟨fun other => ?_, nodup_cons.mpr ⟨new, linked.distinct⟩⟩
    by_cases same : other = key <;> simp [same, linked.keys]
  by_cases room : cache.order.length < cache.capacity
  · rw [show cache.order.length + 1 - cache.capacity = 0 by omega]
    exact ⟨pushed, rfl, all.symm ▸ (take_of_length_le room).symm⟩
  rw [show cache.order.length + 1 - cache.capacity = 1 by omega]
  obtain ⟨linked, order, size⟩ := pushed.removeBack
  refine ⟨linked, size, order.trans ?_⟩
  rw [all, dropLast_eq_take, length_cons, show cache.capacity = cache.order.length by omega]
  rfl

theorem Linked.get_snd : (cache.get key).2 = cache.order.lookup key := by
  rw [Cache.get, if_neg positive]
  by_cases held : cache.entries key = true
  · rw [if_pos held]
    cases cache.order.lookup key <;> rfl
  rw [if_neg held]
  rw [linked.keys] at held
  refine (lookup_eq_none_iff.mpr fun entry listed => ?_).symm
  exact bne_iff_ne.mpr fun same => held (same ▸ mem_map_of_mem listed)

end Linked

/-- The cache after the calls: the texts used last, each with the vector put last. -/
structure Exact (digest : Text → Key) (capacity : Nat) (calls : List (Call Text Vec))
    (cache : Cache Key Vec) (touched : List Text) : Prop extends Linked cache where
  size : cache.capacity = capacity
  contents : cache.order.map (Prod.map id some) =
    ((recent touched).take capacity).map fun text => (digest text, lastPut text calls)
  puts : ∀ text ∉ recent touched, lastPut text calls = none

omit [DecidableEq Key] in
theorem Exact.fits (exact : Exact digest capacity calls cache touched) :
    cache.order.length ≤ capacity := by
  have lengths := congrArg length exact.contents
  rw [length_map, length_map] at lengths
  rw [lengths]
  exact length_take_le _ _

section Runs

variable (injective : digest.Injective) (positive : capacity ≠ 0)

include injective positive

theorem Exact.touch (exact : Exact digest capacity calls cache touched)
    (touches : Touches (digest text) vec cache after)
    (isVec : lastPut text later = some vec)
    (others : ∀ other ≠ text, lastPut other later = lastPut other calls) :
    Exact digest capacity later after (text :: touched) := by
  obtain ⟨count, rfl⟩ := Nat.exists_eq_succ_of_ne_zero positive
  have order := exact.size ▸ touches.order
  -- for an injective digest, to drop a key from the list is to drop its text
  have moved : (cache.order.filter (·.1 ≠ digest text)).map (Prod.map id some) =
      (((recent touched).take (count + 1)).filter (· ≠ text)).map
        fun text => (digest text, lastPut text calls) := by
    have filtered := congrArg (filter (·.1 ≠ digest text)) exact.contents
    simpa only [filter_map, Function.comp_def, Prod.map_fst, id_eq, injective.ne_iff] using filtered
  refine ⟨touches.toLinked, touches.size.trans exact.size, ?_, fun other absent => ?_⟩
  · rw [order, recent, take_succ_cons, take_succ_cons, map_cons, map_cons, isVec,
      take_filter_ne (nodup_recent _), map_take, map_take, moved]
    congr 2
    refine map_congr_left fun other listed => ?_
    rw [others other (by simpa using (mem_filter.mp listed).2)]
  · simp only [recent, mem_cons, mem_filter, not_or] at absent
    rw [others other absent.1]
    exact exact.puts other fun listed => absent.2 ⟨listed, by simpa using absent.1⟩

theorem exact_run (calls : List (Call Text Vec)) :
    Exact digest capacity calls (run digest capacity calls).1 (run digest capacity calls).2 := by
  induction calls with
  | nil =>
    refine ⟨⟨by simp [run, newCache], nodup_nil⟩, rfl, ?_, fun _ _ => rfl⟩
    simp [run, recent, newCache]
  | cons call calls ih =>
    have fits := ih.fits.trans_eq ih.size.symm
    have some := ih.size.symm ▸ positive
    cases call with
    | put text vec =>
      refine ih.touch injective positive (ih.put some fits) (if_pos rfl) fun other different => ?_
      exact if_neg different.symm
    | get text =>
      rw [run]
      dsimp only
      rw [Cache.get, if_neg some]
      split
      · next held =>
        split
        · next vec isVec =>
          have found := (lookup_of_contents injective ih.contents).symm.trans isVec
          exact ih.touch injective positive (ih.moveToFront fits held)
            (Option.ite_none_right_eq_some.mp found).2 fun _ _ => rfl
        · exact ⟨ih.toLinked, ih.size, ih.contents, ih.puts⟩
      · -- a miss moves nothing and touches nothing
        exact ⟨ih.toLinked, ih.size, ih.contents, ih.puts⟩

theorem get_run (calls : List (Call Text Vec)) (text : Text) :
    ((run digest capacity calls).1.get (digest text)).2 =
      if ((run digest capacity calls).2.takeWhile (· ≠ text)).toFinset.card < capacity then
        lastPut text calls
      else none := by
  have exact := exact_run injective positive calls
  rw [exact.get_snd (exact.size.symm ▸ positive), lookup_of_contents injective exact.contents,
    ← toFinset_takeWhile_recent,
    toFinset_card_of_nodup ((nodup_recent _).sublist (takeWhile_sublist _))]
  simp only [mem_take_iff]
  by_cases listed : text ∈ recent (run digest capacity calls).2
  · simp [listed]
  · simp [listed, exact.puts text listed]

end Runs

/-- The cache is a true LRU: a get finds what was put last, if it was put at all and fewer other
texts than the capacity were put or found since the text was. -/
theorem cache_is_lru (injective : digest.Injective) (positive : capacity ≠ 0)
    (calls : List (Call Text Vec)) :
    let (cache, touched) := run digest capacity calls
    (∀ key, cache.entries key = true ↔ key ∈ cache.order.map Prod.fst) ∧
    (cache.order.map Prod.fst).Nodup ∧ cache.order.length ≤ capacity ∧
    (∀ text, (cache.get (digest text)).2 =
      if (touched.takeWhile (· ≠ text)).toFinset.card < capacity then lastPut text calls
      else none) ∧
    ∀ call text vec other, text ≠ call.text → (cache.get (digest text)).2 = some vec →
      ((run digest capacity (call :: calls)).1.get (digest text)).2 = some other →
      other = vec := by
  have exact := exact_run injective positive calls
  refine ⟨exact.keys, exact.distinct, exact.fits, get_run injective positive calls, ?_⟩
  intro call text vec other different before after
  have kept : lastPut text (call :: calls) = lastPut text calls := by
    cases call with
    | get _ => rfl
    | put _ _ => exact if_neg fun same => different same.symm
  rw [get_run injective positive, Option.ite_none_right_eq_some] at before after
  rw [kept] at after
  exact Option.some.inj (after.2.symm.trans before.2)

theorem cache_is_lru_evicts :
    ((run id 1 [.put 2 20, .put 1 10] : Cache Nat Nat × List Nat).1.get 1).2 = none :=
  ((cache_is_lru Function.injective_id one_ne_zero [.put 2 20, .put 1 10]).2.2.2.1 1).trans
    (by decide)

end Remem.Embedding
