import Remem.Base.Binary32
import Remem.Keys.Layout

/-!
# Rank fusion

Several rankings of the same records merged by position. Scores are bit patterns of
single-precision numbers; the fused scores are any ordered type with an addition of which
nothing is assumed.
-/

namespace Remem.Query

open Base Keys List Function

inductive Source where
  | unspecified
  | attr
  | vector
  | text
  | graph
  deriving DecidableEq, Repr

structure RankedItem (Fused : Type) where
  id : Id
  score : UInt32
  ordering : Fused
  distance : UInt32
  passage : UInt32

structure RankedList (Fused : Type) where
  source : Source
  items : List (RankedItem Fused)

structure Contribution where
  source : Source
  score : UInt32
  distance : UInt32
  rank : Nat
  passage : UInt32

structure Hit (Fused : Type) where
  id : Id
  score : UInt32
  fusedScore : Fused
  distance : UInt32
  sources : List Contribution
  vector : Bool
  passage : UInt32

/-- `clamp01`, with the bits of 0 and of 1. -/
def clamp01 (bits : UInt32) : UInt32 :=
  if Binary32.less bits 0 then 0
  else if Binary32.less 0x3F800000 bits then 0x3F800000
  else bits

/-- The loop of `best` in `deriveScore`. -/
def best (want : Source) (sources : List Contribution) : Option UInt32 :=
  sources.foldl (fun found each =>
    if each.source ≠ want then found
    else match found with
      | none => some each.score
      | some out => if Binary32.less out each.score then some each.score else some out) none

def deriveScore (sources : List Contribution) : UInt32 :=
  match [Source.vector, .text, .graph, .attr].findSome? (best · sources) with
  | some score => clamp01 score
  | none => 0

def vectorDistance (sources : List Contribution) : UInt32 :=
  match sources.find? fun each => each.source = .vector with
  | some each => each.distance
  | none => 0

/-- One step of the insertion sort that `sort.SliceStable` makes of so few elements, over
the sorted part from its end: the element moves left past those that it beats. -/
def insertLast (each : Contribution) : List Contribution → List Contribution
  | [] => [each]
  | last :: others =>
    if Binary32.less last.score each.score then last :: insertLast each others
    else each :: last :: others

def sortSources (sources : List Contribution) : List Contribution :=
  (sources.foldl (fun sorted each => insertLast each sorted) []).reverse

theorem insertLast_perm (each : Contribution) (sorted : List Contribution) :
    (insertLast each sorted).Perm (each :: sorted) := by
  induction sorted with
  | nil => exact .refl _
  | cons last others ih =>
    rw [insertLast]
    split
    · exact (ih.cons last).trans (.swap ..)
    · exact .refl _

theorem sortSources_perm (sources : List Contribution) : (sortSources sources).Perm sources := by
  suffices inserted : ∀ sorted : List Contribution,
      (sources.foldl (fun sorted each => insertLast each sorted) sorted).Perm
        (sources.reverse ++ sorted) by
    refine (reverse_perm _).trans ((inserted []).trans ?_)
    rw [append_nil]
    exact reverse_perm _
  induction sources with
  | nil => exact fun _ => .refl _
  | cons first rest ih =>
    intro sorted
    refine (ih _).trans ?_
    simpa using (insertLast_perm first sorted).append_left rest.reverse

def Contribution.isVector (each : Contribution) : Bool := each.source = .vector

theorem evidence_of_vector {sources : List Contribution} {own : Contribution}
    (only : sources.filter Contribution.isVector = [own]) :
    deriveScore sources = clamp01 own.score ∧ vectorDistance sources = own.distance := by
  have scored : best .vector sources = some own.score := by
    have passed : best .vector sources = best .vector (sources.filter Contribution.isVector) := by
      rw [best, best, foldl_filter]
      congr 1
      funext found each
      by_cases vector : each.source = .vector <;> simp [Contribution.isVector, vector]
    have isVector : own.source = .vector := by
      have listed : own ∈ sources.filter Contribution.isVector := by simp [only]
      simpa [Contribution.isVector] using (mem_filter.mp listed).2
    rw [passed, only]
    simp [best, isVector]
  have found : sources.find? (fun each => each.source = .vector) = some own := by
    change sources.find? Contribution.isVector = _
    rw [← head?_filter, only]
    rfl
  constructor
  · simp [deriveScore, scored]
  · simp [vectorDistance, found]

section Fuse

variable {Fused : Type}

def cut {Item : Type} (limit : Int) (items : List Item) : List Item :=
  if 0 < limit ∧ limit < items.length then items.take limit.toNat else items

structure Entry (Fused : Type) where
  source : Source
  rank : Nat
  item : RankedItem Fused

def Entry.contribution (entry : Entry Fused) : Contribution :=
  ⟨entry.source, entry.item.score, entry.item.distance, entry.rank, entry.item.passage⟩

def RankedList.entries (list : RankedList Fused) : List (Entry Fused) :=
  list.items.zipIdx.map fun (item, rank) => ⟨list.source, rank, item⟩

def single (list : RankedList Fused) (limit : Int) : List (Hit Fused) :=
  (RankedList.entries ⟨list.source, cut limit list.items⟩).map fun entry =>
    ⟨entry.item.id, deriveScore [entry.contribution], entry.item.ordering, entry.item.distance,
      [entry.contribution], entry.source = .vector, entry.item.passage⟩

/-- The order of the hits: by the fused score, and by the id where that is the same. -/
def Hit.before [LinearOrder Fused] (first second : Hit Fused) : Bool :=
  if first.fusedScore ≠ second.fusedScore then second.fusedScore < first.fusedScore
  else first.id ≤ second.id

theorem Hit.before_iff [LinearOrder Fused] (first second : Hit Fused) : first.before second = true ↔
    second.fusedScore < first.fusedScore ∨
      first.fusedScore = second.fusedScore ∧ first.id ≤ second.id := by
  rw [Hit.before]
  split
  · next differ => simp [differ]
  next same =>
  rw [not_not] at same
  simp [same]

def evidence (lists : List (RankedList Fused)) (rid : Id) : List (Entry Fused) :=
  (lists.flatMap RankedList.entries).filter fun entry => entry.item.id = rid

def ranksOf (lists : List (RankedList Fused)) (rid : Id) : List Nat :=
  (lists.map fun list => list.items.map RankedItem.id).flatMap fun ids =>
    (ids.zipIdx.filter fun place => place.1 = rid).map Prod.snd

theorem ranksOf_eq (lists : List (RankedList Fused)) (rid : Id) :
    ranksOf lists rid = (evidence lists rid).map Entry.rank := by
  simp only [ranksOf, evidence, filter_flatMap, map_flatMap, flatMap_map]
  refine flatMap_congr fun list _ => ?_
  simp [RankedList.entries, zipIdx_map, filter_map, comp_def]

structure Acc (Fused : Type) where
  fused : Fused
  sources : List Contribution
  vector : Bool
  passage : UInt32

variable [Zero Fused] [Add Fused] (share : Nat → Fused)

def Acc.empty : Acc Fused := ⟨0, [], false, 0⟩

/-- What the body of the inner loop of `Fuse` adds; a rank's share is `1 / (60 + rank + 1)`. -/
def Acc.add (acc : Acc Fused) (entry : Entry Fused) : Acc Fused where
  fused := acc.fused + share entry.rank
  sources := acc.sources ++ [entry.contribution]
  vector := acc.vector || entry.source = .vector
  passage := if entry.source = .vector then entry.item.passage else acc.passage

/-- `fused` and `order` of `Fuse`; an id that is not in the order has nothing in the map. -/
structure Merge (Fused : Type) where
  accs : Id → Acc Fused
  order : List Id

def Merge.note (merge : Merge Fused) (entry : Entry Fused) : Merge Fused where
  accs := Function.update merge.accs entry.item.id ((merge.accs entry.item.id).add share entry)
  order := if entry.item.id ∈ merge.order then merge.order else merge.order ++ [entry.item.id]

def gather (lists : List (RankedList Fused)) : Merge Fused :=
  lists.foldl (fun merge list => list.entries.foldl (Merge.note share) merge) ⟨fun _ => .empty, []⟩

def hitOf (rid : Id) (acc : Acc Fused) : Hit Fused :=
  ⟨rid, deriveScore (sortSources acc.sources), acc.fused, vectorDistance (sortSources acc.sources),
    sortSources acc.sources, acc.vector, acc.passage⟩

/-- What is held once the entries are noted: each of their ids once, with all that the
entries of the id add up to. -/
structure Merge.Holds (merge : Merge Fused) (entries : List (Entry Fused)) : Prop where
  once : merge.order.Nodup
  seen : ∀ rid, rid ∈ merge.order ↔ ∃ entry ∈ entries, entry.item.id = rid
  sum : ∀ rid, merge.accs rid =
    (entries.filter fun entry => entry.item.id = rid).foldl (Acc.add share) .empty

theorem Merge.Holds.note {merge : Merge Fused} {entries : List (Entry Fused)}
    (holds : merge.Holds share entries) (entry : Entry Fused) :
    (merge.note share entry).Holds share (entries ++ [entry]) where
  once := by
    rw [Merge.note]
    split
    · exact holds.once
    · next fresh => exact holds.once.append (nodup_singleton _) (by simpa using fresh)
  seen rid := by
    have seen : (∃ each ∈ entries ++ [entry], each.item.id = rid) ↔
        rid ∈ merge.order ∨ entry.item.id = rid := by
      simp [holds.seen rid, or_and_right, exists_or]
    rw [seen, Merge.note]
    split
    · next old => exact ⟨.inl, fun either => either.elim id fun same => same ▸ old⟩
    · simp [eq_comm]
  sum rid := by
    rw [Merge.note, filter_append, foldl_append, ← holds.sum rid]
    by_cases same : entry.item.id = rid
    · simp [same]
    · simp [same, update_of_ne (Ne.symm same)]

theorem gather_holds (lists : List (RankedList Fused)) :
    (gather share lists).Holds share (lists.flatMap RankedList.entries) := by
  rw [gather, ← foldl_flatMap]
  induction lists.flatMap RankedList.entries using List.reverseRecOn with
  | nil => exact ⟨nodup_nil, by simp, fun _ => rfl⟩
  | append_singleton entries entry ih =>
    rw [foldl_append]
    exact ih.note share entry

def total (lists : List (RankedList Fused)) (rid : Id) : Fused :=
  (ranksOf lists rid).foldl (fun sum rank => sum + share rank) 0

theorem fused_gather (lists : List (RankedList Fused)) (rid : Id) :
    ((gather share lists).accs rid).fused = total share lists rid := by
  rw [(gather_holds share lists).sum, total, ranksOf_eq, foldl_map]
  exact (foldl_hom Acc.fused fun _ _ => rfl).symm

variable [LinearOrder Fused]

def fuse (lists : List (RankedList Fused)) (limit : Int) : List (Hit Fused) :=
  let merge := gather share lists
  cut limit ((merge.order.map fun rid => hitOf rid (merge.accs rid)).mergeSort Hit.before)

/-- By the sum of the shares, and by the id where that is the same. -/
def Outranks (lists : List (RankedList Fused)) (first second : Id) : Prop :=
  total share lists second < total share lists first ∨
    total share lists first = total share lists second ∧ first < second

def ranking (lists : List (RankedList Fused)) : List (Hit Fused) :=
  ((gather share lists).order.map fun rid =>
    hitOf rid ((gather share lists).accs rid)).mergeSort Hit.before

theorem eq_hitOf_of_mem {lists : List (RankedList Fused)} {hit : Hit Fused}
    (listed : hit ∈ ranking share lists) :
    hit = hitOf hit.id ((gather share lists).accs hit.id) := by
  obtain ⟨rid, _, rfl⟩ := mem_map.mp (mem_mergeSort.mp listed)
  rfl

theorem ids_ranking (lists : List (RankedList Fused)) :
    ((ranking share lists).map Hit.id).Perm (gather share lists).order := by
  have perm := (mergeSort_perm ((gather share lists).order.map fun rid =>
    hitOf rid ((gather share lists).accs rid)) Hit.before).map Hit.id
  rw [map_map] at perm
  exact perm.trans (.of_eq (map_id _))

theorem ranking_ordered (lists : List (RankedList Fused)) :
    (ranking share lists).Pairwise fun first second => Outranks share lists first.id second.id := by
  have sorted : (ranking share lists).Pairwise fun first second => first.before second = true := by
    apply pairwise_mergeSort
    · intro first second third early late
      rw [Hit.before_iff] at early late ⊢
      rcases early with early | ⟨sameEarly, early⟩ <;> rcases late with late | ⟨sameLate, late⟩
      · exact .inl (late.trans early)
      · exact .inl (sameLate ▸ early)
      · exact .inl (sameEarly ▸ late)
      · exact .inr ⟨sameEarly.trans sameLate, early.trans late⟩
    · intro first second
      rw [Bool.or_eq_true, Hit.before_iff, Hit.before_iff]
      rcases lt_trichotomy first.fusedScore second.fusedScore with less | same | greater
      · exact .inr (.inl less)
      · rcases le_total first.id second.id with early | late
        · exact .inl (.inr ⟨same, early⟩)
        · exact .inr (.inr ⟨same.symm, late⟩)
      · exact .inl (.inl greater)
  have distinct := (ids_ranking share lists).nodup_iff.mpr (gather_holds share lists).once
  have fused : ∀ hit ∈ ranking share lists, hit.fusedScore = total share lists hit.id := by
    intro hit listed
    rw [← fused_gather]
    exact congrArg Hit.fusedScore (eq_hitOf_of_mem share listed)
  refine (sorted.and (pairwise_map.mp distinct)).imp_of_mem ?_
  rintro first second firstListed secondListed ⟨before, differ⟩
  rw [Hit.before_iff, fused first firstListed, fused second secondListed] at before
  exact before.imp_right fun ⟨same, le⟩ => ⟨same, lt_of_le_of_ne le differ⟩

omit [Zero Fused] [LinearOrder Fused] in
theorem sources_fold (entries : List (Entry Fused)) (acc : Acc Fused) :
    (entries.foldl (Acc.add share) acc).sources =
      acc.sources ++ entries.map Entry.contribution := by
  induction entries generalizing acc with
  | nil => simp
  | cons entry rest ih => simp [ih, Acc.add]

def Entry.isVector (entry : Entry Fused) : Bool := entry.source = .vector

omit [Zero Fused] [LinearOrder Fused] in
theorem vector_fold {entries : List (Entry Fused)} {own : Entry Fused}
    (only : entries.filter Entry.isVector = [own]) (acc : Acc Fused) :
    (entries.foldl (Acc.add share) acc).vector = true ∧
      (entries.foldl (Acc.add share) acc).passage = own.item.passage := by
  have others : ∀ (entries : List (Entry Fused)) (acc : Acc Fused),
      entries.filter Entry.isVector = [] → (entries.foldl (Acc.add share) acc).vector = acc.vector ∧
          (entries.foldl (Acc.add share) acc).passage = acc.passage := by
    intro entries
    induction entries with
    | nil => simp
    | cons entry rest ih =>
      intro acc none
      by_cases vector : entry.source = .vector
      · simp [Entry.isVector, vector] at none
      · have rest := ih (acc.add share entry) (by simpa [Entry.isVector, vector] using none)
        simpa [Acc.add, vector] using rest
  induction entries generalizing acc with
  | nil => cases only
  | cons entry rest ih =>
    by_cases vector : entry.source = .vector
    · obtain ⟨rfl, none⟩ : entry = own ∧ rest.filter Entry.isVector = [] := by
        simpa [Entry.isVector, vector] using only
      simpa [Acc.add, vector] using others rest (acc.add share entry) none
    · refine ih ?_ (acc.add share entry)
      simpa [Entry.isVector, vector] using only

theorem filter_key {Item Key : Type} [DecidableEq Key] {items : List Item} {key : Item → Key}
    (distinct : (items.map key).Nodup) {item : Item} (listed : item ∈ items) :
    items.filter (fun each => key each = key item) = [item] := by
  obtain ⟨before, after, rfl⟩ := append_of_mem listed
  simp only [map_append, map_cons, nodup_append, nodup_cons] at distinct
  obtain ⟨_, ⟨notAfter, _⟩, apart⟩ := distinct
  have noneBefore : before.filter (fun each => key each = key item) = [] := by
    simp only [filter_eq_nil_iff, decide_eq_true_eq]
    exact fun each isBefore => apart _ (mem_map_of_mem isBefore) _ (by simp)
  have noneAfter : after.filter (fun each => key each = key item) = [] := by
    simp only [filter_eq_nil_iff, decide_eq_true_eq]
    exact fun each isAfter same => notAfter (same ▸ mem_map_of_mem isAfter)
  simp [noneBefore, noneAfter]

/-- Lists as the planner's steps make them: each ranks a record once, and no two are of
one source. -/
structure Steps (lists : List (RankedList Fused)) : Prop where
  distinct : ∀ list ∈ lists, (list.items.map RankedItem.id).Nodup
  sources : (lists.map RankedList.source).Nodup

omit [Zero Fused] [Add Fused] [LinearOrder Fused] in
theorem Steps.evidence {lists : List (RankedList Fused)} (steps : Steps lists)
    {entry : Entry Fused} (listed : entry ∈ lists.flatMap RankedList.entries)
    (vector : entry.source = .vector) :
    (evidence lists entry.item.id).filter Entry.isVector = [entry] := by
  let key : Entry Fused → Source × Id := fun entry => (entry.source, entry.item.id)
  have keys : ∀ list : RankedList Fused, list.entries.map key =
      (list.items.map RankedItem.id).map fun rid => (list.source, rid) := by
    intro list
    rw [RankedList.entries, map_map, map_map]
    conv_rhs => rw [← zipIdx_map_fst 0 list.items, map_map]
    rfl
  have distinct : ((lists.flatMap RankedList.entries).map key).Nodup := by
    rw [map_flatMap, nodup_flatMap]
    constructor
    · intro list member
      rw [keys]
      exact (steps.distinct list member).map fun _ _ same => (Prod.mk.inj same).2
    refine (pairwise_map.mp steps.sources).imp fun {first second} differ => ?_
    rw [Function.onFun, keys, keys]
    intro place isFirst isSecond
    simp only [mem_map] at isFirst isSecond
    obtain ⟨_, _, rfl⟩ := isFirst
    obtain ⟨_, _, same⟩ := isSecond
    exact differ (Prod.mk.inj same).1.symm
  rw [← filter_key distinct listed, Query.evidence, filter_filter]
  refine filter_congr fun each _ => ?_
  simp [Entry.isVector, key, vector]

omit [Zero Fused] [Add Fused] [LinearOrder Fused] in
theorem cut_of_pos {Item : Type} {limit : Int} (positive : 1 ≤ limit) (items : List Item) :
    cut limit items = items.take limit.toNat := by
  rw [cut]
  split
  · rfl
  · exact (take_of_length_le (by omega)).symm

/-- Fusion ranks each record that some list ranks once, by the shares of its ranks alone,
and a record that the vector list ranks reports what that list alone would. -/
theorem fuse_rank_only (lists : List (RankedList Fused)) (steps : Steps lists) (limit : Int)
    (positive : 1 ≤ limit) :
    (∃ ranked : List (Hit Fused), fuse share lists limit = ranked.take limit.toNat ∧
      (ranked.map Hit.id).Nodup ∧
      (∀ rid, rid ∈ ranked.map Hit.id ↔ ∃ list ∈ lists, rid ∈ list.items.map RankedItem.id) ∧
      ranked.Pairwise fun first second => Outranks share lists first.id second.id) ∧
    (∀ others : List (RankedList Fused),
      others.map (fun list => (list.source, list.items.map RankedItem.id)) =
        lists.map (fun list => (list.source, list.items.map RankedItem.id)) →
      (fuse share others limit).map Hit.id = (fuse share lists limit).map Hit.id) ∧
    ∀ list ∈ lists, list.source = .vector → ∀ item ∈ list.items,
      ∃ own ∈ single list 0, own.id = item.id ∧ ∀ hit ∈ fuse share lists limit, hit.id = item.id →
          hit.score = own.score ∧ hit.distance = own.distance ∧ hit.vector = own.vector ∧
            hit.passage = own.passage := by
  have cuts : ∀ lists : List (RankedList Fused), fuse share lists limit =
      (ranking share lists).take limit.toNat := fun lists => cut_of_pos positive _
  have once : ∀ lists : List (RankedList Fused), ((ranking share lists).map Hit.id).Nodup :=
    fun lists => (ids_ranking share lists).nodup_iff.mpr (gather_holds share lists).once
  have seen : ∀ (lists : List (RankedList Fused)) (rid : Id),
      rid ∈ (ranking share lists).map Hit.id ↔
        ∃ ids ∈ lists.map (fun list => list.items.map RankedItem.id), rid ∈ ids := by
    intro lists rid
    rw [(ids_ranking share lists).mem_iff, (gather_holds share lists).seen]
    simp [RankedList.entries, mem_zipIdx_iff_getElem?, ← mem_iff_getElem?, and_assoc]
  refine ⟨⟨ranking share lists, cuts lists, once lists, fun rid => by simpa using seen lists rid,
    ranking_ordered share lists⟩, ?_, ?_⟩
  · intro others same
    have ids : others.map (fun list => list.items.map RankedItem.id) =
        lists.map fun list => list.items.map RankedItem.id := by
      simpa [comp_def] using congrArg (List.map Prod.snd) same
    have totals : Outranks share others = Outranks share lists := by
      funext first second
      simp only [Outranks, total, ranksOf, ids]
    rw [cuts, cuts, map_take, map_take]
    congr 1
    refine List.Perm.eq_of_pairwise ?_ (pairwise_map.mpr (ranking_ordered share others))
      (pairwise_map.mpr (totals ▸ ranking_ordered share lists)) ?_
    · rintro first second _ _ (less | ⟨equal, less⟩) (more | ⟨_, more⟩)
      · exact absurd less more.asymm
      · exact absurd less (by simp_all)
      · exact absurd more (by simp_all)
      · exact absurd less more.asymm
    · exact (perm_ext_iff_of_nodup (once others) (once lists)).mpr fun rid => by
        rw [seen, seen, ids]
  · intro list listed vector item ranked
    obtain ⟨rank, place⟩ := mem_iff_getElem?.mp ranked
    let entry : Entry Fused := ⟨.vector, rank, item⟩
    have isEntry : entry ∈ list.entries :=
      mem_map.mpr ⟨(item, rank), mem_zipIdx_iff_getElem?.mpr place, by rw [vector]⟩
    have only := steps.evidence (mem_flatMap.mpr ⟨list, listed, isEntry⟩) rfl
    have alone : [entry.contribution].filter Contribution.isVector = [entry.contribution] := rfl
    refine ⟨_, mem_map.mpr ⟨entry, isEntry, rfl⟩, rfl, ?_⟩
    intro hit isHit sameId
    rw [cuts] at isHit
    rw [eq_hitOf_of_mem share (mem_of_mem_take isHit), sameId]
    have sum := (gather_holds share lists).sum item.id
    have sorted : (sortSources ((gather share lists).accs item.id).sources).filter
        Contribution.isVector = [entry.contribution] := by
      refine perm_singleton.mp (((sortSources_perm _).filter _).trans (.of_eq ?_))
      rw [sum, sources_fold, Acc.empty, nil_append, filter_map]
      exact congrArg (List.map Entry.contribution) only
    obtain ⟨isVector, passage⟩ := vector_fold share only .empty
    obtain ⟨score, distance⟩ := evidence_of_vector sorted
    refine ⟨?_, distance, ?_, ?_⟩
    · exact score.trans (evidence_of_vector alone).1.symm
    · simp only [hitOf, sum]
      exact isVector
    · simp only [hitOf, sum]
      exact passage

end Fuse

def sampleLists : List (RankedList Nat) :=
  [⟨.vector, [⟨.filled 1, 0x3F000000, 3, 0x3F000000, 2⟩, ⟨.filled 2, 0x3E800000, 2, 0, 0⟩]⟩,
    ⟨.text, [⟨.filled 2, 0x3F400000, 9, 0, 0⟩]⟩]

theorem fuse_rank_only_sample : Steps sampleLists ∧ ∃ ranked : List (Hit Nat),
      fuse (60 - ·) sampleLists 1 = ranked.take 1 ∧ (ranked.map Hit.id).Nodup := by
  have steps : Steps sampleLists := ⟨by decide, by decide⟩
  obtain ⟨⟨ranked, cuts, once, _⟩, _⟩ := fuse_rank_only (60 - ·) sampleLists steps 1 (by decide)
  exact ⟨steps, ranked, cuts, once⟩

end Remem.Query
