import Remem.Query.Fusion

/-!
# Recall

A recall fills a token budget from one page of a search, the best first. The page is cut from
the ranking by a limit that comes from the budget, and the ranking from all matches by the page
depth. Nothing says that the ranking goes on after the page.
-/

namespace Remem.Recalling

open Base Keys List

structure Memory where
  id : Id
  content : Bytes
  deriving DecidableEq

def tokenBytes : Nat := 4
def resultOverheadTokens : Nat := 16
def maxRecallCandidates : Nat := 200
def maxQueryBytes : Nat := 65536
def maxTags : Nat := 50

def tokensOf (content : Bytes) : Nat :=
  (content.length + tokenBytes - 1) / tokenBytes + resultOverheadTokens

/-- `RecallReq`. The vector is known by whether it is given. -/
structure RecallReq where
  context : Bytes
  typ : Bytes
  tokenBudget : Int
  alreadyHave : List Id
  tags : List Bytes
  vectorGiven : Bool

/-- What the steps of a plan found, at most as much as they were asked for: an index names a record
once. -/
structure Found (Fused : Type) where
  lists : List (Query.RankedList Fused)
  distinct : ∀ list ∈ lists, (list.items.map Query.RankedItem.id).Nodup
  fused : Bool := false
  stopped : Bool := false

/-- The service, its store and its search, up to what the steps of a plan find. -/
structure Service (Fused : Type) where
  defaultLimit : Nat
  maxLimit : Nat
  maxPageDepth : Nat
  /-- The share of a rank in a fused score. -/
  share : Nat → Fused
  /-- `strings.TrimSpace(text) == ""`. -/
  blank : Bytes → Bool
  /-- What a search does before its ranking is made: its refusals, the embedding, the plan and its
  steps. -/
  find : RecallReq → (target : Nat) → Result (Found Fused)
  /-- `GetBodyFrom` on the session's snapshot. -/
  body : Id → Result Memory
  body_id : ∀ {rid memory}, body rid = .ok memory → memory.id = rid

structure SearchResult where
  results : List Memory
  hasMore : Bool
  truncated : Bool

structure Recalled where
  memories : List Memory
  usedTokens : Nat
  omittedCount : Nat
  truncated : Bool

/-- `SearchType.Valid`. -/
def validSearchType (typ : Bytes) : Bool :=
  typ = ascii "semantic" || typ = ascii "keyword" || typ = ascii "hybrid"

def boundedQuery (op what : String) (text : Bytes) (tags : List Bytes) : Result Unit :=
  if maxQueryBytes < text.length then
    .error ⟨.invalid, op, "the %s is %d bytes, the limit is %d",
      [.word what, .number text.length, .number maxQueryBytes]⟩
  else if maxTags < tags.length then
    .error ⟨.invalid, op, "%d tags to filter by, the limit is %d",
      [.number tags.length, .number maxTags]⟩
  else .ok ()

variable {Fused : Type} [Zero Fused] [Add Fused] [LinearOrder Fused]

def Service.check (service : Service Fused) (req : RecallReq) : Result Unit :=
  let op := "memory.Recall"
  if !validSearchType req.typ then
    .error ⟨.invalid, op, "a recall must say how to look: %s. %q is not one of them",
      [.word "semantic, keyword, hybrid", .bytes req.typ]⟩
  else if req.tokenBudget ≤ 0 then
    .error ⟨.invalid, op,
      "a recall needs a token budget greater than zero; a recall without one is a search", []⟩
  else if service.blank req.context && req.tags.isEmpty && !req.vectorGiven then
    .error ⟨.invalid, op, "a recall needs a context or a tag to choose memories by", []⟩
  else boundedQuery op "context" req.context req.tags

def Service.candidates (service : Service Fused) (req : RecallReq) : Nat :=
  min (min (req.tokenBudget.toNat / (tokenBytes * 8) + req.alreadyHave.length + 1)
    maxRecallCandidates) service.maxLimit

/-- The loop over the ranked positions: the results, and the positions that are left. A hit
whose body is gone takes a position and no place on the page. -/
def Service.page (service : Service Fused) : (ranked : List Id) → (room : Nat) →
    Result (List Memory × List Id)
  | [], _ => .ok ([], [])
  | ranked, 0 => .ok ([], ranked)
  | hit :: rest, room + 1 =>
    match service.body hit with
    | .error fault =>
      if fault.kind = .notFound then service.page rest (room + 1) else .error fault
    | .ok memory =>
      match service.page rest room with
      | .error fault => .error fault
      | .ok (results, left) => .ok (memory :: results, left)

def Service.pageLimit (service : Service Fused) (limit : Nat) : Nat :=
  if limit = 0 then service.defaultLimit else limit

/-- The hits of `Executor.Run`. -/
def Service.ranked (service : Service Fused) (found : Found Fused) (target : Nat) : List Id :=
  let hits :=
    if found.fused ∨ 1 < found.lists.length then Query.fuse service.share found.lists target
    else found.lists.take 1 |>.flatMap fun list => Query.single list target
  hits.map Query.Hit.id

def Service.depth (service : Service Fused) (limit : Nat) : Nat := max limit service.maxPageDepth

/-- `search` for a recall. -/
def Service.search (service : Service Fused) (req : RecallReq) (limit : Nat) :
    Result SearchResult :=
  let limit := service.pageLimit limit
  if service.maxLimit < limit then
    .error ⟨.invalid, "memory.Search", "a search may ask for at most %d results, not %d",
      [.number service.maxLimit, .number limit]⟩
  else
    let deep := service.depth limit
    match service.find req deep with
    | .error fault => .error fault
    | .ok found =>
      let ranked := service.ranked found deep
      match service.page ranked limit with
      | .error fault => .error fault
      | .ok (results, left) =>
        .ok ⟨results, !left.isEmpty, found.stopped || decide (deep ≤ ranked.length)⟩

/-- The loop over the results: each is kept if it fits. -/
def fill (held : List Id) (budget : Nat) : List Memory → Recalled → Recalled
  | [], out => out
  | memory :: rest, out =>
    if memory.id ∈ held then fill held budget rest out
    else if budget < out.usedTokens + tokensOf memory.content then
      fill held budget rest { out with omittedCount := out.omittedCount + 1 }
    else
      fill held budget rest { out with
        usedTokens := out.usedTokens + tokensOf memory.content
        memories := out.memories ++ [memory] }

def Service.recall (service : Service Fused) (req : RecallReq) : Result Recalled :=
  match service.check req with
  | .error fault => .error fault
  | .ok () =>
    match service.search req (service.candidates req) with
    | .error fault => .error fault
    | .ok found =>
      .ok (fill req.alreadyHave req.tokenBudget.toNat found.results ⟨[], 0, 0, found.truncated⟩)

section Fill

variable {held : List Id} {budget : Nat}

/-- What the memories would use that the caller does not have. -/
def cost (held : List Id) (memories : List Memory) : Nat :=
  ((memories.filter fun memory => memory.id ∉ held).map fun memory => tokensOf memory.content).sum

structure Filled (held : List Id) (budget : Nat) (done : List Memory) (out : Recalled) : Prop where
  used : out.usedTokens = (out.memories.map fun memory => tokensOf memory.content).sum
  within : out.usedTokens ≤ budget
  ordered : out.memories.Sublist done
  fresh : ∀ memory ∈ out.memories, memory.id ∉ held
  all : out.omittedCount = 0 → ∀ memory ∈ done, memory.id ∉ held → memory ∈ out.memories
  spent : out.usedTokens ≤ cost held done
  paid : out.omittedCount = 0 → cost held done = out.usedTokens
  dear : out.omittedCount ≠ 0 → budget < cost held done

variable {done : List Memory} {out : Recalled}

theorem Filled.fill_cons (filled : Filled held budget done out) (memory : Memory)
    (rest : List Memory) :
    ∃ next, fill held budget (memory :: rest) out = fill held budget rest next ∧
      Filled held budget (done ++ [memory]) next ∧ next.truncated = out.truncated := by
  have longer : out.memories.Sublist (done ++ [memory]) :=
    filled.ordered.trans (sublist_append_left done [memory])
  by_cases isHeld : memory.id ∈ held
  · have same : cost held (done ++ [memory]) = cost held done := by
      simp [cost, isHeld]
    refine ⟨out, by simp [fill, isHeld], ⟨filled.used, filled.within, longer, filled.fresh, ?_,
      same ▸ filled.spent, same ▸ filled.paid, same ▸ filled.dear⟩, rfl⟩
    intro none other membership notHeld
    rcases mem_append.mp membership with earlier | isLast
    · exact filled.all none other earlier notHeld
    · rw [mem_singleton.mp isLast] at notHeld
      exact absurd isHeld notHeld
  have more : cost held (done ++ [memory]) = cost held done + tokensOf memory.content := by
    simp [cost, isHeld]
  have spent := filled.spent
  by_cases dear : budget < out.usedTokens + tokensOf memory.content
  · refine ⟨{ out with omittedCount := out.omittedCount + 1 },
      by rw [fill, if_neg isHeld, if_pos dear],
      ⟨filled.used, filled.within, longer, filled.fresh, fun none => absurd none (Nat.succ_ne_zero _),
        by dsimp only; omega, fun none => absurd none (Nat.succ_ne_zero _), fun _ => by omega⟩, rfl⟩
  refine ⟨{ out with
      usedTokens := out.usedTokens + tokensOf memory.content
      memories := out.memories ++ [memory] },
    by rw [fill, if_neg isHeld, if_neg dear], ?_, rfl⟩
  constructor
  · simp [filled.used]
  · exact Nat.not_lt.mp dear
  · exact filled.ordered.append (List.Sublist.refl _)
  · intro other membership
    rcases mem_append.mp membership with earlier | isLast
    · exact filled.fresh other earlier
    · rwa [mem_singleton.mp isLast]
  · intro none other membership notHeld
    rcases mem_append.mp membership with earlier | isLast
    · exact mem_append_left _ (filled.all none other earlier notHeld)
    · exact mem_append_right _ isLast
  · dsimp only
    omega
  · intro none
    have paid := filled.paid none
    dsimp only
    omega
  · intro some
    have before := filled.dear some
    omega

theorem Filled.fill_all (filled : Filled held budget done out) (results : List Memory) :
    Filled held budget (done ++ results) (fill held budget results out) ∧
      (fill held budget results out).truncated = out.truncated := by
  induction results generalizing done out with
  | nil => simpa [fill] using filled
  | cons memory rest ih =>
    obtain ⟨next, same, filledNext, flag⟩ := filled.fill_cons memory rest
    obtain ⟨whole, kept⟩ := ih filledNext
    rw [same, ← flag]
    simpa using And.intro whole kept

end Fill

section Page

variable {service : Service Fused} {ranked : List Id} {room : Nat} {results : List Memory}

/-- The memories of the ranking that are stored, in its order. -/
def Service.stored (service : Service Fused) (ranked : List Id) : List Memory :=
  ranked.filterMap fun rid => (service.body rid).toOption

omit [Zero Fused] [Add Fused] [LinearOrder Fused] in
theorem ids_stored (service : Service Fused) (ranked : List Id) :
    ((service.stored ranked).map Memory.id).Sublist ranked := by
  induction ranked with
  | nil => exact List.Sublist.refl _
  | cons rid rest ih =>
    cases isBody : service.body rid with
    | error fault =>
      rw [Service.stored, filterMap_cons_none (by rw [isBody]; rfl)]
      exact ih.cons rid
    | ok memory =>
      rw [Service.stored, filterMap_cons_some (by rw [isBody]; rfl), map_cons,
        service.body_id isBody]
      exact ih.cons_cons rid

omit [Zero Fused] [Add Fused] [LinearOrder Fused] in
theorem page_eq {left : List Id} (answered : service.page ranked room = .ok (results, left)) :
    results = (service.stored ranked).take room := by
  induction ranked generalizing room results with
  | nil =>
    cases answered
    exact take_nil.symm
  | cons hit rest ih =>
    cases room with
    | zero =>
      cases answered
      rfl
    | succ room =>
      unfold Service.page at answered
      split at answered
      · next fault gone =>
        split at answered
        · rw [Service.stored, filterMap_cons_none (by rw [gone]; rfl)]
          exact ih answered
        · cases answered
      next memory found =>
      split at answered
      · cases answered
      next below =>
      cases answered
      rw [Service.stored, filterMap_cons_some (by rw [found]; rfl), take_succ_cons, ih below]
      rfl

omit [Zero Fused] [Add Fused] [LinearOrder Fused] in
theorem cut_sublist {Item : Type} (limit : Int) (items : List Item) :
    (Query.cut limit items).Sublist items := by
  unfold Query.cut
  split
  · exact take_sublist _ _
  · exact List.Sublist.refl _

omit [Zero Fused] [Add Fused] [LinearOrder Fused] in
theorem ids_single (list : Query.RankedList Fused) (limit : Int) :
    (Query.single list limit).map Query.Hit.id =
      (Query.cut limit list.items).map Query.RankedItem.id := by
  have places := congrArg (map Query.RankedItem.id) (zipIdx_map_fst 0 (Query.cut limit list.items))
  rw [map_map] at places
  rw [← places, Query.single, Query.RankedList.entries, map_map, map_map]
  rfl

/-- The executor ranks a record once. -/
theorem nodup_ranked (service : Service Fused) (found : Found Fused) (target : Nat) :
    (service.ranked found target).Nodup := by
  unfold Service.ranked
  dsimp only
  split
  · exact ((Query.ids_ranking service.share found.lists).nodup_iff.mpr
      (Query.gather_holds service.share found.lists).once).sublist ((cut_sublist _ _).map _)
  · have each := found.distinct
    cases isLists : found.lists with
    | nil => exact nodup_nil
    | cons list rest =>
      rw [isLists] at each
      rw [take_succ_cons, take_zero, flatMap_singleton, ids_single]
      exact (each list mem_cons_self).sublist ((cut_sublist _ _).map _)

theorem search_cases {req : RecallReq} {limit : Nat} {answer : SearchResult}
    (answered : service.search req limit = .ok answer) :
    ∃ found, service.find req (service.depth (service.pageLimit limit)) = .ok found ∧
      let ranked := service.ranked found (service.depth (service.pageLimit limit))
      answer.results = (service.stored ranked).take (service.pageLimit limit) ∧
      answer.truncated =
        (found.stopped || decide (service.depth (service.pageLimit limit) ≤ ranked.length)) := by
  unfold Service.search at answered
  dsimp only at answered
  split at answered
  · cases answered
  split at answered
  · cases answered
  next found isFound =>
  split at answered
  · cases answered
  next results left isPage =>
  cases answered
  exact ⟨found, isFound, page_eq isPage, rfl⟩

end Page

/-- The answer of a recall: what it used and what it returned. It returns every memory of the
ranking that the caller does not have, unless it says that it did not, exactly where the ranking is
truncated, the memories of the page are above the budget, or the caller has all that come after the
page. -/
theorem recall_reports_what_it_left_out (service : Service Fused) (req : RecallReq)
    (recalled : Recalled) (answered : service.recall req = .ok recalled) :
    let limit := service.pageLimit (service.candidates req)
    recalled.usedTokens = (recalled.memories.map fun memory => tokensOf memory.content).sum ∧
      (recalled.usedTokens : Int) ≤ req.tokenBudget ∧
      ∃ found, service.find req (service.depth limit) = .ok found ∧
        let ranked := service.ranked found (service.depth limit)
        (recalled.memories.map Memory.id).Sublist ranked ∧
        (recalled.memories.map Memory.id).Nodup ∧
        (∀ memory ∈ recalled.memories, memory.id ∉ req.alreadyHave) ∧
        ((recalled.omittedCount = 0 → recalled.truncated = false →
            ∀ memory ∈ service.stored ranked, memory.id ∉ req.alreadyHave →
              memory ∈ recalled.memories) ↔
          found.stopped = true ∨ service.depth limit ≤ ranked.length ∨
            req.tokenBudget.toNat < cost req.alreadyHave ((service.stored ranked).take limit) ∨
            ∀ memory ∈ (service.stored ranked).drop limit, memory.id ∈ req.alreadyHave) := by
  intro limit
  unfold Service.recall at answered
  split at answered
  · cases answered
  next checked =>
  split at answered
  · cases answered
  next answer isAnswer =>
  cases answered
  obtain ⟨found, isFound, isPage, flag⟩ := search_cases isAnswer
  have start : Filled req.alreadyHave req.tokenBudget.toNat [] ⟨[], 0, 0, answer.truncated⟩ := by
    constructor <;> simp [cost]
  obtain ⟨filled, kept⟩ := start.fill_all answer.results
  rw [nil_append] at filled
  have positive : 0 ≤ req.tokenBudget := by
    unfold Service.check at checked
    dsimp only at checked
    split at checked
    · cases checked
    split at checked
    · cases checked
    · omega
  have once := nodup_ranked service found (service.depth limit)
  have storedOnce := once.sublist (ids_stored service (service.ranked found (service.depth limit)))
  have ordered : (map Memory.id (fill req.alreadyHave req.tokenBudget.toNat answer.results
      ⟨[], 0, 0, answer.truncated⟩).memories).Sublist _ :=
    (filled.ordered.map Memory.id).trans (((isPage ▸ take_sublist _ _ :
      answer.results.Sublist _).map Memory.id).trans (ids_stored service _))
  refine ⟨filled.used, ?_, found, isFound, ordered, ordered.nodup once, filled.fresh, ?_⟩
  · have within := filled.within
    omega
  constructor
  · intro returns
    by_contra outside
    push Not at outside
    obtain ⟨running, short, cheap, memory, isAfter, notHeld⟩ := outside
    have none : (fill req.alreadyHave req.tokenBudget.toNat answer.results
        ⟨[], 0, 0, answer.truncated⟩).omittedCount = 0 := by
      by_contra some
      have dear := filled.dear some
      rw [isPage] at dear
      exact absurd dear (not_lt.mpr cheap)
    have whole : answer.truncated = false := by
      rw [flag]
      simpa using ⟨Bool.eq_false_iff.mpr running, short⟩
    have isReturned := returns none (kept.trans whole) memory (mem_of_mem_drop isAfter) notHeld
    have isOnPage := isPage ▸ filled.ordered.subset isReturned
    exact disjoint_take_drop storedOnce.of_map le_rfl isOnPage isAfter
  · intro covered none whole memory isStored notHeld
    rw [kept, flag] at whole
    simp only [Bool.or_eq_false_iff, decide_eq_false_iff_not] at whole
    have cheap := (filled.paid none).trans_le filled.within
    rw [isPage] at cheap
    rcases covered with stopped | long | dear | rest
    · exact absurd stopped (by simp [whole.1])
    · exact absurd long whole.2
    · exact absurd dear (not_lt.mpr cheap)
    refine filled.all none memory ?_ notHeld
    rw [isPage]
    rw [← take_append_drop limit (service.stored _), mem_append] at isStored
    exact isStored.resolve_right fun isAfter => notHeld (rest memory isAfter)

/-- Two memories, both matches of every query. -/
def twoMatches : Service Nat where
  defaultLimit := 10
  maxLimit := 100
  maxPageDepth := 1000
  share rank := 60 - rank
  blank text := text.isEmpty
  find _ _ := .ok
    { lists := [⟨.text, [⟨Id.filled 1, 0x3F000000, 2, 0, 0⟩, ⟨Id.filled 2, 0x3E800000, 1, 0, 0⟩]⟩]
      distinct := by decide }
  body rid := .ok ⟨rid, ascii "tea"⟩
  body_id := by
    rintro rid memory ⟨⟩
    rfl

def contextOnly (budget : Int) : RecallReq := ⟨ascii "tea", ascii "hybrid", budget, [], [], false⟩

/-- A budget of 64 asks for three candidates, so both memories are on the page. -/
theorem recall_reports_what_it_left_out_two :
    ∃ recalled, twoMatches.recall (contextOnly 64) = .ok recalled ∧ recalled.omittedCount = 0 ∧
      recalled.truncated = false ∧ ⟨Id.filled 2, ascii "tea"⟩ ∈ recalled.memories := by
  refine ⟨_, rfl, rfl, rfl, ?_⟩
  obtain ⟨_, _, found, isFound, _, _, _, all⟩ :=
    recall_reports_what_it_left_out twoMatches (contextOnly 64) _ rfl
  cases isFound
  refine all.mpr (.inr (.inr (.inr ?_))) rfl rfl _ ?_ ?_ <;> decide +kernel

/-- A budget of 20 asks for one candidate: the second memory is neither returned nor counted, and
nothing says that the ranking went on. -/
theorem recall_hides_the_rest :
    twoMatches.recall (contextOnly 20) = .ok ⟨[⟨Id.filled 1, ascii "tea"⟩], 17, 0, false⟩ ∧
      (∃ found, twoMatches.find (contextOnly 20) 1000 = .ok found ∧
        ⟨Id.filled 2, ascii "tea"⟩ ∈ twoMatches.stored (twoMatches.ranked found 1000)) ∧
      Id.filled 2 ∉ (contextOnly 20).alreadyHave :=
  ⟨rfl, ⟨_, rfl, by decide +kernel⟩, by decide⟩

end Remem.Recalling
