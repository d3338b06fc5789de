import Remem.Base.Pages
import Remem.Memory.Paging
import Remem.Memory.Tokens
import Remem.Query.Fusion

/-!
# Pages of a ranking

A search and the memories related to one are materialised once, as the ranking that their
session holds; a page is cut from it by position. A hit whose body is gone takes a position
and no place on the page.
-/

namespace Remem.Tokens

open Base Keys Query List

section Pages

variable {Fused Body Shown : Type}

/-- What a page is served from: the session, its ranking, and its snapshot's bodies with what
an endpoint shows of a hit and a body. -/
structure RankedSession (Fused Body Shown : Type) where
  id : SessionId
  binding : Paging.Binding
  ranked : List (Hit Fused)
  sized : ranked.length ≤ maxInt
  body : Id → Option Body
  result : Hit Fused → Body → Shown

/-- What tells `Search` and `Related` apart, and the configured limits. -/
structure RankedEndpoint where
  op : String
  noun : String
  tooMany : String
  defaultLimit : Nat
  maxLimit : Nat

def decodeSearchCursor (token : Bytes) (tenant : TenantId) (op : String) :
    Result (Option RankedPosition) :=
  if token = [] then .ok none
  else do
    let payload ← decodeToken token .search tenant
    return some (← rankedOf op payload)

/-- The loop over the ranking: what it shows, and how many positions it took. -/
def pageLoop (session : RankedSession Fused Body Shown) :
    (ranked : List (Hit Fused)) → (room : Nat) → List Shown × Nat
  | [], _ => ([], 0)
  | _, 0 => ([], 0)
  | hit :: rest, room + 1 =>
    match session.body hit.id with
    | none =>
      let (results, taken) := pageLoop session rest (room + 1)
      (results, taken + 1)
    | some body =>
      let (results, taken) := pageLoop session rest room
      (session.result hit body :: results, taken + 1)

def cutPage (tenant : TenantId) (session : RankedSession Fused Body Shown)
    (offset limit : Nat) : Page Bytes Shown :=
  let (results, taken) := pageLoop session (session.ranked.drop offset) limit
  let last := offset + taken
  if last < session.ranked.length then
    ⟨results, true, encodeToken .search tenant (session.id.bytes ++ appendUvarint last)⟩
  else ⟨results, false, []⟩

/-- `Service.search` and `Related` of a request with this binding, with the ranking in hand. -/
def servePage (endpoint : RankedEndpoint) (binding : Paging.Binding)
    (session : RankedSession Fused Body Shown) (cursor : Bytes) (asked : Nat) :
    Result (Page Bytes Shown) := do
  let limit := if asked = 0 then endpoint.defaultLimit else asked
  if endpoint.maxLimit < limit then
    .error ⟨.invalid, endpoint.op, endpoint.tooMany, [.number endpoint.maxLimit, .number limit]⟩
  else
    let position ← decodeSearchCursor cursor binding.tenant endpoint.op
    if position.any fun position => position.session ≠ session.id then
      .error (Paging.Registry.bad endpoint.op endpoint.noun
        ("paging session is missing or expired: it was idle past its deadline, reclaimed for a " ++
          "newer request, or issued before a restart (tokens do not survive restart)"))
    else if position.isSome && session.binding ≠ binding then
      .error (Paging.Registry.bad endpoint.op endpoint.noun
        "page token was issued for a different tenant or query")
    else if position.any fun position => session.ranked.length ≤ position.offset then
      .error ⟨.invalid, endpoint.op,
        "this page token holds a position beyond the ranking; start the %s again",
        [.word endpoint.noun]⟩
    else
      let offset := (position.map RankedPosition.offset).getD 0
      return cutPage binding.tenant session offset limit

variable (session : RankedSession Fused Body Shown)

def RankedSession.shown (ranked : List (Hit Fused)) : List Shown :=
  ranked.filterMap fun hit => (session.body hit.id).map (session.result hit)

theorem pageLoop_spec (ranked : List (Hit Fused)) (room : Nat) : session.shown ranked =
        (pageLoop session ranked room).1 ++ session.shown (ranked.drop (pageLoop session ranked room).2) ∧
      ((pageLoop session ranked room).2 < ranked.length →
        (pageLoop session ranked room).1.length = room) ∧
      (0 < room → 0 < ranked.length → 0 < (pageLoop session ranked room).2) := by
  induction ranked, room using pageLoop.induct session with
  | case1 room => simp [pageLoop]
  | case2 hits notEmpty => cases hits <;> simp [pageLoop]
  | case3 hit rest room gone results taken loop ih =>
    simp only [loop] at ih
    obtain ⟨shows, full, _⟩ := ih
    simpa [pageLoop, gone, loop, RankedSession.shown] using And.intro shows full
  | case4 hit rest room body found results taken loop ih =>
    simp only [loop] at ih
    obtain ⟨shows, full, _⟩ := ih
    simpa [pageLoop, found, loop, RankedSession.shown] using And.intro shows full

def RankedSession.At (tenant : TenantId) (cursor : Bytes) (left : List (Hit Fused)) : Prop :=
  cursor = [] ∧ left = session.ranked ∨ ∃ position : RankedPosition, position.session = session.id ∧
      position.offset < session.ranked.length ∧ cursor = encodeSearchCursor tenant position ∧
      left = session.ranked.drop position.offset

theorem decodeSearchCursor_encode {tenant : TenantId} (fits : tenant.length < 2 ^ 64)
    (position : RankedPosition) (op : String) :
    decodeSearchCursor (encodeSearchCursor tenant position) tenant op = .ok (some position) := by
  rw [decodeSearchCursor, encodeSearchCursor, if_neg encodeToken_ne_nil,
    decodeToken_encodeToken fits]
  simp [rankedOf_payload, bind, Except.bind, pure, Except.pure]

theorem servePage_serves (endpoint : RankedEndpoint)
    (fits : session.binding.tenant.length < 2 ^ 64) {limit : Nat} (positive : 1 ≤ limit)
    (allowed : limit ≤ endpoint.maxLimit) :
    Serves (servePage endpoint session.binding session) (session.At session.binding.tenant)
      session.shown limit := by
  refine ⟨fun cursor left at' => ?_⟩
  have asked : (if limit = 0 then endpoint.defaultLimit else limit) = limit :=
    if_neg (by omega)
  obtain ⟨offset, within, rfl, decoded⟩ : ∃ offset, (offset = 0 ∨ offset < session.ranked.length) ∧
      left = session.ranked.drop offset ∧
      ∃ position, decodeSearchCursor cursor session.binding.tenant endpoint.op = .ok position ∧
        (position.any fun position => position.session ≠ session.id) = false ∧
        (position.any fun position => session.ranked.length ≤ position.offset) = false ∧
        (position.map RankedPosition.offset).getD 0 = offset := by
    rcases at' with ⟨rfl, rfl⟩ | ⟨position, own, within, rfl, rfl⟩
    · exact ⟨0, .inl rfl, rfl, none, rfl, rfl, rfl, rfl⟩
    · exact ⟨position.offset, .inr within, rfl, some position,
        decodeSearchCursor_encode fits position _, by simp [own], by simpa using within, rfl⟩
  obtain ⟨position, isPosition, own, inside, isOffset⟩ := decoded
  have spec := pageLoop_spec session (session.ranked.drop offset) limit
  have served : servePage endpoint session.binding session cursor limit =
      .ok (cutPage session.binding.tenant session offset limit) := by
    rw [servePage]
    simp only [asked, not_lt.mpr allowed, if_false, isPosition, bind, Except.bind, own, inside,
      isOffset, ne_eq, not_true_eq_false, decide_false, Bool.and_false, Bool.false_eq_true]
    rfl
  rcases loop : pageLoop session (session.ranked.drop offset) limit with ⟨results, taken⟩
  rw [cutPage, loop] at served
  rw [loop] at spec
  obtain ⟨shows, full, moves⟩ := spec
  simp only [length_drop] at full moves
  by_cases more : offset + taken < session.ranked.length
  · simp only [more, if_true] at served
    refine ⟨_, (session.ranked.drop offset).drop taken, served, shows, fun _ => ?_, nofun⟩
    have forward : 0 < taken := moves (by omega) (by omega)
    refine ⟨.inr ⟨⟨session.id, offset + taken, by omega, more.le.trans session.sized⟩, rfl, more,
      rfl, drop_drop⟩, ?_, full (by omega)⟩
    simp only [length_drop]
    omega
  simp only [more, if_false] at served
  refine ⟨_, (session.ranked.drop offset).drop taken, served, shows, nofun, fun _ => ?_⟩
  rw [drop_drop, drop_of_length_le (by omega)]
  rfl

/-- Following a search, or the memories related to one, from its first page on, under any
limits that are allowed, ends with every hit of the ranking whose body exists shown once and
in order, and every page but the last full. -/
theorem ranked_pages_concatenate (endpoint : RankedEndpoint)
    (fits : session.binding.tenant.length < 2 ^ 64) (limits : Nat → Nat)
    (allowed : ∀ count, 1 ≤ limits count ∧ limits count ≤ endpoint.maxLimit) :
    ∃ pages, followPages (servePage endpoint session.binding session) limits
        (session.ranked.length + 1) 0 [] = some (.ok pages) ∧
      pages.flatMap Page.items = session.ranked.filterMap (fun hit =>
        (session.body hit.id).map (session.result hit)) ∧
      (∃ last, pages.getLast? = some last ∧ last.hasMore = false) ∧
      ∀ (index : Nat) (page : Page Bytes Shown), pages[index]? = some page →
        index + 1 < pages.length → page.items.length = limits index := by
  obtain ⟨pages, followed, together, last, sized⟩ := followPages_shows
    (fun count => servePage_serves session endpoint fits (allowed count).1 (allowed count).2)
    (.inl ⟨rfl, rfl⟩ : session.At session.binding.tenant [] session.ranked) (Nat.lt_succ_self _)
  refine ⟨pages, followed, together, last, fun index page isPage notLast => ?_⟩
  rw [sized index page isPage notLast, Nat.zero_add]

end Pages

def sampleBinding : Paging.Binding where
  tenant := ascii "acme"
  ranked := true
  fingerprint := 12

/-- Three hits, the middle one without a body. -/
def sampleSession : RankedSession Nat Unit Id where
  id := .filled 7
  binding := sampleBinding
  ranked := [1, 2, 3].map fun byte => ⟨.filled byte, 0, 0, 0, [], false, 0⟩
  sized := by decide
  body rid := if rid = .filled 2 then none else some ()
  result hit _ := hit.id

theorem ranked_pages_concatenate_gone :
    ∃ pages, followPages (servePage ⟨"memory.Search", "search", "", 10, 100⟩ sampleBinding
        sampleSession) (fun _ => 1) 4 0 [] = some (.ok pages) ∧
      pages.flatMap Page.items = [.filled 1, .filled 3] := by
  obtain ⟨pages, followed, together, _⟩ := ranked_pages_concatenate sampleSession
    ⟨"memory.Search", "search", "", 10, 100⟩ (by decide) (fun _ => 1) (by simp)
  exact ⟨pages, followed, together.trans (by decide)⟩

end Remem.Tokens
