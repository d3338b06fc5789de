import Remem.Attr.Selection

/-!
# Pages of an ordered selection

The answer of a selection is in the order of values and ids, and pages that resume one
another list it once, however the limits and efforts are chosen.
-/

namespace Remem.Attr

open Base Keys Storage List

section

variable {table : Slots} {store : Store} {sel : Select}

def Position.Encodes (table : Slots) (slot : UInt16) (position : Position) : Prop :=
  ∃ (declared : SlotDef) (value : Value), table.get slot.toNat = some declared ∧
    value.type = declared.type ∧ value.orderBytes = position.value

theorem encodes_of_wanted {position : Position}
    (wanted : sel.wanted table store position = true) : position.Encodes table sel.slot := by
  rw [wanted_eq_settle] at wanted
  obtain ⟨_, value, declared, _, registered, type, bytes, _⟩ := settle_cases wanted
  exact ⟨declared, value, registered, type.symm, bytes⟩

def Position.Precedes (first second : Position) : Prop :=
  first.value < second.value ∨ first.value = second.value ∧ first.id.bytes < second.id.bytes

/-- Keys of one slot's index are in the order of the pairs they are made of: no encoding of
a type is a proper beginning of another. -/
theorem key_lt_iff_precedes {slot : UInt16} {first second : Position}
    (firstEncodes : first.Encodes table slot) (secondEncodes : second.Encodes table slot) :
    first.key < second.key ↔ first.Precedes second := by
  obtain ⟨declared, value, registered, type, bytes⟩ := firstEncodes
  obtain ⟨_, other, registered', otherType, otherBytes⟩ := secondEncodes
  rw [registered] at registered'
  cases registered'
  unfold Position.key Position.Precedes
  rw [← bytes, ← otherBytes]
  have compared := Value.compared (type.trans otherType.symm)
  generalize value.compare other = ordering at compared
  cases compared with
  | less ordered =>
    have values : value.orderBytes < other.orderBytes := by simpa using ordered [] []
    exact iff_of_true (ordered _ _) (.inl values)
  | same equal =>
    subst equal
    rw [append_lt_append_left_iff]
    simp
  | greater ordered =>
    have values : other.orderBytes < value.orderBytes := by simpa using ordered [] []
    refine iff_of_false (ordered _ _).not_gt ?_
    rintro (less | ⟨equal, _⟩)
    · exact values.not_gt less
    · exact values.ne equal.symm

def Select.Ordered (sel : Select) (first second : Position) : Prop :=
  if sel.desc then second.Precedes first else first.Precedes second

theorem follows_iff_ordered {after position : Position} (resume : sel.after = some after)
    (afterEncodes : after.Encodes table sel.slot) (encodes : position.Encodes table sel.slot) :
    sel.follows position = true ↔ sel.Ordered after position := by
  unfold Select.follows Select.Ordered
  rw [resume]
  cases sel.desc with
  | false => simpa using key_lt_iff_precedes afterEncodes encodes
  | true => simpa using key_lt_iff_precedes encodes afterEncodes

theorem selected_ordered (table : Slots) (store : Store) (sel : Select) :
    (sel.selected table store).Pairwise sel.Ordered := by
  have entries : (store.entries.filterMap sel.entryOf).Pairwise
      fun first second => first.key < second.key := by
    apply List.Pairwise.filterMap _ _ store.sorted
    intro row other less position isEntry otherPosition isOther
    have key : ∀ {row : Bytes × Bytes} {position : Position},
        sel.entryOf row = some position → row.1 = entryKey sel.range.lower position := by
      intro row position isEntry
      unfold Select.entryOf at isEntry
      split at isEntry
      · next inside =>
        rcases parseEntry_cases (contains_range.mp inside) "attr.Run" with
          ⟨position, key, parsed⟩ | ⟨_, fault, parsed, _⟩
        · rw [parsed] at isEntry
          cases isEntry
          exact key
        · rw [parsed] at isEntry
          cases isEntry
      · cases isEntry
    rw [key isEntry, key isOther] at less
    exact entryKey_lt_iff.mp less
  have candidates : (sel.candidates store).Pairwise fun first second =>
      if sel.desc then second.key < first.key else first.key < second.key := by
    unfold Select.candidates
    cases sel.desc with
    | false => simpa using entries.filter _
    | true => simpa [pairwise_reverse] using entries.filter _
  apply (candidates.filter _).imp_of_mem
  intro first second isFirst isSecond ordered
  have firstEncodes := encodes_of_wanted (mem_filter.mp isFirst).2
  have secondEncodes := encodes_of_wanted (mem_filter.mp isSecond).2
  unfold Select.Ordered
  cases desc : sel.desc with
  | false =>
    rw [desc] at ordered
    exact (key_lt_iff_precedes firstEncodes secondEncodes).mp ordered
  | true =>
    rw [desc] at ordered
    exact (key_lt_iff_precedes secondEncodes firstEncodes).mp ordered

/-- Pages one after the other, each resuming where the last stopped, until one is
exhausted; each has its own limit and effort. -/
def Select.pages (store : Store) : Select → List (Int × Int) → Result (List Page)
  | _, [] => .ok []
  | sel, (limit, effort) :: choices =>
    match Select.run store { sel with limit, effort } with
    | .error fault => .error fault
    | .ok page =>
      if page.exhausted then .ok [page]
      else match Select.pages store { sel with after := page.next } choices with
        | .error fault => .error fault
        | .ok pages => .ok (page :: pages)

def finished (pages : List Page) : Bool := pages.getLast?.any Page.exhausted

/-- How paging ends: finished pages are the answer, and enough pages are finished. -/
def PagesEnd (table : Slots) (store : Store) (sel : Select) (enough : Prop) :
    Result (List Page) → Prop
  | .error fault => sel.ShortKey store fault
  | .ok pages =>
    (finished pages = true → pages.flatMap Page.positions = sel.selected table store ∧
      pages.flatMap Page.ids = (sel.selected table store).map Position.id) ∧
    (enough → finished pages = true)

variable (store) in
theorem pages_end (slots : sel.slots = some table) (tenanted : sel.tenant ≠ [])
    (typed : sel.Typed table) (choices : List (Int × Int))
    (positive : ∀ choice ∈ choices, 1 ≤ choice.1 ∧ 1 ≤ choice.2) :
    PagesEnd table store sel (sel.distance store < choices.length) (sel.pages store choices) := by
  induction choices generalizing sel with
  | nil => exact ⟨nofun, nofun⟩
  | cons choice choices ih =>
    obtain ⟨limit, effort⟩ := choice
    obtain ⟨limitPositive, effortPositive⟩ := positive _ mem_cons_self
    have ends : RunEnds table store { sel with limit, effort } _ :=
      run_ends store slots tenanted limitPositive effortPositive typed
    unfold Select.pages
    cases result : Select.run store { sel with limit, effort } with
    | error fault =>
      rw [result] at ends
      exact ends
    | ok page =>
      rw [result] at ends
      have accounted : Accounted table store { sel with limit, effort } page := ends
      dsimp only
      cases exhausted : page.exhausted with
      | true =>
        have whole : sel.selected table store = page.positions :=
          accounted.complete exhausted
        rw [if_pos rfl]
        exact ⟨fun _ => ⟨by simp [whole], by simp [whole, accounted.ids]⟩, fun _ => exhausted⟩
      | false =>
        obtain ⟨next, isNext, answer, closer⟩ := accounted.continues exhausted
        have rest : PagesEnd table store { sel with after := page.next } _ _ :=
          ih slots tenanted typed fun choice listed => positive choice (mem_cons_of_mem _ listed)
        rw [if_neg Bool.false_ne_true]
        cases later : Select.pages store { sel with after := page.next } choices with
        | error fault =>
          rw [later] at rest
          exact rest
        | ok pages =>
          rw [later, isNext] at rest
          obtain ⟨exact_, bounded⟩ := rest
          have whole : sel.selected table store = page.positions ++
              Select.selected table store { sel with after := some next } := answer
          have last : finished (page :: pages) = true ↔ finished pages = true := by
            unfold finished
            cases pages with
            | nil => simp [exhausted]
            | cons first pages => rw [getLast?_cons_cons]
          refine ⟨fun done => ?_, fun enough => last.mpr (bounded ?_)⟩
          · obtain ⟨positions, ids⟩ := exact_ (last.mp done)
            rw [flatMap_cons, flatMap_cons, positions, ids, whole, map_append, accounted.ids]
            exact ⟨rfl, rfl⟩
          · exact Nat.lt_of_lt_of_le closer (Nat.le_of_lt_succ enough)

theorem distance_le (store : Store) (sel : Select) :
    sel.distance store ≤ (scanRange store sel.range).length := by
  unfold Select.distance
  cases narrows : narrow sel.range sel.preds sel.slot with
  | none => exact Nat.zero_le _
  | some narrowed =>
    -- the rows ahead are rows of the slot's range, each listed once
    have nodup : (sel.ahead store narrowed).Nodup := by
      apply (Select.pairwise_directed ((Iterator.sorted_new store narrowed).filter _)).imp
      rintro first second isBeyond rfl
      unfold Select.beyond at isBeyond
      split at isBeyond <;> simp at isBeyond
    exact (nodup.subperm fun row listed => mem_scanRange_of_ahead narrows listed).length_le

/-- A page is a beginning of the answer, and says truly why it stops there. -/
structure Page.Answers (table : Slots) (store : Store) (sel : Select) (page : Page) : Prop where
  ids : page.ids = page.positions.map Position.id
  first : page.positions <+: sel.selected table store
  bounded : page.positions.length ≤ sel.limit
  exhausted : page.exhausted = true → page.positions = sel.selected table store
  truncated : page.truncated = true → page.examined = sel.effort ∧
    ∃ next, page.next = some next ∧ ∃ row ∈ scanRange store sel.range,
      sel.beyond (entryKey sel.range.lower next) row.1 = true
  full : page.exhausted = false → page.truncated = false → page.positions.length = sel.limit
  unbounded : (scanRange store sel.range).length < sel.limit →
    (scanRange store sel.range).length < sel.effort → page.exhausted = true

theorem Accounted.answers {page : Page} (accounted : Accounted table store sel page)
    (effort : 1 ≤ sel.effort) : page.Answers table store sel where
  ids := accounted.ids
  first := by
    cases exhausted : page.exhausted with
    | true => rw [accounted.complete exhausted]
    | false =>
      obtain ⟨next, _, answer, _⟩ := accounted.continues exhausted
      rw [answer]
      exact prefix_append _ _
  bounded := accounted.bounded
  exhausted done := (accounted.complete done).symm
  truncated isTruncated := by
    obtain ⟨_, spent, candidate⟩ := accounted.truncated isTruncated
    rw [Select.budget, if_neg (by omega)] at spent
    exact ⟨spent, candidate⟩
  full := accounted.full
  unbounded limited effortful := by
    have rows := distance_le store sel
    obtain ⟨listed, examined⟩ := accounted.examined
    cases exhausted : page.exhausted with
    | true => rfl
    | false =>
      cases truncated : page.truncated with
      | true =>
        have spent := (accounted.truncated truncated).2.1
        rw [Select.budget, if_neg (by omega)] at spent
        omega
      | false =>
        have := accounted.full exhausted truncated
        omega

def RunAnswers (table : Slots) (store : Store) (sel : Select) : Result Page → Prop
  | .error fault => sel.ShortKey store fault
  | .ok page => page.Answers table store sel

theorem ordered_selection_exact (store : Store) (slots : sel.slots = some table)
    (tenanted : sel.tenant ≠ []) (limit : 1 ≤ sel.limit) (effort : 1 ≤ sel.effort)
    (typed : sel.Typed table) :
    RunAnswers table store sel (sel.run store) ∧
    (sel.selected table store).Pairwise sel.Ordered ∧
    (∀ after position, sel.after = some after → after.Encodes table sel.slot →
      sel.wanted table store position = true →
        (sel.follows position = true ↔ sel.Ordered after position)) ∧
    ∀ choices : List (Int × Int), (∀ choice ∈ choices, 1 ≤ choice.1 ∧ 1 ≤ choice.2) →
      PagesEnd table store sel ((scanRange store sel.range).length < choices.length)
        (sel.pages store choices) := by
  refine ⟨?_, selected_ordered table store sel, ?_, ?_⟩
  · have ends := run_ends store slots tenanted limit effort typed
    cases result : sel.run store with
    | error fault =>
      rw [result] at ends
      exact ends
    | ok page =>
      rw [result] at ends
      exact Accounted.answers ends effort
  · intro after position resume encodes wanted
    exact follows_iff_ordered resume encodes (encodes_of_wanted wanted)
  · intro choices positive
    have ends := pages_end store slots tenanted typed choices positive
    cases result : sel.pages store choices with
    | error fault =>
      rw [result] at ends
      exact ends
    | ok pages =>
      rw [result] at ends
      exact ⟨ends.1, fun enough => ends.2 (Nat.lt_of_le_of_lt (distance_le store sel) enough)⟩

end

def createdTable : Slots where
  version := 1
  defs := ⟨[(3, { slot := 3, name := "created_at", type := .u64, indexed := true })], by simp⟩
  keyed := by decide
  typed := by decide
  encodable := by decide

/-- Three records by the time they were created, and an entry that the first one's row no
longer has. -/
def createdStore : Store :=
  let put (store : Store) (number : UInt8) : Store :=
    let subject : Subject := ⟨ascii "acme", defaultNamespace, Id.filled number⟩
    let created : Value := .u64 number.toUInt64
    let row := Row.set ⟨1, []⟩ 3 created
    (store.set (rowKey subject) ((row.encode createdTable).toOption.getD [])).set
      (indexKey subject 3 created) []
  ([1, 2, 3].foldl put .empty).set
    (indexKey ⟨ascii "acme", defaultNamespace, Id.filled 1⟩ 3 (.u64 9)) []

def newestFirst : Select where
  tenant := ascii "acme"
  namespaceName := []
  slots := some createdTable
  slot := 3
  desc := true
  preds := [.range 3 (some (.u64 1)) none false true]
  after := none
  limit := 1
  effort := 1

theorem ordered_selection_exact_newest : ∃ pages,
    newestFirst.pages createdStore [(1, 2), (2, 2)] = .ok pages ∧
    pages.flatMap Page.ids = [Id.filled 3, Id.filled 2] ∧
    pages.flatMap Page.positions = newestFirst.selected createdTable createdStore := by
  have evaluated : ((newestFirst.pages createdStore [(1, 2), (2, 2)]).toOption.any fun pages =>
        pages.flatMap Page.ids = [Id.filled 3, Id.filled 2] ∧ finished pages) = true := by
    decide +kernel
  have typed : newestFirst.Typed createdTable := by
    intro declared registered
    cases registered
    exact ⟨fun _ => ⟨by rintro _ ⟨⟩; rfl, by rintro _ ⟨⟩⟩, trivial⟩
  obtain ⟨_, _, _, paging⟩ := ordered_selection_exact createdStore rfl (by decide) (by decide)
    (by decide) typed
  have ends := paging [(1, 2), (2, 2)] (by decide)
  cases result : newestFirst.pages createdStore [(1, 2), (2, 2)] with
  | error fault =>
    rw [result] at evaluated
    cases evaluated
  | ok pages =>
    rw [result] at evaluated ends
    obtain ⟨ids, done⟩ := of_decide_eq_true evaluated
    exact ⟨pages, rfl, ids, (ends.1 done).1⟩

end Remem.Attr
