import Remem.Attr.Select
import Remem.Attr.Exactness

/-!
# Ordered selection is exact and pages without loss

`selected` is the answer a selection asks for, with no mention of bounds, limits or
budgets. A page is a beginning of it, and what a page leaves out is `selected` again
from the page's last position; both paging and exhaustion follow from that.
-/

namespace Remem.Attr

open Base Keys Storage List

def Position.key (position : Position) : Bytes := position.value ++ position.id.bytes

namespace Select

def follows (sel : Select) (position : Position) : Bool :=
  match sel.after with
  | none => true
  | some after =>
    if sel.desc then position.key < after.key else after.key < position.key

def entryOf (sel : Select) (row : Bytes × Bytes) : Option Position :=
  if sel.range.Contains row.1 then
    (parseEntry row.1 sel.range.lower "attr.Run").toOption
  else none

/-- The entries of the slot's index strictly after the resume point, in order. -/
def candidates (store : Store) (sel : Select) : List Position :=
  let entries := (store.entries.filterMap sel.entryOf).filter sel.follows
  if sel.desc then entries.reverse else entries

/-- The entry's value is the one its row has, and the row satisfies every predicate. -/
def wanted (table : Slots) (store : Store) (sel : Select) (position : Position) : Bool :=
  (decodeRowFrom table store ⟨sel.tenant, sel.resolved, position.id⟩).any fun row =>
    ((row.get sel.slot.toNat).map Value.orderBytes = some position.value) &&
      sel.preds.all fun pred => pred.eval row

def selected (table : Slots) (store : Store) (sel : Select) : List Position :=
  (sel.candidates store).filter (sel.wanted table store)

end Select

theorem matchRow_eq_all (row : Row) (preds : List Pred) :
    matchRow row preds = preds.all fun pred => pred.eval row := by
  induction preds with
  | nil => rfl
  | cons pred preds ih => rw [matchRow, all_cons, ih]

theorem wanted_eq_settle (table : Slots) (store : Store) (sel : Select) :
    sel.wanted table store = settle table store sel := by
  funext position
  unfold Select.wanted settle
  cases decodeRowFrom table store ⟨sel.tenant, sel.resolved, position.id⟩ with
  | none => rfl
  | some row =>
    simp only [Option.any_some, matchRow_eq_all]
    cases row.get sel.slot.toNat <;> simp

theorem range_lower (sel : Select) : sel.range = prefixRange sel.range.lower := rfl

variable {key : Bytes}

theorem contains_range {sel : Select} : sel.range.Contains key ↔ sel.range.lower <+: key := by
  rw [range_lower, contains_prefixRange]
  rfl

variable {slotPrefix : Bytes}

theorem entryKey_lt_iff {first second : Position} :
    entryKey slotPrefix first < entryKey slotPrefix second ↔ first.key < second.key :=
  append_lt_append_left_iff _ _ _

theorem parseEntry_entryKey (slotPrefix : Bytes) (position : Position) (op : String) :
    parseEntry (entryKey slotPrefix position) slotPrefix op = .ok position := by
  obtain ⟨value, rid⟩ := position
  have length : (entryKey slotPrefix ⟨value, rid⟩).length =
      slotPrefix.length + value.length + idLen := by
    simp [entryKey, rid.width]
    omega
  have tail : (entryKey slotPrefix ⟨value, rid⟩).drop
      (slotPrefix.length + value.length + idLen - idLen) = rid.bytes := by
    rw [entryKey, Nat.add_sub_cancel, ← append_assoc, drop_left']
    rw [length_append]
  have middle : ((entryKey slotPrefix ⟨value, rid⟩).drop slotPrefix.length).take
      (slotPrefix.length + value.length + idLen - idLen - slotPrefix.length) = value := by
    rw [entryKey, drop_left, Nat.add_sub_cancel, Nat.add_sub_cancel_left, take_left]
  unfold parseEntry
  rw [if_neg (by omega), length]
  simp only [tail, middle, Id.fromBytes, rid.width, dite_true]

theorem entryKey_or_short (inside : slotPrefix <+: key) :
    (∃ position, key = entryKey slotPrefix position) ∨ key.length < slotPrefix.length + idLen := by
  obtain ⟨tail, rfl⟩ := inside
  by_cases long : idLen ≤ tail.length
  · left
    refine ⟨⟨tail.take (tail.length - idLen), ⟨tail.drop (tail.length - idLen), ?_⟩⟩, ?_⟩
    · rw [length_drop]
      omega
    · rw [entryKey, take_append_drop]
  right
  rw [length_append]
  omega

theorem parseEntry_cases (inside : slotPrefix <+: key) (op : String) :
    (∃ position, key = entryKey slotPrefix position ∧ parseEntry key slotPrefix op = .ok position) ∨
    (key.length < slotPrefix.length + idLen ∧
      ∃ fault, parseEntry key slotPrefix op = .error fault ∧ fault.kind = .corruption) := by
  rcases entryKey_or_short inside with ⟨position, rfl⟩ | short
  · exact .inl ⟨position, rfl, parseEntry_entryKey slotPrefix position op⟩
  refine .inr ⟨short, ?_⟩
  unfold parseEntry
  rw [if_pos short]
  exact ⟨_, rfl, rfl⟩

variable {start : Bytes}

theorem spanEnd_le (above : start ≤ key) (apart : ¬ start <+: key) :
    ∃ bound, spanEnd start = some bound ∧ bound ≤ key := by
  rw [← contains_prefixRange] at apart
  simp only [KeyRange.Contains, not_and, not_forall, exists_prop, not_lt] at apart
  exact apart above

theorem lt_spanEnd {bound : Bytes} (begins : start <+: key) (isEnd : spanEnd start = some bound) :
    key < bound :=
  ((contains_prefixRange start key).mpr begins).2 bound isEnd

section Narrow

variable {slotPrefix key : Bytes} {lo hi : Bound}

theorem le_of_lowerEnd {lower : Bytes}
    (isEnd : lowerEnd (prefixRange slotPrefix) lo = some lower) : slotPrefix ≤ lower := by
  unfold lowerEnd at isEnd
  split at isEnd
  · cases isEnd
    exact le_rfl
  next bytes _ =>
  have below : slotPrefix ≤ slotPrefix ++ bytes := le_of_isPrefix (prefix_append _ _)
  split at isEnd
  · cases isEnd
    exact below
  · exact below.trans (lt_spanEnd prefix_rfl isEnd).le

theorem isPrefix_of_lt_upperEnd (above : slotPrefix ≤ key)
    (below : ∀ bound ∈ upperEnd (prefixRange slotPrefix) hi, key < bound) : slotPrefix <+: key := by
  have fromBelow : ∀ bytes, key < slotPrefix ++ bytes → slotPrefix <+: key := by
    intro bytes less
    exact isPrefix_of_le_of_lt (show slotPrefix ++ [] ≤ key by simpa using above) less
  unfold upperEnd at below
  split at below
  · exact (contains_prefixRange slotPrefix key).mp ⟨above, below⟩
  next bytes _ =>
  split at below
  · by_cases less : key < slotPrefix ++ bytes
    · exact fromBelow bytes less
    have spans := (contains_prefixRange (slotPrefix ++ bytes) key).mp ⟨not_lt.mp less, below⟩
    exact (prefix_append _ _).trans spans
  · exact fromBelow bytes (below _ rfl)

variable {preds : List Pred} {slot : UInt16}

theorem isPrefix_of_narrow {narrowed : KeyRange}
    (narrowing : narrow (prefixRange slotPrefix) preds slot = some narrowed)
    (inside : narrowed.Contains key) : slotPrefix <+: key := by
  unfold narrow at narrowing
  simp only at narrowing
  split at narrowing
  · cases narrowing
  · next lower isLower isUpper =>
    cases narrowing
    apply isPrefix_of_lt_upperEnd ((le_of_lowerEnd isLower).trans inside.1)
    rw [isUpper]
    simp
  next lower upper isLower isUpper =>
  split at narrowing
  · cases narrowing
  cases narrowing
  apply isPrefix_of_lt_upperEnd ((le_of_lowerEnd isLower).trans inside.1)
  rw [isUpper]
  exact inside.2

variable {value : Value}

variable (slotPrefix) in
theorem lowerEnd_le (tail : Bytes) (admits : lo.Admits .gt value) :
    ∃ lower, lowerEnd (prefixRange slotPrefix) lo = some lower ∧
      lower ≤ slotPrefix ++ (value.orderBytes ++ tail) := by
  unfold lowerEnd
  split
  · exact ⟨_, rfl, le_of_isPrefix (prefix_append _ _)⟩
  next bytes bounded =>
  obtain ⟨limit, types, rfl, side⟩ := admits bytes bounded
  rcases side with beyond | ⟨rfl, included⟩
  · have compared := Value.compared types.symm
    rw [beyond] at compared
    cases compared with
    | greater order =>
      have above : slotPrefix ++ limit.orderBytes ≤ slotPrefix ++ (value.orderBytes ++ tail) := by
        rw [append_le_append_left_iff]
        simpa using (order [] tail).le
      split
      · exact ⟨_, rfl, above⟩
      apply spanEnd_le above
      rintro ⟨rest, equal⟩
      change slotPrefix ++ limit.orderBytes ++ rest = _ at equal
      rw [append_assoc, append_cancel_left_eq] at equal
      exact (order rest tail).ne equal
  · rw [if_pos included]
    refine ⟨_, rfl, le_of_isPrefix ?_⟩
    rw [← append_assoc]
    exact prefix_append _ _

variable (slotPrefix) in
theorem lt_upperEnd (tail : Bytes) (admits : hi.Admits .lt value) :
    ∀ bound ∈ upperEnd (prefixRange slotPrefix) hi,
      slotPrefix ++ (value.orderBytes ++ tail) < bound := by
  unfold upperEnd
  intro bound isEnd
  split at isEnd
  · exact lt_spanEnd (prefix_append _ _) isEnd
  next bytes bounded =>
  obtain ⟨limit, types, rfl, side⟩ := admits bytes bounded
  rcases side with beyond | ⟨rfl, included⟩
  · have compared := Value.compared types.symm
    rw [beyond] at compared
    cases compared with
    | less order =>
      have below : slotPrefix ++ (value.orderBytes ++ tail) < slotPrefix ++ limit.orderBytes := by
        rw [append_lt_append_left_iff]
        simpa using order tail []
      split at isEnd
      · exact below.trans (lt_spanEnd prefix_rfl isEnd)
      · cases isEnd
        exact below
  · rw [if_pos included] at isEnd
    apply lt_spanEnd _ isEnd
    rw [← append_assoc]
    exact prefix_append _ _

variable (slotPrefix) in
theorem contains_narrow (tail : Bytes) {row : Row} (found : row.get slot.toNat = some value)
    (typed : TypedAll slot value.type preds) (satisfied : matchRow row preds = true) :
    ∃ narrowed, narrow (prefixRange slotPrefix) preds slot = some narrowed ∧
      narrowed.Contains (slotPrefix ++ (value.orderBytes ++ tail)) := by
  obtain ⟨loAdmits, hiAdmits⟩ := boundsAll_admit found preds typed satisfied
    (admits_unbounded _ _) (admits_unbounded _ _)
  obtain ⟨lower, isLower, above⟩ := lowerEnd_le slotPrefix tail loAdmits
  have below := lt_upperEnd slotPrefix tail hiAdmits
  unfold narrow
  simp only [isLower]
  cases isUpper : upperEnd (prefixRange slotPrefix)
      (boundsAll slot preds unbounded unbounded).2 with
  | none => exact ⟨_, rfl, above, by simp⟩
  | some upper =>
    rw [isUpper] at below
    have order : ¬ upper ≤ lower := not_le.mpr (above.trans_lt (below upper rfl))
    exact ⟨_, if_neg order, above, below⟩

end Narrow

section Walk

variable (table : Slots) (store : Store) (sel : Select)

/-- The loop of `Run` over the rows it has left. -/
def walkRows : List (Bytes × Bytes) → Page → Result Page
  | [], page => .ok page
  | row :: rows, page =>
    if sel.budget ≤ page.examined then .ok { page with truncated := true }
    else match parseEntry row.1 sel.range.lower "attr.Run" with
      | .error fault => .error fault
      | .ok position =>
        let page := { page with examined := page.examined + 1, next := some position }
        if settle table store sel position then
          let page := { page with
            ids := page.ids ++ [position.id]
            positions := page.positions ++ [position] }
          if page.ids.length = sel.limit then .ok page else walkRows rows page
        else walkRows rows page

theorem walk_eq_walkRows {fuel : Nat} {it : Iterator} {rows : List (Bytes × Bytes)}
    (left : it.remaining sel.desc = rows) (enough : rows.length ≤ fuel) (page : Page) :
    walk table store sel fuel it page = walkRows table store sel rows page := by
  induction rows generalizing fuel it page with
  | nil =>
    cases fuel with
    | zero => rfl
    | succ fuel =>
      rw [walk, Iterator.current_of_remaining_nil left]
      rfl
  | cons row rows ih =>
    cases fuel with
    | zero => cases enough
    | succ fuel =>
      obtain ⟨current, rest⟩ := Iterator.current_of_remaining left
      have later := fun page => ih rest (Nat.le_of_succ_le_succ enough) page
      rw [walk, current]
      simp only [later]
      rfl

/-- What a walk over rows leaves in the page: it has seen the entries of the first
rows, and stopped at the budget, at the limit or at the end. -/
structure Walked (seen : List Position) (rest : List (Bytes × Bytes)) (before after : Page) :
    Prop where
  positions : after.positions = before.positions ++ seen.filter (settle table store sel)
  ids : after.ids = before.ids ++ (seen.filter (settle table store sel)).map Position.id
  examined : after.examined = before.examined + seen.length
  next : after.next = seen.getLast?.or before.next
  stopped : (after.truncated = true ∧ rest ≠ [] ∧ after.examined = sel.budget ∧
      after.ids.length < sel.limit) ∨
    (after.truncated = false ∧ after.ids.length = sel.limit) ∨
    (after.truncated = false ∧ rest = [] ∧ after.ids.length < sel.limit)

variable {table store sel}

theorem Walked.cons {position : Position} {seen : List Position} {rest : List (Bytes × Bytes)}
    {before middle after : Page} (walked : Walked table store sel seen rest middle after)
    (positions : middle.positions = before.positions ++ [position].filter (settle table store sel))
    (ids : middle.ids = before.ids ++ ([position].filter (settle table store sel)).map Position.id)
    (examined : middle.examined = before.examined + 1) (next : middle.next = some position) :
    Walked table store sel (position :: seen) rest before after where
  positions := by
    rw [walked.positions, positions, append_assoc, ← filter_append, singleton_append]
  ids := by
    rw [walked.ids, ids, append_assoc, ← map_append, ← filter_append, singleton_append]
  examined := by
    rw [walked.examined, examined, length_cons]
    omega
  next := by
    rw [walked.next, next]
    cases seen with
    | nil => rfl
    | cons other others =>
      rw [getLast?_cons_cons]
      cases last : (other :: others).getLast? with
      | none => simp at last
      | some final => rfl
  stopped := walked.stopped

def WalkEnds (table : Slots) (store : Store) (sel : Select) (rows : List (Bytes × Bytes))
    (before : Page) : Result Page → Prop
  | .error fault => fault.kind = .corruption ∧
      ∃ row ∈ rows, row.1.length < sel.range.lower.length + idLen
  | .ok after => ∃ visited seen rest, rows = visited ++ rest ∧
      visited.map Prod.fst = seen.map (entryKey sel.range.lower) ∧
      Walked table store sel seen rest before after

theorem WalkEnds.cons {row : Bytes × Bytes} {rows : List (Bytes × Bytes)}
    {position : Position} {before middle : Page} {result : Result Page}
    (ends : WalkEnds table store sel rows middle result)
    (key : row.1 = entryKey sel.range.lower position)
    (positions : middle.positions = before.positions ++ [position].filter (settle table store sel))
    (ids : middle.ids = before.ids ++ ([position].filter (settle table store sel)).map Position.id)
    (examined : middle.examined = before.examined + 1) (next : middle.next = some position) :
    WalkEnds table store sel (row :: rows) before result := by
  cases result with
  | error fault =>
    obtain ⟨kind, short, listed, length⟩ := ends
    exact ⟨kind, short, mem_cons_of_mem _ listed, length⟩
  | ok after =>
    obtain ⟨visited, seen, rest, rfl, keys, walked⟩ := ends
    exact ⟨row :: visited, position :: seen, rest, rfl, by simp [key, keys],
      walked.cons positions ids examined next⟩

theorem walkRows_ends (rows : List (Bytes × Bytes)) (page : Page)
    (inside : ∀ row ∈ rows, sel.range.lower <+: row.1)
    (room : page.ids.length < sel.limit) (budgeted : page.examined ≤ sel.budget)
    (fresh : page.truncated = false) :
    WalkEnds table store sel rows page (walkRows table store sel rows page) := by
  induction rows generalizing page with
  | nil =>
    refine ⟨[], [], [], rfl, rfl, ?_⟩
    exact ⟨by simp, by simp, by simp, by simp, .inr (.inr ⟨fresh, rfl, room⟩)⟩
  | cons row rows ih =>
    have later := fun other listed => inside other (mem_cons_of_mem row listed)
    unfold walkRows
    by_cases spent : sel.budget ≤ page.examined
    · rw [if_pos spent]
      refine ⟨[], [], row :: rows, rfl, rfl, ?_⟩
      exact ⟨by simp, by simp, by simp, by simp,
        .inl ⟨rfl, by simp, le_antisymm budgeted spent, room⟩⟩
    rw [if_neg spent]
    have counted : ((page.examined + 1 : Nat) : Int) ≤ sel.budget := by omega
    rcases parseEntry_cases (inside row mem_cons_self) "attr.Run" with
      ⟨position, key, parsed⟩ | ⟨short, fault, failed, kind⟩
    · rw [parsed]
      cases matched : settle table store sel position with
      | false =>
        simp only [matched, Bool.false_eq_true, if_false]
        refine (ih { page with
          examined := page.examined + 1, next := some position } later room counted
          fresh).cons key ?_ ?_ rfl rfl <;> simp [matched]
      | true =>
        simp only [matched, if_true]
        split
        · next full =>
          refine ⟨[row], [position], rows, rfl, by simp [key], ?_⟩
          exact ⟨by simp [matched], by simp [matched], rfl, rfl, .inr (.inl ⟨fresh, full⟩)⟩
        next notFull =>
        simp only [length_append, length_singleton] at notFull
        refine (ih { page with
          ids := page.ids ++ [position.id]
          positions := page.positions ++ [position]
          examined := page.examined + 1
          next := some position } later ?_ counted fresh).cons key ?_ ?_ rfl rfl
        · simp only [length_append, length_singleton]
          omega
        · simp [matched]
        · simp [matched]
    · rw [failed]
      exact ⟨kind, row, mem_cons_self, short⟩

end Walk

theorem successor_le_iff : successor start ≤ key ↔ start < key := by
  constructor
  · intro above
    have grows : start ++ [] < successor start := by
      rw [successor, append_lt_append_left_iff]
      exact nil_lt_cons _ _
    rw [append_nil] at grows
    exact grows.trans_le above
  · intro above
    by_contra below
    have begins : start <+: key :=
      isPrefix_of_le_of_lt (show start ++ [] ≤ key by simpa using above.le) (not_le.mp below)
    obtain ⟨tail, rfl⟩ := begins
    rw [successor, append_le_append_left_iff] at below
    cases tail with
    | nil => simp at above
    | cons byte rest =>
      apply below
      rcases (show (0 : UInt8) ≤ byte from UInt8.zero_le).eq_or_lt with rfl | positive
      · exact le_of_isPrefix ⟨rest, rfl⟩
      · exact (cons_lt_cons_iff.mpr (.inl positive)).le

namespace Select

variable (sel : Select)

def beyond (start key : Bytes) : Bool := if sel.desc then key < start else start < key

def passed (key : Bytes) : Bool :=
  match sel.after with
  | none => true
  | some after => sel.beyond (entryKey sel.range.lower after) key

def directed {Item : Type} (items : List Item) : List Item :=
  if sel.desc then items.reverse else items

variable {sel}

theorem passed_entryKey (position : Position) :
    sel.passed (entryKey sel.range.lower position) = sel.follows position := by
  unfold passed follows beyond
  cases sel.after with
  | none => rfl
  | some after => cases sel.desc <;> simp [entryKey_lt_iff]

variable {Item : Type}

theorem filter_directed (items : List Item) (keep : Item → Bool) :
    (sel.directed items).filter keep = sel.directed (items.filter keep) := by
  unfold directed
  split
  · rw [filter_reverse]
  · rfl

theorem filterMap_directed {Other : Type} (items : List Item) (pick : Item → Option Other) :
    (sel.directed items).filterMap pick = sel.directed (items.filterMap pick) := by
  unfold directed
  split
  · rw [filterMap_reverse]
  · rfl

theorem mem_directed {items : List Item} {item : Item} :
    item ∈ sel.directed items ↔ item ∈ items := by
  unfold directed
  split <;> simp

theorem length_directed (items : List Item) : (sel.directed items).length = items.length := by
  unfold directed
  split <;> simp

theorem pairwise_directed {rows : List (Bytes × Bytes)}
    (sorted : rows.Pairwise fun first second => first.1 < second.1) :
    (sel.directed rows).Pairwise fun first second => sel.beyond first.1 second.1 = true := by
  unfold directed beyond
  cases sel.desc with
  | false => simpa using sorted
  | true => simpa [pairwise_reverse] using sorted

end Select

variable (sel : Select) in
theorem remaining_seek {it : Iterator}
    (sorted : it.rows.Pairwise fun first second => first.1 < second.1) :
    (seek it sel.range.lower sel).remaining sel.desc =
      sel.directed (it.rows.filter fun row => sel.passed row.1) := by
  unfold seek Select.passed Select.directed Select.beyond
  cases sel.after with
  | none =>
    cases sel.desc with
    | false => simp [Iterator.remaining_first]
    | true => simp [Iterator.remaining_last]
  | some after =>
    cases sel.desc with
    | false =>
      simp only [Bool.false_eq_true, if_false, Iterator.seekGE]
      rw [Iterator.remaining_settle, drop_findIdx_of_sorted sorted]
      simp only [successor_le_iff]
    | true =>
      simp only [if_true]
      rw [← take_findIdx_of_sorted sorted]
      exact Iterator.remaining_before it _

section Accounting

variable {table : Slots} {store : Store} {sel : Select}

def Select.Typed (sel : Select) (table : Slots) : Prop :=
  ∀ declared, table.get sel.slot.toNat = some declared → TypedAll sel.slot declared.type sel.preds

def Select.ahead (store : Store) (sel : Select) (narrowed : KeyRange) : List (Bytes × Bytes) :=
  sel.directed ((scanRange store narrowed).filter fun row => sel.passed row.1)

variable {position : Position}

theorem settle_cases (settled : settle table store sel position = true) :
    ∃ row value declared, row.get sel.slot.toNat = some value ∧
      table.get sel.slot.toNat = some declared ∧ declared.type = value.type ∧
      value.orderBytes = position.value ∧ matchRow row sel.preds = true := by
  unfold settle at settled
  split at settled
  · cases settled
  next row read =>
  split at settled
  · cases settled
  next value found =>
  rw [Bool.and_eq_true, decide_eq_true_eq] at settled
  obtain ⟨bytes, satisfied⟩ := settled
  obtain ⟨encoded, _, decoded⟩ := Option.bind_eq_some_iff.mp read
  have rowTyped : row.TypedBy table := by
    cases outcome : decodeRow table encoded with
    | error fault => simp [outcome, Except.toOption] at decoded
    | ok other =>
      rw [outcome] at decoded
      cases decoded
      exact decodeRow_typedBy outcome
  obtain ⟨declared, registered, type⟩ := rowTyped _ _ found
  exact ⟨row, value, declared, found, registered, type, bytes, satisfied⟩

theorem settle_spec (typed : sel.Typed table) (settled : settle table store sel position = true) :
    ∃ narrowed, narrow sel.range sel.preds sel.slot = some narrowed ∧
      narrowed.Contains (entryKey sel.range.lower position) := by
  obtain ⟨row, value, declared, found, registered, type, bytes, satisfied⟩ := settle_cases settled
  rw [entryKey, ← bytes]
  exact contains_narrow _ _ found (type ▸ typed declared registered) satisfied

theorem scanRange_eq (store : Store) (range : KeyRange) :
    scanRange store range = store.entries.filter fun row => decide (range.Contains row.1) := rfl

theorem selected_of_narrow_none (typed : sel.Typed table)
    (contradicts : narrow sel.range sel.preds sel.slot = none) : sel.selected table store = [] := by
  rw [Select.selected, wanted_eq_settle]
  apply filter_eq_nil_iff.mpr
  intro position _ settled
  obtain ⟨narrowed, narrows, _⟩ := settle_spec typed settled
  rw [contradicts] at narrows
  cases narrows

theorem selected_eq_ahead (typed : sel.Typed table) {narrowed : KeyRange}
    (narrows : narrow sel.range sel.preds sel.slot = some narrowed) :
    sel.selected table store = ((sel.ahead store narrowed).filterMap fun row =>
        (parseEntry row.1 sel.range.lower "attr.Run").toOption).filter
          (settle table store sel) := by
  have candidates : sel.candidates store =
      sel.directed ((store.entries.filterMap sel.entryOf).filter sel.follows) := rfl
  rw [Select.selected, wanted_eq_settle, candidates, Select.ahead, Select.filter_directed,
    Select.filterMap_directed, Select.filter_directed, scanRange_eq, filter_filter,
    filter_filter, filterMap_filter, filter_filterMap, filter_filterMap]
  congr 1
  apply filterMap_congr
  intro row _
  by_cases inside : sel.range.lower <+: row.1
  · rcases parseEntry_cases inside "attr.Run" with
      ⟨position, key, parsed⟩ | ⟨_, fault, failed, _⟩
    · have reached : settle table store sel position = true → narrowed.Contains row.1 := by
        intro settled
        obtain ⟨other, narrowsTo, contains⟩ := settle_spec typed settled
        rw [narrows, Option.some.injEq] at narrowsTo
        rw [narrowsTo, key]
        exact contains
      have follows : sel.passed row.1 = sel.follows position := by
        rw [key, Select.passed_entryKey]
      have entry : sel.entryOf row = some position := by
        rw [Select.entryOf, if_pos (contains_range.mpr inside), parsed]
        rfl
      rw [entry, parsed, follows]
      change _ = Option.filter _ (if _ then some position else none)
      cases settled : settle table store sel position with
      | false => split <;> simp [Option.filter, settled]
      | true =>
        cases passes : sel.follows position <;>
          simp [Option.filter, settled, reached settled, passes]
    · have noEntry : sel.entryOf row = none := by
        rw [Select.entryOf, failed]
        exact ite_self _
      rw [noEntry, failed]
      change none = Option.filter _ (if _ then none else none)
      rw [ite_self]
      rfl
  · have noEntry : sel.entryOf row = none := by
      rw [Select.entryOf, if_neg fun contains => inside (contains_range.mp contains)]
    have outside : ¬ narrowed.Contains row.1 := fun contains =>
      inside (isPrefix_of_narrow (range_lower sel ▸ narrows) contains)
    rw [noEntry]
    simp [outside]

theorem beyond_trans {first second third : Bytes} (earlier : sel.beyond first second = true)
    (later : sel.beyond second third = true) : sel.beyond first third = true := by
  unfold Select.beyond at *
  cases desc : sel.desc with
  | false =>
    simp only [desc, Bool.false_eq_true, if_false, decide_eq_true_eq] at *
    exact earlier.trans later
  | true =>
    simp only [desc, if_true, decide_eq_true_eq] at *
    exact later.trans earlier

variable {narrowed : KeyRange} {visited : List (Bytes × Bytes)}

variable {rest : List (Bytes × Bytes)}

theorem ahead_of_visited {last : Bytes × Bytes} (split : sel.ahead store narrowed = visited ++ rest)
    (isLast : visited.getLast? = some last) {next : Position}
    (key : last.1 = entryKey sel.range.lower next) :
    Select.ahead store { sel with after := some next } narrowed = rest := by
  have sorted : (sel.ahead store narrowed).Pairwise
      fun first second => sel.beyond first.1 second.1 = true := by
    apply Select.pairwise_directed
    exact (Iterator.sorted_new store narrowed).filter _
  obtain ⟨earlier, rfl⟩ := getLast?_eq_some_iff.mp isLast
  have member : last ∈ sel.ahead store narrowed := by
    rw [split]
    simp
  have lastPassed : sel.passed last.1 = true := by
    rw [Select.ahead, Select.mem_directed, mem_filter] at member
    exact member.2
  have passes : ∀ key : Bytes, Select.passed { sel with after := some next } key =
      (sel.passed key && sel.beyond last.1 key) := by
    intro other
    rw [key]
    change sel.beyond (entryKey sel.range.lower next) other = _
    cases isBeyond : sel.beyond (entryKey sel.range.lower next) other with
    | false => simp
    | true =>
      rw [Bool.and_true]
      symm
      unfold Select.passed at lastPassed ⊢
      cases resume : sel.after with
      | none => rfl
      | some after =>
        rw [resume] at lastPassed
        exact beyond_trans lastPassed (key ▸ isBeyond)
  have narrowedAgain : Select.ahead store { sel with after := some next } narrowed =
      (sel.ahead store narrowed).filter fun row => sel.beyond last.1 row.1 := by
    rw [Select.ahead, Select.ahead, Select.filter_directed, filter_filter]
    simp only [passes, Bool.and_comm]
    rfl
  rw [narrowedAgain, split]
  rw [split, pairwise_append] at sorted
  obtain ⟨visitedSorted, _, apart⟩ := sorted
  rw [filter_append, filter_eq_nil_iff.mpr, nil_append, filter_eq_self]
  · intro row listed
    exact apart last (by simp) row listed
  intro row listed isBeyond
  -- a visited row is the last one or comes before it
  have irreflexive : ∀ key : Bytes, sel.beyond key key = false := by
    intro key
    unfold Select.beyond
    split <;> simp
  rcases mem_append.mp listed with before | same
  · have order := (pairwise_append.mp visitedSorted).2.2 row before last (by simp)
    have loop := beyond_trans order isBeyond
    rw [irreflexive] at loop
    cases loop
  · rw [mem_singleton.mp same, irreflexive] at isBeyond
    cases isBeyond

def Select.distance (store : Store) (sel : Select) : Nat :=
  match narrow sel.range sel.preds sel.slot with
  | none => 0
  | some narrowed => (sel.ahead store narrowed).length

structure Accounted (table : Slots) (store : Store) (sel : Select) (page : Page) : Prop where
  ids : page.ids = page.positions.map Position.id
  bounded : page.positions.length ≤ sel.limit
  examined : page.positions.length ≤ page.examined ∧ page.examined ≤ sel.distance store
  complete : page.exhausted = true → sel.selected table store = page.positions
  continues : page.exhausted = false → ∃ next, page.next = some next ∧ sel.selected table store =
      page.positions ++ Select.selected table store { sel with after := some next } ∧
    Select.distance store { sel with after := some next } < sel.distance store
  truncated : page.truncated = true → page.exhausted = false ∧ page.examined = sel.budget ∧
    ∃ next, page.next = some next ∧ ∃ row ∈ scanRange store sel.range,
      sel.beyond (entryKey sel.range.lower next) row.1 = true
  full : page.exhausted = false → page.truncated = false → page.positions.length = sel.limit

theorem mem_scanRange_of_ahead (narrows : narrow sel.range sel.preds sel.slot = some narrowed)
    {row : Bytes × Bytes} (listed : row ∈ sel.ahead store narrowed) :
    row ∈ scanRange store sel.range := by
  rw [Select.ahead, Select.mem_directed, mem_filter, scanRange_eq, mem_filter] at listed
  rw [scanRange_eq, mem_filter, decide_eq_true_eq, contains_range]
  exact ⟨listed.1.1, isPrefix_of_narrow (range_lower sel ▸ narrows) (of_decide_eq_true listed.1.2)⟩

variable {seen : List Position}

theorem filterMap_parseEntry {slotPrefix : Bytes}
    (keys : visited.map Prod.fst = seen.map (entryKey slotPrefix)) :
    visited.filterMap (fun row => (parseEntry row.1 slotPrefix "attr.Run").toOption) = seen := by
  have parsed : visited.filterMap (fun row => (parseEntry row.1 slotPrefix "attr.Run").toOption) =
      (visited.map Prod.fst).filterMap
        fun key => (parseEntry key slotPrefix "attr.Run").toOption := by
    rw [filterMap_map]
    rfl
  rw [parsed, keys, filterMap_map]
  have each : (fun key => (parseEntry key slotPrefix "attr.Run").toOption) ∘
      entryKey slotPrefix = some := by
    funext position
    simp [parseEntry_entryKey, Except.toOption]
  rw [each, filterMap_some]

theorem accounted_of_walked (limit : 1 ≤ sel.limit) (budget : 1 ≤ sel.budget)
    (typed : sel.Typed table) (narrows : narrow sel.range sel.preds sel.slot = some narrowed)
    {after : Page} (split : sel.ahead store narrowed = visited ++ rest)
    (keys : visited.map Prod.fst = seen.map (entryKey sel.range.lower))
    (walked : Walked table store sel seen rest {} after) :
    Accounted table store sel { after with
      exhausted := !after.truncated && after.ids.length < sel.limit } := by
  have positions : after.positions = seen.filter (settle table store sel) := walked.positions
  have ids : after.ids = after.positions.map Position.id := by
    rw [positions]
    exact walked.ids
  have count : after.ids.length = after.positions.length := by rw [ids, length_map]
  have answer : sel.selected table store = after.positions ++ (rest.filterMap fun row =>
        (parseEntry row.1 sel.range.lower "attr.Run").toOption).filter
          (settle table store sel) := by
    rw [selected_eq_ahead typed narrows, split, filterMap_append, filter_append,
      filterMap_parseEntry keys, positions]
  -- whatever stopped the walk short of the end, it had examined something
  have further : after.truncated = true ∨ after.ids.length = sel.limit →
      ∃ next, after.next = some next ∧
        Select.ahead store { sel with after := some next } narrowed = rest ∧ visited ≠ [] := by
    intro stopped
    have some : seen ≠ [] := by
      rintro rfl
      have nothing : after.ids.length = 0 := by rw [count, positions]; rfl
      have unexamined : after.examined = 0 := walked.examined
      rcases walked.stopped with ⟨_, _, spent, _⟩ | ⟨_, filled⟩ | ⟨notTruncated, _, short⟩
      · omega
      · omega
      rcases stopped with truncated | filled
      · rw [notTruncated] at truncated
        cases truncated
      · omega
    cases last : seen.getLast? with
    | none => exact absurd (getLast?_eq_none_iff.mp last) some
    | some next =>
      have lastKey : (visited.map Prod.fst).getLast? =
          Option.some (entryKey sel.range.lower next) := by
        rw [keys, getLast?_map, last]
        rfl
      rw [getLast?_map, Option.map_eq_some_iff] at lastKey
      obtain ⟨row, isLast, key⟩ := lastKey
      refine ⟨next, by rw [walked.next, last]; rfl, ahead_of_visited split isLast key, ?_⟩
      rintro rfl
      cases isLast
  constructor
  · exact ids
  · change (after.positions.length : Int) ≤ sel.limit
    rw [← count]
    rcases walked.stopped with ⟨_, _, _, short⟩ | ⟨_, filled⟩ | ⟨_, _, short⟩ <;> omega
  · change after.positions.length ≤ after.examined ∧ after.examined ≤ sel.distance store
    have examined : after.examined = seen.length := by simpa using walked.examined
    have visits : visited.length = seen.length := by simpa using congrArg List.length keys
    rw [Select.distance, narrows, examined, positions, ← visits]
    simp only [split, length_append, visits]
    exact ⟨length_filter_le _ _, Nat.le_add_right _ _⟩
  · intro exhausted
    simp only [Bool.and_eq_true, Bool.not_eq_true', decide_eq_true_eq] at exhausted
    have done : rest = [] := by
      rcases walked.stopped with ⟨truncated, _⟩ | ⟨_, filled⟩ | ⟨_, done, _⟩
      · rw [exhausted.1] at truncated
        cases truncated
      · omega
      · exact done
    rw [answer, done]
    simp
  · intro notExhausted
    have stopped : after.truncated = true ∨ after.ids.length = sel.limit := by
      rcases walked.stopped with ⟨truncated, _⟩ | ⟨_, filled⟩ | ⟨notTruncated, _, short⟩
      · exact .inl truncated
      · exact .inr filled
      · simp [notTruncated, short] at notExhausted
    obtain ⟨next, isNext, left, visitedSome⟩ := further stopped
    refine ⟨next, isNext, ?_, ?_⟩
    · have later := @selected_eq_ahead table store { sel with after := some next } typed
        narrowed narrows
      rw [later, left]
      exact answer
    change (match narrow sel.range sel.preds sel.slot with
      | none => 0
      | some narrowed => (Select.ahead store { sel with after := some next } narrowed).length) < _
    rw [Select.distance, narrows]
    simp only [left, split, length_append]
    have := length_pos_iff.mpr visitedSome
    omega
  · intro truncated
    change after.truncated = true at truncated
    rcases walked.stopped with ⟨_, more, spent, short⟩ | ⟨notTruncated, _⟩ | ⟨notTruncated, _⟩
    · obtain ⟨next, isNext, left, _⟩ := further (.inl truncated)
      obtain ⟨row, listed⟩ := exists_mem_of_ne_nil rest more
      refine ⟨by simp [truncated], spent, next, isNext, row, ?_, ?_⟩
      · apply mem_scanRange_of_ahead narrows
        rw [split]
        exact mem_append_right _ listed
      · rw [← left, Select.ahead, Select.mem_directed, mem_filter] at listed
        exact listed.2
    · rw [notTruncated] at truncated
      cases truncated
    · rw [notTruncated] at truncated
      cases truncated
  · intro notExhausted notTruncated
    change after.truncated = false at notTruncated
    change (after.positions.length : Int) = sel.limit
    rw [← count]
    rcases walked.stopped with ⟨truncated, _⟩ | ⟨_, filled⟩ | ⟨_, _, short⟩
    · rw [notTruncated] at truncated
      cases truncated
    · exact filled
    · simp [notTruncated, short] at notExhausted

def Select.ShortKey (store : Store) (sel : Select) (fault : Fault) : Prop :=
  fault.kind = .corruption ∧ ∃ row ∈ scanRange store sel.range,
    row.1.length < sel.range.lower.length + idLen

def RunEnds (table : Slots) (store : Store) (sel : Select) : Result Page → Prop
  | .error fault => sel.ShortKey store fault
  | .ok page => Accounted table store sel page

variable (store) in
theorem run_ends (slots : sel.slots = some table) (tenanted : sel.tenant ≠ [])
    (limit : 1 ≤ sel.limit) (effort : 1 ≤ sel.effort) (typed : sel.Typed table) :
    RunEnds table store sel (sel.run store) := by
  have positive : ¬ sel.limit ≤ 0 := by omega
  unfold Select.run
  simp only [tenanted, positive, slots, if_false]
  cases narrows : narrow sel.range sel.preds sel.slot with
  | none =>
    exact ⟨rfl, by simp; omega, by simp, fun _ => selected_of_narrow_none typed narrows,
      by simp, by simp, by simp⟩
  | some narrowed =>
    have rows : (seek (Iterator.new store narrowed) sel.range.lower sel).remaining sel.desc =
        sel.ahead store narrowed := remaining_seek sel (Iterator.sorted_new store narrowed)
    have fuel : (sel.ahead store narrowed).length ≤ (Iterator.new store narrowed).rows.length := by
      rw [Select.ahead, Select.length_directed]
      exact length_filter_le _ _
    have budget : 1 ≤ sel.budget := by
      rw [Select.budget, if_neg (by omega)]
      exact effort
    have inside : ∀ row ∈ sel.ahead store narrowed, sel.range.lower <+: row.1 := by
      intro row listed
      have inSlot := mem_scanRange_of_ahead narrows listed
      rw [scanRange_eq, mem_filter, decide_eq_true_eq, contains_range] at inSlot
      exact inSlot.2
    have ends : WalkEnds table store sel (sel.ahead store narrowed) {}
        (walkRows table store sel (sel.ahead store narrowed) {}) :=
      walkRows_ends _ _ inside (by simp; omega) (by simp; omega) rfl
    simp only [walk_eq_walkRows table store sel rows fuel]
    cases result : walkRows table store sel (sel.ahead store narrowed) {} with
    | error fault =>
      rw [result] at ends
      obtain ⟨kind, row, listed, short⟩ := ends
      exact ⟨kind, row, mem_scanRange_of_ahead narrows listed, short⟩
    | ok after =>
      rw [result] at ends
      obtain ⟨visited, seen, rest, split, keys, walked⟩ := ends
      exact accounted_of_walked limit budget typed narrows split keys walked

end Accounting

end Remem.Attr
