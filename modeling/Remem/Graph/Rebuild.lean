import Remem.Graph.Mirror
import Remem.Storage.Workload

/-!
# Rebuilding the in-edge space

`RebuildIn` clears the in-edge space and copies every row of the out-edge space
into it, while transactions go on changing edges. The rows it copies are those of
an iterator opened before; nothing checks that they are still stored when their
copies are committed.

The clearing loop of the source has no bound: it goes on for as long as each look
at the space finds a row. Here it has a number of rounds, any number.
-/

namespace Remem.Graph

open Base Keys Storage Relation List Option Batch

def rebuildBatch : Nat := 1000

/-- `clearRange`; nothing when the rounds run out. -/
def clearRange (range : KeyRange) : Nat → StoreProgram Unit (Option (Result Unit))
  | 0 => return none
  | rounds + 1 => do
      let batch ← Program.observe fun store =>
        ((scanRange store range).take rebuildBatch).map Prod.fst
      if batch = [] then return some (.ok ())
      else match ← Program.attempt ⟨batch.foldl Batch.delete {}, ()⟩ with
        | .error fault => return some (.error fault)
        | .ok () => clearRange range rounds

def stageCopy (scope : Scope) (row : Bytes × Bytes) (fromId : Id) (typ : RelationshipType)
    (toId : Id) (tx : Batch) : Batch :=
  { tx.set (inKey scope fromId typ toId) row.2 with reads := tx.reads ++ [(row.1, some row.2)] }

/-- The loop of `RebuildIn` over the rows of its iterator. -/
def copyRows (scope : Scope) : List (Bytes × Bytes) → Batch → Nat → StoreProgram Unit (Result Nat)
  | [], tx, written =>
    if tx.ops = [] then return .ok written
    else do
      match ← Program.attempt ⟨tx, ()⟩ with
      | .error fault => return .error (fault.within "graph.RebuildIn")
      | .ok () => return .ok written
  | row :: rest, tx, written =>
    match parseOutKey row.1 "graph.RebuildIn" with
    | .error fault => return .error fault
    | .ok (fromId, typ, toId) => do
        let tx := stageCopy scope row fromId typ toId tx
        if tx.ops.length ≥ rebuildBatch then
          match ← Program.attempt ⟨tx, ()⟩ with
          | .error fault => return .error (fault.within "graph.RebuildIn")
          | .ok () => copyRows scope rest {} (written + 1)
        else copyRows scope rest tx (written + 1)

def rebuildIn (scope : Scope) (rounds : Nat) : StoreProgram Unit (Option (Result Nat)) :=
  match scope.validate "graph.RebuildIn" with
  | .error fault => return some (.error fault)
  | .ok () => do
      match ← clearRange (spaceRange scope.tenant scope.resolved .edgeIn) rounds with
      | none => return none
      | some (.error fault) => return some (.error (fault.within "graph.RebuildIn"))
      | some (.ok ()) =>
        let rows ← Program.observe fun store =>
          scanRange store (spaceRange scope.tenant scope.resolved .edgeOut)
        some <$> copyRows scope rows {} 0

inductive Edit (Strength : Type) where
  | stage (scope : Scope) (edge : Edge Strength)
  | stageDelete (scope : Scope) (fromId toId : Id) (typ : RelationshipType)

section Edits

variable {Strength : Type} [EdgeWeight Strength] (codec : BodyCodec Strength)

def Edit.perform : Edit Strength → TxM Unit Unit
  | stage scope edge => Graph.stage codec scope edge
  | stageDelete scope fromId toId typ => Graph.stageDelete scope fromId toId typ

/-- Transactions of edits beside a rebuild of one scope, which is given its rounds. -/
def rebuilding (scope : Scope) : Workload (Edit Strength) Unit Unit Nat (Option (Result Nat)) where
  perform := Edit.perform codec
  label _ := ()
  work rounds := rebuildIn scope rounds

variable {codec}

theorem stagesPairs_edit {holds : Store → Prop} (edit : Edit Strength) :
    StagesPairs holds (edit.perform codec) := by
  cases edit with
  | stage scope edge => exact stagesPairs_stage scope edge
  | stageDelete scope fromId toId typ => exact stagesPairs_stageDelete scope fromId toId typ

end Edits

def OutShape (scope : Scope) (store : Store) : Prop :=
  ∀ key value, store.get key = some value →
    (spaceRange scope.tenant scope.resolved .edgeOut).Contains key →
    ∃ fromId typ toId, key = outKey scope fromId typ toId

/-- How the in-row of every edge stands to its out-row; and the in-edge space holds edge
rows only. -/
structure Related (scope : Scope)
    (relation : Id → RelationshipType → Id → Option Bytes → Option Bytes → Prop)
    (store : Store) : Prop where
  rows : ∀ fromId typ toId, relation fromId typ toId
    (store.get (inKey scope fromId typ toId)) (store.get (outKey scope fromId typ toId))
  inShape : ∀ key value, store.get key = some value →
    (spaceRange scope.tenant scope.resolved .edgeIn).Contains key →
    ∃ fromId typ toId, key = inKey scope fromId typ toId

def Cleared (scope : Scope) : Store → Prop :=
  Related scope fun _ _ _ inRow outRow => inRow = none ∨ inRow = outRow

def CopiedBut (scope : Scope) (rows : List (Bytes × Bytes)) : Store → Prop :=
  Related scope fun fromId typ toId inRow outRow =>
    outKey scope fromId typ toId ∉ rows.map Prod.fst → inRow = outRow

variable {scope : Scope} {store : Store}

theorem Related.paired {relation : Id → RelationshipType → Id → Option Bytes → Option Bytes → Prop}
    (reflexive : ∀ fromId typ toId row, relation fromId typ toId row row)
    (related : Related scope relation store) {ops : List Op} (paired : PairedOps ops) :
    Related scope relation (ops.foldl Op.apply store) := by
  refine paired.preserves ?_ related
  intro store after other fromId typ toId changed pair related
  refine ⟨?_, pair.inShape related.inShape⟩
  intro otherFrom otherTyp otherTo
  rcases pair.rows scope otherFrom otherTyp otherTo with ⟨inRow, outRow⟩ | ⟨inRow, outRow⟩
  · rw [inRow, outRow]
    exact reflexive _ _ _ _
  · rw [inRow, outRow]
    exact related.rows _ _ _

theorem OutShape.paired (shaped : OutShape scope store) {ops : List Op}
    (paired : PairedOps ops) : OutShape scope (ops.foldl Op.apply store) :=
  paired.preserves (fun _ _ _ _ _ _ _ pair held => pair.outShape held) shaped

theorem cleared_of_scan_eq_nil
    (empty : scanRange store (spaceRange scope.tenant scope.resolved .edgeIn) = []) :
    Cleared scope store := by
  have absent : ∀ key value, store.get key = some value →
      ¬ (spaceRange scope.tenant scope.resolved .edgeIn).Contains key := by
    intro key value found inside
    have listed : (key, value) ∈ scanRange store (spaceRange scope.tenant scope.resolved .edgeIn) :=
      OrderedMap.mem_scan.mpr ⟨found, decide_eq_true inside⟩
    rw [empty] at listed
    cases listed
  refine ⟨?_, fun key value found inside => absurd inside (absent key value found)⟩
  intro fromId typ toId
  left
  rw [eq_none_iff_forall_ne_some]
  intro value found
  exact absent _ value found ((contains_spaceRange _ _ _ _ _ _ _).mpr ⟨rfl, rfl, rfl⟩)

theorem Cleared.copiedBut (cleared : Cleared scope store) :
    CopiedBut scope (scanRange store (spaceRange scope.tenant scope.resolved .edgeOut)) store := by
  refine ⟨?_, cleared.inShape⟩
  intro fromId typ toId missing
  have absent : store.get (outKey scope fromId typ toId) = none := by
    rw [eq_none_iff_forall_ne_some]
    intro value found
    refine missing (mem_map.mpr ⟨(_, value), OrderedMap.mem_scan.mpr ⟨found, ?_⟩, rfl⟩)
    exact decide_eq_true ((contains_spaceRange _ _ _ _ _ _ _).mpr ⟨rfl, rfl, rfl⟩)
  rcases cleared.rows fromId typ toId with none | same
  · rw [none, absent]
  · exact same

/-- A batch of copies: each is of a row the batch was made from, and each of the rows has
its copy. -/
structure Copies (scope : Scope) (rows : List (Bytes × Bytes)) (tx : Batch) : Prop where
  sets : ∀ op ∈ tx.ops, ∃ fromId typ toId value, op = .set (inKey scope fromId typ toId) value ∧
      (outKey scope fromId typ toId, some value) ∈ tx.reads
  staged : ∀ fromId typ toId, outKey scope fromId typ toId ∈ rows.map Prod.fst →
    ∃ op ∈ tx.ops, op.key = inKey scope fromId typ toId

theorem Copies.nil : Copies scope [] {} := by
  constructor <;> simp

variable {rows : List (Bytes × Bytes)} {tx : Batch}

theorem Copies.stageCopy (copies : Copies scope rows tx) (fromId : Id) (typ : RelationshipType)
    (toId : Id) (value : Bytes) :
    Copies scope (rows ++ [(outKey scope fromId typ toId, value)])
      (Graph.stageCopy scope (outKey scope fromId typ toId, value) fromId typ toId tx) where
  sets op listed := by
    rcases mem_append.mp listed with earlier | new
    · obtain ⟨otherFrom, otherTyp, otherTo, otherValue, isSet, isRead⟩ := copies.sets op earlier
      exact ⟨_, _, _, _, isSet, mem_append_left _ isRead⟩
    · exact ⟨_, _, _, _, mem_singleton.mp new, mem_append_right _ (by simp)⟩
  staged otherFrom otherTyp otherTo listed := by
    rw [map_append, mem_append] at listed
    rcases listed with earlier | new
    · obtain ⟨op, isOp, isKey⟩ := copies.staged _ _ _ earlier
      exact ⟨op, mem_append_left _ isOp, isKey⟩
    · obtain ⟨_, _, rfl, rfl, rfl⟩ := outKey_inj_iff.mp (mem_singleton.mp new)
      exact ⟨_, mem_append_right _ mem_cons_self, rfl⟩

theorem Copies.get_outKey (copies : Copies scope rows tx) (store : Store) (fromId : Id)
    (typ : RelationshipType) (toId : Id) :
    (tx.effect store).get (outKey scope fromId typ toId) =
      store.get (outKey scope fromId typ toId) := by
  apply get_effect_of_not_staged
  intro op listed
  obtain ⟨_, _, _, _, rfl, _⟩ := copies.sets op listed
  exact (outKey_ne_inKey _ _ _ _ _ _ _ _).symm

theorem Copies.outShape (copies : Copies scope rows tx) (shaped : OutShape scope store) :
    OutShape scope (tx.effect store) := by
  intro key value found inside
  rw [get_effect_of_not_staged] at found
  · exact shaped key value found inside
  · rintro op listed rfl
    obtain ⟨_, _, _, _, rfl, _⟩ := copies.sets op listed
    rw [Op.key, inKey, edgeIn, contains_spaceRange] at inside
    exact absurd inside.2.2 (by decide)

theorem CopiedBut.commit {rest : List (Bytes × Bytes)}
    (copied : CopiedBut scope (rows ++ rest) store) (copies : Copies scope rows tx)
    (current : tx.Current store) : CopiedBut scope rest (tx.effect store) where
  rows fromId typ toId notLeft := by
    rw [copies.get_outKey, get_effect]
    cases staged : tx.staged (inKey scope fromId typ toId) with
    | some value =>
      obtain ⟨op, listed, isKey, isValue⟩ := mem_of_staged staged
      obtain ⟨otherFrom, otherTyp, otherTo, copy, rfl, isRead⟩ := copies.sets op listed
      obtain ⟨_, _, rfl, rfl, rfl⟩ := inKey_inj_iff.mp isKey
      rw [current _ isRead, getD_some, ← isValue]
      rfl
    | none =>
      apply copied.rows
      rw [map_append, mem_append]
      rintro (isCopied | isLeft)
      · obtain ⟨op, listed, isKey⟩ := copies.staged _ _ _ isCopied
        exact staged_eq_none_iff.mp staged op listed isKey
      · exact notLeft isLeft
  inShape key value found inside := by
    rw [get_effect] at found
    cases staged : tx.staged key with
    | some _ =>
      obtain ⟨op, listed, rfl, _⟩ := mem_of_staged staged
      obtain ⟨fromId, typ, toId, _, rfl, _⟩ := copies.sets op listed
      exact ⟨fromId, typ, toId, rfl⟩
    | none =>
      rw [staged] at found
      exact copied.inShape key value found inside

section Runs

variable {Strength : Type} [EdgeWeight Strength] {codec : BodyCodec Strength}

def CurrentCopies (payload : Labelled Unit) (store : Store) : Prop :=
  payload.batch.Current store

instance (payload : Labelled Unit) (store : Store) : Decidable (CurrentCopies payload store) :=
  inferInstanceAs (Decidable (payload.batch.Current store))

theorem keeps_rebuilding (scope : Scope) :
    (rebuilding codec scope).Keeps CurrentCopies (fun store _ => OutShape scope store)
      (fun _ batch => PairedOps batch.ops) where
  empty := PairedOps.nil
  operations edit _ := stagesPairs_edit edit
  commits _ _ _ _ paired shaped _ _ := shaped.paired paired

abbrev Edited (codec : BodyCodec Strength) (scope : Scope) : Labelled Unit → Prop :=
  (rebuilding codec scope).Transacted fun _ batch => PairedOps batch.ops

abbrev Moved (codec : BodyCodec Strength) (scope : Scope) :
    Store × List Unit → Store × List Unit → Prop :=
  ReflTransGen (Moves CurrentCopies (fun store _ => OutShape scope store) (Edited codec scope))

variable {after : Store} {past done : List Unit}

theorem Related.edited {relation : Id → RelationshipType → Id → Option Bytes → Option Bytes → Prop}
    (reflexive : ∀ fromId typ toId row, relation fromId typ toId row row)
    (moved : Moved codec scope (store, past) (after, done))
    (related : Related scope relation store) : Related scope relation after := by
  refine stable_of_moves (fun store _ => Related scope relation store) moved ?_ related
  rintro store _ payload ⟨_, paired, _⟩ _ _ _ related
  exact related.paired reflexive paired

theorem Cleared.edited (moved : Moved codec scope (store, past) (after, done))
    (cleared : Cleared scope store) : Cleared scope after :=
  Related.edited (fun _ _ _ _ => .inr rfl) moved cleared

theorem CopiedBut.edited {rows : List (Bytes × Bytes)}
    (moved : Moved codec scope (store, past) (after, done)) (copied : CopiedBut scope rows store) :
    CopiedBut scope rows after :=
  Related.edited (fun _ _ _ _ _ => rfl) moved copied

theorem outShape_of_deletes (shaped : OutShape scope store) (keys : List Bytes) :
    OutShape scope ((keys.foldl Batch.delete {}).effect store) := by
  induction keys using List.reverseRecOn with
  | nil => exact shaped
  | append_singleton keys key ih =>
    rw [foldl_append, foldl_cons, foldl_nil, effect_delete]
    intro other value found inside
    rw [OrderedMap.get_erase] at found
    split at found
    · cases found
    · exact ih other value found inside

theorem works_clearRange (rounds : Nat) (seen : Store) (past : List Unit) :
    Works CurrentCopies (fun store _ => OutShape scope store) (Edited codec scope)
      (fun _ => True) (fun outcome store _ => outcome = some (.ok ()) → Cleared scope store)
      (clearRange (spaceRange scope.tenant scope.resolved .edgeIn) rounds) seen past := by
  induction rounds generalizing seen past with
  | zero => exact nofun
  | succ rounds ih =>
    refine works_observe_bind fun store _ _ _ => ?_
    split
    · next nothing =>
      intro _
      apply cleared_of_scan_eq_nil
      rw [map_eq_nil_iff, take_eq_nil_iff] at nothing
      exact nothing.resolve_left (by decide)
    · refine works_attempt_bind trivial ?_ fun _ _ _ _ _ => nofun
      exact fun _ _ shaped _ _ _ => ⟨outShape_of_deletes shaped _, ih _ _⟩

theorem works_copyRows (rest : List (Bytes × Bytes))
    (shapes : ∀ row ∈ rest, ∃ fromId typ toId, row.1 = outKey scope fromId typ toId)
    (rows : List (Bytes × Bytes)) (tx : Batch) (copies : Copies scope rows tx)
    (written : Nat) (seen : Store) (past : List Unit)
    (copied : CopiedBut scope (rows ++ rest) seen) :
    Works CurrentCopies (fun store _ => OutShape scope store) (Edited codec scope) (fun _ => True)
      (fun outcome store _ => ∀ count, outcome = .ok count → CopiedBut scope [] store)
      (copyRows scope rest tx written) seen past := by
  induction rest generalizing rows tx written seen past with
  | nil =>
    unfold copyRows
    split
    · next nothing =>
      intro _ _
      refine ⟨fun fromId typ toId _ => copied.rows _ _ _ ?_, copied.inShape⟩
      rw [append_nil]
      intro listed
      obtain ⟨op, isOp, _⟩ := copies.staged _ _ _ listed
      rw [nothing] at isOp
      cases isOp
    refine works_attempt_bind trivial ?_ fun _ _ _ _ _ _ => nofun
    intro store _ shaped moved _ current
    exact ⟨copies.outShape shaped, fun _ _ => (copied.edited moved).commit copies current⟩
  | cons row rest ih =>
    obtain ⟨key, value⟩ := row
    obtain ⟨fromId, typ, toId, isKey⟩ := shapes _ mem_cons_self
    replace isKey : key = outKey scope fromId typ toId := isKey
    subst isKey
    have others := forall_mem_of_forall_mem_cons shapes
    have grown := copies.stageCopy fromId typ toId value
    rw [append_cons] at copied
    unfold copyRows
    rw [outKey, edgeOut, parseOutKey_append]
    dsimp only
    split
    · refine works_attempt_bind trivial ?_ fun _ _ _ _ _ _ => nofun
      intro store _ shaped moved _ current
      exact ⟨grown.outShape shaped, ih others [] {} .nil _ _ _
        ((copied.edited moved).commit grown current)⟩
    · exact ih others _ _ grown _ _ _ copied

theorem works_rebuildIn (rounds : Nat) (seen : Store) (past : List Unit) :
    Works CurrentCopies (fun store _ => OutShape scope store) (Edited codec scope) (fun _ => True)
      (fun outcome store _ => ∀ count, outcome = some (.ok count) → CopiedBut scope [] store)
      (rebuildIn scope rounds) seen past := by
  unfold rebuildIn
  split
  · exact nofun
  refine (works_clearRange rounds seen past).bind ?_
  intro outcome seen past cleared
  match outcome with
  | none => exact nofun
  | some (.error _) => exact nofun
  | some (.ok ()) =>
    refine works_observe_bind fun store done shaped moved => ?_
    have found := ((cleared rfl).edited moved).copiedBut
    have shapes : ∀ row ∈ scanRange store (spaceRange scope.tenant scope.resolved .edgeOut),
        ∃ fromId typ toId, row.1 = outKey scope fromId typ toId := by
      rintro ⟨key, value⟩ listed
      obtain ⟨stored, inside⟩ := OrderedMap.mem_scan.mp listed
      exact shaped key value stored (of_decide_eq_true inside)
    refine (works_copyRows _ shapes [] {} .nil 0 store done found).bind ?_
    rintro outcome seen past copied count ⟨⟩
    exact copied count rfl

/-- A rebuild leaves the two edge spaces mirrored where it copies rows that are still
stored. From a store whose out-edge space holds edge rows only, in every schedule of
transactions beside one rebuild in which every commit finds the rows its batch was made from
unchanged: once the rebuild has returned success, each in-row exists exactly when its out-row
does and holds the same bytes, and nothing else is in the in-edge space. -/
theorem rebuilt_mirrors (codec : BodyCodec Strength) (scope : Scope) (initial : Store)
    (shaped : OutShape scope initial) (schedule : List (Action (Call (Edit Strength) Nat)))
    (distinct : (rebuilding codec scope).system.Distinct
      ((rebuilding codec scope).system.run initial schedule))
    (current : (rebuilding codec scope).system.Meets (Checks CurrentCopies)
      (System.start initial) schedule)
    (index rounds count : Nat)
    (rebuilt : Workload.finished ((rebuilding codec scope).system.run initial schedule) index =
      some (rounds, some (.ok count))) :
    let store := ((rebuilding codec scope).system.run initial schedule).state
    (∀ fromId typ toId, store.get (inKey scope fromId typ toId) =
      store.get (outKey scope fromId typ toId)) ∧
    ∀ key value, (spaceRange scope.tenant scope.resolved .edgeIn).Contains key →
      (store.get key = some value ↔ ∃ fromId typ toId, key = inKey scope fromId typ toId ∧
        store.get (outKey scope fromId typ toId) = some value) := by
  intro store
  obtain ⟨_, ended⟩ := Workload.run_of_works (keeps_rebuilding scope)
    (fun rounds seen past _ => works_rebuildIn rounds seen past) shaped distinct current
  obtain ⟨seen, past, moved, promised⟩ := ended index rounds _ rebuilt
  have copied : CopiedBut scope [] store := (promised count rfl).edited moved
  have agree : ∀ fromId typ toId, store.get (inKey scope fromId typ toId) =
      store.get (outKey scope fromId typ toId) :=
    fun fromId typ toId => copied.rows fromId typ toId (by simp)
  refine ⟨agree, ?_⟩
  intro key value inside
  constructor
  · intro found
    obtain ⟨fromId, typ, toId, rfl⟩ := copied.inShape key value found inside
    exact ⟨fromId, typ, toId, rfl, (agree _ _ _).symm.trans found⟩
  · rintro ⟨fromId, typ, toId, rfl, found⟩
    exact (agree _ _ _).trans found

/-- Verification after such a rebuild finds no disagreement of the two spaces. -/
theorem rebuilt_verifies (codec : BodyCodec Strength) (scope : Scope) (initial : Store)
    (tenanted : scope.tenant ≠ []) (shaped : OutShape scope initial)
    (schedule : List (Action (Call (Edit Strength) Nat)))
    (distinct : (rebuilding codec scope).system.Distinct
      ((rebuilding codec scope).system.run initial schedule))
    (current : (rebuilding codec scope).system.Meets (Checks CurrentCopies)
      (System.start initial) schedule)
    (index rounds count : Nat)
    (rebuilt : Workload.finished ((rebuilding codec scope).system.run initial schedule) index =
      some (rounds, some (.ok count))) :
    ∃ report, verify ((rebuilding codec scope).system.run initial schedule).state scope =
      .ok report ∧ report.Agrees := by
  obtain ⟨stillShaped, ended⟩ := Workload.run_of_works (keeps_rebuilding scope)
    (fun rounds seen past _ => works_rebuildIn rounds seen past) shaped distinct current
  obtain ⟨seen, past, moved, promised⟩ := ended index rounds _ rebuilt
  have copied := (promised count rfl).edited moved
  have agree := fun fromId typ toId => copied.rows fromId typ toId (by simp)
  exact verify_agrees ⟨agree, stillShaped, copied.inShape⟩ tenanted

end Runs

def sampleScope : Scope := ⟨ascii "acme", defaultNamespace⟩

def sampleEdge : Edge ℚ := ⟨Id.filled 1, Id.filled 2, ⟨1⟩, 1 / 2, 0, 0, .empty⟩

/-- An edge is staged, and a rebuild clears its in-row, looks again and opens its iterator. -/
def openedRun : List (Action (Call (Edit ℚ) Nat)) :=
  [.spawn (.transact [.stage sampleScope sampleEdge]), .act 0,
    .spawn (.job 2), .act 1, .act 1, .act 1, .act 1]

theorem rebuilt_mirrors_copied :
    let store := ((rebuilding percentCodec sampleScope).system.run .empty
      (openedRun ++ [.act 1])).state
    store.get (outKey sampleScope (Id.filled 1) ⟨1⟩ (Id.filled 2)) =
        some (Codec.headerFor Codec.codecEdgeProtobuf ++ [50]) ∧
      store.get (inKey sampleScope (Id.filled 1) ⟨1⟩ (Id.filled 2)) =
        store.get (outKey sampleScope (Id.filled 1) ⟨1⟩ (Id.filled 2)) := by
  refine ⟨by decide +kernel, ?_⟩
  refine (rebuilt_mirrors percentCodec sampleScope .empty (fun key value found => ?_)
    (openedRun ++ [.act 1]) ?_ ?_ 1 2 1 ?_).1 _ _ _
  · simp at found
  · refine ⟨fun _ _ => trivial, ?_⟩
    rw [System.calls_run]
    exact pairwise_pair.mpr (.inl rfl)
  · decide +kernel
  · decide +kernel

theorem rebuilt_verifies_copied :
    ∃ report, verify ((rebuilding percentCodec sampleScope).system.run .empty
      (openedRun ++ [.act 1])).state sampleScope = .ok report ∧ report.Agrees := by
  have verified := rebuilt_verifies percentCodec sampleScope .empty (by decide)
    (fun key value found => by simp at found) (openedRun ++ [.act 1])
    ⟨fun _ _ => trivial, by rw [System.calls_run]; exact pairwise_pair.mpr (.inl rfl)⟩
    (by decide +kernel) 1 2 1 (by decide +kernel)
  exact verified

/-- The edge is deleted after the rebuild opened its iterator, and the rebuild puts its in-row
back: the rebuild returns success and the in-row exists without its out-row. -/
theorem rebuilt_deleted_edge :
    let world := (rebuilding percentCodec sampleScope).system.run .empty
      (openedRun ++ [.spawn (.transact
        [.stageDelete sampleScope (Id.filled 1) (Id.filled 2) ⟨1⟩]), .act 2, .act 1])
    Workload.finished world 1 = some (2, some (.ok 1)) ∧
      (world.threads.all fun thread => thread.program.answer?.isSome) = true ∧
      world.state.get (outKey sampleScope (Id.filled 1) ⟨1⟩ (Id.filled 2)) = none ∧
      world.state.get (inKey sampleScope (Id.filled 1) ⟨1⟩ (Id.filled 2)) =
        some (Codec.headerFor Codec.codecEdgeProtobuf ++ [50]) := by
  decide +kernel

end Remem.Graph
