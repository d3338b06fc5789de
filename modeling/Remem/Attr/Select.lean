import Remem.Attr.Predicate
import Remem.Attr.CacheRuns
import Remem.Storage.Iterator

/-!
# Ordered selection

One bounded page of the records that satisfy every predicate, in the order of one
slot's index. The index supplies candidates and the row of each decides.
-/

namespace Remem.Attr

open Base Keys Storage

/-- `Position`: an encoded ordering value and the record that carries it. -/
structure Position where
  value : Bytes
  id : Id
  deriving DecidableEq

structure Select where
  tenant : TenantId
  namespaceName : Namespace
  slots : Option Slots
  slot : UInt16
  desc : Bool
  preds : List Pred
  after : Option Position
  limit : Int
  effort : Int

structure Page where
  ids : List Id := []
  positions : List Position := []
  examined : Nat := 0
  next : Option Position := none
  exhausted : Bool := false
  truncated : Bool := false

namespace Select

def resolved (sel : Select) : Namespace :=
  if sel.namespaceName = [] then defaultNamespace else sel.namespaceName

def budget (sel : Select) : Int := if sel.effort ≤ 0 then sel.limit else sel.effort

def range (sel : Select) : KeyRange := attrSlotRange sel.tenant sel.resolved sel.slot

end Select

def entryKey (slotPrefix : Bytes) (position : Position) : Bytes :=
  slotPrefix ++ (position.value ++ position.id.bytes)

/-- `successor`: the smallest key above. -/
def successor (key : Bytes) : Bytes := key ++ [0]

/-- `spanEnd`: the first key above everything with this prefix. -/
def spanEnd (key : Bytes) : Option Bytes := (prefixRange key).upper

def parseEntry (key slotPrefix : Bytes) (op : String) : Result Position :=
  if key.length < slotPrefix.length + idLen then
    .error ⟨.corruption, op, "an attribute index key is %d bytes, too short to hold a record id",
      [.number key.length]⟩
  else
    let tail := key.drop (key.length - idLen)
    match Id.fromBytes tail with
    | .error _ =>
      .error ⟨.corruption, op, "an attribute index key holds a malformed record id", []⟩
    | .ok rid =>
      .ok ⟨(key.drop slotPrefix.length).take (key.length - idLen - slotPrefix.length), rid⟩

def lowerEnd (range : KeyRange) (lo : Bound) : Option Bytes :=
  match lo.1 with
  | none => some range.lower
  | some bytes => if lo.2 then some (range.lower ++ bytes) else spanEnd (range.lower ++ bytes)

def upperEnd (range : KeyRange) (hi : Bound) : Option Bytes :=
  match hi.1 with
  | none => range.upper
  | some bytes => if hi.2 then spanEnd (range.lower ++ bytes) else some (range.lower ++ bytes)

/-- `narrow`: no range at all where the bounds contradict each other. -/
def narrow (range : KeyRange) (preds : List Pred) (slot : UInt16) : Option KeyRange :=
  let (lo, hi) := boundsAll slot preds unbounded unbounded
  match lowerEnd range lo, upperEnd range hi with
  | none, _ => none
  | some lower, none => some ⟨lower, none⟩
  | some lower, some upper => if upper ≤ lower then none else some ⟨lower, some upper⟩

/-- `settle`: the entry still reflects its row and the row satisfies every predicate. -/
def settle (table : Slots) (store : Store) (sel : Select) (position : Position) : Bool :=
  match decodeRowFrom table store ⟨sel.tenant, sel.resolved, position.id⟩ with
  | none => false
  | some row =>
    match row.get sel.slot.toNat with
    | none => false
    | some value => value.orderBytes = position.value && matchRow row sel.preds

def seek (it : Iterator) (slotPrefix : Bytes) (sel : Select) : Iterator :=
  match sel.after with
  | none => if sel.desc then it.last else it.first
  | some after =>
    let resume := entryKey slotPrefix after
    if sel.desc then
      let it := it.seekGE resume
      if it.valid then it.prev else it.last
    else it.seekGE (successor resume)

/-- The loop of `Run`; the fuel is the number of rows the iterator has. -/
def walk (table : Slots) (store : Store) (sel : Select) : Nat → Iterator → Page → Result Page
  | 0, _, page => .ok page
  | fuel + 1, it, page =>
    match it.current with
    | none => .ok page
    | some (key, _) =>
      if sel.budget ≤ page.examined then .ok { page with truncated := true }
      else match parseEntry key sel.range.lower "attr.Run" with
        | .error fault => .error fault
        | .ok position =>
          let page := { page with examined := page.examined + 1, next := some position }
          if settle table store sel position then
            let page := { page with
              ids := page.ids ++ [position.id]
              positions := page.positions ++ [position] }
            if page.ids.length = sel.limit then .ok page
            else walk table store sel fuel (it.advance sel.desc) page
          else walk table store sel fuel (it.advance sel.desc) page

def Select.run (store : Store) (sel : Select) : Result Page :=
  if sel.tenant = [] then
    .error ⟨.invalid, "attr.Run",
      "a selection requires a tenant: there is no unscoped read path (Invariant 1)", []⟩
  else if sel.limit ≤ 0 then
    .error ⟨.invalid, "attr.Run", "a selection limit must be greater than zero", []⟩
  else match sel.slots with
    | none =>
      .error ⟨.invalid, "attr.Run",
        "a selection needs the registered slot table to read rows with", []⟩
    | some table =>
      match narrow sel.range sel.preds sel.slot with
      | none => .ok { exhausted := true }
      | some range =>
        let it := Iterator.new store range
        match walk table store sel it.rows.length (seek it sel.range.lower sel) {} with
        | .error fault => .error fault
        | .ok page =>
          .ok { page with
            exhausted := !page.truncated && page.ids.length < sel.limit }

end Remem.Attr
