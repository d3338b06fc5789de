import Remem.Attr.Row

/-!
# Predicates on rows

A condition settled from an attribute row, and the bounds it implies on the walk of
its slot's index.
-/

namespace Remem.Attr

open Base Keys

/-- `Pred`, with its four implementations. -/
inductive Pred where
  | eq (slot : UInt16) (value : Value)
  | range (slot : UInt16) (lo hi : Option Value) (loIncl hiIncl : Bool)
  | and (preds : List Pred)
  | not (pred : Pred)

def admitsLow (lo : Option Value) (inclusive : Bool) (value : Value) : Bool :=
  match lo with
  | none => true
  | some bound =>
    let order := value.compare bound
    !(order = .lt || (order = .eq && !inclusive))

def admitsHigh (hi : Option Value) (inclusive : Bool) (value : Value) : Bool :=
  match hi with
  | none => true
  | some bound =>
    let order := value.compare bound
    !(order = .gt || (order = .eq && !inclusive))

mutual

def Pred.eval (row : Row) : Pred → Bool
  | .eq slot value => row.get slot.toNat = some value
  | .range slot lo hi loIncl hiIncl =>
    match row.get slot.toNat with
    | none => false
    | some value => admitsLow lo loIncl value && admitsHigh hi hiIncl value
  | .and preds => matchRow row preds
  | .not pred => !Pred.eval row pred

/-- `Match`. -/
def matchRow (row : Row) : List Pred → Bool
  | [] => true
  | pred :: preds => Pred.eval row pred && matchRow row preds

end

abbrev Bound := Option Bytes × Bool

/-- `tightenLow` where `tighter` is above, `tightenHigh` where it is below. -/
def tighten (tighter : Bytes → Bytes → Bool) (cur next : Bound) : Bound :=
  match next.1, cur.1 with
  | none, _ => cur
  | some _, none => next
  | some nextBytes, some curBytes =>
    if tighter nextBytes curBytes then next
    else if nextBytes = curBytes then (cur.1, cur.2 && next.2)
    else cur

def tightenLow : Bound → Bound → Bound := tighten fun next cur => cur < next

def tightenHigh : Bound → Bound → Bound := tighten fun next cur => next < cur

def unbounded : Bound := (none, true)

def Bound.ofEnd (limit : Option Value) (inclusive : Bool) : Bound :=
  match limit with
  | none => unbounded
  | some value => (some value.orderBytes, inclusive)

mutual

/-- `bounds`: the ends a predicate implies on a slot. -/
def Pred.bounds (slot : UInt16) : Pred → Bound × Bound
  | .eq own value =>
    if own ≠ slot then (unbounded, unbounded)
    else ((some value.orderBytes, true), (some value.orderBytes, true))
  | .range own lo hi loIncl hiIncl =>
    if own ≠ slot then (unbounded, unbounded)
    else (.ofEnd lo loIncl, .ofEnd hi hiIncl)
  | .and preds => boundsAll slot preds unbounded unbounded
  | .not _ => (unbounded, unbounded)

/-- The loop of `bounds` over the operands of a conjunction, and of `narrow` over the
predicates of a selection. -/
def boundsAll (slot : UInt16) : List Pred → Bound → Bound → Bound × Bound
  | [], lo, hi => (lo, hi)
  | pred :: preds, lo, hi =>
    let (predLo, predHi) := Pred.bounds slot pred
    boundsAll slot preds (tightenLow lo predLo) (tightenHigh hi predHi)

end

def Bound.Admits (bound : Bound) (side : Ordering) (value : Value) : Prop :=
  ∀ bytes, bound.1 = some bytes → ∃ limit : Value, limit.type = value.type ∧
    bytes = limit.orderBytes ∧ (value.compare limit = side ∨ value = limit ∧ bound.2 = true)

theorem admits_unbounded (side : Ordering) (value : Value) : Bound.Admits unbounded side value := by
  rintro bytes ⟨⟩

theorem Bound.Admits.tighten {cur next : Bound} {side : Ordering} {value : Value}
    (curAdmits : cur.Admits side value) (nextAdmits : next.Admits side value)
    (tighter : Bytes → Bytes → Bool) : Bound.Admits (Attr.tighten tighter cur next) side value := by
  obtain ⟨curBytes, curIncl⟩ := cur
  obtain ⟨nextBytes, nextIncl⟩ := next
  unfold Attr.tighten
  cases nextBytes with
  | none => exact curAdmits
  | some nextBytes =>
    cases curBytes with
    | none => exact nextAdmits
    | some curBytes =>
      simp only
      split
      · exact nextAdmits
      split
      · next same =>
        rintro bytes ⟨⟩
        obtain ⟨limit, type, rfl, side⟩ := curAdmits curBytes rfl
        obtain ⟨other, otherType, otherBytes, otherSide⟩ := nextAdmits nextBytes rfl
        have equal : limit = other :=
          Value.orderBytes_inj (type.trans otherType.symm) (same.symm.trans otherBytes)
        subst equal
        refine ⟨limit, type, rfl, ?_⟩
        rcases side with beyond | ⟨equal, incl⟩
        · exact .inl beyond
        rcases otherSide with beyond | ⟨_, otherIncl⟩
        · exact .inl beyond
        · exact .inr ⟨equal, by simp_all⟩
      · exact curAdmits

mutual

/-- The values a predicate compares the slot with have the slot's type. A negation
implies no bounds, so it may compare as it likes. -/
def Pred.Typed (slot : UInt16) (type : SlotType) : Pred → Prop
  | .eq own value => own = slot → value.type = type
  | .range own lo hi _ _ => own = slot →
      (∀ value, lo = some value → value.type = type) ∧ ∀ value, hi = some value → value.type = type
  | .and preds => TypedAll slot type preds
  | .not _ => True

def TypedAll (slot : UInt16) (type : SlotType) : List Pred → Prop
  | [] => True
  | pred :: preds => Pred.Typed slot type pred ∧ TypedAll slot type preds

end

theorem admits_of_admitsLow {lo : Option Value} {inclusive : Bool} {value : Value}
    (typed : ∀ bound, lo = some bound → bound.type = value.type)
    (admitted : admitsLow lo inclusive value = true) :
    (Bound.ofEnd lo inclusive).Admits .gt value := by
  cases lo with
  | none => exact admits_unbounded _ _
  | some bound =>
    rintro bytes ⟨⟩
    refine ⟨bound, typed bound rfl, rfl, ?_⟩
    unfold admitsLow at admitted
    cases order : value.compare bound with
    | lt => simp [order] at admitted
    | eq => exact .inr ⟨Value.eq_of_compare (typed bound rfl).symm order,
        by simpa [order, Bound.ofEnd] using admitted⟩
    | gt => exact .inl rfl

theorem admits_of_admitsHigh {hi : Option Value} {inclusive : Bool} {value : Value}
    (typed : ∀ bound, hi = some bound → bound.type = value.type)
    (admitted : admitsHigh hi inclusive value = true) :
    (Bound.ofEnd hi inclusive).Admits .lt value := by
  cases hi with
  | none => exact admits_unbounded _ _
  | some bound =>
    rintro bytes ⟨⟩
    refine ⟨bound, typed bound rfl, rfl, ?_⟩
    unfold admitsHigh at admitted
    cases order : value.compare bound with
    | gt => simp [order] at admitted
    | eq => exact .inr ⟨Value.eq_of_compare (typed bound rfl).symm order,
        by simpa [order, Bound.ofEnd] using admitted⟩
    | lt => exact .inl rfl

section Admits

variable {slot : UInt16} {row : Row} {value : Value}

mutual

theorem Pred.bounds_admit (found : row.get slot.toNat = some value) :
    (pred : Pred) → pred.Typed slot value.type → pred.eval row = true →
      (pred.bounds slot).1.Admits .gt value ∧ (pred.bounds slot).2.Admits .lt value
  | .eq own wanted, typed, satisfied => by
      unfold Pred.bounds
      split
      · exact ⟨admits_unbounded _ _, admits_unbounded _ _⟩
      next same =>
      rw [not_not] at same
      subst same
      have equal : value = wanted := by simpa [Pred.eval, found] using satisfied
      subst equal
      constructor <;> rintro bytes ⟨⟩ <;> exact ⟨value, rfl, rfl, .inr ⟨rfl, rfl⟩⟩
  | .range own lo hi loIncl hiIncl, typed, satisfied => by
      unfold Pred.bounds
      split
      · exact ⟨admits_unbounded _ _, admits_unbounded _ _⟩
      next same =>
      rw [not_not] at same
      subst same
      simp only [Pred.eval, found, Bool.and_eq_true] at satisfied
      obtain ⟨typedLo, typedHi⟩ := typed rfl
      exact ⟨admits_of_admitsLow typedLo satisfied.1, admits_of_admitsHigh typedHi satisfied.2⟩
  | .and preds, typed, satisfied => by
      unfold Pred.bounds
      rw [Pred.eval] at satisfied
      rw [Pred.Typed] at typed
      exact boundsAll_admit found preds typed satisfied (admits_unbounded _ _)
        (admits_unbounded _ _)
  | .not pred, _, _ => by
      unfold Pred.bounds
      exact ⟨admits_unbounded _ _, admits_unbounded _ _⟩

theorem boundsAll_admit (found : row.get slot.toNat = some value) :
    (preds : List Pred) → TypedAll slot value.type preds → matchRow row preds = true →
      {lo hi : Bound} → lo.Admits .gt value → hi.Admits .lt value →
      (boundsAll slot preds lo hi).1.Admits .gt value ∧
        (boundsAll slot preds lo hi).2.Admits .lt value
  | [], _, _, _, _, loAdmits, hiAdmits => ⟨loAdmits, hiAdmits⟩
  | pred :: preds, typed, satisfied, lo, hi, loAdmits, hiAdmits => by
      rw [matchRow, Bool.and_eq_true] at satisfied
      rw [TypedAll] at typed
      obtain ⟨predLo, predHi⟩ := Pred.bounds_admit found pred typed.1 satisfied.1
      exact boundsAll_admit found preds typed.2 satisfied.2 (loAdmits.tighten predLo _)
        (hiAdmits.tighten predHi _)

end

end Admits

end Remem.Attr
