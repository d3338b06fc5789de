import Mathlib

/-!
# Byte strings

Keys and values are finite byte strings, compared lexicographically with a
proper prefix first. The lemmas here say how that order meets concatenation:
two strings that differ inside keep their order under any tails, and the
strings that begin with a given one form an interval.
-/

namespace Remem.Base

open List

universe u v

instance linearOrderByte : LinearOrder UInt8 where
  le_refl := UInt8.le_refl
  le_trans _ _ _ := UInt8.le_trans
  lt_iff_le_not_ge first second := by
    simp only [UInt8.lt_iff_toNat_lt, UInt8.le_iff_toNat_le]
    omega
  le_antisymm _ _ := UInt8.le_antisymm
  le_total := UInt8.le_total
  toDecidableLE := inferInstance
  toDecidableLT := inferInstance
  toDecidableEq := inferInstance

abbrev Bytes := List UInt8

instance lawfulBEqBytes : LawfulBEq Bytes := inferInstance

def ascii (text : String) : Bytes :=
  text.toList.map fun character => character.toNat.toUInt8

section Lexicographic

variable {Symbol : Type u} [LinearOrder Symbol]

theorem le_of_isPrefix {first second : List Symbol} (begins : first <+: second) :
    first ≤ second := by
  rcases begins with ⟨tail, rfl⟩
  induction first with
  | nil => exact not_lt.mp (not_lt_nil _)
  | cons head rest ih =>
    exact cons_le_cons head ih

@[simp]
theorem append_lt_append_left_iff (common first second : List Symbol) :
    common ++ first < common ++ second ↔ first < second := by
  induction common with
  | nil => simp
  | cons head rest ih =>
    simp [ih]

@[simp]
theorem append_le_append_left_iff (common first second : List Symbol) :
    common ++ first ≤ common ++ second ↔ first ≤ second := by
  rw [← not_lt, ← not_lt, append_lt_append_left_iff]

/-- A string between a prefix and one of the strings it begins begins with it
too: the strings with a common prefix are an interval. -/
theorem isPrefix_of_le_of_lt {common low high key : List Symbol}
    (above : common ++ low ≤ key) (below : key < common ++ high) : common <+: key := by
  induction common generalizing key with
  | nil => exact nil_prefix
  | cons head rest ih =>
    cases key with
    | nil =>
      exact absurd above (not_le.mpr (by simp))
    | cons other others =>
      rw [cons_append] at above below
      rcases cons_lt_cons_iff.mp below with smaller | ⟨equal, restBelow⟩
      · have notSmaller : ¬ other :: others < head :: (rest ++ low) := not_lt.mpr above
        exact absurd (cons_lt_cons_iff.mpr (Or.inl smaller)) notSmaller
      subst equal
      have restAbove : rest ++ low ≤ others := by
        rw [← not_lt] at above ⊢
        intro restSmaller
        exact above (cons_lt_cons_iff.mpr (Or.inr ⟨rfl, restSmaller⟩))
      exact cons_prefix_cons.mpr ⟨rfl, ih restAbove restBelow⟩

variable {last : Symbol}

theorem replicate_le_iff_isPrefix (top : ∀ symbol, symbol ≤ last) (count : Nat)
    (key : List Symbol) : List.replicate count last ≤ key ↔ List.replicate count last <+: key := by
  refine ⟨fun above => ?_, le_of_isPrefix⟩
  induction count generalizing key with
  | zero => exact nil_prefix
  | succ count ih =>
    cases key with
    | nil => exact absurd above (not_le.mpr (by simp [replicate_succ]))
    | cons head rest =>
      rw [replicate_succ] at above ⊢
      rw [← not_lt, cons_lt_cons_iff, not_or, not_and, not_lt, not_lt] at above
      have equal : head = last := le_antisymm (top head) above.1
      exact cons_prefix_cons.mpr ⟨equal.symm, ih rest (above.2 equal)⟩

/-- The strings that begin with a given one end where its last symbol that has a
successor is replaced by that successor. -/
theorem between_iff_isPrefix {symbol next : Symbol} (top : ∀ other, other ≤ last)
    (smaller : symbol < next) (gap : ∀ other, other < next → other ≤ symbol) (common : List Symbol)
    (count : Nat) (key : List Symbol) :
    common ++ symbol :: List.replicate count last ≤ key ∧ key < common ++ [next] ↔
      common ++ symbol :: List.replicate count last <+: key := by
  constructor
  · rintro ⟨above, below⟩
    rcases isPrefix_of_le_of_lt above below with ⟨rest, rfl⟩
    rw [append_le_append_left_iff] at above
    rw [append_lt_append_left_iff] at below
    cases rest with
    | nil => exact absurd above (not_le.mpr (by simp))
    | cons head tail =>
      have low : head ≤ symbol := by
        rcases cons_lt_cons_iff.mp below with less | ⟨_, impossible⟩
        · exact gap head less
        · exact absurd impossible (not_lt_nil _)
      rw [← not_lt, cons_lt_cons_iff, not_or, not_and, not_lt, not_lt] at above
      have equal : head = symbol := le_antisymm low above.1
      subst equal
      rw [prefix_append_right_inj, cons_prefix_cons]
      exact ⟨rfl, (replicate_le_iff_isPrefix top count tail).mp (above.2 rfl)⟩
  · rintro ⟨tail, rfl⟩
    refine ⟨le_of_isPrefix (prefix_append _ _), ?_⟩
    rw [append_assoc, append_lt_append_left_iff, cons_append]
    exact cons_lt_cons_iff.mpr (Or.inl smaller)

end Lexicographic

section Codes

variable {Value : Type u} {Symbol : Type v}

/-- A code whose words end themselves: whatever follows a word, the value and
the tail can be told from the concatenation. -/
def SelfDelimiting (encode : Value → List Symbol) : Prop :=
  ∀ ⦃first second : Value⦄ ⦃firstTail secondTail : List Symbol⦄,
    encode first ++ firstTail = encode second ++ secondTail →
      first = second ∧ firstTail = secondTail

variable {encode : Value → List Symbol}

theorem SelfDelimiting.injective (delimits : SelfDelimiting encode) :
    Function.Injective encode := by
  intro first second equal
  exact (delimits (congrArg (· ++ []) equal)).1

theorem SelfDelimiting.isPrefix_iff (delimits : SelfDelimiting encode) (first second : Value)
    (tail : List Symbol) : encode first <+: encode second ++ tail ↔ first = second := by
  constructor
  · rintro ⟨rest, equal⟩
    exact (delimits equal).1
  · rintro rfl
    exact prefix_append _ _

theorem selfDelimiting_of_width (width : Nat) (fixed : ∀ value, (encode value).length = width)
    (injective : Function.Injective encode) : SelfDelimiting encode := by
  intro first second firstTail secondTail equal
  have widths : (encode first).length = (encode second).length := by
    rw [fixed, fixed]
  rcases append_inj equal widths with ⟨words, tails⟩
  exact ⟨injective words, tails⟩

theorem SelfDelimiting.append {Other : Type*} {first : Value → List Symbol}
    {second : Other → List Symbol} (firstDelimits : SelfDelimiting first)
    (secondDelimits : SelfDelimiting second) :
    SelfDelimiting fun pair : Value × Other => first pair.1 ++ second pair.2 := by
  rintro ⟨left, right⟩ ⟨otherLeft, otherRight⟩ firstTail secondTail equal
  simp only [append_assoc] at equal
  rcases firstDelimits equal with ⟨rfl, rest⟩
  rcases secondDelimits rest with ⟨rfl, tails⟩
  exact ⟨rfl, tails⟩

theorem SelfDelimiting.lengthPrefixed {length : Nat → List Symbol}
    (delimits : SelfDelimiting length) :
    SelfDelimiting fun word : List Symbol => length word.length ++ word := by
  intro first second firstTail secondTail equal
  simp only [append_assoc] at equal
  rcases delimits equal with ⟨lengths, rest⟩
  exact append_inj rest lengths

end Codes

end Remem.Base
