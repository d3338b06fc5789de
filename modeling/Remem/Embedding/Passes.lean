import Mathlib

/-!
# Forward passes

Sequences grouped into passes of bounded rows and bounded padded width.
-/

namespace Remem.Embedding

open List

/-- The product of two `int`s, which wraps around. -/
def padded (rows width : Nat) : Int := ((rows * width : Nat) : Int).bmod (2 ^ 64)

theorem padded_eq {rows width : Nat} (small : rows * width < 2 ^ 63) :
    padded rows width = (rows * width : Nat) :=
  Int.bmod_eq_of_le_mul_two (by omega) (by omega)

section Packing

variable (length : Nat → Nat) (maxRows maxTokens : Nat)

/-- The loop of `packPasses` over the rows, with the passes so far, the current one and its
width. -/
def packLoop : List Nat → List (List Nat) → List Nat → Nat → List (List Nat)
  | [], passes, cur, _ => if cur = [] then passes else passes ++ [cur]
  | i :: rest, passes, cur, width =>
    if cur ≠ [] ∧ (maxRows < cur.length + 1 ∨ maxTokens < padded (cur.length + 1) width) then
      packLoop rest (passes ++ [cur]) [i] (length i)
    else packLoop rest passes (cur ++ [i]) (if cur = [] then length i else width)

/-- A pass within the bounds; one row alone may be wider. -/
structure Fits (pass : List Nat) : Prop where
  some : pass ≠ []
  rows : pass.length ≤ max 1 maxRows
  tokens : pass.length = 1 ∨ ∀ i ∈ pass, pass.length * length i ≤ maxTokens

variable {length maxRows maxTokens} {passes : List (List Nat)} {order cur : List Nat}
  {width total : Nat}

theorem packLoop_spec (small : ∀ i, total * length i < 2 ^ 63)
    (few : cur.length + order.length ≤ total)
    (sorted : order.Pairwise fun first second => length second ≤ length first)
    (done : ∀ pass ∈ passes, Fits length maxRows maxTokens pass)
    (now : cur ≠ [] → Fits length maxRows maxTokens cur ∧
      (∀ i ∈ cur ++ order, length i ≤ width) ∧ total * width < 2 ^ 63) :
    let packed := packLoop length maxRows maxTokens order passes cur width
    packed.flatten = passes.flatten ++ (cur ++ order) ∧
      ∀ pass ∈ packed, Fits length maxRows maxTokens pass := by
  induction order generalizing passes cur width with
  | nil =>
    unfold packLoop
    split
    · next none => exact ⟨by simp [none], done⟩
    · next some =>
      exact ⟨by simp, forall_mem_append.mpr ⟨done, forall_mem_singleton.mpr (now some).1⟩⟩
  | cons i rest ih =>
    obtain ⟨below, sorted⟩ := pairwise_cons.mp sorted
    -- the rows come longest first, so none that follows is wider than the first of a pass
    have alone : Fits length maxRows maxTokens [i] ∧
        (∀ j ∈ [i] ++ rest, length j ≤ length i) ∧ total * length i < 2 ^ 63 :=
      ⟨⟨cons_ne_nil i [], le_max_left 1 maxRows, .inl rfl⟩,
        forall_mem_cons.mpr ⟨le_rfl, below⟩, small i⟩
    rw [length_cons] at few
    unfold packLoop
    split
    · next full =>
      have closed := forall_mem_append.mpr ⟨done, forall_mem_singleton.mpr (now full.1).1⟩
      simpa using ih (by rw [length_singleton]; omega) sorted closed fun _ => alone
    next room =>
    have grown : Fits length maxRows maxTokens (cur ++ [i]) ∧
        (∀ j ∈ cur ++ [i] ++ rest, length j ≤ if cur = [] then length i else width) ∧
        total * (if cur = [] then length i else width) < 2 ^ 63 := by
      by_cases none : cur = []
      · subst none
        exact alone
      obtain ⟨within, narrow⟩ := (now none).2
      rw [append_cons] at within
      simp only [not_and_or, not_or, not_not, none, false_or, not_lt] at room
      rw [if_neg none]
      refine ⟨⟨by simp, ?_, .inr fun j listed => ?_⟩, within, narrow⟩ <;> rw [length_append]
      · exact room.1.trans (le_max_right 1 maxRows)
      · have exact : padded (cur.length + 1) width = _ :=
          padded_eq ((Nat.mul_le_mul_right width (by omega)).trans_lt narrow)
        rw [exact] at room
        exact (Nat.mul_le_mul_left _ (within j (mem_append_left _ listed))).trans
          (Int.ofNat_le.mp room.2)
    simpa using ih (by rw [length_append, length_singleton]; omega) sorted done fun _ => grown

end Packing

/-- `sort.SliceStable` on the places, the longest row first. -/
def packPasses (lengths : List Nat) (maxRows maxTokens : Nat) : List (List Nat) :=
  let length (i : Nat) := lengths.getD i 0
  packLoop length maxRows maxTokens
    ((range lengths.length).insertionSort fun i j => length j ≤ length i) [] [] 0

/-- Where the rows padded to the longest one are tokens that an `int` can count, every row is in
one pass, the longest first, and every pass is within the bounds. -/
theorem packPasses_packs (lengths : List Nat) (maxRows maxTokens : Nat)
    (small : ∀ length ∈ lengths, lengths.length * length < 2 ^ 63) :
    (packPasses lengths maxRows maxTokens).flatten.Perm (range lengths.length) ∧
      ((packPasses lengths maxRows maxTokens).flatten.Pairwise fun i j =>
        lengths.getD j 0 ≤ lengths.getD i 0) ∧
      ∀ pass ∈ packPasses lengths maxRows maxTokens,
        Fits (lengths.getD · 0) maxRows maxTokens pass := by
  let longer (i j : Nat) := lengths.getD j 0 ≤ lengths.getD i 0
  have : Std.Total longer := ⟨fun i j => le_total _ _⟩
  have : IsTrans Nat longer := ⟨fun i j k first second => second.trans first⟩
  have everywhere (i : Nat) : lengths.length * lengths.getD i 0 < 2 ^ 63 := by
    rw [getD_eq_getElem?_getD]
    cases found : lengths[i]? with
    | none => simp
    | some length => exact small length (mem_of_getElem? found)
  have sorted := pairwise_insertionSort longer (range lengths.length)
  have packed : (packPasses lengths maxRows maxTokens).flatten =
        (range lengths.length).insertionSort longer ∧ _ :=
    packLoop_spec everywhere (by simp) sorted nofun (absurd rfl)
  rw [packed.1]
  exact ⟨perm_insertionSort _ _, sorted, packed.2⟩

/-- Four rows in passes of at most three rows and twelve tokens. -/
theorem packPasses_packs_four :
    packPasses [2, 6, 5, 3] 3 12 = [[1, 2], [3, 0]] ∧
      ∀ pass ∈ packPasses [2, 6, 5, 3] 3 12, Fits ([2, 6, 5, 3].getD · 0) 3 12 pass :=
  ⟨by decide, (packPasses_packs [2, 6, 5, 3] 3 12 (by decide)).2.2⟩

end Remem.Embedding
