import Mathlib

/-!
# Pages that follow one another

A walk asks for a page at a token and goes on at the token that the page names, as long as
the page says that there is more. What the pages show together follows from what one page
shows of what is left at its token.
-/

namespace Remem.Base

variable {Token Item Refusal Rest : Type}

structure Page (Token Item : Type) where
  items : List Item
  hasMore : Bool
  next : Token
  deriving DecidableEq

/-- The pages from a token on, each of its own size; `none` where the fuel runs out first. -/
def followPages (serve : Token → Nat → Except Refusal (Page Token Item)) (sizes : Nat → Nat) :
    (fuel count : Nat) → Token → Option (Except Refusal (List (Page Token Item)))
  | 0, _, _ => none
  | fuel + 1, count, token =>
    match serve token (sizes count) with
    | .error refusal => some (.error refusal)
    | .ok page =>
      if page.hasMore then
        (followPages serve sizes fuel (count + 1) page.next).map (Except.map (page :: ·))
      else some (.ok [page])

/-- What one page does: it shows a part of what is left, is full where there is more, and
leaves less. -/
structure Serves (serve : Token → Nat → Except Refusal (Page Token Item))
    (At : Token → List Rest → Prop) (shown : List Rest → List Item) (size : Nat) : Prop where
  served : ∀ token left, At token left → ∃ page after, serve token size = .ok page ∧
    shown left = page.items ++ shown after ∧
    (page.hasMore = true → At page.next after ∧ after.length < left.length ∧
      page.items.length = size) ∧
    (page.hasMore = false → shown after = [])

theorem followPages_shows {serve : Token → Nat → Except Refusal (Page Token Item)}
    {At : Token → List Rest → Prop} {shown : List Rest → List Item} {sizes : Nat → Nat}
    (serves : ∀ count, Serves serve At shown (sizes count)) {fuel count : Nat} {token : Token}
    {left : List Rest} (start : At token left) (enough : left.length < fuel) :
    ∃ pages, followPages serve sizes fuel count token = some (.ok pages) ∧
      pages.flatMap Page.items = shown left ∧
      (∃ last, pages.getLast? = some last ∧ last.hasMore = false) ∧
      ∀ (index : Nat) (page : Page Token Item), pages[index]? = some page →
        index + 1 < pages.length → page.items.length = sizes (count + index) := by
  induction fuel generalizing count token left with
  | zero => exact absurd enough (Nat.not_lt_zero _)
  | succ fuel ih =>
    obtain ⟨page, after, served, shows, more, done⟩ := (serves count).served token left start
    rw [followPages, served]
    cases hasMore : page.hasMore with
    | false =>
      refine ⟨[page], by simp [hasMore], ?_, ⟨page, rfl, hasMore⟩, ?_⟩
      · simp [shows, done hasMore]
      · intro index other _ notLast
        exact absurd notLast (by simp)
    | true =>
      obtain ⟨goes, less, full⟩ := more hasMore
      obtain ⟨pages, followed, together, ⟨last, isLast, ends⟩, sized⟩ :=
        @ih (count + 1) _ _ goes (by omega)
      refine ⟨page :: pages, by simp [hasMore, followed, Except.map], ?_, ⟨last, ?_, ends⟩, ?_⟩
      · rw [List.flatMap_cons, together, shows]
      · cases pages with
        | nil => cases isLast
        | cons first rest => exact isLast
      intro index other isOther notLast
      cases index with
      | zero =>
        cases isOther
        exact full
      | succ index =>
        have size := sized index other isOther (by simpa using notLast)
        rw [size, Nat.add_right_comm]
        rfl

end Remem.Base
