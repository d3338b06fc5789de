import Mathlib

/-!
# Lists in parts

A list cut into parts of one size.
-/

namespace Remem.Base

variable {Item : Type}

def chunksFrom (size : Nat) : (rounds : Nat) → List Item → List (List Item)
  | 0, _ => []
  | _ + 1, [] => []
  | rounds + 1, items => items.take size :: chunksFrom size rounds (items.drop size)

def chunks (size : Nat) (items : List Item) : List (List Item) :=
  chunksFrom size items.length items

end Remem.Base
