import Remem.Base.Binary

/-!
# Byte strings packed one after the other

A plain encoding of rows of byte strings, with which a model whose encoding is a parameter
can be evaluated: every byte is marked and every string is ended.
-/

namespace Remem.Base

def packBlock : Bytes → Bytes
  | [] => [0]
  | byte :: rest => 1 :: byte :: packBlock rest

def packBlocks (blocks : List Bytes) : Bytes := blocks.flatMap packBlock

def unpackBlocks : Bytes → Option (List Bytes)
  | [] => some []
  | [mark] => if mark = 0 then some [[]] else none
  | mark :: byte :: rest =>
    if mark = 0 then (unpackBlocks (byte :: rest)).map ([] :: ·)
    else match unpackBlocks rest with
      | some (block :: blocks) => some ((byte :: block) :: blocks)
      | _ => none

theorem unpackBlocks_zero (rest : Bytes) :
    unpackBlocks (0 :: rest) = (unpackBlocks rest).map ([] :: ·) := by
  cases rest with
  | nil => rfl
  | cons byte rest => simp [unpackBlocks]

theorem unpackBlocks_append (block rest : Bytes) :
    unpackBlocks (packBlock block ++ rest) = (unpackBlocks rest).map (block :: ·) := by
  induction block with
  | nil => exact unpackBlocks_zero rest
  | cons byte block ih =>
    simp only [packBlock, List.cons_append, unpackBlocks, ih]
    cases unpackBlocks rest <;> rfl

@[simp]
theorem unpackBlocks_packBlocks (blocks : List Bytes) :
    unpackBlocks (packBlocks blocks) = some blocks := by
  induction blocks with
  | nil => rfl
  | cons block blocks ih =>
    rw [packBlocks, List.flatMap_cons, unpackBlocks_append]
    change (unpackBlocks (packBlocks blocks)).map _ = _
    rw [ih]
    rfl

def numberBlock (number : UInt64) : Bytes := bigEndian 8 number.toNat

def ofNumberBlock (block : Bytes) : UInt64 := UInt64.ofNat (ofBigEndian block)

@[simp]
theorem ofNumberBlock_numberBlock (number : UInt64) :
    ofNumberBlock (numberBlock number) = number := by
  rw [ofNumberBlock, numberBlock, ofBigEndian_bigEndian, Nat.mod_eq_of_lt]
  · exact UInt64.ofNat_toNat
  · exact number.toNat_lt

end Remem.Base
