import Remem.Keys.Isolation

/-!
# Keys determine their arguments

Every component of a key that is followed by another is self-delimiting, so a key
is built from one scope and one list of arguments only.
-/

namespace Remem.Keys

open Base

theorem id_selfDelimiting : SelfDelimiting Id.bytes :=
  selfDelimiting_of_width idLen Id.width fun _ _ => Id.ext

theorem uint16_selfDelimiting : SelfDelimiting uint16 := by
  apply selfDelimiting_of_width 2
  · intro number
    exact length_bigEndian 2 _
  · intro first second equal
    exact UInt16.toNat_inj.mp (bigEndian_inj first.toNat_lt second.toNat_lt equal)

theorem uint32_selfDelimiting : SelfDelimiting uint32 := by
  apply selfDelimiting_of_width 4
  · intro number
    exact length_bigEndian 4 _
  · intro first second equal
    exact UInt32.toNat_inj.mp (bigEndian_inj first.toNat_lt second.toNat_lt equal)

theorem uint64_selfDelimiting : SelfDelimiting uint64 := by
  apply selfDelimiting_of_width 8
  · intro number
    exact length_bigEndian 8 _
  · intro first second equal
    exact UInt64.toNat_inj.mp (bigEndian_inj first.toNat_lt second.toNat_lt equal)

theorem relType_selfDelimiting : SelfDelimiting fun rel : RelType => uint16 rel.code := by
  rintro ⟨first⟩ ⟨second⟩ firstTail secondTail equal
  rcases uint16_selfDelimiting equal with ⟨rfl, tails⟩
  exact ⟨rfl, tails⟩

theorem beginKey_append_inj {tenant otherTenant : TenantId}
    {ns otherNamespace : Namespace} {space otherSpace : Space}
    {remainder otherRemainder : Bytes}
    (equal : beginKey tenant ns space ++ remainder =
      beginKey otherTenant otherNamespace otherSpace ++ otherRemainder) :
    tenant = otherTenant ∧ ns = otherNamespace ∧ space = otherSpace ∧
      remainder = otherRemainder := by
  have delimited := @beginKey_selfDelimiting ((tenant, ns), space)
    ((otherTenant, otherNamespace), otherSpace) remainder otherRemainder equal
  simpa [and_assoc] using delimited

def InSpace (space : Space) (key : Bytes) : Prop :=
  ∃ tenant ns remainder, key = beginKey tenant ns space ++ remainder

theorem inSpace_beginKey (tenant : TenantId) (ns : Namespace) (space : Space)
    (remainder : Bytes) : InSpace space (beginKey tenant ns space ++ remainder) :=
  ⟨tenant, ns, remainder, rfl⟩

theorem InSpace.unique {space other : Space} {key : Bytes} (first : InSpace space key)
    (second : InSpace other key) : space = other := by
  obtain ⟨_, _, _, rfl⟩ := first
  obtain ⟨_, _, _, equal⟩ := second
  exact (beginKey_append_inj equal).2.2.1

theorem edge_tail_inj {anchor otherAnchor far otherFar : Id} {rel otherRel : RelType}
    (equal : anchor.bytes ++ (uint16 rel.code ++ far.bytes) =
      otherAnchor.bytes ++ (uint16 otherRel.code ++ otherFar.bytes)) :
    anchor = otherAnchor ∧ rel = otherRel ∧ far = otherFar := by
  rcases id_selfDelimiting equal with ⟨anchors, rest⟩
  rcases relType_selfDelimiting rest with ⟨rels, fars⟩
  exact ⟨anchors, rels, Id.ext fars⟩

end Remem.Keys
