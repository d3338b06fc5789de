import Remem.Vector.Row
import Remem.Storage.Frame
import Remem.Keys.Identity

/-!
# Staging vectors

The row of a record's vector inside a transaction.
-/

namespace Remem

open Base Keys Storage

variable {Label : Type}

namespace VectorCodec

variable (codec : VectorCodec)

def stage (tenant : TenantId) (ns : Namespace) (rid : Id) (vector : Vector) : TxM Label Unit := do
  let value ← Result.lift (codec.encode vector)
  Tx.set (Keys.vector tenant ns rid) value

end VectorCodec

end Remem
