import Remem.Base.Utf8
import Remem.Record.Body
import Remem.Storage.Batch

/-!
# Tenant identifiers

What `tenant.Parse` accepts, and what it reports of the rest.
-/

namespace Remem

open Base Keys

/-- `tenant.validate`: what is wrong with an identifier. -/
def validateIdentifier (bytes : Bytes) (what : String) : Option (String × List Operand) :=
  if bytes.length = 0 then some ("%s must not be empty", [.word what])
  else if maxIdLen < bytes.length then
    some ("%s is %d bytes, the limit is %d", [.word what, .number bytes.length, .number maxIdLen])
  else (bytes.find? fun byte => !identifierByte byte).map fun byte =>
    ("%s %q contains %q; only [a-z0-9_-] is allowed", [.word what, .bytes bytes, .bytes (runeBytes byte)])

/-- `tenant.Parse`. -/
def parseTenant (bytes : Bytes) : Result TenantId :=
  match validateIdentifier bytes "tenant id" with
  | some (format, operands) => .error ⟨.invalid, "tenant.Parse", format, operands⟩
  | none => .ok bytes

end Remem
