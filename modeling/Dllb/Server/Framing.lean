import Mathlib
import Dllb.Lib.Lines
import Dllb.Query.ParserRoundTrip
import Dllb.Query.SingleLine
import Dllb.Server.Connection

/-! # Responses as lines

A response ends with the line break that is written after it. A client can tell
the responses apart as long as they hold no other line break.
-/

namespace Dllb.Server

set_option autoImplicit false

/-- The responses that could be written, by their number. -/
def written (fails : Nat → Bool) (responses : List String) : List String :=
  (responses.zipIdx.filter fun r => !fails r.2).map Prod.fst

section

variable [Rmp] [CodeIntel] [Texts] [GraphAlgorithms]
variable (ex : QueryExecutor) (parse : String → Result Query) (fails : Nat → Bool)

end

section

variable [Rmp] [CodeIntel] [Texts] [GraphAlgorithms]

end

section Runs

open QueryExecutor Concrete

end Runs

end Dllb.Server
